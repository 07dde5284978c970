import PrometheusRing.Exceptions
import Mathlib.Algebra.Order.Ring.Rat

/-!
# Time literals
-/

namespace PrometheusRing

/-! ## `int` on a string -/

/-- The code points of the digit zero of each decimal digit block. -/
def decimalZeros : List Nat :=
  [0x30, 0x660, 0x6f0, 0x7c0, 0x966, 0x9e6, 0xa66, 0xae6, 0xb66, 0xbe6, 0xc66, 0xce6, 0xd66, 0xde6, 0xe50,
    0xed0, 0xf20, 0x1040, 0x1090, 0x17e0, 0x1810, 0x1946, 0x19d0, 0x1a80, 0x1a90, 0x1b50, 0x1bb0, 0x1c40,
    0x1c50, 0xa620, 0xa8d0, 0xa900, 0xa9d0, 0xa9f0, 0xaa50, 0xabf0, 0xff10, 0x104a0, 0x10d30, 0x11066,
    0x110f0, 0x11136, 0x111d0, 0x112f0, 0x11450, 0x114d0, 0x11650, 0x116c0, 0x11730, 0x118e0, 0x11950,
    0x11c50, 0x11d50, 0x11da0, 0x16a60, 0x16ac0, 0x16b50, 0x1d7ce, 0x1d7d8, 0x1d7e2, 0x1d7ec, 0x1d7f6,
    0x1e140, 0x1e2f0, 0x1e950, 0x1fbf0]

/-- The value of a decimal digit character. -/
def digit? (c : Char) : Option Nat :=
  (decimalZeros.find? (fun z => z ≤ c.toNat ∧ c.toNat < z + 10)).map (c.toNat - ·)

/-- The white space that `int` strips. -/
def isIntSpace (c : Char) : Bool :=
  (0x9 ≤ c.toNat ∧ c.toNat ≤ 0xd) ∨ (0x2000 ≤ c.toNat ∧ c.toNat ≤ 0x200a) ∨
    c.toNat ∈ [0x20, 0x85, 0xa0, 0x1680, 0x2028, 0x2029, 0x202f, 0x205f, 0x3000]

/-- Digits, at least one, with single underscores between them. -/
def digits? : List Char → Option (List Nat)
  | [] => none
  | [c] => (digit? c).map ([·])
  | c :: '_' :: cs => do return (← digit? c) :: (← digits? cs)
  | c :: cs => do return (← digit? c) :: (← digits? cs)

/-- More digits than this are refused. -/
def intMaxStrDigits : Nat := 4300

/-- An unsigned number. -/
def natural? (cs : List Char) : Option Int := do
  let ds ← digits? cs
  if ds.length ≤ intMaxStrDigits then some (ds.foldl (fun n d => 10 * n + d) 0 : Nat) else none

/-- `int(text)` -/
def int? (text : List Char) : Option Int :=
  match ((text.dropWhile isIntSpace).reverse.dropWhile isIntSpace).reverse with
  | '+' :: cs => natural? cs
  | '-' :: cs => (natural? cs).map (- ·)
  | cs => natural? cs

/-! ## `_time_literal_to_secs` -/

def timeUnits : List (String × Rat) :=
  [("ms", 1 / 1000), ("s", 1), ("m", 60), ("h", 3600), ("d", 86400), ("w", 604800), ("y", 31536000)]

/-- `text.split(sep)[0]`: what stands before the first `sep`. -/
def splitHead (sep : List Char) : List Char → List Char
  | [] => []
  | c :: cs => if sep.isPrefixOf (c :: cs) then [] else c :: splitHead sep cs

/-- An integer from here on is rounded to no finite double. -/
def floatLimit : Nat := 2 ^ 1024 - 2 ^ 970

/-- The seconds of a time literal, as an exact number. The factor of milliseconds is the only float among the
units, so with it the number has to fit a float. -/
def timeLiteralToSecs (timeLiteral : String) : Except Exn Rat :=
  match timeUnits.find? (fun u => u.1.toList.isSuffixOf timeLiteral.toList) with
  | none => .error (.invalidTimeLiteralError s!"Invalid time literal {timeLiteral}")
  | some (unit, secs) =>
      let head := splitHead unit.toList timeLiteral.toList
      match int? head with
      | none => .error (.valueError (String.ofList head))
      | some integerPart =>
          if unit = "ms" ∧ floatLimit ≤ integerPart.natAbs then .error .overflowError else .ok (integerPart * secs)

end PrometheusRing
