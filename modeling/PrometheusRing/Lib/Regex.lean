import Mathlib.Data.List.Infix

/-!
# Regular expressions of single characters and stars

The part of the pattern language in which a pattern is a row of characters, each itself or any one (`.`), and
each possibly repeated (`*`). A match is a match of the whole text.
-/

namespace PrometheusRing

inductive Regex.Atom where
  | any
  | char (c : Char)

/-- `.` stands for every character but a line break. -/
def Regex.Atom.accepts : Atom → Char → Bool
  | any, c => c ≠ '\n'
  | char d, c => c = d

structure Regex.Item where
  atom : Regex.Atom
  starred : Bool := false

abbrev Regex := List Regex.Item

namespace Regex

/-- The characters that do not stand for themselves. -/
def isMeta (c : Char) : Bool := c ∈ "\\.+*?()[]\x7b\x7d|^$".toList

def atom? (c : Char) : Option Atom :=
  if c = '.' then some .any else if isMeta c then none else some (.char c)

/-- Read a pattern, if it has no other operator than `.` and `*`. -/
def parse : List Char → Option Regex
  | [] => some []
  | [c] => (atom? c).map fun a => [{ atom := a }]
  | c :: '*' :: cs => do return { atom := ← atom? c, starred := true } :: (← parse cs)
  | c :: cs => do return { atom := ← atom? c } :: (← parse cs)

/-- Some accepted characters, and then what `next` wants. -/
def star (ok : Char → Bool) (next : List Char → Bool) : List Char → Bool
  | [] => next []
  | c :: cs => next (c :: cs) || (ok c && star ok next cs)

def fullMatch : Regex → List Char → Bool
  | [], cs => cs.isEmpty
  | { atom, starred := true } :: r, cs => star atom.accepts (fullMatch r) cs
  | { atom, starred := false } :: r, cs =>
      match cs with
      | [] => false
      | c :: cs => atom.accepts c && fullMatch r cs

/-- The pattern of a text without operators. -/
def literal (w : List Char) : Regex := w.map fun c => { atom := .char c }

/-- `.*` -/
def anything : Item := { atom := .any, starred := true }

/-! ## Reading -/

theorem atom?_of_not_isMeta {c : Char} (hc : ¬ isMeta c) : atom? c = some (.char c) := by
  have hdot : c ≠ '.' := by
    rintro rfl
    exact hc (by decide)
  simp [atom?, hdot, hc]

theorem parse_literal_append {w rest : List Char} (hw : ∀ c ∈ w, ¬ isMeta c) (hrest : rest.head? ≠ some '*') :
    parse (w ++ rest) = (parse rest).map (literal w ++ ·) := by
  induction w with
  | nil => simp [literal]
  | cons c w ih =>
      have hc := atom?_of_not_isMeta (hw c List.mem_cons_self)
      have hw' : ∀ d ∈ w, ¬ isMeta d := fun d hd => hw d (List.mem_cons_of_mem _ hd)
      rw [List.cons_append]
      cases hcs : w ++ rest with
      | nil =>
          obtain ⟨rfl, rfl⟩ := List.append_eq_nil_iff.mp hcs
          simp [parse, hc, literal]
      | cons d ds =>
          have hd : d ≠ '*' := by
            rintro rfl
            cases w with
            | nil => exact hrest (by simp at hcs; simp [hcs])
            | cons e w =>
                obtain ⟨rfl, -⟩ := List.cons.inj hcs
                exact hw' '*' List.mem_cons_self (by decide)
          have hnext := ih hw'
          rw [hcs] at hnext
          rw [parse]
          · rw [hnext, hc]
            cases parse rest <;> simp [literal]
          · simp
          · intro cs heq
            exact hd (List.cons.inj heq).1

/-! ## Matching -/

theorem star_iff {ok : Char → Bool} {next : List Char → Bool} {cs : List Char} :
    star ok next cs ↔ ∃ a b, cs = a ++ b ∧ (∀ c ∈ a, ok c) ∧ next b := by
  induction cs with
  | nil =>
      rw [star]
      constructor
      · intro h
        exact ⟨[], [], rfl, by simp, h⟩
      · rintro ⟨a, b, hab, -, hb⟩
        obtain ⟨rfl, rfl⟩ := List.append_eq_nil_iff.mp hab.symm
        exact hb
  | cons c cs ih =>
      rw [star, Bool.or_eq_true, Bool.and_eq_true, ih]
      constructor
      · rintro (h | ⟨hc, a, b, rfl, ha, hb⟩)
        · exact ⟨[], c :: cs, rfl, by simp, h⟩
        · exact ⟨c :: a, b, rfl, by simpa using ⟨hc, ha⟩, hb⟩
      · rintro ⟨a, b, hab, ha, hb⟩
        cases a with
        | nil => exact Or.inl (hab ▸ hb)
        | cons d a =>
            obtain ⟨rfl, rfl⟩ := List.cons.inj hab
            exact Or.inr ⟨ha c List.mem_cons_self, a, b, rfl, fun e he => ha e (List.mem_cons_of_mem _ he), hb⟩

theorem fullMatch_literal_append {w : List Char} {r : Regex} {cs : List Char} :
    fullMatch (literal w ++ r) cs ↔ ∃ b, cs = w ++ b ∧ fullMatch r b := by
  induction w generalizing cs with
  | nil => simp [literal]
  | cons c w ih =>
      cases cs with
      | nil => simp [literal, fullMatch]
      | cons d cs =>
          have hstep : fullMatch (literal (c :: w) ++ r) (d :: cs) ↔ d = c ∧ fullMatch (literal w ++ r) cs := by
            simp [literal, fullMatch, Atom.accepts]
          rw [hstep, ih]
          simp only [List.cons_append, List.cons.injEq]
          constructor
          · rintro ⟨rfl, b, rfl, hb⟩
            exact ⟨b, ⟨rfl, rfl⟩, hb⟩
          · rintro ⟨b, ⟨rfl, rfl⟩, hb⟩
            exact ⟨rfl, b, rfl, hb⟩

/-- A pattern without operators matches itself only. -/
theorem fullMatch_literal {w cs : List Char} : fullMatch (literal w) cs ↔ cs = w := by
  rw [← List.append_nil (literal w), fullMatch_literal_append]
  simp [fullMatch]

/-- With `.*` on both sides a pattern matches the texts it occurs in. -/
theorem fullMatch_anything_literal_anything {w cs : List Char} (hcs : '\n' ∉ cs) :
    fullMatch (anything :: (literal w ++ [anything])) cs ↔ w <:+: cs := by
  have hany {b : List Char} : fullMatch [anything] b ↔ ∀ c ∈ b, c ≠ '\n' := by
    rw [anything, fullMatch, star_iff]
    simp [fullMatch, Atom.accepts]
  rw [anything, fullMatch, star_iff, ← anything]
  simp only [fullMatch_literal_append, hany]
  constructor
  · rintro ⟨a, -, rfl, -, b, rfl, -⟩
    exact ⟨a, b, by simp⟩
  · rintro ⟨a, b, rfl⟩
    refine ⟨a, w ++ b, by simp, fun c hc => ?_, b, rfl, fun c hc => ?_⟩
    · simp only [Atom.accepts, ne_eq, decide_eq_true_eq]
      rintro rfl
      exact hcs (by simp [hc])
    · rintro rfl
      exact hcs (by simp [hc])

end Regex

end PrometheusRing
