import PrometheusRing.Node.TimeLiteral
import Mathlib.Data.List.TakeWhile

/-!
# What a time literal may be

The grammar is one run of ASCII digits and one unit. The code looks at the end of the text for the unit, cuts
the text at the unit's first occurrence and leaves the rest to `int`.
-/

namespace PrometheusRing

/-- The text is a number followed by a unit. -/
structure Literal (s : String) (ds : List Char) (u : String × Rat) : Prop where
  text : s.toList = ds ++ u.1.toList
  ne_nil : ds ≠ []
  digits : ∀ c ∈ ds, c.isDigit
  unit : u ∈ timeUnits

/-- The number that a run of digits denotes. -/
def decimal (ds : List Char) : Nat := ds.foldl (fun n c => 10 * n + (c.toNat - '0'.toNat)) 0

/-- A literal has its value, and everything else is refused as no literal. -/
def FollowsGrammar (s : String) : Prop :=
  (∀ ds u, Literal s ds u → timeLiteralToSecs s = .ok (decimal ds * u.2)) ∧
    ((∀ ds u, ¬ Literal s ds u) →
      timeLiteralToSecs s = .error (.invalidTimeLiteralError s!"Invalid time literal {s}"))

/-! ## `int` on digits -/

theorem toNat_of_isDigit {c : Char} (hc : c.isDigit) : 48 ≤ c.toNat ∧ c.toNat ≤ 57 :=
  Char.isDigit_iff_toNat.mp hc

theorem digit?_of_isDigit {c : Char} (hc : c.isDigit) : digit? c = some (c.toNat - '0'.toNat) := by
  obtain ⟨hlo, hhi⟩ := toNat_of_isDigit hc
  have hfirst : decimalZeros.find? (fun z => z ≤ c.toNat ∧ c.toNat < z + 10) = some 0x30 := by
    rw [decimalZeros, List.find?_cons_of_pos]
    simp only [decide_eq_true_eq]
    omega
  rw [digit?, hfirst]
  rfl

theorem dropWhile_isIntSpace_of_digits {ds : List Char} (hds : ∀ c ∈ ds, c.isDigit) :
    ds.dropWhile isIntSpace = ds := by
  rw [List.dropWhile_eq_self_iff]
  intro hl
  obtain ⟨hlo, hhi⟩ := toNat_of_isDigit (hds _ (List.getElem_mem hl))
  simp only [isIntSpace, decide_eq_true_eq, List.mem_cons, List.not_mem_nil, or_false]
  omega

theorem digits?_of_digits {ds : List Char} (hne : ds ≠ []) (hds : ∀ c ∈ ds, c.isDigit) :
    digits? ds = some (ds.map (fun c => c.toNat - '0'.toNat)) := by
  induction ds with
  | nil => exact absurd rfl hne
  | cons c ds ih =>
      have hc := digit?_of_isDigit (hds c List.mem_cons_self)
      cases ds with
      | nil => simp [digits?, hc]
      | cons d ds =>
          have hd : d ≠ '_' := by
            rintro rfl
            exact absurd (hds '_' (by simp)) (by decide)
          have hrest := ih (by simp) fun b hb => hds b (List.mem_cons_of_mem _ hb)
          rw [digits?]
          · simp [hc, hrest]
          · simp
          · intro cs hcs
            exact hd (List.cons.inj hcs).1

/-- On a run of digits only the limit on their number can make `int` fail. -/
theorem int?_of_digits {ds : List Char} (hne : ds ≠ []) (hds : ∀ c ∈ ds, c.isDigit) :
    int? ds = if ds.length ≤ intMaxStrDigits then some (decimal ds : Int) else none := by
  have hsigned : ∀ c ∈ ds, c ≠ '+' ∧ c ≠ '-' := by
    intro c hc
    constructor <;> rintro rfl <;> exact absurd (hds _ hc) (by decide)
  have hnatural : natural? ds = if ds.length ≤ intMaxStrDigits then some (decimal ds : Int) else none := by
    rw [natural?, digits?_of_digits hne hds]
    simp [decimal, List.foldl_map]
  rw [int?, dropWhile_isIntSpace_of_digits hds,
    dropWhile_isIntSpace_of_digits (by simpa using hds), List.reverse_reverse]
  split
  · exact absurd rfl (hsigned '+' (by simp)).1
  · exact absurd rfl (hsigned '-' (by simp)).2
  · exact hnatural

/-! ## The unit -/

theorem splitHead_append {unit ds : List Char} (hunit : unit ≠ []) (hds : ∀ c ∈ ds, c ∉ unit) :
    splitHead unit (ds ++ unit) = ds := by
  induction ds with
  | nil =>
      cases unit with
      | nil => exact absurd rfl hunit
      | cons u us => simp [splitHead]
  | cons c ds ih =>
      have hprefix : unit.isPrefixOf (c :: (ds ++ unit)) = false := by
        cases unit with
        | nil => exact absurd rfl hunit
        | cons u us =>
            have huc : u ≠ c := fun h => hds c List.mem_cons_self (by simp [h])
            simp [List.isPrefixOf, huc]
      rw [List.cons_append, splitHead, hprefix]
      simpa using ih fun b hb => hds b (List.mem_cons_of_mem _ hb)

/-- No unit is empty or has a digit in it. -/
theorem timeUnits_no_digit : ∀ u ∈ timeUnits, u.1.toList ≠ [] ∧ ∀ c ∈ u.1.toList, c.isDigit = false := by
  simp [timeUnits]

theorem Literal.find_unit {s : String} {ds : List Char} {u : String × Rat} (h : Literal s ds u) :
    timeUnits.find? (fun u => u.1.toList.isSuffixOf s.toList) = some u := by
  obtain ⟨es, d, rfl⟩ : ∃ es d, ds = es ++ [d] :=
    ⟨ds.dropLast, ds.getLast h.ne_nil, (List.dropLast_concat_getLast h.ne_nil).symm⟩
  -- the one unit that ends another is `s`, and no digit makes `ms` of it
  have hd : 'm' ≠ d := by
    rintro rfl
    exact absurd (h.digits 'm' (by simp)) (by decide)
  have hunit := h.unit
  rw [h.text]
  simp only [timeUnits, List.mem_cons, List.not_mem_nil, or_false] at hunit
  rcases hunit with rfl | rfl | rfl | rfl | rfl | rfl | rfl <;>
    simp [timeUnits, List.isSuffixOf, List.isPrefixOf, hd]

theorem Literal.splitHead {s : String} {ds : List Char} {u : String × Rat} (h : Literal s ds u) :
    splitHead u.1.toList s.toList = ds := by
  obtain ⟨hne, hno⟩ := timeUnits_no_digit u h.unit
  rw [h.text]
  refine splitHead_append hne fun c hc hcu => ?_
  have hc' := h.digits c hc
  rw [hno c hcu] at hc'
  cases hc'

/-- The number is one that the code can take: `int` takes the digits, and a number of milliseconds fits a float. -/
def Fits (ds : List Char) (u : String × Rat) : Prop :=
  ds.length ≤ intMaxStrDigits ∧ (u.1 = "ms" → decimal ds < floatLimit)

theorem Literal.secs {s : String} {ds : List Char} {u : String × Rat} (h : Literal s ds u) :
    timeLiteralToSecs s =
      if ds.length ≤ intMaxStrDigits then
        if u.1 = "ms" ∧ floatLimit ≤ decimal ds then .error .overflowError else .ok (decimal ds * u.2)
      else .error (.valueError (String.ofList ds)) := by
  rw [timeLiteralToSecs, h.find_unit]
  simp only [h.splitHead, int?_of_digits h.ne_nil h.digits]
  by_cases hlen : ds.length ≤ intMaxStrDigits
  · simp only [hlen, ↓reduceIte]
    rfl
  · simp only [hlen, ↓reduceIte]

theorem Literal.secs_eq_ok_iff {s : String} {ds : List Char} {u : String × Rat} (h : Literal s ds u) :
    timeLiteralToSecs s = .ok (decimal ds * u.2) ↔ Fits ds u := by
  rw [h.secs, Fits, ← Nat.not_le, ← not_and]
  by_cases hlen : ds.length ≤ intMaxStrDigits
  · by_cases hfloat : u.1 = "ms" ∧ floatLimit ≤ decimal ds
    · simp [hlen, hfloat]
    · simp only [hlen, hfloat, ↓reduceIte, not_false_eq_true, and_self]
  · simp [hlen]

/-- The code follows the grammar on a text exactly if the text has no unit at its end, or is a literal with at
most as many digits as `int` takes and, in milliseconds, with a number that fits a float. -/
theorem timeLiteralToSecs_follows_grammar (s : String) :
    FollowsGrammar s ↔
      (∀ u ∈ timeUnits, ¬ u.1.toList.isSuffixOf s.toList) ∨ ∃ ds u, Literal s ds u ∧ Fits ds u := by
  constructor
  · intro h
    by_contra hno
    push Not at hno
    obtain ⟨hunit, hlarge⟩ := hno
    have hfind : (timeUnits.find? (fun u => u.1.toList.isSuffixOf s.toList)).isSome :=
      List.find?_isSome.mpr hunit
    obtain ⟨u, hu⟩ := Option.isSome_iff_exists.mp hfind
    by_cases hlit : ∃ ds u, Literal s ds u
    · obtain ⟨ds, u, hlit⟩ := hlit
      exact hlarge ds u hlit (hlit.secs_eq_ok_iff.mp (h.1 ds u hlit))
    · -- a unit was found, so the error is not the one about the literal
      push Not at hlit
      have herr := h.2 hlit
      rw [timeLiteralToSecs, hu] at herr
      simp only at herr
      split at herr
      · cases herr
      · split at herr <;> cases herr
  · rintro (hnone | ⟨ds, u, hlit, hfits⟩)
    · have hfind : timeUnits.find? (fun u => u.1.toList.isSuffixOf s.toList) = none :=
        List.find?_eq_none.mpr hnone
      refine ⟨fun ds u hlit => ?_, fun _ => by rw [timeLiteralToSecs, hfind]⟩
      rw [hlit.find_unit] at hfind
      cases hfind
    · refine ⟨fun es w hlit' => ?_, fun hnot => absurd hlit (hnot ds u)⟩
      obtain rfl : u = w := by
        have hsame := hlit.find_unit.symm.trans hlit'.find_unit
        exact Option.some.inj hsame
      obtain rfl : ds = es := hlit.splitHead.symm.trans hlit'.splitHead
      exact hlit.secs_eq_ok_iff.mpr hfits

/-- A duration of two parts ends in a unit, but `int` fails on what stands before its first occurrence. -/
theorem timeLiteral_value_error : ¬ ∀ s, FollowsGrammar s := by
  intro h
  have hbad : ∀ ds u, ¬ Literal "1h30m" ds u := by
    intro ds u hlit
    obtain rfl : u = ("m", 60) := Option.some.inj (hlit.find_unit.symm.trans rfl)
    obtain rfl : ds = ['1', 'h', '3', '0'] := hlit.splitHead.symm.trans rfl
    exact absurd (hlit.digits 'h' (by simp)) (by decide)
  have herr := (h "1h30m").2 hbad
  revert herr
  decide

end PrometheusRing
