import Mathlib.Data.List.Basic

/-!
# Replacing all occurrences of a text

The occurrences of a pattern are found from the left and do not overlap. When the first symbol of the pattern
does not come back in it, two occurrences never overlap anyway, and replacing works piece by piece.
-/

namespace PrometheusRing.Replace

variable {α : Type}

/-! ## Lists of parts -/

variable {x : List α} {ls ls' : List (List α)}

theorem intercalate_append (hne : ls ≠ []) (hne' : ls' ≠ []) :
    x.intercalate (ls ++ ls') = x.intercalate ls ++ x ++ x.intercalate ls' := by
  induction ls with
  | nil => exact absurd rfl hne
  | cons l ls ih =>
      cases ls with
      | nil => simp [List.intercalate_cons_of_ne_nil hne']
      | cons l' ls =>
          rw [List.cons_append, List.cons_append, List.intercalate_cons_cons, ← List.cons_append,
            ih (List.cons_ne_nil _ _), List.intercalate_cons_cons]
          simp

theorem intercalate_modifyHead (hne : ls ≠ []) (y : List α) :
    x.intercalate (ls.modifyHead (y ++ ·)) = y ++ x.intercalate ls := by
  match ls with
  | [] => exact absurd rfl hne
  | [l] => simp
  | l :: l' :: ls => simp [List.intercalate_cons_cons]

theorem length_intercalate (hne : ls ≠ []) :
    (x.intercalate ls).length + x.length = ls.flatten.length + ls.length * x.length := by
  induction ls with
  | nil => exact absurd rfl hne
  | cons l ls ih =>
      cases ls with
      | nil => simp
      | cons l' ls =>
          have hrest := ih (List.cons_ne_nil _ _)
          rw [List.intercalate_cons_cons, List.length_append, List.length_append, List.flatten_cons,
            List.length_append, List.length_cons, Nat.succ_mul]
          omega

/-- Joining texts that are themselves joined with the same separator. -/
theorem intercalate_flatMap {f : List α → List (List α)} (hf : ∀ l, f l ≠ []) :
    x.intercalate (ls.flatMap f) = x.intercalate (ls.map fun l => x.intercalate (f l)) := by
  induction ls with
  | nil => rfl
  | cons l ls ih =>
      cases ls with
      | nil => simp
      | cons l' ls =>
          have hne : (l' :: ls).flatMap f ≠ [] := by simp [hf l']
          rw [List.flatMap_cons, intercalate_append (hf l) hne, ih]
          simp only [List.map_cons, List.intercalate_cons_cons]

theorem intercalate_inj (hlen : ls.map List.length = ls'.map List.length)
    (h : x.intercalate ls = x.intercalate ls') : ls = ls' := by
  induction ls generalizing ls' with
  | nil => exact (List.map_eq_nil_iff.mp hlen.symm).symm
  | cons l ls ih =>
      cases ls' with
      | nil => cases hlen
      | cons l' ls' =>
          obtain ⟨hl, hls⟩ := List.cons.inj hlen
          cases ls with
          | nil =>
              obtain rfl := List.map_eq_nil_iff.mp hls.symm
              simpa using h
          | cons m ls =>
              cases ls' with
              | nil => cases hls
              | cons m' ls' =>
                  rw [List.intercalate_cons_cons, List.intercalate_cons_cons] at h
                  obtain ⟨hfirst, hrest⟩ := List.append_inj h (by simpa using hl)
                  rw [List.append_cancel_right hfirst, ih hls hrest]

theorem length_le_flatMap {f : List α → List (List α)} (hf : ∀ l, f l ≠ []) :
    ls.length ≤ (ls.flatMap f).length := by
  induction ls with
  | nil => exact Nat.zero_le _
  | cons l ls ih =>
      have hpos := List.length_pos_iff.mpr (hf l)
      rw [List.flatMap_cons, List.length_append, List.length_cons]
      omega

theorem length_eq_one_of_flatMap {f : List α → List (List α)} (hf : ∀ l, f l ≠ [])
    (hlen : (ls.flatMap f).length = ls.length) : ∀ l ∈ ls, (f l).length = 1 := by
  induction ls with
  | nil => exact fun l hl => absurd hl List.not_mem_nil
  | cons l ls ih =>
      have hpos := List.length_pos_iff.mpr (hf l)
      have hle : ls.length ≤ (ls.flatMap f).length := length_le_flatMap hf
      rw [List.flatMap_cons, List.length_append, List.length_cons] at hlen
      intro l' hl'
      rcases List.mem_cons.mp hl' with rfl | hl'
      · omega
      · exact ih (by omega) l' hl'

/-- An occurrence that starts before another one ends before it. -/
theorem prefix_append_iff {b : α} {t : List α} (hb : b ∉ t) {y : List α} (hx : x ≠ []) :
    b :: t <+: x ++ (b :: t ++ y) ↔ b :: t <+: x := by
  constructor
  · intro h
    rcases List.prefix_or_prefix_of_prefix h (List.prefix_append x _) with h' | ⟨z, hz⟩
    · exact h'
    · rw [← hz] at h ⊢
      rw [List.prefix_append_right_inj] at h
      obtain ⟨c, x, rfl⟩ := List.exists_cons_of_ne_nil hx
      cases z with
      | nil => simp
      | cons d z =>
          -- the other occurrence starts with the first symbol, which would come back in the pattern
          obtain ⟨rest, hrest⟩ := h
          obtain ⟨rfl, -⟩ := List.cons.inj hrest
          obtain ⟨rfl, htail⟩ := List.cons.inj hz
          exact absurd (by simp [← htail]) hb
  · exact fun h => h.trans (List.prefix_append _ _)

/-! ## Splitting -/

variable [DecidableEq α]

/-- The parts between the occurrences of a nonempty `old`, where the first `skip` symbols belong to an occurrence
found before. -/
def splitFrom (old : List α) : Nat → List α → List (List α)
  | _, [] => [[]]
  | skip + 1, _ :: s => splitFrom old skip s
  | 0, c :: s =>
      if old <+: c :: s then [] :: splitFrom old (old.length - 1) s
      else (splitFrom old 0 s).modifyHead (c :: ·)

def split (old s : List α) : List (List α) := splitFrom old 0 s

/-- The text with all occurrences of a nonempty `old` replaced. -/
def replaceAll (old new s : List α) : List α := new.intercalate (split old s)

def occurrences (old s : List α) : Nat := (split old s).length - 1

variable {old new s : List α} {gs : List (List α)}

theorem splitFrom_ne_nil (skip : Nat) (s : List α) : splitFrom old skip s ≠ [] := by
  induction s generalizing skip with
  | nil => simp [splitFrom]
  | cons c s ih =>
      cases skip with
      | succ skip => exact ih skip
      | zero =>
          rw [splitFrom]
          split
          case isTrue => exact List.cons_ne_nil _ _
          case isFalse => simpa using ih 0

theorem splitFrom_eq_split (skip : Nat) (s : List α) : splitFrom old skip s = split old (s.drop skip) := by
  induction s generalizing skip with
  | nil => simp [split, splitFrom]
  | cons c s ih =>
      cases skip with
      | zero => rfl
      | succ skip => exact ih skip

theorem split_ne_nil (s : List α) : split old s ≠ [] := splitFrom_ne_nil 0 s

section Pattern

-- a nonempty pattern
variable {b : α} {t : List α}

/-- Putting the pattern back between the parts gives the text. -/
theorem intercalate_splitFrom (skip : Nat) (s : List α) :
    (b :: t).intercalate (splitFrom (b :: t) skip s) = s.drop skip := by
  induction s generalizing skip with
  | nil => simp [splitFrom]
  | cons c s ih =>
      cases skip with
      | succ skip => exact ih skip
      | zero =>
          rw [splitFrom]
          split
          case isTrue h =>
              obtain ⟨rest, hrest⟩ := h
              obtain ⟨rfl, rfl⟩ := List.cons.inj hrest
              rw [List.intercalate_cons_of_ne_nil (splitFrom_ne_nil _ _), ih]
              simp
          case isFalse =>
              obtain ⟨l, ls, hl⟩ := List.exists_cons_of_ne_nil (@splitFrom_ne_nil _ _ (b :: t) 0 s)
              have hrec := ih 0
              rw [hl] at hrec ⊢
              rw [List.modifyHead_cons, List.intercalate_cons_cons_left, hrec]
              rfl

theorem intercalate_split (s : List α) : (b :: t).intercalate (split (b :: t) s) = s := intercalate_splitFrom 0 s

theorem splitFrom_append (hb : b ∉ t) {skip : Nat} {x : List α} (hskip : skip ≤ x.length) (y : List α) :
    splitFrom (b :: t) skip (x ++ (b :: t ++ y)) = splitFrom (b :: t) skip x ++ split (b :: t) y := by
  induction x generalizing skip with
  | nil =>
      obtain rfl : skip = 0 := Nat.le_zero.mp hskip
      have hpre : b :: t <+: b :: (t ++ y) := List.prefix_append (b :: t) y
      change (if b :: t <+: b :: (t ++ y) then [] :: splitFrom (b :: t) t.length (t ++ y) else _) = _
      rw [if_pos hpre, splitFrom_eq_split, List.drop_left]
      rfl
  | cons c x ih =>
      cases skip with
      | succ skip => exact ih (Nat.le_of_succ_le_succ hskip)
      | zero =>
          have hpre := prefix_append_iff hb (y := y) (List.cons_ne_nil c x)
          rw [List.cons_append] at hpre ⊢
          rw [splitFrom, splitFrom]
          split
          case isTrue h =>
              have hlen := (hpre.mp h).length_le
              rw [if_pos (hpre.mp h), ih (by simpa using hlen)]
              rfl
          case isFalse h =>
              rw [if_neg fun hc => h (hpre.mpr hc), ih (Nat.zero_le _)]
              obtain ⟨l, ls, hl⟩ := List.exists_cons_of_ne_nil (@splitFrom_ne_nil _ _ (b :: t) 0 x)
              rw [hl]
              rfl

theorem split_append (hb : b ∉ t) (x y : List α) :
    split (b :: t) (x ++ (b :: t ++ y)) = split (b :: t) x ++ split (b :: t) y :=
  splitFrom_append hb (Nat.zero_le _) y

theorem split_intercalate (hb : b ∉ t) (hne : gs ≠ []) :
    split (b :: t) ((b :: t).intercalate gs) = gs.flatMap (split (b :: t)) := by
  induction gs with
  | nil => exact absurd rfl hne
  | cons g gs ih =>
      cases gs with
      | nil => simp
      | cons g' gs =>
          rw [List.intercalate_cons_cons, List.append_assoc, split_append hb, ih (List.cons_ne_nil _ _)]
          simp only [List.flatMap_cons]

end Pattern

/-! ## Replacing -/

section Replacing

variable {b : α} {t : List α}

theorem split_eq_singleton {g : List α} (h : (split (b :: t) g).length = 1) : split (b :: t) g = [g] := by
  obtain ⟨l, hl⟩ := List.length_eq_one_iff.mp h
  have hself := intercalate_split (b := b) (t := t) g
  rw [hl, List.intercalate_singleton] at hself
  rw [hl, hself]

theorem replaceAll_self (s : List α) : replaceAll (b :: t) (b :: t) s = s := intercalate_split s

theorem length_replaceAll (hlen : new.length = (b :: t).length) (g : List α) :
    (replaceAll (b :: t) new g).length = g.length := by
  have hparts : split (b :: t) g ≠ [] := split_ne_nil g
  have hnew := length_intercalate hparts (x := new)
  have hold := length_intercalate hparts (x := b :: t)
  rw [intercalate_split] at hold
  rw [hlen] at hnew
  unfold replaceAll
  omega

/-- A text that replacing leaves as it is has no occurrence, unless the pattern is replaced by itself. -/
theorem eq_of_replaceAll (hlen : new.length = (b :: t).length) {g : List α} (h : replaceAll (b :: t) new g = g)
    (htwo : (split (b :: t) g).length ≠ 1) : new = b :: t := by
  have hself := replaceAll_self (b := b) (t := t) g
  unfold replaceAll at h hself
  match hparts : split (b :: t) g with
  | [] => exact absurd hparts (split_ne_nil g)
  | [l] => rw [hparts] at htwo; exact absurd rfl htwo
  | l :: l' :: ls =>
      rw [hparts, List.intercalate_cons_cons] at h hself
      rw [← hself, List.append_assoc, List.append_assoc] at h
      exact (List.append_inj (List.append_cancel_left h) hlen).1

/-- Replacing the pattern between parts replaces nothing else exactly if it occurs nowhere else, or is replaced
by itself. -/
theorem replaceAll_intercalate_iff (hb : b ∉ t) (hne : gs ≠ []) :
    replaceAll (b :: t) new ((b :: t).intercalate gs) = new.intercalate gs ↔
      new = b :: t ∨ occurrences (b :: t) ((b :: t).intercalate gs) = gs.length - 1 := by
  have hparts : gs.flatMap (split (b :: t)) ≠ [] := by
    rw [← split_intercalate hb hne]
    exact split_ne_nil _
  have hle : gs.length ≤ (gs.flatMap (split (b :: t))).length := length_le_flatMap split_ne_nil
  have hpos := List.length_pos_iff.mpr hne
  have hself : (b :: t).intercalate (gs.flatMap (split (b :: t))) = (b :: t).intercalate gs := by
    rw [← split_intercalate hb hne, intercalate_split]
  rw [occurrences, replaceAll, split_intercalate hb hne]
  constructor
  · intro h
    by_contra hnot
    obtain ⟨hnew, hcount⟩ := not_or.mp hnot
    -- the two texts have the same length, for the pattern and for its replacement
    have hold := length_intercalate hparts (x := b :: t)
    have hold' := length_intercalate hne (x := b :: t)
    have hrepl := length_intercalate hparts (x := new)
    have hrepl' := length_intercalate hne (x := new)
    rw [hself, hold'] at hold
    rw [h, hrepl'] at hrepl
    obtain ⟨k, hk⟩ := Nat.exists_eq_add_of_le hle
    rw [hk, Nat.add_mul] at hold hrepl
    have hlen : new.length = (b :: t).length := Nat.eq_of_mul_eq_mul_left (show 0 < k by omega) (by omega)
    -- so each part is unchanged, although one of them has an occurrence
    rw [intercalate_flatMap split_ne_nil] at h
    have hlens : (gs.map (replaceAll (b :: t) new)).map List.length = gs.map List.length := by
      rw [List.map_map]
      exact List.map_congr_left fun g _ => length_replaceAll hlen g
    have hsame : gs.map (replaceAll (b :: t) new) = gs := intercalate_inj hlens h
    have hone : ∀ g ∈ gs, (split (b :: t) g).length = 1 := by
      intro g hg
      by_contra htwo
      have hfix : replaceAll (b :: t) new g = g :=
        List.map_inj_left.mp (hsame.trans (List.map_id gs).symm) g hg
      exact hnew (eq_of_replaceAll hlen hfix htwo)
    rw [List.flatMap_congr fun g hg => split_eq_singleton (hone g hg)] at hcount
    simp at hcount
  · rintro (rfl | hcount)
    · exact hself
    · have hlen : (gs.flatMap (split (b :: t))).length = gs.length := by omega
      have hone := length_eq_one_of_flatMap split_ne_nil hlen
      congr 1
      rw [List.flatMap_congr fun g hg => split_eq_singleton (hone g hg)]
      simp

end Replacing

end PrometheusRing.Replace
