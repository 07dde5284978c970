import Mathlib.Algebra.Order.BigOperators.Group.List
import Mathlib.Algebra.Order.Ring.Nat
import Mathlib.Algebra.GroupWithZero.Action.Defs
import Mathlib.Data.List.Nodup
import Mathlib.Data.Nat.Find

/-!
# The mean of a list of naturals, rounded down

The mean lies between the least and the greatest member. For distinct members it is the least one only when
no member is more than one above it.
-/

namespace PrometheusRing

def mean (l : List Nat) : Nat := l.sum / l.length

namespace Mean

variable {l : List Nat} {c : Nat}

theorem le_mean (hne : l ≠ []) (h : ∀ a ∈ l, c ≤ a) : c ≤ mean l := by
  rw [mean, Nat.le_div_iff_mul_le (List.length_pos_iff.mpr hne), mul_comm]
  exact List.card_nsmul_le_sum l c h

theorem mean_lt_iff (hne : l ≠ []) : mean l < c ↔ l.sum < c * l.length :=
  Nat.div_lt_iff_lt_mul (List.length_pos_iff.mpr hne)

theorem exists_le_mean (hne : l ≠ []) : ∃ a ∈ l, a ≤ mean l := by
  by_contra hn
  push Not at hn
  exact absurd (le_mean hne hn) (Nat.not_succ_le_self _)

theorem exists_mean_le (hne : l ≠ []) : ∃ a ∈ l, mean l ≤ a := by
  by_contra hn
  push Not at hn
  have hpos := List.length_pos_iff.mpr hne
  have hlt : l.sum < mean l * l.length := by
    have hsum := List.sum_lt_sum_of_ne_nil hne id (fun _ => mean l) hn
    simpa [mul_comm] using hsum
  exact absurd (Nat.div_mul_le_self l.sum l.length) (not_le.mpr hlt)

theorem sum_succ_ge (hnd : l.Nodup) (h : ∀ a ∈ l, c ≤ a) : (c + 1) * l.length ≤ l.sum + 1 := by
  induction l with
  | nil => simp
  | cons a l ih =>
      obtain ⟨ha, hnd⟩ := List.nodup_cons.mp hnd
      have hl : ∀ b ∈ l, c ≤ b := fun b hb => h b (List.mem_cons_of_mem a hb)
      rw [List.sum_cons, List.length_cons, mul_add, mul_one]
      rcases (h a List.mem_cons_self).eq_or_lt with rfl | hca
      · -- no other member is `c`
        have hgt : ∀ b ∈ l, c + 1 ≤ b := fun b hb => lt_of_le_of_ne (hl b hb) fun he => ha (he ▸ hb)
        have hsum := List.card_nsmul_le_sum l (c + 1) hgt
        rw [smul_eq_mul, mul_comm] at hsum
        omega
      · have := ih hnd hl
        omega

/-- The mean of distinct members from `c` on is `c` exactly when `c` is a member and none is beyond `c + 1`. -/
theorem mean_eq_iff (hne : l ≠ []) (hnd : l.Nodup) (h : ∀ a ∈ l, c ≤ a) :
    mean l = c ↔ c ∈ l ∧ ∀ a ∈ l, a ≤ c + 1 := by
  have hle := le_mean hne h
  rw [show mean l = c ↔ mean l < c + 1 by omega, mean_lt_iff hne]
  constructor
  · intro hlt
    refine ⟨?_, fun a ha => ?_⟩
    · by_contra hc
      have hgt : ∀ b ∈ l, c + 1 ≤ b := fun b hb => lt_of_le_of_ne (h b hb) fun he => hc (he ▸ hb)
      have hsum := List.card_nsmul_le_sum l (c + 1) hgt
      rw [smul_eq_mul, mul_comm] at hsum
      omega
    · by_contra hgt
      -- without `a` the members still weigh at least `c + 1` each, but for one
      have hrest := sum_succ_ge (hnd.erase a) fun b hb => h b (List.mem_of_mem_erase hb)
      have hsum := List.sum_erase ha
      have hlen := List.length_erase_add_one ha
      rw [← hlen, mul_add, mul_one, ← hsum] at hlt
      omega
  · rintro ⟨hc, hup⟩
    have hrest := List.sum_le_card_nsmul (l.erase c) (c + 1) fun b hb => hup b (List.mem_of_mem_erase hb)
    have hsum := List.sum_erase hc
    have hlen := List.length_erase_add_one hc
    rw [smul_eq_mul, mul_comm] at hrest
    rw [← hlen, mul_add, mul_one, ← hsum]
    omega

/-- Distinct members: either one is below the mean, or all of them are the mean or its successor. -/
theorem lt_or_close (hne : l ≠ []) (hnd : l.Nodup) :
    (∃ a ∈ l, a < mean l) ∨ mean l ∈ l ∧ ∀ a ∈ l, mean l ≤ a ∧ a ≤ mean l + 1 := by
  by_cases h : ∀ a ∈ l, mean l ≤ a
  · obtain ⟨hmem, hup⟩ := (mean_eq_iff hne hnd h).mp rfl
    exact Or.inr ⟨hmem, fun a ha => ⟨h a ha, hup a ha⟩⟩
  · push Not at h
    exact Or.inl h

/-! ## How many members lie on either side -/

/-- No two members are more than one apart. -/
def Close (l : List Nat) : Prop := ∀ a ∈ l, ∀ b ∈ l, a ≤ b + 1

instance : DecidablePred Close := fun l => inferInstanceAs (Decidable (∀ a ∈ l, ∀ b ∈ l, a ≤ b + 1))

theorem close_iff (hne : l ≠ []) (hnd : l.Nodup) : Close l ↔ ∀ a ∈ l, mean l ≤ a := by
  constructor
  · intro hclose
    have hex : ∃ c, c ∈ l := List.exists_mem_of_ne_nil l hne
    have hmin : ∀ a ∈ l, Nat.find hex ≤ a := fun a ha => Nat.find_min' hex ha
    have hmem := Nat.find_spec hex
    rw [(mean_eq_iff hne hnd hmin).mpr ⟨hmem, fun a ha => hclose a ha _ hmem⟩]
    exact hmin
  · intro hmean a ha b hb
    have hup := ((mean_eq_iff hne hnd hmean).mp rfl).2 a ha
    have hlow := hmean b hb
    omega

theorem countP_lt_mean (hne : l ≠ []) : l.countP (· < mean l) < l.length := by
  refine lt_of_le_of_ne List.countP_le_length fun he => ?_
  obtain ⟨b, hb, hle⟩ := exists_mean_le hne
  have hlt := List.countP_eq_length.mp he b hb
  simp only [decide_eq_true_eq] at hlt
  omega

theorem countP_mean_le_eq (hne : l ≠ []) (hnd : l.Nodup) :
    l.countP (mean l ≤ ·) = l.length ↔ Close l := by
  rw [List.countP_eq_length, close_iff hne hnd]
  simp

end Mean

end PrometheusRing
