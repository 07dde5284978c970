import Mathlib.Algebra.Group.Indicator
import Mathlib.Algebra.Group.Pi.Lemmas
import Mathlib.Algebra.BigOperators.Group.List.Basic
import Mathlib.Algebra.Order.Group.Int
import Mathlib.Data.Set.Card
import Mathlib.Tactic.Abel

/-!
# What two sets owe each other

Two systems keep one set each. An element that the first adds or takes out is owed by the second until it has done the
same. The sets differ at no more elements than there are open entries.
-/

namespace PrometheusRing.Ledger

variable {α : Type} {s t : Set α} {a : α}

/-- By how much the first set is ahead of the second. -/
noncomputable def surplus (s t : Set α) : α → ℤ := s.indicator 1 - t.indicator 1

theorem surplus_self (s : Set α) : surplus s s = 0 := sub_self _

theorem mem_symmDiff_iff : a ∈ symmDiff s t ↔ surplus s t a ≠ 0 := by
  by_cases hs : a ∈ s <;> by_cases ht : a ∈ t <;> simp [surplus, Set.mem_symmDiff, hs, ht]

variable [DecidableEq α]

/-- What the entries of a list amount to. -/
def balance (entries : List (α × ℤ)) : α → ℤ := (entries.map fun e => Pi.single e.1 e.2).sum

@[simp] theorem balance_nil : balance ([] : List (α × ℤ)) = 0 := rfl

@[simp] theorem balance_singleton (e : α × ℤ) : balance [e] = Pi.single e.1 e.2 := by simp [balance]

theorem balance_append (es es' : List (α × ℤ)) : balance (es ++ es') = balance es + balance es' := by
  simp [balance]

/-! ## One set changes -/

theorem indicator_insert (h : a ∉ s) : (insert a s).indicator (1 : α → ℤ) = Pi.single a 1 + s.indicator 1 := by
  funext b
  by_cases hb : b = a
  · subst hb
    simp [h]
  · by_cases hs : b ∈ s <;> simp [hb, hs]

theorem indicator_erase (h : a ∈ s) : (s \ {a}).indicator (1 : α → ℤ) = Pi.single a (-1) + s.indicator 1 := by
  have hinsert := @indicator_insert α (s \ {a}) a _ (fun h => h.2 rfl)
  rw [Set.insert_sdiff_self_of_mem h] at hinsert
  rw [hinsert, Pi.single_neg, neg_add_cancel_left]

theorem surplus_insert_left (h : a ∉ s) : surplus (insert a s) t = surplus s t + balance [(a, 1)] := by
  rw [surplus, surplus, indicator_insert h, balance_singleton]
  abel

theorem surplus_erase_left (h : a ∈ s) : surplus (s \ {a}) t = surplus s t + balance [(a, -1)] := by
  rw [surplus, surplus, indicator_erase h, balance_singleton]
  abel

theorem surplus_insert_right (h : a ∉ t) : surplus s (insert a t) + balance [(a, 1)] = surplus s t := by
  rw [surplus, surplus, indicator_insert h, balance_singleton]
  abel

theorem surplus_erase_right (h : a ∈ t) : surplus s (t \ {a}) + balance [(a, -1)] = surplus s t := by
  rw [surplus, surplus, indicator_erase h, balance_singleton]
  abel

/-! ## The bound -/

theorem mem_of_balance_ne {es : List (α × ℤ)} (h : balance es a ≠ 0) : a ∈ es.map Prod.fst := by
  induction es with
  | nil => exact absurd rfl h
  | cons e es ih =>
      rw [List.map_cons, List.mem_cons]
      by_cases he : a = e.1
      · exact Or.inl he
      · refine Or.inr (ih ?_)
        simpa [balance, he] using h

/-- Sets whose surplus is accounted for differ at no more elements than there are entries. -/
theorem encard_symmDiff_le {es : List (α × ℤ)} (h : surplus s t = balance es) : (symmDiff s t).encard ≤ es.length := by
  have hsub : symmDiff s t ⊆ (es.map Prod.fst).toFinset := by
    intro a ha
    rw [mem_symmDiff_iff, h] at ha
    exact List.mem_toFinset.mpr (mem_of_balance_ne ha)
  calc (symmDiff s t).encard
      _ ≤ ((es.map Prod.fst).toFinset : Set α).encard := Set.encard_le_encard hsub
      _ = (es.map Prod.fst).toFinset.card := Set.encard_coe_eq_coe_finsetCard _
      _ ≤ (es.map Prod.fst).length := by exact_mod_cast List.toFinset_card_le _
      _ = es.length := by rw [List.length_map]

end PrometheusRing.Ledger
