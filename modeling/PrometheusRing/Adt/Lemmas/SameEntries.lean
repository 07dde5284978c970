import PrometheusRing.Adt.Routing

/-!
# Containers with the same entries

Two containers that hold one value under each index, and the same ones, answer every query alike. Adding a
value under an index that is free in both and removing one cleanly from both keep them so.
-/

namespace PrometheusRing

open AbstractDataType

variable {σ τ ν : Type} [AbstractDataType σ ν] [Routing σ] [AbstractDataType τ ν] [Routing τ]

/-- The two containers hold the same values under the same indices, and no two values under one index. -/
structure SameEntries (a : σ) (b : τ) : Prop where
  left : Routing.Valid a
  right : Routing.Valid b
  entry : ∀ i v, Routing.Entry a i v ↔ Routing.Entry b i v
  value_unique : ∀ i v w, Routing.Entry a i v → Routing.Entry a i w → v = w

namespace SameEntries

open Routing

variable {a : σ} {b : τ} {i m : Nat} {d p v : ν}

theorem seed (v : ν) : SameEntries (insert (empty : σ) 0 v) (insert (empty : τ) 0 v) where
  left := valid_seed v
  right := valid_seed v
  entry i w := by rw [entry_seed, entry_seed]
  value_unique i w w' hw hw' := by
    obtain ⟨-, rfl⟩ := entry_seed.mp hw
    exact (entry_seed.mp hw').2.symm

/-! ## Queries -/

theorem mem_list (h : SameEntries a b) : v ∈ list a ↔ v ∈ list b := by
  rw [Routing.mem_list h.left, Routing.mem_list h.right]
  exact exists_congr fun i => h.entry i v

theorem owner_eq (h : SameEntries a b) (x : Nat) : owner a x = owner b x := by
  obtain ⟨v, hv⟩ := owner_total x h.left
  obtain ⟨w, hw⟩ := owner_total x h.right
  obtain ⟨i, hi, hix, hmax⟩ := owner_greatest h.left hv
  obtain ⟨j, hj, hjx, hmax'⟩ := owner_greatest h.right hw
  -- the two values have the same index
  have hij : i = j := le_antisymm (hmax' i v ((h.entry i v).mp hi) hix) (hmax j w ((h.entry j w).mpr hj) hjx)
  subst hij
  rw [hv, hw, h.value_unique i v w hi ((h.entry i w).mpr hj)]

theorem findMaxSmallerThan_eq (h : SameEntries a b) (i : Nat) :
    findMaxSmallerThan a i = findMaxSmallerThan b i := by
  cases i with
  | zero => rw [findMaxSmallerThan_zero h.left, findMaxSmallerThan_zero h.right]
  | succ x => exact h.owner_eq x

theorem search_eq (h : SameEntries a b) (i : Nat) : search a i = search b i := by
  cases hv : search a i with
  | some v =>
      have hi := entry_of_search h.left hv
      obtain ⟨w, hw⟩ := search_of_entry h.right ((h.entry i v).mp hi)
      rw [hw, h.value_unique i v w hi ((h.entry i w).mpr (entry_of_search h.right hw))]
  | none =>
      cases hw : search b i with
      | none => rfl
      | some w =>
          obtain ⟨v, hv'⟩ := search_of_entry h.left ((h.entry i w).mpr (entry_of_search h.right hw))
          rw [hv] at hv'; cases hv'

/-! ## Changes -/

theorem insert (h : SameEntries a b) (hv : v ∉ list a) (hm : ∀ w, ¬ Entry a m w) :
    SameEntries (insert a m v) (insert b m v) where
  left := valid_insert m h.left hv
  right := valid_insert m h.right fun hb => hv (h.mem_list.mpr hb)
  entry i w := by
    constructor
    · intro he
      rcases entry_of_insert h.left he with ⟨rfl, rfl⟩ | he
      · exact entry_insert_self i h.right
      · have hne : i ≠ m := fun him => hm w (him ▸ he)
        exact entry_insert_of_ne v h.right hne ((h.entry i w).mp he)
    · intro he
      rcases entry_of_insert h.right he with ⟨rfl, rfl⟩ | he
      · exact entry_insert_self i h.left
      · have he' := (h.entry i w).mpr he
        have hne : i ≠ m := fun him => hm w (him ▸ he')
        exact entry_insert_of_ne v h.left hne he'
  value_unique i w w' hw hw' := by
    rcases entry_of_insert h.left hw with ⟨him, rfl⟩ | hold
    · rcases entry_of_insert h.left hw' with ⟨-, rfl⟩ | hold'
      · rfl
      · exact absurd (him ▸ hold') (hm w')
    · rcases entry_of_insert h.left hw' with ⟨him, rfl⟩ | hold'
      · exact absurd (him ▸ hold) (hm w)
      · exact h.value_unique i w w' hold hold'

theorem remove (h : SameEntries a b) (hca : Clean a i) (hcb : Clean b i) (hd : search a i = some d)
    (hp : findMaxSmallerThan a i = some p) : SameEntries (remove a i) (remove b i) where
  left := valid_remove h.left hd hp
  right := valid_remove h.right (h.search_eq i ▸ hd) (h.findMaxSmallerThan_eq i ▸ hp)
  entry j w := by
    rw [entry_remove h.left hca hd hp,
      entry_remove h.right hcb (h.search_eq i ▸ hd) (h.findMaxSmallerThan_eq i ▸ hp), h.entry]
  value_unique j w w' hw hw' := by
    rw [entry_remove h.left hca hd hp] at hw hw'
    exact h.value_unique j w w' hw.1 hw'.1

end SameEntries

end PrometheusRing
