import PrometheusRing.Adt.AbstractDataType

/-!
# What the ring needs of its container

The ring starts a container with one value under index 0, adds values that are not in it yet, and removes
indices that have a value below them. `Routing` says what these steps do to the value that answers for a
hash. Ordered maps meet it, and so does the search tree with its `remove` as it is.
-/

namespace PrometheusRing

open AbstractDataType

/-- The value with the greatest index at most `h`: the argument of `find_max_smaller_than` is `h + 1`. -/
def owner {σ ν : Type} [AbstractDataType σ ν] (a : σ) (h : Nat) : Option ν := findMaxSmallerThan a (h + 1)

class Routing (σ : Type) {ν : outParam Type} [AbstractDataType σ ν] where
  /-- The states that the ring brings the container into. -/
  Valid : σ → Prop
  /-- The container holds the value under the index. -/
  Entry : σ → Nat → ν → Prop
  /-- Removing the index takes out its value and nothing else. -/
  Clean : σ → Nat → Prop
  valid_seed (v : ν) : Valid (insert empty 0 v)
  entry_seed {v w : ν} {i : Nat} : Entry (insert (empty : σ) 0 v) i w ↔ i = 0 ∧ w = v
  -- reading
  mem_list {a : σ} {v : ν} : Valid a → (v ∈ list a ↔ ∃ i, Entry a i v)
  nodup_list {a : σ} : Valid a → (list a).Nodup
  entry_index_unique {a : σ} {i j : Nat} {v : ν} : Valid a → Entry a i v → Entry a j v → i = j
  entry_of_search {a : σ} {i : Nat} {v : ν} : Valid a → search a i = some v → Entry a i v
  search_of_entry {a : σ} {i : Nat} {v : ν} : Valid a → Entry a i v → ∃ w, search a i = some w
  owner_total {a : σ} (h : Nat) : Valid a → ∃ v, owner a h = some v
  owner_greatest {a : σ} {h : Nat} {v : ν} : Valid a → owner a h = some v →
    ∃ i, Entry a i v ∧ i ≤ h ∧ ∀ j w, Entry a j w → j ≤ h → j ≤ i
  owner_convex {a : σ} {x y z : Nat} {v : ν} : Valid a → owner a x = some v → owner a z = some v →
    x ≤ y → y ≤ z → owner a y = some v
  findMaxSmallerThan_zero {a : σ} : Valid a → findMaxSmallerThan a 0 = none
  -- adding a value
  valid_insert {a : σ} (m : Nat) {v : ν} : Valid a → v ∉ list a → Valid (insert a m v)
  entry_insert_self {a : σ} (m : Nat) {v : ν} : Valid a → Entry (insert a m v) m v
  entry_insert_of_ne {a : σ} {m i : Nat} (v : ν) {w : ν} : Valid a → i ≠ m → Entry a i w →
    Entry (insert a m v) i w
  entry_of_insert {a : σ} {m i : Nat} {v w : ν} : Valid a → Entry (insert a m v) i w →
    i = m ∧ w = v ∨ Entry a i w
  owner_insert_self {a : σ} {m h : Nat} {v : ν} : Valid a → v ∉ list a → m ≤ h → owner a h = owner a m →
    owner (insert a m v) h = some v
  owner_insert_of_not {a : σ} {m h : Nat} {v : ν} : Valid a → v ∉ list a →
    ¬ (m ≤ h ∧ owner a h = owner a m) → owner (insert a m v) h = owner a h
  -- removing the value found under an index, when there is one below it
  prior_ne {a : σ} {i : Nat} {d p : ν} : Valid a → search a i = some d →
    findMaxSmallerThan a i = some p → p ≠ d
  valid_remove {a : σ} {i : Nat} {d p : ν} : Valid a → search a i = some d →
    findMaxSmallerThan a i = some p → Valid (remove a i)
  mem_list_of_remove {a : σ} {i : Nat} {d p w : ν} : Valid a → search a i = some d →
    findMaxSmallerThan a i = some p → w ∈ list (remove a i) → w ∈ list a
  owner_remove_self {a : σ} {i h : Nat} {d p : ν} : Valid a → search a i = some d →
    findMaxSmallerThan a i = some p → owner a h = some d → owner (remove a i) h = some p
  owner_remove_of_ne {a : σ} {i h : Nat} {d p w : ν} : Valid a → search a i = some d →
    findMaxSmallerThan a i = some p → owner a h = some w → w ≠ d → w ∈ list (remove a i) →
    owner (remove a i) h = some w
  entry_remove {a : σ} {i j : Nat} {d p w : ν} : Valid a → Clean a i → search a i = some d →
    findMaxSmallerThan a i = some p → (Entry (remove a i) j w ↔ Entry a j w ∧ w ≠ d)

namespace Routing

variable {σ ν : Type} [AbstractDataType σ ν] [Routing σ] {a : σ} {i h : Nat} {d p v w : ν}

theorem owner_mem (ha : Valid a) (ho : owner a h = some v) : v ∈ list a := by
  obtain ⟨i, hi, -⟩ := owner_greatest ha ho
  exact (mem_list ha).mpr ⟨i, hi⟩

theorem prior_total (ha : Valid a) (hi : i ≠ 0) : ∃ p, findMaxSmallerThan a i = some p := by
  obtain ⟨j, rfl⟩ := Nat.exists_eq_succ_of_ne_zero hi
  exact owner_total j ha

theorem owner_of_prior (ha : Valid a) (hp : findMaxSmallerThan a i = some p) :
    ∃ h, i = h + 1 ∧ owner a h = some p := by
  cases i with
  | zero => rw [findMaxSmallerThan_zero ha] at hp; cases hp
  | succ h => exact ⟨h, rfl, hp⟩

/-- A clean removal hands what the removed value answered for to the value before it, and changes no other
answer. -/
theorem owner_remove_clean (ha : Valid a) (hc : Clean a i) (hd : search a i = some d)
    (hp : findMaxSmallerThan a i = some p) (ho : owner a h = some w) (hw : w ≠ d) :
    owner (remove a i) h = some w := by
  obtain ⟨j, hj, -⟩ := owner_greatest ha ho
  have hmem : w ∈ list (remove a i) :=
    (mem_list (valid_remove ha hd hp)).mpr ⟨j, (entry_remove ha hc hd hp).mpr ⟨hj, hw⟩⟩
  exact owner_remove_of_ne ha hd hp ho hw hmem

theorem mem_list_remove (ha : Valid a) (hc : Clean a i) (hd : search a i = some d)
    (hp : findMaxSmallerThan a i = some p) : w ∈ list (remove a i) ↔ w ∈ list a ∧ w ≠ d := by
  rw [mem_list (valid_remove ha hd hp), mem_list ha]
  simp only [entry_remove ha hc hd hp]
  exact ⟨fun ⟨j, hj, hw⟩ => ⟨⟨j, hj⟩, hw⟩, fun ⟨⟨j, hj⟩, hw⟩ => ⟨j, hj, hw⟩⟩

end Routing

end PrometheusRing
