import Mathlib.Data.Nat.Find
import Mathlib.Data.List.Nodup
import PrometheusRing.Adt.Routing

/-!
# Ordered maps meet the ring's needs
-/

namespace PrometheusRing

open AbstractDataType

variable {σ ν : Type} [AbstractDataType σ ν] [OrderedMap σ]

/-- The map holds index 0, and no value under two indices. -/
structure SeededMap (a : σ) : Prop where
  zero : ∃ v, search a 0 = some v
  index_unique : ∀ {i j v}, search a i = some v → search a j = some v → i = j

namespace OrderedMap

theorem owner_eq_some {a : σ} {h : Nat} {v : ν} : owner a h = some v ↔
    ∃ i, search a i = some v ∧ i ≤ h ∧ ∀ j w, search a j = some w → j ≤ h → j ≤ i := by
  simp only [owner, findMaxSmallerThan_eq_some, Nat.lt_succ_iff, IsGreatest, upperBounds, Set.mem_ofPred_eq,
    Option.isSome_iff_exists]
  constructor
  · rintro ⟨i, ⟨⟨hi, -⟩, hmax⟩, hv⟩
    exact ⟨i, hv, hi, fun j w hw hj => hmax ⟨hj, w, hw⟩⟩
  · rintro ⟨i, hv, hi, hmax⟩
    exact ⟨i, ⟨⟨hi, v, hv⟩, fun j ⟨hj, w, hw⟩ => hmax j w hw hj⟩, hv⟩

theorem findMaxSmallerThan_zero (a : σ) : findMaxSmallerThan a 0 = none := by
  refine Option.eq_none_iff_forall_ne_some.mpr fun v hv => ?_
  obtain ⟨i, ⟨⟨hi, -⟩, -⟩, -⟩ := (findMaxSmallerThan_eq_some a 0 v).mp hv
  exact Nat.not_lt_zero i hi

theorem prior_eq_some {a : σ} {i : Nat} {p : ν} (hp : findMaxSmallerThan a i = some p) :
    ∃ j, search a j = some p ∧ j < i ∧ ∀ k w, search a k = some w → k < i → k ≤ j := by
  cases i with
  | zero => rw [findMaxSmallerThan_zero] at hp; cases hp
  | succ i =>
      obtain ⟨j, hj, hji, hmax⟩ := owner_eq_some.mp hp
      exact ⟨j, hj, Nat.lt_succ_of_le hji, fun k w hw hk => hmax k w hw (Nat.le_of_lt_succ hk)⟩

end OrderedMap

namespace SeededMap

open OrderedMap

variable {a : σ} {i j h m : Nat} {d p v w : ν}

theorem mem_list : v ∈ list a ↔ ∃ i, search a i = some v := by
  obtain ⟨is, -, hmem, heq⟩ := OrderedMap.list_eq a
  have hv : v ∈ list a ↔ some v ∈ (list a).map some := by simp
  rw [hv, heq, List.mem_map]
  exact ⟨fun ⟨i, _, hi⟩ => ⟨i, hi⟩, fun ⟨i, hi⟩ => ⟨i, (hmem i).mpr (by simp [hi]), hi⟩⟩

theorem nodup_list (ha : SeededMap a) : (list a).Nodup := by
  obtain ⟨is, hnd, hmem, heq⟩ := OrderedMap.list_eq a
  refine List.Nodup.of_map some ?_
  rw [heq]
  refine hnd.map_on fun i hi j _ hij => ?_
  obtain ⟨v, hv⟩ := Option.isSome_iff_exists.mp ((hmem i).mp hi)
  exact ha.index_unique hv (hij ▸ hv)

theorem owner_total (ha : SeededMap a) (h : Nat) : ∃ v, owner a h = some v := by
  have hz : (search a 0).isSome := Option.isSome_iff_exists.mpr ha.zero
  have hs : (search a (Nat.findGreatest (fun i => (search a i).isSome) h)).isSome :=
    @Nat.findGreatest_spec 0 (fun i => (search a i).isSome) _ h (Nat.zero_le h) hz
  obtain ⟨v, hv⟩ := Option.isSome_iff_exists.mp hs
  refine ⟨v, owner_eq_some.mpr ⟨_, hv, Nat.findGreatest_le h, fun j w hw hj => ?_⟩⟩
  exact Nat.le_findGreatest hj (by simp [hw])

theorem owner_convex (ha : SeededMap a) {x y z : Nat} (hx : owner a x = some v) (hz : owner a z = some v)
    (hxy : x ≤ y) (hyz : y ≤ z) : owner a y = some v := by
  obtain ⟨i, hi, hix, -⟩ := owner_eq_some.mp hx
  obtain ⟨j, hj, -, hmax⟩ := owner_eq_some.mp hz
  obtain rfl := ha.index_unique hi hj
  exact owner_eq_some.mpr ⟨i, hi, hix.trans hxy, fun k w hw hk => hmax k w hw (hk.trans hyz)⟩

/-! ## Adding a value -/

theorem insert (ha : SeededMap a) (m : Nat) (hv : v ∉ list a) : SeededMap (insert a m v) where
  zero := by
    rw [search_insert]
    split
    · exact ⟨v, rfl⟩
    · exact ha.zero
  index_unique := by
    intro i j w hi hj
    rw [search_insert] at hi hj
    split at hi <;> split at hj
    · omega
    · exact absurd (mem_list.mpr ⟨j, hi ▸ hj⟩) hv
    · exact absurd (mem_list.mpr ⟨i, hj ▸ hi⟩) hv
    · exact ha.index_unique hi hj

theorem owner_insert_self (ha : SeededMap a) (hm : m ≤ h) (ho : owner a h = owner a m) :
    owner (AbstractDataType.insert a m v) h = some v := by
  refine owner_eq_some.mpr ⟨m, by rw [search_insert, if_pos rfl], hm, fun j w hw hj => ?_⟩
  rw [search_insert] at hw
  split at hw
  · omega
  · -- an index between `m` and `h` would answer for `h` but not for `m`
    obtain ⟨u, hu⟩ := ha.owner_total h
    obtain ⟨i, hi, -, hmax⟩ := owner_eq_some.mp hu
    obtain ⟨i', hi', him, -⟩ := owner_eq_some.mp (ho ▸ hu)
    obtain rfl := ha.index_unique hi hi'
    exact (hmax j w hw hj).trans him

theorem owner_insert_of_not (ha : SeededMap a) (hn : ¬ (m ≤ h ∧ owner a h = owner a m)) :
    owner (AbstractDataType.insert a m v) h = owner a h := by
  obtain ⟨u, hu⟩ := ha.owner_total h
  obtain ⟨i, hi, hih, hmax⟩ := owner_eq_some.mp hu
  have hmi : m ≤ h → m < i := by
    intro hm
    by_contra hle
    refine hn ⟨hm, hu.trans (owner_eq_some.mpr ⟨i, hi, by omega, fun j w hw hj => ?_⟩).symm⟩
    exact hmax j w hw (hj.trans hm)
  rw [hu]
  refine owner_eq_some.mpr ⟨i, ?_, hih, fun j w hw hj => ?_⟩
  · rw [search_insert, if_neg (by omega), hi]
  · rw [search_insert] at hw
    split at hw
    · omega
    · exact hmax j w hw hj

/-! ## Removing an index with a value below it -/

theorem remove (ha : SeededMap a) (hp : findMaxSmallerThan a i = some p) : SeededMap (remove a i) where
  zero := by
    obtain ⟨j, -, hji, -⟩ := prior_eq_some hp
    rw [search_remove, if_neg (by omega)]
    exact ha.zero
  index_unique := by
    intro j k w hj hk
    rw [search_remove] at hj hk
    split at hj
    · cases hj
    · split at hk
      · cases hk
      · exact ha.index_unique hj hk

theorem search_remove_iff (ha : SeededMap a) (hd : search a i = some d) :
    search (AbstractDataType.remove a i) j = some w ↔ search a j = some w ∧ w ≠ d := by
  rw [search_remove]
  split
  · rename_i hji
    subst hji
    simp [hd, eq_comm]
  · rename_i hji
    refine ⟨fun hw => ⟨hw, ?_⟩, fun hw => hw.1⟩
    rintro rfl
    exact hji (ha.index_unique hw hd)

theorem owner_remove_self (ha : SeededMap a) (hd : search a i = some d)
    (hp : findMaxSmallerThan a i = some p) (ho : owner a h = some d) :
    owner (AbstractDataType.remove a i) h = some p := by
  obtain ⟨k, hk, hkh, hmax⟩ := owner_eq_some.mp ho
  obtain rfl := ha.index_unique hk hd
  obtain ⟨j, hj, hjk, hjmax⟩ := prior_eq_some hp
  refine owner_eq_some.mpr ⟨j, by rw [search_remove, if_neg (by omega), hj], by omega, fun l w hw hl => ?_⟩
  rw [search_remove] at hw
  split at hw
  · cases hw
  · have := hmax l w hw hl
    exact hjmax l w hw (by omega)

theorem owner_remove_of_ne (hd : search a i = some d) (ho : owner a h = some w) (hw : w ≠ d) :
    owner (AbstractDataType.remove a i) h = some w := by
  obtain ⟨k, hk, hkh, hmax⟩ := owner_eq_some.mp ho
  have hki : k ≠ i := by
    rintro rfl
    exact hw (Option.some.inj (hk.symm.trans hd))
  refine owner_eq_some.mpr ⟨k, by rw [search_remove, if_neg hki, hk], hkh, fun j u hu hj => ?_⟩
  rw [search_remove] at hu
  split at hu
  · cases hu
  · exact hmax j u hu hj

end SeededMap

/-- Every removal from an ordered map is clean. -/
instance : Routing σ where
  Valid := SeededMap
  Entry a i v := search a i = some v
  Clean _ _ := True
  valid_seed v := by
    refine ⟨⟨v, by rw [OrderedMap.search_insert, if_pos rfl]⟩, fun {i j w} hi hj => ?_⟩
    simp only [OrderedMap.search_insert, OrderedMap.search_empty, Option.ite_none_right_eq_some] at hi hj
    omega
  entry_seed := by
    intro v w i
    simp [OrderedMap.search_insert, OrderedMap.search_empty, eq_comm]
  mem_list _ := SeededMap.mem_list
  nodup_list ha := ha.nodup_list
  entry_index_unique ha hi hj := ha.index_unique hi hj
  entry_of_search _ hd := hd
  search_of_entry _ hi := ⟨_, hi⟩
  owner_total h ha := ha.owner_total h
  owner_greatest _ ho := OrderedMap.owner_eq_some.mp ho
  owner_convex ha hx hz hxy hyz := ha.owner_convex hx hz hxy hyz
  findMaxSmallerThan_zero {a} _ := OrderedMap.findMaxSmallerThan_zero a
  valid_insert m _ ha hv := ha.insert m hv
  entry_insert_self m v _ := by rw [OrderedMap.search_insert, if_pos rfl]
  entry_insert_of_ne v w _ hne hi := by rw [OrderedMap.search_insert, if_neg hne, hi]
  entry_of_insert {a m i v w} _ hi := by
    rw [OrderedMap.search_insert] at hi
    split at hi
    · exact Or.inl ⟨‹_›, (Option.some.inj hi).symm⟩
    · exact Or.inr hi
  owner_insert_self ha _ hm ho := ha.owner_insert_self hm ho
  owner_insert_of_not ha _ hn := ha.owner_insert_of_not hn
  prior_ne ha hd hp := by
    rintro rfl
    obtain ⟨j, hj, hji, -⟩ := OrderedMap.prior_eq_some hp
    exact hji.ne (ha.index_unique hj hd)
  valid_remove ha _ hp := ha.remove hp
  mem_list_of_remove ha hd _ hw := by
    obtain ⟨j, hj⟩ := SeededMap.mem_list.mp hw
    exact SeededMap.mem_list.mpr ⟨j, ((ha.search_remove_iff hd).mp hj).1⟩
  owner_remove_self ha hd hp ho := ha.owner_remove_self hd hp ho
  owner_remove_of_ne _ hd _ ho hw _ := SeededMap.owner_remove_of_ne hd ho hw
  entry_remove ha _ hd _ := ha.search_remove_iff hd

end PrometheusRing
