import Mathlib.Data.List.Sort
import PrometheusRing.Adt.AbstractDataType
import PrometheusRing.Lib.Dict

/-!
# The container of the ring's tests

A dictionary that is sorted at every query. It is an ordered map.
-/

namespace PrometheusRing

structure MockADT (ν : Type) where
  data : Dict Nat ν

namespace MockADT

variable {ν : Type}

def insert (m : MockADT ν) (key : Nat) (value : ν) : MockADT ν := ⟨m.data.set key value⟩

def list (m : MockADT ν) : List ν := m.data.values

/-- `sorted(self.data.keys())` -/
def sortedKeys (m : MockADT ν) : List Nat := m.data.keys.insertionSort (· ≤ ·)

def findMaxSmallerThan (m : MockADT ν) (hashValue : Nat) : Option ν :=
  (m.sortedKeys.reverse.find? (fun key => key < hashValue)).bind m.data.get?

/-- Sets the value whether or not the key is there, and returns nothing. -/
def update (m : MockADT ν) (key : Nat) (newValue : ν) : Option ν × MockADT ν :=
  (none, ⟨m.data.set key newValue⟩)

def search (m : MockADT ν) (key : Nat) : Option ν := m.data.get? key

def remove (m : MockADT ν) (key : Nat) : MockADT ν := ⟨m.data.erase key⟩

instance : AbstractDataType (MockADT ν) ν where
  empty := ⟨Dict.empty⟩
  insert := insert
  search := search
  update := update
  remove := remove
  list := list
  findMaxSmallerThan := findMaxSmallerThan

theorem mem_sortedKeys {m : MockADT ν} {i : Nat} : i ∈ m.sortedKeys ↔ (m.search i).isSome := by
  rw [sortedKeys, List.mem_insertionSort, Dict.mem_keys]
  rfl

theorem find_sortedKeys {m : MockADT ν} {k i : Nat} :
    m.sortedKeys.reverse.find? (fun key => key < k) = some i ↔
      IsGreatest {i | i < k ∧ (m.search i).isSome} i := by
  have hsound : ∀ i, m.sortedKeys.reverse.find? (fun key => key < k) = some i →
      IsGreatest {i | i < k ∧ (m.search i).isSome} i := by
    intro i hf
    have hmem := List.mem_reverse.mp (List.mem_of_find?_eq_some hf)
    refine ⟨⟨by simpa using List.find?_some hf, mem_sortedKeys.mp hmem⟩, fun j ⟨hjk, hj⟩ => ?_⟩
    obtain ⟨-, as, bs, hab, has⟩ := List.find?_eq_some_iff_append.mp hf
    have hsorted : m.sortedKeys.reverse.Pairwise (· ≥ ·) :=
      List.pairwise_reverse.mpr (List.pairwise_insertionSort (· ≤ ·) m.data.keys)
    have hjm : j ∈ m.sortedKeys.reverse := List.mem_reverse.mpr (mem_sortedKeys.mpr hj)
    rw [hab] at hsorted hjm
    rcases List.mem_append.mp hjm with hjm | hjm
    · simpa [hjk] using has j hjm
    · rcases List.mem_cons.mp hjm with rfl | hjm
      · exact le_rfl
      · exact (List.pairwise_cons.mp (List.pairwise_append.mp hsorted).2.1).1 j hjm
  refine ⟨hsound i, fun hi => ?_⟩
  have hex : (m.sortedKeys.reverse.find? (fun key => key < k)).isSome :=
    List.find?_isSome.mpr ⟨i, List.mem_reverse.mpr (mem_sortedKeys.mpr hi.1.2), by simpa using hi.1.1⟩
  obtain ⟨j, hj⟩ := Option.isSome_iff_exists.mp hex
  rw [hj, (hsound j hj).unique hi]

instance : OrderedMap (MockADT ν) where
  search_empty _ := rfl
  search_insert m i v j := Dict.get?_set m.data i j v
  search_remove m i j := Dict.get?_erase m.data i j
  list_eq m := by
    refine ⟨m.data.keys, m.data.nodup, fun i => Dict.mem_keys, ?_⟩
    change m.data.values.map some = m.data.keys.map m.data.get?
    rw [Dict.values, Dict.keys, List.map_map, List.map_map]
    exact List.map_congr_left fun e he => (Dict.get?_eq_some.mpr he).symm
  findMaxSmallerThan_eq_some m k v := by
    change (m.sortedKeys.reverse.find? (fun key => key < k)).bind m.data.get? = some v ↔ _
    simp only [Option.bind_eq_some_iff, find_sortedKeys]
    rfl

end MockADT

end PrometheusRing
