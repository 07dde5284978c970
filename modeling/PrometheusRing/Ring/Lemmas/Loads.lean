import PrometheusRing.Ring.Lemmas.Hashes

/-!
# How many targets a node holds

Sizes before and after an insert and a split, in terms of the hashes of the keys.
-/

namespace PrometheusRing

open AbstractDataType

namespace Node

variable {stableHash : String → Nat} {n : Node} {key : String} {t : Target} {capacity maxLoad : Int} {c c' : Nat}

/-- With this many targets a node's load is at most `maxLoad`. -/
def fits [Percentage] (capacity maxLoad : Int) (count : Nat) : Prop := Percentage.percent count capacity ≤ maxLoad

instance [Percentage] : DecidablePred (fits capacity maxLoad) := fun _ => inferInstanceAs (Decidable (_ ≤ _))

theorem fits_mono [Percentage] (hcap : 0 < capacity) (hc : c ≤ c') (h : fits capacity maxLoad c') :
    fits capacity maxLoad c := (Percentage.percent_mono hcap hc).trans h

/-- The node's load is at most `maxLoad`. -/
def LoadAtMost [Percentage] (n : Node) (maxLoad : Int) : Prop := ∃ l, n.load = .ok l ∧ l ≤ maxLoad

instance [Percentage] : Decidable (n.LoadAtMost maxLoad) :=
  match h : n.load with
  | .ok l => decidable_of_iff (l ≤ maxLoad) (by simp [LoadAtMost, h])
  | .error _ => isFalse (by simp [LoadAtMost, h])

theorem loadAtMost_iff [Percentage] (hcap : n.capacity ≠ 0) :
    n.LoadAtMost maxLoad ↔ fits n.capacity maxLoad n.targets.size := by
  rw [LoadAtMost, load_eq hcap]
  simp [fits]

theorem length_hashes : (n.hashes stableHash).length = n.targets.size := by
  simp [hashes, Dict.keys, Dict.size]

theorem hashes_insert (hk : n.hasKey key = false) :
    (n.insert key t).hashes stableHash = n.hashes stableHash ++ [stableHash key] := by
  rw [hashes, Node.insert, Dict.keys_set hk, List.map_append, hashes]
  rfl

theorem countP_hashes (p : Nat → Bool) :
    (n.hashes stableHash).countP p = (n.targets.filter (fun k => p (stableHash k))).size := by
  simp [hashes, Dict.keys, Dict.size, Dict.filter, List.countP_eq_length_filter, List.filter_map]
  rfl

theorem size_insert (hk : n.hasKey key = false) : (n.insert key t).targets.size = n.targets.size + 1 := by
  have hlen := congrArg List.length (@hashes_insert (fun _ => 0) n key t hk)
  simpa [length_hashes] using hlen

end Node

namespace Ring

variable {σ : Type} [AbstractDataType σ Ref] {stableHash : String → Nat} {s : Ring σ} {n r : Ref} {m : Nat}

/-- The old node keeps the keys that hash below the index of the new one. -/
theorem size_split_old (hn : n < s.heap.next) :
    ((s.split stableHash n m).node n).targets.size = ((s.node n).hashes stableHash).countP (· < m) := by
  rw [node_split hn hn, if_pos rfl, Node.countP_hashes]
  simp [Node.keepBelow, Node.mapTargets]

/-- The new node gets the others. -/
theorem size_split_new (hn : n < s.heap.next) :
    ((s.split stableHash n m).node s.heap.next).targets.size =
      ((s.node n).hashes stableHash).countP (m ≤ ·) := by
  rw [Node.countP_hashes]
  refine Dict.size_eq fun k => ?_
  rw [Dict.get?_filter]
  have hget := @get_split_new _ _ stableHash s n m k hn
  simpa [Node.get] using hget

end Ring

end PrometheusRing
