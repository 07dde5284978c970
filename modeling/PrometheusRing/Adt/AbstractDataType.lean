import Mathlib.Order.Bounds.Basic

/-!
# The interface between the ring and its container

The ring keeps its nodes in any container with these operations. `OrderedMap` says that a container
behaves as a finite map ordered by its keys.
-/

namespace PrometheusRing

/-- The operations of `AbstractDataType`. A container holds values of type `ν` under naturals; what `remove`
returns is not used by any caller. -/
class AbstractDataType (σ : Type) (ν : outParam Type) where
  empty : σ
  insert : σ → Nat → ν → σ
  search : σ → Nat → Option ν
  update : σ → Nat → ν → Option ν × σ
  remove : σ → Nat → σ
  list : σ → List ν
  findMaxSmallerThan : σ → Nat → Option ν

open AbstractDataType

/-- The container behaves as a finite map ordered by index: `insert` at an existing index overwrites. -/
class OrderedMap (σ : Type) {ν : outParam Type} [AbstractDataType σ ν] : Prop where
  search_empty (i : Nat) : search (empty : σ) i = none
  search_insert (a : σ) (i : Nat) (v : ν) (j : Nat) :
    search (insert a i v) j = if j = i then some v else search a j
  search_remove (a : σ) (i j : Nat) : search (remove a i) j = if j = i then none else search a j
  /-- `list` gives the value of each index once. -/
  list_eq (a : σ) : ∃ is : List Nat, is.Nodup ∧ (∀ i, i ∈ is ↔ (search a i).isSome) ∧
    (list a).map some = is.map (search a)
  findMaxSmallerThan_eq_some (a : σ) (k : Nat) (v : ν) :
    findMaxSmallerThan a k = some v ↔
      ∃ i, IsGreatest {i | i < k ∧ (search a i).isSome} i ∧ search a i = some v

end PrometheusRing
