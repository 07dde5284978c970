import PrometheusRing.Adt.AbstractDataType
import PrometheusRing.Lib.Machine

/-!
# The binary search tree

`left` and `right` are `None` exactly where a subtree is `nil`. The methods change the tree in place; here
they return the tree they leave behind. They recurse to the depth of the tree without a bound: that the interpreter
raises a `RecursionError` at a depth near 1000 is left out.
-/

namespace PrometheusRing

/-- A tree of `BSTNode`s. Equal keys may occur; a new one goes to the right. -/
inductive BinarySearchTree (κ ν : Type) where
  | nil
  | node (left : BinarySearchTree κ ν) (key : κ) (value : ν) (right : BinarySearchTree κ ν)
  deriving DecidableEq

namespace BinarySearchTree

variable {κ ν : Type}

/-- `is None` -/
def isNil : BinarySearchTree κ ν → Bool
  | nil => true
  | node _ _ _ _ => false

def inorder : BinarySearchTree κ ν → List (κ × ν)
  | nil => []
  | node l k v r => inorder l ++ (k, v) :: inorder r

def list (t : BinarySearchTree κ ν) : List ν := t.inorder.map Prod.snd

/-- `_min_key_node`: the leftmost node, `none` if there is no node at all. -/
def minKeyNode : BinarySearchTree κ ν → Option (κ × ν)
  | nil => none
  | node l k v _ => if l.isNil then some (k, v) else minKeyNode l

variable [LinearOrder κ]

def insert : BinarySearchTree κ ν → κ → ν → BinarySearchTree κ ν
  | nil, key, value => node nil key value nil
  | node l k v r, key, value =>
      if key < k then node (insert l key value) k v r else node l k v (insert r key value)

/-- `_search`: key and value of the node found. -/
def searchNode : BinarySearchTree κ ν → κ → Option (κ × ν)
  | nil, _ => none
  | node l k v r, key =>
      if k = key then some (k, v) else if key < k then searchNode l key else searchNode r key

def search (t : BinarySearchTree κ ν) (key : κ) : Option ν := (t.searchNode key).map Prod.snd

/-- The old value, if the key was found, and the tree with the new one. -/
def update : BinarySearchTree κ ν → κ → ν → Option ν × BinarySearchTree κ ν
  | nil, _, _ => (none, nil)
  | node l k v r, key, newValue =>
      if k = key then (some v, node l k newValue r)
      else if k < key then ((update r key newValue).1, node l k v (update r key newValue).2)
      else ((update l key newValue).1, node (update l key newValue).2 k v r)

/-- `_remove(root, key)`: the subtree that the object `root` is the root of afterwards, and the subtree that
is returned. The two differ when the removed node is `root` itself and has at most one child. -/
def removeNode : BinarySearchTree κ ν → κ → BinarySearchTree κ ν × BinarySearchTree κ ν
  | nil, _ => (nil, nil)
  | node l k v r, key =>
      if key < k then (node (removeNode l key).2 k v r, node (removeNode l key).2 k v r)
      else if k < key then (node l k v (removeNode r key).2, node l k v (removeNode r key).2)
      else if l.isNil then (node l k v r, r)
      else match r.minKeyNode with
        | none => (node l k v r, l)
        -- the node takes over the key of its successor; its value stays
        | some temp => (node l temp.1 v (removeNode r temp.1).2, node l temp.1 v (removeNode r temp.1).2)

/-- `remove` drops what `_remove` returns: `self.root` is not assigned. -/
def remove (t : BinarySearchTree κ ν) (key : κ) : BinarySearchTree κ ν := (t.removeNode key).1

/-- `_find_max_smaller_than`: key and value of the node found, `maxNode` if there is none below. -/
def findMaxSmallerThanNode : BinarySearchTree κ ν → κ → Option (κ × ν) → Option (κ × ν)
  | nil, _, maxNode => maxNode
  | node l k v r, key, maxNode =>
      if k < key then findMaxSmallerThanNode r key (some (k, v)) else findMaxSmallerThanNode l key maxNode

def findMaxSmallerThan (t : BinarySearchTree κ ν) (key : κ) : Option ν :=
  (t.findMaxSmallerThanNode key none).map Prod.snd

/-- `_find_min_greater_than`: key and value of the node found, `maxNode` if there is none above. -/
def findMinGreaterThanNode : BinarySearchTree κ ν → κ → Option (κ × ν) → Option (κ × ν)
  | nil, _, maxNode => maxNode
  | node l k v r, key, maxNode =>
      if key < k then findMinGreaterThanNode l key (some (k, v)) else findMinGreaterThanNode r key maxNode

def findMinGreaterThan (t : BinarySearchTree κ ν) (key : κ) : Option ν :=
  (t.findMinGreaterThanNode key none).map Prod.snd

/-! ## Calls that change the tree -/

inductive Op (κ ν : Type) where
  | insert (key : κ) (value : ν)
  | update (key : κ) (newValue : ν)
  | remove (key : κ)

/-- What a call returns. -/
inductive Outcome (κ ν : Type) where
  | none
  | value (old : Option ν)
  | root (subtree : BinarySearchTree κ ν)

def call : Op κ ν → BinarySearchTree κ ν → Outcome κ ν × BinarySearchTree κ ν
  | .insert key value, t => (.none, t.insert key value)
  | .update key newValue, t => (.value (t.update key newValue).1, (t.update key newValue).2)
  | .remove key, t => (.root (t.removeNode key).2, t.remove key)

abbrev machine : Machine (Op κ ν) (Outcome κ ν) (BinarySearchTree κ ν) := call

end BinarySearchTree

instance (ν : Type) : AbstractDataType (BinarySearchTree Nat ν) ν where
  empty := .nil
  insert := .insert
  search := BinarySearchTree.search
  update := BinarySearchTree.update
  remove := .remove
  list := BinarySearchTree.list
  findMaxSmallerThan := BinarySearchTree.findMaxSmallerThan

end PrometheusRing
