import PrometheusRing.Ring.Basic

/-!
# Calls, write by write

`get`, `get_target_node` and the duplicate check of `insert` do not take the lock: they can read between two
writes of the thread that holds it. A write is one assignment to an object that such a reader reads; the
methods of the container are one write each.
-/

namespace PrometheusRing.Ring

open AbstractDataType

variable {σ : Type} [AbstractDataType σ Ref] (stableHash : String → Nat)

/-- The block of a call that runs under `ring_lock`. -/
def locked : Op → RingM σ (Option Ref)
  | .insert target key uuid4 => insertLocked stableHash target (key.getD uuid4)
  | .update key newTarget => Ring.call stableHash (.update key newTarget)
  | .delete key => Ring.call stableHash (.delete key)

inductive Write where
  /-- `self.targets[key] = target` -/
  | setTarget (self : Ref) (key : String) (target : Target)
  /-- `self.targets.pop(key)` -/
  | popTarget (self : Ref) (key : String)
  /-- `self.keys_to_delete.append(key)` -/
  | recordKey (self : Ref) (key : String)
  /-- `self.keys_to_delete = list()` -/
  | resetKeys (self : Ref)
  /-- A node object is built. No other object refers to it yet. -/
  | newNode (object : Node)
  /-- `self.ring.insert(index, node)` -/
  | ringInsert (index : Nat) (node : Ref)
  /-- `self.ring.remove(index)` -/
  | ringRemove (index : Nat)
  /-- `self.node_count += 1` -/
  | countNode

/-- The ring after a write. -/
def Write.apply : Write → Ring σ → Ring σ
  | .setTarget self key target, s => { s with heap := s.heap.update self (·.insert key target) }
  | .popTarget self key, s =>
      { s with heap := s.heap.update self fun n => { n with targets := n.targets.erase key } }
  | .recordKey self key, s =>
      { s with heap := s.heap.update self fun n => { n with keysToDelete := n.keysToDelete ++ [key] } }
  | .resetKeys self, s => { s with heap := s.heap.update self fun n => { n with keysToDelete := [] } }
  | .newNode object, s => { s with heap := s.heap.alloc object }
  | .ringInsert index node, s => { s with ring := insert s.ring index node }
  | .ringRemove index, s => { s with ring := remove s.ring index }
  | .countNode, s => { s with nodeCount := s.nodeCount + 1 }

/-- A thread that makes one write at a time. -/
def writer : Machine Write Unit (Ring σ) := fun w s => ((), w.apply s)

/-- The ring after some writes. -/
def writeAll (s : Ring σ) (ws : List Write) : Ring σ := writer.run ws s

/-- The writes of `export_keys`, for the items and the keys to delete that the node has then. -/
def exportWrites (self otherNode : Ref) (firstKeyHash : Int) (n : Node) : List Write :=
  let exported := n.targets.items.filter fun item => (stableHash item.1 : Int) ≥ firstKeyHash
  exported.flatMap (fun item => [.setTarget otherNode item.1 item.2, .recordKey self item.1]) ++
    (n.keysToDelete ++ exported.map Prod.fst).map (.popTarget self) ++ [.resetKeys self]

/-- The writes of `_split_node`. -/
def splitWrites (s : Ring σ) (node : Ref) : List Write :=
  match (s.node node).calcMidHash stableHash with
  | .error _ => []
  | .ok nodeMidHash =>
      [.newNode (Node.new s.args nodeMidHash (some (s.nodeBasePorts + s.nodeCount))),
        .ringInsert nodeMidHash s.heap.next] ++
      exportWrites stableHash node s.heap.next nodeMidHash (s.node node) ++ [.countNode]

/-- The writes of `_delete_node`. -/
def deleteNodeWrites (s : Ring σ) (index : Nat) : List Write :=
  match search s.ring index, findMaxSmallerThan s.ring index with
  | some nodeToDelete, some priorNode =>
      exportWrites stableHash nodeToDelete priorNode 0 (s.node nodeToDelete) ++ [.ringRemove index]
  | _, _ => []

/-- The writes of the block of `insert`. -/
def insertWrites (s : Ring σ) (target : Target) (key : String) : List Write :=
  match s.findNode (stableHash key) with
  | none => []
  | some node =>
      let s₁ := (Write.setTarget node key target).apply s
      .setTarget node key target :: match (s₁.node node).load with
        | .ok load => if load > s₁.nodeMaxLoad then splitWrites stableHash s₁ node else []
        | .error _ => []

/-- The writes of `update`. -/
def updateWrites (s : Ring σ) (key : String) (newTarget : Target) : List Write :=
  match s.findNode (stableHash key) with
  | none => []
  | some node => if (s.node node).hasKey key then [.setTarget node key newTarget] else []

/-- The writes of `delete`. -/
def deleteWrites (s : Ring σ) (key : String) : List Write :=
  match s.findNode (stableHash key) with
  | none => []
  | some node =>
      if !(s.node node).hasKey key then []
      else
        let s₁ := (Write.popTarget node key).apply s
        .popTarget node key :: match (s₁.node node).load with
          | .ok load =>
              if load ≤ s₁.nodeMinLoad ∧ node ≠ s₁.nodeZero then
                deleteNodeWrites stableHash s₁ (s₁.node node).index
              else []
          | .error _ => []

/-- The writes of the block of a call, in the order in which they are made. -/
def writes (s : Ring σ) : Op → List Write
  | .insert target key uuid4 => insertWrites stableHash s target (key.getD uuid4)
  | .update key newTarget => updateWrites stableHash s key newTarget
  | .delete key => deleteWrites stableHash s key

/-! ## Writers and readers -/

/-- The ring, the writes that the thread with the lock still has to make, and the ring that it found when it took
the lock. With the last write the lock is free again. -/
structure Shared (σ : Type) where
  ring : Ring σ
  pending : List Write := []
  before : Ring σ := ring

namespace Shared

inductive Event where
  /-- A thread asks for the lock, to run the block of the call. -/
  | take (op : Op)
  /-- The thread with the lock makes its next write. -/
  | write

def machine : Machine Event Unit (Shared σ)
  | .take op, u =>
      match u.pending with
      | [] => ((), { u with pending := writes stableHash u.ring op, before := u.ring })
      | _ :: _ => ((), u)
  | .write, u =>
      match u.pending with
      | [] => ((), u)
      | [w] => ((), { ring := w.apply u.ring })
      | w :: ws => ((), { u with ring := w.apply u.ring, pending := ws })

/-- The ring when the thread with the lock is done. -/
def after (u : Shared σ) : Ring σ := writeAll u.ring u.pending

end Shared

/-- What `get` gives whose reads, one after the other, find the ring in these states: `_find_node`, `has_key`,
`has_key` again within `Node.get`, and the lookup of the key. -/
inductive Answer where
  | target (t : Target)
  /-- `None` -/
  | nothing
  | keyNotFoundError
  /-- The key is gone between the last two reads. -/
  | keyError
  /-- `_find_node` gave `None`. -/
  | attributeError
  deriving DecidableEq

def unlockedGet (key : String) (s₁ s₂ s₃ s₄ : Ring σ) : Answer :=
  match s₁.findNode (stableHash key) with
  | none => .attributeError
  | some node =>
      if !(s₂.node node).hasKey key then .keyNotFoundError
      else if !(s₃.node node).hasKey key then .nothing
      else match (s₄.node node).targets.get? key with
        | some t => .target t
        | none => .keyError

end PrometheusRing.Ring
