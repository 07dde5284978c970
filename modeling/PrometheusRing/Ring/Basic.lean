import PrometheusRing.Adt.AbstractDataType
import PrometheusRing.Lib.Machine
import PrometheusRing.Node.Basic

/-!
# The ring

The ring routes a key to the node with the greatest index at most the key's hash. It splits a node that an
insert overloads and merges a node that a delete underloads into the node before it.
-/

namespace PrometheusRing

open AbstractDataType MonadExcept

/-- A ring on a container `σ`. All its nodes are built from `args`, which passed the node's checks when node
zero was built. -/
structure Ring (σ : Type) where
  args : NodeArgs
  nodeMinLoad : Int
  nodeMaxLoad : Int
  nodeBasePorts : Int
  nodeCount : Nat
  ring : σ
  nodeZero : Ref
  heap : Heap Node
  argsOk : args.check = .ok ()

abbrev RingM (σ α : Type) := Effect Exn (Ring σ) α

namespace Ring

variable {σ : Type} [AbstractDataType σ Ref]

/-- The ring that `Ring.__init__` sets up. Node zero cannot be deleted. -/
def fresh (args : NodeArgs) (argsOk : args.check = .ok ()) (nodeMinLoad nodeMaxLoad : Int) (adt : σ)
    (nodeBasePorts : Int) : Ring σ where
  args
  nodeMinLoad
  nodeMaxLoad
  nodeBasePorts
  nodeCount := 1
  ring := insert adt 0 0
  nodeZero := 0
  heap := Heap.singleton (Node.new args 0 (some nodeBasePorts))
  argsOk

/-- `Ring.__init__`, which raises what the first node's checks raise. -/
protected def init (args : NodeArgs) (nodeMinLoad nodeMaxLoad : Int) (adt : σ)
    (nodeBasePorts : Int := 19090) : Except Exn (Ring σ) :=
  match h : args.check with
  | .error e => .error e
  | .ok () => .ok (fresh args h nodeMinLoad nodeMaxLoad adt nodeBasePorts)

theorem init_eq_ok {args : NodeArgs} {nodeMinLoad nodeMaxLoad nodeBasePorts : Int} {adt : σ} {s : Ring σ} :
    Ring.init args nodeMinLoad nodeMaxLoad adt nodeBasePorts = .ok s ↔
      ∃ h, s = fresh args h nodeMinLoad nodeMaxLoad adt nodeBasePorts := by
  unfold Ring.init
  split
  case h_1 e he =>
      constructor
      · intro h; cases h
      · rintro ⟨h, -⟩; rw [he] at h; cases h
  case h_2 hok =>
      constructor
      · intro h; cases h; exact ⟨hok, rfl⟩
      · rintro ⟨-, rfl⟩; rfl

/-- The node object behind a reference. -/
def node (s : Ring σ) (r : Ref) : Node := s.heap.read r

def getNodes (s : Ring σ) : List Ref := list s.ring

/-- `+ 1`, so that a node at the hash itself is included. -/
def findNode (s : Ring σ) (hash : Nat) : Option Ref := findMaxSmallerThan s.ring (hash + 1)

/-- A call on the ring's node objects. -/
def onHeap {α : Type} (x : Node.HeapM α) : RingM σ α :=
  Effect.zoom Ring.heap (fun h s => { s with heap := h }) x

variable (stableHash : String → Nat)

/-- Splits the node in two and returns the new node. -/
def splitNode (node : Ref) : RingM σ Ref := do
  let s ← get
  let nodeMidHash ← ofExcept ((s.node node).calcMidHash stableHash)
  let object ← ofExcept (Node.init s.args nodeMidHash (some (s.nodeBasePorts + s.nodeCount)))
  let newNode := s.heap.next
  onHeap (modify (·.alloc object))
  modify fun s => { s with ring := insert s.ring nodeMidHash newNode }
  onHeap (Node.exportKeys stableHash node newNode nodeMidHash)
  modify fun s => { s with nodeCount := s.nodeCount + 1 }
  return newNode

/-- Deletes the node with the index, sends its targets to the previous node and returns it. -/
def deleteNode (index : Nat) : RingM σ Ref := do
  match search (← get).ring index with
  | none => throw (.nodeNotFoundError s!"Node with index {index} not found")
  | some nodeToDelete =>
      let priorNode ← ofExcept (notNone "index" (findMaxSmallerThan (← get).ring index))
      onHeap (Node.exportKeys stableHash nodeToDelete priorNode 0)
      modify fun s => { s with ring := remove s.ring index }
      return nodeToDelete

/-- The duplicate check of `insert`, which runs before the lock is taken. -/
def insertCheck (key : String) : RingM σ Unit := do
  let nodeToSearch ← ofExcept (notNone "has_key" ((← get).findNode (stableHash key)))
  if ((← get).node nodeToSearch).hasKey key then
    throw (.keyAlreadyExistsError s!"Key {key} already exists")

variable [Percentage]

/-- The block of `insert` that runs under `ring_lock`. -/
def insertLocked (target : Target) (key : String) : RingM σ (Option Ref) := do
  let nodeToInsert ← ofExcept (notNone "insert" ((← get).findNode (stableHash key)))
  onHeap (modify (·.update nodeToInsert (·.insert key target)))
  if (← ofExcept ((← get).node nodeToInsert).load) > (← get).nodeMaxLoad then
    let newNode ← splitNode stableHash nodeToInsert
    return some newNode
  return none

/-- Returns the new node if the ring scaled up. Without a key, `uuid4` is the key that `uuid.uuid4()` gives. -/
protected def insert (target : Target) (key : Option String) (uuid4 : String) : RingM σ (Option Ref) := do
  let key := key.getD uuid4
  insertCheck stableHash key
  insertLocked stableHash target key

/-- The node a target belongs to. -/
def getTargetNode (key : String) : RingM σ Ref := do
  let nodeSetToSearch ← ofExcept (notNone "has_key" ((← get).findNode (stableHash key)))
  if !((← get).node nodeSetToSearch).hasKey key then
    throw (.keyNotFoundError s!"Key {key} not found")
  return nodeSetToSearch

protected def get (key : String) : RingM σ (Option Target) := do
  let nodeSetToSearch ← getTargetNode stableHash key
  return ((← get).node nodeSetToSearch).get key

protected def update (key : String) (newTarget : Target) : RingM σ Unit := do
  let nodeSetToSearch ← getTargetNode stableHash key
  onHeap (modify (·.update nodeSetToSearch (·.update key newTarget)))

/-- Returns the deleted node if the ring scaled down. -/
protected def delete (key : String) : RingM σ (Option Ref) := do
  let nodeToSearch ← ofExcept (notNone "index" ((← get).findNode (stableHash key)))
  if !((← get).node nodeToSearch).hasKey key then
    throw (.keyNotFoundError s!"Key {key} not found")
  discard (onHeap (Node.deleteKey nodeToSearch key))
  if (← ofExcept ((← get).node nodeToSearch).load) ≤ (← get).nodeMinLoad then
    if nodeToSearch = (← get).nodeZero then
      return none
    discard (deleteNode stableHash ((← get).node nodeToSearch).index)
    return some nodeToSearch
  return none

/-! ## Calls and runs -/

/-- A call that may change the ring. -/
inductive Op where
  | insert (target : Target) (key : Option String) (uuid4 : String)
  | update (key : String) (newTarget : Target)
  | delete (key : String)

/-- The key a call is about. -/
def Op.key : Op → String
  | .insert _ key uuid4 => key.getD uuid4
  | .update key _ => key
  | .delete key => key

/-- The outcome of a call is the node it returns, if any, or what it raises. -/
abbrev Outcome := Except Exn (Option Ref)

def call : Op → RingM σ (Option Ref)
  | .insert target key uuid4 => Ring.insert stableHash target key uuid4
  | .update key newTarget => do
      Ring.update stableHash key newTarget
      return none
  | .delete key => Ring.delete stableHash key

/-- The ring as a machine: a raising call leaves the state it has reached, and the run goes on. -/
def machine : Machine Op Outcome (Ring σ) := fun op s => (call stableHash op).exec s

end Ring

end PrometheusRing
