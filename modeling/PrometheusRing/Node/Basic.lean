import Mathlib.Algebra.GroupWithZero.Nat
import PrometheusRing.Lib.Dict
import PrometheusRing.Lib.Effect
import PrometheusRing.Lib.Heap
import PrometheusRing.Node.Load
import PrometheusRing.Node.TimeLiteral

/-!
# Targets and nodes

A node is an object that the container, the ring and the orchestrator share; its methods that involve a
second node work on the heap. `stable_hash` is a parameter throughout.
-/

namespace PrometheusRing

structure Target where
  id : String
  name : String
  address : String
  metricsPort : Int := 8000
  deriving DecidableEq

def Target.endpoint (t : Target) : String := s!"{t.address}:{t.metricsPort}"

/-- The constructor arguments that all nodes of a ring share. -/
structure NodeArgs where
  capacity : Int
  sdProvider : Option String
  sdHost : Option String := none
  sdPort : Option String := none
  scrapeInterval : String := "1m"
  scrapeTimeout : String := "20s"
  sdRefreshInterval : String := "1m"
  replicaCount : Int := 1
  metricsDatabaseUrl : Option String := none
  metricsDatabasePort : Option Int := none
  metricsDatabasePath : Option String := none

structure Node extends NodeArgs where
  index : Nat
  port : Option Int
  ready : Bool := false
  targets : Dict String Target := Dict.empty
  keysToDelete : List String := []

def serviceDiscoveryProvider : List String := ["prometheus_ring_sd", "consul"]

/-- The checks of `Node.__init__`. -/
def NodeArgs.check (a : NodeArgs) : Except Exn Unit := do
  if (← timeLiteralToSecs a.scrapeInterval) < (← timeLiteralToSecs a.scrapeTimeout) then
    throw (.invalidScrapeConfigError "Scrape timeout should be equal or less than scrape interval.")
  if a.sdProvider ∉ serviceDiscoveryProvider.map some then
    let provider := a.sdProvider.getD "None"
    throw (.serviceDiscoveryDoesNotExist s!"Service discovery {provider} is ot mapped")

namespace Node

/-- The object that `Node.__init__` sets up once its checks have passed. -/
def new (a : NodeArgs) (index : Nat) (port : Option Int) : Node := { toNodeArgs := a, index, port }

/-- `Node.__init__` -/
protected def init (a : NodeArgs) (index : Nat) (port : Option Int) : Except Exn Node := do
  a.check
  return new a index port

protected def insert (n : Node) (key : String) (target : Target) : Node :=
  { n with targets := n.targets.set key target }

def hasKey (n : Node) (key : String) : Bool := n.targets.contains key

protected def get (n : Node) (key : String) : Option Target := n.targets.get? key

def listItems (n : Node) : List Target := n.targets.values

protected def update (n : Node) (key : String) (newTarget : Target) : Node :=
  { n with targets := n.targets.set key newTarget }

/-- The target and the node without it. -/
protected def delete (n : Node) (key : String) : Except Exn (Target × Node) :=
  match n.targets.get? key with
  | none => .error (.exception s!"Key {key} not found")
  | some target => .ok (target, { n with targets := n.targets.erase key })

/-- The mean hash of the keys, rounded down. -/
def calcMidHash (stableHash : String → Nat) (n : Node) : Except Exn Nat :=
  if n.targets.size = 0 then .error .zeroDivisionError
  else .ok ((n.targets.keys.map stableHash).sum / n.targets.size)

def load [Percentage] (n : Node) : Except Exn Int :=
  if n.capacity = 0 then .error .zeroDivisionError else .ok (Percentage.percent n.targets.size n.capacity)

/-! ## Methods that involve another node -/

/-- A call on the node objects. -/
abbrev HeapM (α : Type) := Effect Exn (Heap Node) α

/-- `self.delete(key)` -/
def deleteKey (self : Ref) (key : String) : HeapM Target := do
  let (target, n) ← MonadExcept.ofExcept (((← get).read self).delete key)
  modify (·.write self n)
  return target

/-- Deletes the keys that were sent to another node. -/
def cleanKeys (self : Ref) : HeapM Unit := do
  forM ((← get).read self).keysToDelete fun key => discard (deleteKey self key)
  modify (·.update self fun n => { n with keysToDelete := [] })

/-- The body of the loop of `export_keys`. -/
def exportKey (stableHash : String → Nat) (self otherNode : Ref) (firstKeyHash : Int)
    (item : String × Target) : HeapM Unit := do
  if (stableHash item.1 : Int) ≥ firstKeyHash then
    modify (·.update otherNode (·.insert item.1 item.2))
    modify (·.update self fun n => { n with keysToDelete := n.keysToDelete ++ [item.1] })

/-- Moves the keys with a hash of at least `firstKeyHash` to another node. -/
def exportKeys (stableHash : String → Nat) (self otherNode : Ref) (firstKeyHash : Int := -1) :
    HeapM Unit := do
  forM ((← get).read self).targets.items (exportKey stableHash self otherNode firstKeyHash)
  cleanKeys self

end Node

end PrometheusRing
