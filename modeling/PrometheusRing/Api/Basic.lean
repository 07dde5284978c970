import PrometheusRing.Orquestrator.SwarmOrquestrator
import PrometheusRing.Ring.Basic

/-!
# The API

Registering and unregistering change the ring first and then tell the orchestrator about the node that came
or went. Nothing undoes the change of the ring when the orchestrator raises.
-/

namespace PrometheusRing

structure API (σ δ : Type) where
  ring : Ring σ
  orquestrator : SwarmOrquestrator δ

/-- An entry of the list served to Prometheus. -/
structure TargetGroup where
  targets : List String
  labels : Dict String String

namespace API

variable {σ δ : Type}

abbrev ApiM (σ δ α : Type) := Effect Exn (API σ δ) α

def onRing {α : Type} (x : RingM σ α) : ApiM σ δ α := Effect.zoom API.ring (fun r a => { a with ring := r }) x

def onOrquestrator {α : Type} (x : SwarmOrquestrator.OrquestratorM δ α) : ApiM σ δ α :=
  Effect.zoom API.orquestrator (fun o a => { a with orquestrator := o }) x

variable [AbstractDataType σ Ref] (stableHash : String → Nat) (docker : Docker δ) (dump : Yaml → String)

/-- The service creates the service of node zero before it serves the first call. -/
def createFirstNode : ApiM σ δ Unit := do
  let api ← get
  onOrquestrator (SwarmOrquestrator.createNode docker dump (api.ring.node api.ring.nodeZero))

def registerTarget (target : Target) : ApiM σ δ Unit := do
  -- the key is given, so no uuid is drawn
  match ← onRing (Ring.insert stableHash target (some target.id) "") with
  | some newNode =>
      let api ← get
      onOrquestrator (SwarmOrquestrator.createNode docker dump (api.ring.node newNode))
  | none => return ()

def unregisterTarget (targetId : String) : ApiM σ δ Unit :=
  Effect.except (do
    discard (onRing (Ring.get stableHash targetId))
    match ← onRing (Ring.delete stableHash targetId) with
    | some nodeToDelete =>
        let api ← get
        onOrquestrator (SwarmOrquestrator.deleteNode docker (api.ring.node nodeToDelete))
    | none => return ()) fun
  | .keyNotFoundError _ => return ()
  | e => throw e

def targetGroup (node : Node) (target : Target) : TargetGroup where
  targets := [target.endpoint]
  labels := ((Dict.empty.set "node_index" (toString node.index)).set "__metrics__path__" "/metrics").set
    "target_id" target.id

def buildTargetsJson (api : API σ δ) : List TargetGroup :=
  api.ring.getNodes.flatMap fun r => (api.ring.node r).listItems.map (targetGroup (api.ring.node r))

/-! ## Calls and runs -/

inductive Op where
  | registerTarget (target : Target)
  | unregisterTarget (targetId : String)

/-- The call of the ring that a call of the API makes. -/
def Op.ringOp : Op → Ring.Op
  | .registerTarget target => .insert target (some target.id) ""
  | .unregisterTarget targetId => .delete targetId

def call : Op → ApiM σ δ Unit
  | .registerTarget target => registerTarget stableHash docker dump target
  | .unregisterTarget targetId => unregisterTarget stableHash docker targetId

/-- The API as a machine: a raising call leaves the state it has reached, and the run goes on. -/
def machine : Machine Op (Except Exn Unit) (API σ δ) := fun op a => (call stableHash docker dump op).exec a

end API

end PrometheusRing
