import PrometheusRing.Api.Basic
import PrometheusRing.Ring.Lemmas.Lookup

/-!
# What an API call does to the ring and to the orchestrator

The ring changes as by the one call of the ring that the API call makes, whatever the orchestrator does.
-/

namespace PrometheusRing.API

open Effect

variable {σ δ : Type} [AbstractDataType σ Ref] {stableHash : String → Nat} {docker : Docker δ}
  {dump : Yaml → String} {a : API σ δ}

/-- The orchestrator's part of a call, once the ring has returned. -/
def followUp (docker : Docker δ) (dump : Yaml → String) (s : Ring σ) : Op → Ring.Outcome →
    SwarmOrquestrator.OrquestratorM δ Unit
  | .registerTarget _, .ok (some newNode) => SwarmOrquestrator.createNode docker dump (s.node newNode)
  | .unregisterTarget _, .ok (some deleted) => SwarmOrquestrator.deleteNode docker (s.node deleted)
  | .unregisterTarget _, .error (.keyNotFoundError _) => return ()
  | _, .ok none => return ()
  | _, .error e => throw e

theorem exec_registerTarget (target : Target) {o : Ring.Outcome} {s' : Ring σ}
    (h : Ring.machine stableHash (.insert target (some target.id) "") a.ring = (o, s')) :
    exec (registerTarget stableHash docker dump target) a =
      ((exec (followUp docker dump s' (.registerTarget target) o) a.orquestrator).1,
        ⟨s', (exec (followUp docker dump s' (.registerTarget target) o) a.orquestrator).2⟩) := by
  change exec (Ring.insert stableHash target (some target.id) "") a.ring = (o, s') at h
  simp only [registerTarget, exec_bind, onRing, exec_zoom, h]
  rcases o with e | _ | newNode <;> rfl

theorem deleteNode_error {node : Node} {orq : SwarmOrquestrator δ} {message : String} :
    (exec (SwarmOrquestrator.deleteNode docker node) orq).1 ≠ .error (.keyNotFoundError message) := by
  simp only [SwarmOrquestrator.deleteNode, exec_bind, exec_get, exec_ofExcept, SwarmOrquestrator.onClient]
  cases orq.services.get? node.index with
  | none => simp [notNone]
  | some service =>
      simp only [notNone, exec_zoom, exec_mapError]
      rcases (exec (docker.remove service) orq.client).1 with e | u <;> simp [Except.mapError]

theorem exec_unregisterTarget [Routing σ] (hs : Ring.Placed stableHash a.ring) (targetId : String)
    {o : Ring.Outcome} {s' : Ring σ} (h : Ring.machine stableHash (.delete targetId) a.ring = (o, s')) :
    exec (unregisterTarget stableHash docker targetId) a =
      ((exec (followUp docker dump s' (.unregisterTarget targetId) o) a.orquestrator).1,
        ⟨s', (exec (followUp docker dump s' (.unregisterTarget targetId) o) a.orquestrator).2⟩) := by
  have hstep := Ring.step_machine hs.toSound stableHash (.delete targetId)
  rw [h] at hstep
  change exec (Ring.delete stableHash targetId) a.ring = (o, s') at h
  cases hlookup : a.ring.lookup stableHash targetId with
  | none =>
      obtain ⟨rfl, rfl⟩ := Ring.delete_missing hlookup hstep
      simp only [unregisterTarget, exec_except, exec_bind, onRing, exec_discard, exec_zoom, Ring.exec_get_eq hs,
        hlookup]
      rfl
  | some t =>
      simp only [unregisterTarget, exec_except, exec_bind, onRing, exec_discard, exec_zoom, Ring.exec_get_eq hs,
        hlookup, Ring.answer, Except.map, h]
      rcases o with e | _ | deleted
      · cases e <;> rfl
      · rfl
      · simp only [exec_bind, exec_get, onOrquestrator, exec_zoom, followUp]
        cases hdel : (exec (SwarmOrquestrator.deleteNode docker (s'.node deleted)) a.orquestrator).1 with
        | ok u => rfl
        | error e =>
            cases e with
            | keyNotFoundError message => exact absurd hdel deleteNode_error
            | _ => rfl

variable [Routing σ]

theorem exec_call {s s' : Ring σ} {orq : SwarmOrquestrator δ} (hs : Ring.Placed stableHash s) (op : Op)
    {o : Ring.Outcome} (h : Ring.machine stableHash op.ringOp s = (o, s')) :
    machine stableHash docker dump op ⟨s, orq⟩ =
      ((exec (followUp docker dump s' op o) orq).1, ⟨s', (exec (followUp docker dump s' op o) orq).2⟩) := by
  cases op with
  | registerTarget target => exact exec_registerTarget target h
  | unregisterTarget targetId => exact exec_unregisterTarget hs targetId h

theorem ring_machine (hs : Ring.Placed stableHash a.ring) (op : Op) :
    (machine stableHash docker dump op a).2.ring = (Ring.machine stableHash op.ringOp a.ring).2 := by
  cases a with
  | mk s orq => rw [exec_call hs op Prod.mk.eta.symm]

end PrometheusRing.API
