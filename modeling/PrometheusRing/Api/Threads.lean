import PrometheusRing.Api.Basic
import PrometheusRing.Lib.Threads
import PrometheusRing.Orquestrator.Tasks

/-!
# The API from several threads

`ring_lock` covers the blocks of the ring and nothing else: what a call does before its block, and the tasks of the
orchestrator after it, run between those of other calls.
-/

namespace PrometheusRing.API

open SwarmOrquestrator (Task)

variable {σ δ : Type} [AbstractDataType σ Ref] (stableHash : String → Nat) (docker : Docker δ) (dump : Yaml → String)

/-- What a call does next. -/
inductive Thread where
  /-- The locked block of `insert`, after the duplicate check. -/
  | insert (target : Target)
  /-- The locked block of `delete`, after the `get`. -/
  | delete (targetId : String)
  | task (t : Task)

/-- The handler of `unregister_target`. None of the tasks raises what it catches. -/
def ignoreMissing (x : ApiM σ δ (Option Thread)) : ApiM σ δ (Option Thread) :=
  Effect.except x fun
  | .keyNotFoundError _ => return none
  | e => throw e

/-- What a call does before it waits for the lock. -/
def enter : Op → ApiM σ δ (Option Thread)
  | .registerTarget target => do
      onRing (Ring.insertCheck stableHash target.id)
      return some (.insert target)
  | .unregisterTarget targetId => ignoreMissing do
      discard (onRing (Ring.get stableHash targetId))
      return some (.delete targetId)

def Thread.next : Thread → ApiM σ δ (Option Thread)
  | .insert target => do
      match ← onRing (Ring.insertLocked stableHash target target.id) with
      | some newNode => return some (.task (.create ((← get).ring.node newNode)))
      | none => return none
  | .delete targetId => ignoreMissing do
      match ← onRing (Ring.delete stableHash targetId) with
      | some nodeToDelete => return some (.task (.find ((← get).ring.node nodeToDelete)))
      | none => return none
  | .task t => do
      let following ← onOrquestrator (t.next docker dump)
      return following.map .task

/-- The API with threads in the middle of calls. -/
abbrev Pool (σ δ : Type) := Threads Thread (API σ δ)

def threads : Machine (Threads.Event Op) (Option (Except Exn Unit)) (Pool σ δ) :=
  Threads.machine (enter stableHash) (Thread.next stableHash docker dump)

end PrometheusRing.API
