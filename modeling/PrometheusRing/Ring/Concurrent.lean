import PrometheusRing.Ring.Basic

/-!
# Calls from several threads

`ring_lock` makes `update` and `delete` one step each. An `insert` takes two: its duplicate check comes before
the lock, so that other calls can go between the check and the insertion.
-/

namespace PrometheusRing

open Effect

/-- The arguments of a call of `insert`. -/
structure InsertCall where
  target : Target
  key : Option String
  uuid4 : String

namespace InsertCall

def call (c : InsertCall) : Ring.Op := .insert c.target c.key c.uuid4

/-- The key the target is stored under. -/
def storedKey (c : InsertCall) : String := c.key.getD c.uuid4

end InsertCall

/-- The ring, and the inserts that have passed their duplicate check and wait for the lock. -/
structure Concurrent (σ : Type) where
  ring : Ring σ
  waiting : List InsertCall := []

namespace Concurrent

inductive Event where
  /-- An insert is called and makes its duplicate check. -/
  | check (c : InsertCall)
  /-- One of the waiting inserts gets the lock. -/
  | locked (i : Nat)
  | update (key : String) (newTarget : Target)
  | delete (key : String)

/-- The call that has ended with the event, and its outcome. -/
abbrev Ended := Option (Ring.Op × Ring.Outcome)

variable {σ : Type} [AbstractDataType σ Ref] (stableHash : String → Nat)

/-- A call that is one step. -/
def atomic (op : Ring.Op) (s : Concurrent σ) : Ended × Concurrent σ :=
  let (outcome, ring) := exec (Ring.call stableHash op) s.ring
  (some (op, outcome), { s with ring })

def machine : Machine Event Ended (Concurrent σ)
  | .check c, s =>
      match exec (Ring.insertCheck stableHash c.storedKey) s.ring with
      | (.ok _, ring) => (none, { ring, waiting := s.waiting ++ [c] })
      | (.error e, ring) => (some (c.call, .error e), { s with ring })
  | .locked i, s =>
      match s.waiting[i]? with
      | none => (none, s)
      | some c =>
          let (outcome, ring) := exec (Ring.insertLocked stableHash c.target c.storedKey) s.ring
          (some (c.call, outcome), { ring, waiting := s.waiting.eraseIdx i })
  | .update key newTarget, s => atomic stableHash (.update key newTarget) s
  | .delete key, s => atomic stableHash (.delete key) s

end Concurrent

end PrometheusRing
