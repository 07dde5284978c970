import PrometheusRing.Api.Lemmas.Calls
import PrometheusRing.Api.Threads
import PrometheusRing.Orquestrator.Lemmas.Tasks
import PrometheusRing.Ring.Theorems.Concurrent

/-!
# The blocks of a call of the API

A call that no other interrupts does what the call does that is made as a whole.
-/

namespace PrometheusRing.API

open Effect
open SwarmOrquestrator (Task)

variable {σ δ : Type} [AbstractDataType σ Ref] {stableHash : String → Nat} {docker : Docker δ} {dump : Yaml → String}
  {a : API σ δ}

/-! ## One block -/

/-- What follows a block of the ring. -/
def afterBlock (s' : Ring σ) (task : Node → Task) : Ring.Outcome → Except Exn (Option Thread)
  | .ok (some n) => .ok (some (.task (task (s'.node n))))
  | .ok none => .ok none
  | .error e => .error e

theorem exec_next_insert {target : Target} {o : Ring.Outcome} {s' : Ring σ}
    (h : exec (Ring.insertLocked stableHash target target.id) a.ring = (o, s')) :
    exec (Thread.next stableHash docker dump (.insert target)) a =
      (afterBlock s' Task.create o, { a with ring := s' }) := by
  simp only [Thread.next, exec_bind, onRing, exec_zoom, h]
  rcases o with e | _ | n <;> rfl

/-- The handler of `unregister_target`. -/
def unlessMissing : Except Exn (Option Thread) → Except Exn (Option Thread)
  | .error (.keyNotFoundError _) => .ok none
  | r => r

omit [AbstractDataType σ Ref] in
theorem exec_ignoreMissing (x : ApiM σ δ (Option Thread)) :
    exec (ignoreMissing x) a = (unlessMissing (exec x a).1, (exec x a).2) := by
  rw [ignoreMissing, exec_except]
  rcases exec x a with ⟨e | t, a'⟩
  · cases e <;> rfl
  · rfl

theorem exec_next_delete {targetId : String} {o : Ring.Outcome} {s' : Ring σ}
    (h : Ring.machine stableHash (.delete targetId) a.ring = (o, s')) :
    exec (Thread.next stableHash docker dump (.delete targetId)) a =
      (unlessMissing (afterBlock s' Task.find o), { a with ring := s' }) := by
  change exec (Ring.delete stableHash targetId) a.ring = (o, s') at h
  simp only [Thread.next, exec_ignoreMissing, exec_bind, onRing, exec_zoom, h]
  rcases o with e | _ | n <;> rfl

theorem exec_next_task (t : Task) : exec (Thread.next stableHash docker dump (.task t)) a =
    ((exec (t.next docker dump) a.orquestrator).1.map (Option.map .task),
      { a with orquestrator := (exec (t.next docker dump) a.orquestrator).2 }) := by
  simp only [Thread.next, exec_bind, onOrquestrator, exec_zoom]
  rcases exec (t.next docker dump) a.orquestrator with ⟨e | t', o⟩ <;> rfl

variable [Routing σ]

/-- What a call does before its block changes nothing. -/
theorem exec_enter (hs : Ring.Placed stableHash a.ring) (op : Op) : exec (enter stableHash op) a = (match op with
    | .registerTarget target => match a.ring.lookup stableHash target.id with
        | some _ => .error (.keyAlreadyExistsError s!"Key {target.id} already exists")
        | none => .ok (some (.insert target))
    | .unregisterTarget targetId => match a.ring.lookup stableHash targetId with
        | some _ => .ok (some (.delete targetId))
        | none => .ok none, a) := by
  cases op with
  | registerTarget target =>
      obtain ⟨n, hn, -⟩ := hs.findNode (stableHash target.id)
      simp only [enter, exec_bind, onRing, exec_zoom, Concurrent.exec_insertCheck hn]
      cases a.ring.lookup stableHash target.id <;> rfl
  | unregisterTarget targetId =>
      simp only [enter, exec_ignoreMissing, exec_bind, onRing, exec_discard, exec_zoom, Ring.exec_get_eq hs]
      cases a.ring.lookup stableHash targetId <;> rfl

/-! ## All blocks of a call -/

variable {guard : API σ δ → Thread → Prop}

omit [Routing σ] in
theorem alone_task (hguard : ∀ a t, guard a (.task t)) {t : Task} {o o' : SwarmOrquestrator δ} {out : Except Exn Unit}
    (h : Threads.Alone (Task.next docker dump) (fun _ _ => True) t o out o') (s : Ring σ) :
    Threads.Alone (Thread.next stableHash docker dump) guard (.task t) ⟨s, o⟩ out ⟨s, o'⟩ := by
  induction h with
  | @last t o r o' out _ hnext hend =>
      have hthread := @exec_next_task σ δ _ stableHash docker dump ⟨s, o⟩ t
      rw [hnext] at hthread
      refine .last (hguard _ _) hthread ?_
      rcases r with e | _ | t'
      · exact hend
      · exact hend
      · cases hend
  | @more t t' o o₁ o' out _ hnext _ ih =>
      have hthread := @exec_next_task σ δ _ stableHash docker dump ⟨s, o⟩ t
      rw [hnext] at hthread
      exact .more (hguard _ _) hthread ih

/-- The blocks that follow the first do what is left of the call. -/
theorem continues_call (hs : Ring.Placed stableHash a.ring) (op : Op) (htask : ∀ a t, guard a (.task t))
    (hguard : ∀ t, (exec (enter stableHash op) a).1 = .ok (some t) → guard a t) :
    Threads.Continues (Thread.next stableHash docker dump) guard a (machine stableHash docker dump op a).1
      (machine stableHash docker dump op a).2 (exec (enter stableHash op) a).1 := by
  have hstep := Ring.step_machine hs.toSound stableHash op.ringOp
  cases hring : Ring.machine stableHash op.ringOp a.ring with
  | mk o s' =>
      rw [hring] at hstep
      have hcall : machine stableHash docker dump op ⟨a.ring, a.orquestrator⟩ = _ := exec_call hs op hring
      change machine stableHash docker dump op a = _ at hcall
      have henter := @exec_enter σ δ _ stableHash a _ hs op
      rw [hcall]
      rw [henter] at hguard ⊢
      cases op with
      | registerTarget target =>
          cases hlookup : a.ring.lookup stableHash target.id with
          | some t =>
              obtain ⟨rfl, rfl⟩ := Ring.insert_existing (Option.isSome_of_eq_some hlookup) hstep
              simp only [hlookup]
              exact ⟨rfl, rfl⟩
          | none =>
              simp only [hlookup] at hguard ⊢
              obtain ⟨n, hn, -⟩ := hs.findNode (stableHash target.id)
              have hinsert : Ring.machine stableHash (.insert target (some target.id) "") a.ring = _ :=
                Concurrent.exec_insert ⟨target, some target.id, ""⟩ a.ring
              have hcheck := Concurrent.exec_insertCheck hn
              rw [hlookup] at hcheck
              have hlocked : exec (Ring.insertLocked stableHash target target.id) a.ring = (o, s') := by
                rw [← hring]
                refine Eq.trans ?_ hinsert.symm
                simp only [InsertCall.storedKey, Option.getD_some, hcheck]
                rfl
              refine Threads.Alone.block (hguard _ rfl) (exec_next_insert hlocked) ?_
              rcases o with e | _ | n
              · exact ⟨rfl, rfl⟩
              · exact ⟨rfl, rfl⟩
              · exact alone_task htask (SwarmOrquestrator.runs_create (s'.node n) a.orquestrator) s'
      | unregisterTarget targetId =>
          cases hlookup : a.ring.lookup stableHash targetId with
          | none =>
              obtain ⟨rfl, rfl⟩ := Ring.delete_missing hlookup hstep
              simp only [hlookup]
              exact ⟨rfl, rfl⟩
          | some t =>
              simp only [hlookup] at hguard ⊢
              refine Threads.Alone.block (hguard _ rfl) (exec_next_delete hring) ?_
              rcases o with e | _ | n
              · cases e <;> exact ⟨rfl, rfl⟩
              · exact ⟨rfl, rfl⟩
              · exact alone_task htask (SwarmOrquestrator.runs_find (s'.node n) a.orquestrator) s'

/-- A call that is left alone does what the call does that is made as a whole, whatever calls wait meanwhile. -/
theorem call_alone (hs : Ring.Placed stableHash a.ring) (op : Op) (htask : ∀ a t, guard a (.task t))
    (hguard : ∀ t, (exec (enter stableHash op) a).1 = .ok (some t) → guard a t) (running : List Thread) :
    ∃ events, (threads stableHash docker dump).Guarded (Threads.Each guard) (.call op :: events) ⟨a, running⟩ ∧
      (threads stableHash docker dump).history (.call op :: events) ⟨a, running⟩ =
        [(machine stableHash docker dump op a).1] ∧
      (threads stableHash docker dump).run (.call op :: events) ⟨a, running⟩ =
        ⟨(machine stableHash docker dump op a).2, running⟩ := by
  have hsame := congrArg Prod.snd (exec_enter hs op)
  have hbegin : exec (enter stableHash op) a = ((exec (enter stableHash op) a).1, a) := Prod.ext rfl hsame
  exact (continues_call hs op htask hguard).run hbegin running

end PrometheusRing.API
