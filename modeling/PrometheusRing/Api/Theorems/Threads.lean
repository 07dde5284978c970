import PrometheusRing.Adt.Lemmas.TreeRouting
import PrometheusRing.Api.Lemmas.Threads
import PrometheusRing.Orquestrator.Lemmas.Faulty
import PrometheusRing.Settings

/-!
# How long a call takes

Whatever the client answers and however calls interleave, a call is over after a fixed number of blocks, and asks
Docker for a fixed number of things at most.
-/

namespace PrometheusRing

open Effect Threads

namespace SwarmOrquestrator

variable {δ : Type} {docker : Docker δ} {dump : Yaml → String}

/-- Whether the task is a request to Docker. -/
def Task.isRequest : Task → Bool
  | .track _ _ | .find _ => false
  | _ => true

/-- What the task and those that follow it may cost, where a request costs 1 and another block `u`. -/
def Task.credit (u : Nat) : Task → Nat
  | .create _ => u + 21
  | .track _ _ => u + 20
  | .fetch _ _ .attaching left => 2 * left + 12
  | .scale _ _ .attaching left _ => 2 * left + 11
  | .fetch _ _ .scaling left => 2 * left + 2
  | .scale _ _ .scaling left _ => 2 * left + 1
  | .find _ => u + 1
  | .remove _ _ => 1

/-- An attempt that raises costs no more than the attempts left. -/
theorem credit_retry (u : Nat) (node : Node) (service x : Service) (loop : Loop) (left : Nat) (e : Exn)
    (o : SwarmOrquestrator δ) :
    ((rest (exec (Task.retry node service loop left e) o).1).map (Task.credit u)).getD 0 + 1 ≤
      (Task.scale node service loop left x).credit u := by
  unfold Task.retry
  split
  case h_1 m text =>
      change (Task.fetch node service loop m).credit u + 1 ≤ (Task.scale node service loop (m + 1) x).credit u
      cases loop <;> simp only [Task.credit] <;> omega
  case h_2 text =>
      change 0 + 1 ≤ (Task.scale node service loop 0 x).credit u
      cases loop <;> simp [Task.credit]
  case h_3 =>
      change 0 + 1 ≤ (Task.scale node service loop left x).credit u
      cases loop <;> simp [Task.credit]

theorem credit_next (u : Nat) (t : Task) (o : SwarmOrquestrator δ) : (if t.isRequest then 1 else u) +
    ((rest (exec (t.next docker dump) o).1).map (Task.credit u)).getD 0 ≤ t.credit u := by
  cases t with
  | create node =>
      rw [exec_next_create]
      rcases exec (docker.create (nodeSpec dump o node)) o.client with ⟨d | service, c⟩
      · simp [rest, Task.isRequest, Task.credit]
      · simp only [rest, Task.isRequest, Task.credit, Option.map_some, Option.getD_some, if_true]
        omega
  | track node service => exact Nat.le_refl (u + 20)
  | fetch node service loop left =>
      rw [exec_next_fetch]
      rcases exec (docker.get service.id) o.client with ⟨d | x, c⟩
      · have h := @credit_retry δ u node service service loop left (.docker d) { o with client := c }
        refine (Nat.add_comm _ _).trans_le (h.trans ?_)
        cases loop <;> simp [Task.credit]
      · change 1 + (Task.scale node service loop left x).credit u ≤ (Task.fetch node service loop left).credit u
        cases loop <;> simp only [Task.credit] <;> omega
  | scale node service loop left x =>
      rw [exec_next_scale]
      rcases exec (docker.scale x node.replicaCount) o.client with ⟨d | v, c⟩
      · have h := @credit_retry δ u node service x loop left (.docker d) { o with client := c }
        exact (Nat.add_comm _ _).trans_le h
      · cases loop with
        | attaching =>
            change 1 + 10 ≤ 2 * left + 11
            omega
        | scaling =>
            change 1 + 0 ≤ 2 * left + 1
            omega
  | find node =>
      rw [exec_next_find]
      cases o.services.get? node.index with
      | none => simp [rest, Task.isRequest, Task.credit]
      | some x => simp [rest, Task.isRequest, Task.credit]
  | remove node x =>
      rw [exec_next_remove]
      rcases exec (docker.remove x) o.client with ⟨d | v, c⟩ <;> simp [rest, Task.isRequest, Task.credit]

end SwarmOrquestrator

namespace API

variable {σ δ : Type} [AbstractDataType σ Ref] {stableHash : String → Nat} {docker : Docker δ} {dump : Yaml → String}

def Thread.isRequest : Thread → Bool
  | .task t => t.isRequest
  | _ => false

def Thread.credit (u : Nat) : Thread → Nat
  | .insert _ => 2 * u + 21
  | .delete _ => 2 * u + 1
  | .task t => t.credit u

theorem credit_enter (u : Nat) (op : Op) (a : API σ δ) :
    ((rest (exec (enter stableHash op) a).1).map (Thread.credit u)).getD 0 ≤ 2 * u + 21 := by
  cases op with
  | registerTarget target =>
      simp only [enter, exec_bind, onRing, exec_zoom]
      rcases exec (Ring.insertCheck stableHash target.id) a.ring with ⟨e | v, s⟩
      · exact Nat.zero_le _
      · exact Nat.le_refl (2 * u + 21)
  | unregisterTarget targetId =>
      simp only [enter, exec_ignoreMissing, exec_bind, onRing, exec_discard, exec_zoom]
      rcases exec (Ring.get stableHash targetId) a.ring with ⟨e | v, s⟩
      · cases e <;> exact Nat.zero_le _
      · exact Nat.add_le_add_left (by decide) (2 * u)

theorem credit_block (u : Nat) (t : Thread) (a : API σ δ) : (if t.isRequest then 1 else u) +
    ((rest (exec (t.next stableHash docker dump) a).1).map (Thread.credit u)).getD 0 ≤ t.credit u := by
  cases t with
  | insert target =>
      rw [exec_next_insert Prod.mk.eta.symm]
      rcases (exec (Ring.insertLocked stableHash target target.id) a.ring).1 with e | _ | n
      · change u + 0 ≤ 2 * u + 21
        omega
      · change u + 0 ≤ 2 * u + 21
        omega
      · change u + (u + 21) ≤ 2 * u + 21
        omega
  | delete targetId =>
      rw [exec_next_delete Prod.mk.eta.symm]
      rcases (Ring.machine stableHash (.delete targetId) a.ring).1 with e | _ | n
      · cases e <;>
        · change u + 0 ≤ 2 * u + 1
          omega
      · change u + 0 ≤ 2 * u + 1
        omega
      · change u + (u + 1) ≤ 2 * u + 1
        omega
  | task t =>
      have h := @SwarmOrquestrator.credit_next δ docker dump u t a.orquestrator
      rw [exec_next_task, rest_map, Option.map_map]
      exact h

theorem one_le_credit (t : Thread) : 1 ≤ t.credit 1 := by
  cases t with
  | insert target => exact Nat.le_add_left 1 22
  | delete targetId => exact Nat.le_add_left 1 2
  | task t =>
      change 1 ≤ t.credit 1
      cases t with
      | fetch node service loop left => cases loop <;> simp [SwarmOrquestrator.Task.credit]
      | scale node service loop left x => cases loop <;> simp [SwarmOrquestrator.Task.credit]
      | _ => simp [SwarmOrquestrator.Task.credit]

/-- In every interleaving, with any client and from any state, each call goes on with at most 23 blocks after its first,
of which at most 21 are requests to Docker, and a call that has gone on with 23 has ended. -/
theorem calls_bounded (stableHash : String → Nat) (docker : Docker δ) (dump : Yaml → String) (a : API σ δ)
    (events : List (Event Op)) (i : Nat) :
    let pool := (numbered (enter stableHash) (Thread.next stableHash docker dump)).run events ⟨(a, 0), []⟩
    let blocks := blocksOf (enter stableHash) (Thread.next stableHash docker dump) i events a
    forget pool = (threads stableHash docker dump).run events ⟨a, []⟩ ∧ blocks.length ≤ 23 ∧
      blocks.countP Thread.isRequest ≤ 21 ∧ (blocks.length = 23 → ∀ t, (i, t) ∉ pool.running) := by
  intro pool blocks
  have hbound (u : Nat) : total (fun t => if t.isRequest then 1 else u) blocks +
      total (Thread.credit u) (ofCall i pool.running) ≤ 2 * u + 21 := by
    apply total_blocksOf_le
    · intro op s
      rw [total_toList]
      exact credit_enter u op s
    · intro t s
      rw [total_toList]
      exact credit_block u t s
  have hblocks := hbound 1
  have hrequests := hbound 0
  simp only [ite_self, total_one] at hblocks
  rw [total_ite] at hrequests
  refine ⟨(forget_run events _).symm, by omega, by omega, fun hlast t ht => ?_⟩
  have hleft : 1 ≤ total (Thread.credit 1) (ofCall i pool.running) :=
    (one_le_credit t).trans (le_total (mem_ofCall.mpr ht))
  omega

/-- The registration of `b`, the second call, splits a node, and both loops need all their attempts. -/
example :
    let hash := tableHash [("a", 0), ("b", 100)]
    let register (id : String) : Event Op := .call (.registerTarget ⟨id, id, "host", 8000⟩)
    let loop : List Fault := (List.replicate 4 [.none, .before]).flatten ++ [.none, .none]
    (blocksOf (enter hash) (Thread.next hash (Faulting.docker Swarm.docker) fun _ => "") 1
      ([register "a", .step 0, register "b"] ++ List.replicate 23 (.step 0))
      ⟨Settings.freshRing (BinarySearchTree Nat Ref), { client := ⟨{}, .none :: loop ++ loop⟩ }⟩).countP
        Thread.isRequest = 21 := by
  decide +kernel

end API

end PrometheusRing
