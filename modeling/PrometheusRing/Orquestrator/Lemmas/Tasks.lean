import PrometheusRing.Lib.Threads
import PrometheusRing.Orquestrator.Theorems.Retries

/-!
# A call of the orchestrator that no other interrupts

Its tasks, one after the other, do what `create_node` and `delete_node` do.
-/

namespace PrometheusRing.SwarmOrquestrator

open Effect

variable {δ : Type} (docker : Docker δ) (dump : Yaml → String)

section Next

variable {docker dump} {node : Node} {service x : Service} {loop : Loop} {left : Nat} {o : SwarmOrquestrator δ}

theorem exec_next_create : exec (Task.next docker dump (.create node)) o =
    match exec (docker.create (nodeSpec dump o node)) o.client with
    | (.ok service, c) => (.ok (some (.track node service)), { o with client := c })
    | (.error d, c) => (.error (.docker d), { o with client := c }) := by
  simp only [Task.next, exec_bind, exec_get, exec_onClient_eq]
  rcases exec (docker.create (nodeSpec dump o node)) o.client with ⟨d | service, c⟩ <;> rfl

theorem exec_next_fetch : exec (Task.next docker dump (.fetch node service loop left)) o =
    match exec (docker.get service.id) o.client with
    | (.ok updated, c) => (.ok (some (.scale node service loop left updated)), { o with client := c })
    | (.error d, c) => exec (Task.retry node service loop left (.docker d)) { o with client := c } := by
  simp only [Task.next, exec_except, exec_bind, exec_onClient_eq]
  rcases exec (docker.get service.id) o.client with ⟨d | updated, c⟩ <;> rfl

theorem exec_next_scale : exec (Task.next docker dump (.scale node service loop left x)) o =
    match exec (docker.scale x node.replicaCount) o.client with
    | (.ok _, c) => (.ok (loop.next node service), { o with client := c })
    | (.error d, c) => exec (Task.retry node service loop left (.docker d)) { o with client := c } := by
  simp only [Task.next, exec_except, exec_bind, exec_onClient_eq]
  rcases exec (docker.scale x node.replicaCount) o.client with ⟨d | u, c⟩ <;> rfl

theorem exec_next_find : exec (Task.next docker dump (.find node)) o = (match o.services.get? node.index with
    | some x => .ok (some (.remove node x))
    | none => .error (.attributeError "remove"), o) := by
  simp only [Task.next, exec_bind, exec_get, exec_ofExcept]
  cases o.services.get? node.index <;> rfl

theorem exec_next_remove : exec (Task.next docker dump (.remove node x)) o = match exec (docker.remove x) o.client with
    | (.ok _, c) => (.ok none, { o with client := c })
    | (.error d, c) => (.error (.docker d), { o with client := c }) := by
  simp only [Task.next, exec_bind, exec_onClient_eq]
  rcases exec (docker.remove x) o.client with ⟨d | u, c⟩ <;> rfl

end Next

/-- What is left of `create_node` after a loop. -/
def Loop.finish (node : Node) (service : Service) : Loop → OrquestratorM δ Unit
  | attaching => scaleService docker service node.replicaCount (scalingMessage service)
  | scaling => return ()

/-- What is left of `create_node` with so many attempts of a loop. -/
def Loop.attempts (node : Node) (service : Service) (loop : Loop) (n : Nat) : OrquestratorM δ Unit := do
  if !(← scaleAttempts docker service node.replicaCount n) then
    throw (.updatingServiceError (loop.message node service))
  loop.finish docker node service

/-- What is left of `create_node` when an attempt has met an error. -/
def Loop.again (node : Node) (service : Service) (loop : Loop) (n : Nat) : DockerError → OrquestratorM δ Unit
  | .apiError _ => loop.attempts docker node service n
  | d => throw (.docker d)

variable {docker dump} {node : Node} {service : Service} {loop : Loop} {o : SwarmOrquestrator δ}

theorem exec_attempts_succ (n : Nat) : exec (loop.attempts docker node service (n + 1)) o =
    match exec (docker.get service.id) o.client with
    | (.error d, c) => exec (loop.again docker node service n d) { o with client := c }
    | (.ok updatedService, c) => match exec (docker.scale updatedService node.replicaCount) c with
      | (.error d, c) => exec (loop.again docker node service n d) { o with client := c }
      | (.ok _, c) => exec (loop.finish docker node service) { o with client := c } := by
  simp only [Loop.attempts, scaleAttempts, exec_bind, exec_except, exec_onClient_eq]
  rcases exec (docker.get service.id) o.client with ⟨d | updatedService, c⟩
  · cases d with
    | apiError text => simp only [Except.mapError, Loop.again, Loop.attempts, exec_bind]
    | other text => rfl
  · simp only [Except.mapError]
    rcases exec (docker.scale updatedService node.replicaCount) c with ⟨d | u, c'⟩
    · cases d with
      | apiError text => simp only [Loop.again, Loop.attempts, exec_bind]
      | other text => rfl
    · rfl

variable (docker dump) in
/-- The task and those that follow it do what the call does. -/
def Task.Runs (t : Task) (x : OrquestratorM δ Unit) : Prop :=
  ∀ o, Threads.Alone (Task.next docker dump) (fun _ _ => True) t o (exec x o).1 (exec x o).2

/-- An error leads to the next attempt, or to the end of the call. -/
theorem runs_retry {left : Nat}
    (ih : ∀ m < left, Task.Runs docker dump (.fetch node service loop m) (loop.attempts docker node service (m + 1)))
    (d : DockerError) (o : SwarmOrquestrator δ) :
    (exec (Task.retry node service loop left (.docker d)) o).2 = o ∧
      Threads.Continues (Task.next docker dump) (fun _ _ => True) o (exec (loop.again docker node service left d) o).1
        (exec (loop.again docker node service left d) o).2 (exec (Task.retry node service loop left (.docker d)) o).1 := by
  cases d with
  | other text => cases left <;> exact ⟨rfl, rfl, rfl⟩
  | apiError text =>
      cases left with
      | zero => exact ⟨rfl, rfl, rfl⟩
      | succ m => exact ⟨rfl, ih m m.lt_succ_self o⟩

/-- A loop runs attempt by attempt, whatever follows it. -/
theorem runs_fetch
    (hfinish : ∀ o, Threads.Continues (Task.next docker dump) (fun _ _ => True) o
      (exec (loop.finish docker node service) o).1 (exec (loop.finish docker node service) o).2
      (.ok (loop.next node service)))
    (left : Nat) :
    Task.Runs docker dump (.fetch node service loop left) (loop.attempts docker node service (left + 1)) := by
  induction left using Nat.strong_induction_on with
  | h left ih =>
      intro o
      have hretry := runs_retry ih
      rw [exec_attempts_succ]
      rcases hget : exec (docker.get service.id) o.client with ⟨d | updatedService, c⟩
      · refine Threads.Alone.block trivial ?_ (hretry d { o with client := c }).2
        rw [exec_next_fetch, hget]
        exact Prod.ext rfl (hretry d { o with client := c }).1
      · have hfetch : exec (Task.next docker dump (.fetch node service loop left)) o =
            (.ok (some (.scale node service loop left updatedService)), { o with client := c }) := by
          rw [exec_next_fetch, hget]
        refine Threads.Alone.more trivial hfetch ?_
        dsimp only
        rcases hscale : exec (docker.scale updatedService node.replicaCount) c with ⟨d | u, c'⟩
        · refine Threads.Alone.block trivial ?_ (hretry d { o with client := c' }).2
          rw [exec_next_scale, hscale]
          exact Prod.ext rfl (hretry d { o with client := c' }).1
        · refine Threads.Alone.block trivial ?_ (hfinish { o with client := c' })
          rw [exec_next_scale, hscale]

/-- A whole loop and what follows it. -/
theorem runs_loop
    (hfinish : ∀ o, Threads.Continues (Task.next docker dump) (fun _ _ => True) o
      (exec (loop.finish docker node service) o).1 (exec (loop.finish docker node service) o).2
      (.ok (loop.next node service))) :
    Task.Runs docker dump (.fetch node service loop (apiMaxRetries - 1)) (do
      scaleService docker service node.replicaCount (loop.message node service)
      loop.finish docker node service) := by
  intro o
  have hattempts : exec (loop.attempts docker node service (apiMaxRetries - 1 + 1)) o = exec (do
      scaleService docker service node.replicaCount (loop.message node service)
      loop.finish docker node service) o := by
    have hfive : apiMaxRetries - 1 + 1 = apiMaxRetries := rfl
    simp only [Loop.attempts, scaleService, exec_bind, hfive]
    rcases exec (scaleAttempts docker service node.replicaCount apiMaxRetries) o with ⟨e | b, o₁⟩
    · rfl
    · cases b <;> rfl
  rw [← hattempts]
  exact runs_fetch hfinish (apiMaxRetries - 1) o

theorem runs_track (node : Node) (service : Service) : Task.Runs docker dump (.track node service) (do
    modify fun o => { o with services := o.services.set node.index service }
    scaleService docker service node.replicaCount (attachingMessage node service)
    scaleService docker service node.replicaCount (scalingMessage service)) := by
  have hscaling : Task.Runs docker dump (.fetch node service .scaling (apiMaxRetries - 1))
      (scaleService docker service node.replicaCount (scalingMessage service)) := by
    have h := @runs_loop δ docker dump node service .scaling fun _ => ⟨rfl, rfl⟩
    rwa [Loop.finish, bind_pure_unit] at h
  exact fun o => .more trivial rfl (@runs_loop δ docker dump node service .attaching hscaling _)

theorem runs_create (node : Node) : Task.Runs docker dump (.create node) (createNode docker dump node) := by
  intro o
  rw [exec_createNode_eq]
  rcases hcreate : exec (docker.create (nodeSpec dump o node)) o.client with ⟨d | service, c⟩
  · have hnext : exec (Task.next docker dump (.create node)) o = (.error (.docker d), { o with client := c }) := by
      rw [exec_next_create, hcreate]
    exact .last trivial hnext rfl
  · have hnext : exec (Task.next docker dump (.create node)) o =
        (.ok (some (.track node service)), { o with client := c }) := by
      rw [exec_next_create, hcreate]
    exact .more trivial hnext (runs_track node service { o with client := c })

theorem runs_find (node : Node) : Task.Runs docker dump (.find node) (deleteNode docker node) := by
  intro o
  simp only [deleteNode, exec_bind, exec_get, exec_ofExcept]
  cases hfind : o.services.get? node.index with
  | none =>
      have hnext : exec (Task.next docker dump (.find node)) o = (.error (.attributeError "remove"), o) := by
        rw [exec_next_find, hfind]
      exact .last trivial hnext rfl
  | some x =>
      have hnext : exec (Task.next docker dump (.find node)) o = (.ok (some (.remove node x)), o) := by
        rw [exec_next_find, hfind]
      refine .more trivial hnext ?_
      simp only [notNone, exec_onClient_eq]
      rcases hremove : exec (docker.remove x) o.client with ⟨d | u, c⟩
      · have hnext : exec (Task.next docker dump (.remove node x)) o = (.error (.docker d), { o with client := c }) := by
          rw [exec_next_remove, hremove]
        exact .last trivial hnext rfl
      · have hnext : exec (Task.next docker dump (.remove node x)) o = (.ok none, { o with client := c }) := by
          rw [exec_next_remove, hremove]
        exact .last trivial hnext rfl

end PrometheusRing.SwarmOrquestrator
