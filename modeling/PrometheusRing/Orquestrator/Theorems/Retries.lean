import PrometheusRing.Lib.Retry
import PrometheusRing.Orquestrator.Tasks

/-!
# Creating a service with any Docker client

Whatever the client answers, a service that has been created is tracked, and the two scaling loops decide how the
call ends: each needs one attempt in five that goes through, after nothing but API errors.
-/

namespace PrometheusRing.SwarmOrquestrator

open Effect

variable {δ : Type} (docker : Docker δ) (dump : Yaml → String)

/-- One attempt to scale the service. -/
def scaleOnce (service : Service) (replicaCount : Int) : Effect DockerError δ Unit := do
  let updatedService ← docker.get service.id
  docker.scale updatedService replicaCount

def isApiError : DockerError → Bool
  | .apiError _ => true
  | .other _ => false

/-- One of the five attempts goes through, and those before it meet API errors. -/
def Scales (service : Service) (replicaCount : Int) (c c' : δ) : Prop :=
  Retry.Succeeds isApiError (scaleOnce docker service replicaCount) apiMaxRetries c c'

/-- All five attempts meet API errors. -/
def GivesUp (service : Service) (replicaCount : Int) (c c' : δ) : Prop :=
  Retry.Fails isApiError (scaleOnce docker service replicaCount) apiMaxRetries c c'

/-- One of the five attempts meets another error, and those before it meet API errors. -/
def Breaks (service : Service) (replicaCount : Int) (d : DockerError) (c c' : δ) : Prop :=
  Retry.Raises isApiError (scaleOnce docker service replicaCount) apiMaxRetries d c c'

variable {docker dump} {o o' : SwarmOrquestrator δ} {service : Service} {count : Int} {message : String} {e : Exn}
  {node : Node}

theorem exec_onClient_eq {α : Type} (x : Effect DockerError δ α) (o : SwarmOrquestrator δ) :
    exec (onClient x) o = ((exec x o.client).1.mapError Exn.docker, { o with client := (exec x o.client).2 }) := rfl

/-- The loop is a bounded retry of the client's calls. -/
theorem exec_scaleAttempts_eq (n : Nat) (o : SwarmOrquestrator δ) :
    exec (scaleAttempts docker service count n) o =
      exec (onClient (retry isApiError (scaleOnce docker service count) n)) o := by
  induction n generalizing o with
  | zero => rfl
  | succ n ih =>
      simp only [scaleAttempts, exec_except, exec_bind, exec_onClient_eq, Retry.exec_retry_succ, scaleOnce]
      cases hget : exec (docker.get service.id) o.client with
      | mk r c =>
          cases r with
          | error d =>
              cases d with
              | apiError text => exact ih { o with client := c }
              | other text => rfl
          | ok updated =>
              simp only [Except.mapError]
              cases hscale : exec (docker.scale updated count) c with
              | mk r c' =>
                  cases r with
                  | error d =>
                      cases d with
                      | apiError text => exact ih { o with client := c' }
                      | other text => rfl
                  | ok u => rfl

theorem exec_scaleService_eq (o : SwarmOrquestrator δ) :
    exec (scaleService docker service count message) o =
      match exec (retry isApiError (scaleOnce docker service count) apiMaxRetries) o.client with
      | (.ok true, c) => (.ok (), { o with client := c })
      | (.ok false, c) => (.error (.updatingServiceError message), { o with client := c })
      | (.error d, c) => (.error (.docker d), { o with client := c }) := by
  simp only [scaleService, exec_bind, exec_scaleAttempts_eq, exec_onClient_eq]
  rcases exec (retry isApiError (scaleOnce docker service count) apiMaxRetries) o.client with ⟨_ | b, c⟩
  · rfl
  · cases b <;> rfl

theorem scaleService_ok_iff {u : Unit} : exec (scaleService docker service count message) o = (.ok u, o') ↔
    ∃ c, Scales docker service count o.client c ∧ o' = { o with client := c } := by
  simp only [exec_scaleService_eq, Scales, ← Retry.exec_retry_true_iff]
  rcases exec (retry isApiError (scaleOnce docker service count) apiMaxRetries) o.client with ⟨_ | b, c⟩
  · simp
  · cases b <;> simp [eq_comm]

theorem scaleService_error_iff : exec (scaleService docker service count message) o = (.error e, o') ↔
    ∃ c, o' = { o with client := c } ∧
      (GivesUp docker service count o.client c ∧ e = .updatingServiceError message ∨
        ∃ d, Breaks docker service count d o.client c ∧ e = .docker d) := by
  simp only [exec_scaleService_eq, GivesUp, Breaks, ← Retry.exec_retry_false_iff, ← Retry.exec_retry_error_iff]
  rcases exec (retry isApiError (scaleOnce docker service count) apiMaxRetries) o.client with ⟨d | b, c⟩
  · simp [eq_comm, and_comm]
  · cases b <;> simp [eq_comm, and_comm]

/-- The loop changes nothing but the client, and keeps what each attempt keeps. -/
theorem scaleService_keeps {I : δ → Prop} (hI : ∀ c, I c → I (exec (scaleOnce docker service count) c).2)
    (ho : I o.client) : ∃ c, I c ∧ (exec (scaleService docker service count message) o).2 = { o with client := c } := by
  have hloop : I (exec (retry isApiError (scaleOnce docker service count) apiMaxRetries) o.client).2 :=
    Retry.invariant I hI apiMaxRetries ho
  rw [exec_scaleService_eq]
  generalize exec (retry isApiError (scaleOnce docker service count) apiMaxRetries) o.client = r at hloop ⊢
  rcases r with ⟨d | b, c⟩
  · exact ⟨c, hloop, rfl⟩
  · cases b <;> exact ⟨c, hloop, rfl⟩

/-! ## The whole call -/

/-- The orchestrator that has created the service and tracks it under the node's index. -/
def tracking (o : SwarmOrquestrator δ) (node : Node) (service : Service) (c : δ) : SwarmOrquestrator δ :=
  { o with client := c, services := o.services.set node.index service }

theorem exec_createNode_eq (node : Node) (o : SwarmOrquestrator δ) :
    exec (createNode docker dump node) o = match exec (docker.create (nodeSpec dump o node)) o.client with
      | (.error d, c) => (.error (.docker d), { o with client := c })
      | (.ok service, c) => exec (do
          scaleService docker service node.replicaCount (attachingMessage node service)
          scaleService docker service node.replicaCount (scalingMessage service)) (tracking o node service c) := by
  simp only [createNode, exec_bind, exec_get]
  generalize hspec : ServiceSpec.mk _ _ _ _ _ = spec
  have hnode : spec = nodeSpec dump o node := by
    rw [← hspec]
    rfl
  subst hnode
  rw [exec_onClient_eq]
  rcases exec (docker.create (nodeSpec dump o node)) o.client with ⟨d | service, c⟩
  · rfl
  · simp only [Except.mapError, exec_modify]
    rfl

/-- A service that has been created is tracked, and scaling it keeps what each attempt keeps. -/
theorem createNode_tracking {I : δ → Prop} {c : δ}
    (hcreate : exec (docker.create (nodeSpec dump o node)) o.client = (.ok service, c))
    (hI : ∀ c, I c → I (exec (scaleOnce docker service node.replicaCount) c).2) (hc : I c) :
    ∃ c', I c' ∧ (exec (createNode docker dump node) o).2 = tracking o node service c' := by
  have hstart : I (tracking o node service c).client := hc
  obtain ⟨c₁, hc₁, hfirst⟩ := @scaleService_keeps _ _ _ _ _ (attachingMessage node service) I hI hstart
  rw [exec_createNode_eq, hcreate]
  simp only [exec_bind]
  generalize exec (scaleService docker service node.replicaCount (attachingMessage node service))
    (tracking o node service c) = r at hfirst ⊢
  rcases r with ⟨e | u, o₁⟩
  · exact ⟨c₁, hc₁, hfirst⟩
  · obtain rfl : o₁ = _ := hfirst
    exact scaleService_keeps hI hc₁

/-- Whatever the client does, the call returns exactly if the service is created and both loops scale it. Otherwise
it raises what the client has raised, or `UpdatingServiceError` exactly if five attempts of one loop have met API
errors; a service that has been created stays tracked. -/
theorem createNode_outcome (docker : Docker δ) (dump : Yaml → String) (node : Node) (o o' : SwarmOrquestrator δ) :
    (exec (createNode docker dump node) o = (.ok (), o') ↔
      ∃ service c c₁ c₂, exec (docker.create (nodeSpec dump o node)) o.client = (.ok service, c) ∧
        Scales docker service node.replicaCount c c₁ ∧ Scales docker service node.replicaCount c₁ c₂ ∧
        o' = tracking o node service c₂) ∧
    ∀ e, exec (createNode docker dump node) o = (.error e, o') ↔
      (∃ d c, exec (docker.create (nodeSpec dump o node)) o.client = (.error d, c) ∧ e = .docker d ∧
        o' = { o with client := c }) ∨
      ∃ service c c', exec (docker.create (nodeSpec dump o node)) o.client = (.ok service, c) ∧
        o' = tracking o node service c' ∧
        ((GivesUp docker service node.replicaCount c c' ∧
            e = .updatingServiceError (attachingMessage node service) ∨
          ∃ d, Breaks docker service node.replicaCount d c c' ∧ e = .docker d) ∨
        ∃ c₁, Scales docker service node.replicaCount c c₁ ∧
          (GivesUp docker service node.replicaCount c₁ c' ∧
              e = .updatingServiceError (scalingMessage service) ∨
            ∃ d, Breaks docker service node.replicaCount d c₁ c' ∧ e = .docker d)) := by
  rw [exec_createNode_eq]
  rcases exec (docker.create (nodeSpec dump o node)) o.client with ⟨d | service, c⟩
  · refine ⟨?_, fun e => ?_⟩
    · simp
    · simp [eq_comm]
  · refine ⟨?_, fun e => ?_⟩
    · simp only [exec_bind_ok_iff, scaleService_ok_iff]
      constructor
      · rintro ⟨-, o₁, ⟨c₁, h₁, rfl⟩, c₂, h₂, rfl⟩
        exact ⟨service, c, c₁, c₂, rfl, h₁, h₂, rfl⟩
      · rintro ⟨_, _, c₁, c₂, ⟨⟩, h₁, h₂, rfl⟩
        exact ⟨(), _, ⟨c₁, h₁, rfl⟩, c₂, h₂, rfl⟩
    · simp only [exec_bind_error_iff, scaleService_ok_iff, scaleService_error_iff]
      constructor
      · rintro (⟨c', rfl, h⟩ | ⟨-, o₁, ⟨c₁, h₁, rfl⟩, c', rfl, h⟩)
        · exact Or.inr ⟨service, c, c', rfl, rfl, Or.inl h⟩
        · exact Or.inr ⟨service, c, c', rfl, rfl, Or.inr ⟨c₁, h₁, h⟩⟩
      · rintro (⟨_, _, ⟨⟩, _⟩ | ⟨_, _, c', ⟨⟩, rfl, h | ⟨c₁, h₁, h⟩⟩)
        · exact Or.inl ⟨c', rfl, h⟩
        · exact Or.inr ⟨(), _, ⟨c₁, h₁, rfl⟩, c', rfl, h⟩

theorem scaleService_raises (h : exec (scaleService docker service count message) o = (.error e, o')) :
    (∃ d, e = .docker d) ∨ ∃ text, e = .updatingServiceError text := by
  obtain ⟨c, -, ⟨-, he⟩ | ⟨d, -, he⟩⟩ := scaleService_error_iff.mp h
  · exact Or.inr ⟨message, he⟩
  · exact Or.inl ⟨d, he⟩

/-- What `create_node` lets out is an error of the client, or that it has given up. -/
theorem createNode_raises (h : exec (createNode docker dump node) o = (.error e, o')) :
    (∃ d, e = .docker d) ∨ ∃ text, e = .updatingServiceError text := by
  rw [exec_createNode_eq] at h
  cases hcreate : exec (docker.create (nodeSpec dump o node)) o.client with
  | mk r c =>
      rw [hcreate] at h
      cases r with
      | error d => exact Or.inl ⟨d, (Except.error.inj (Prod.mk.inj h).1).symm⟩
      | ok service =>
          rcases exec_bind_error_iff.mp h with h | ⟨u, o₁, -, h⟩
          · exact scaleService_raises h
          · exact scaleService_raises h

end PrometheusRing.SwarmOrquestrator
