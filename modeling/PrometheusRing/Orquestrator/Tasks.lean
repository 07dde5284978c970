import PrometheusRing.Orquestrator.SwarmOrquestrator

/-!
# Calls of the orchestrator, request by request

No lock covers the orchestrator: between two requests to Docker, and between a request and the access to `services`
that belongs to it, other threads can run.
-/

namespace PrometheusRing.SwarmOrquestrator

variable {δ : Type} (docker : Docker δ) (dump : Yaml → String)

/-- The specification of a node's service. -/
def nodeSpec (o : SwarmOrquestrator δ) (node : Node) : ServiceSpec where
  image := o.prometheusDockerImage
  env := ["PROMETHEUS_YML=" ++ dump node.prometheusYml]
  name := serviceName node.index
  publishedPort := node.port
  networks := [o.dockerNetwork]

/-- What `create_node` says when the first loop has given up. -/
def attachingMessage (node : Node) (service : Service) : String :=
  s!"Failed attaching port {Node.shown node.port} to {service.name} after {apiMaxRetries} attemps."

/-- What `create_node` says when the second loop has given up. -/
def scalingMessage (service : Service) : String :=
  s!"Failed scaling up service {service.name} after {apiMaxRetries} attemps."

/-- The two loops of `create_node`. -/
inductive Loop where
  | attaching
  | scaling

/-- What a call does next. The fields of the node that it reads never change. -/
inductive Task where
  /-- `self.client.services.create(…)` -/
  | create (node : Node)
  /-- `self.services[node.index] = service` -/
  | track (node : Node) (service : Service)
  /-- `self.client.services.get(service.id)`, with so many attempts left after this one -/
  | fetch (node : Node) (service : Service) (loop : Loop) (attemptsLeft : Nat)
  /-- `updated_service.scale(node.replica_count)` -/
  | scale (node : Node) (service : Service) (loop : Loop) (attemptsLeft : Nat) (updatedService : Service)
  /-- `self.services.get(node.index)` -/
  | find (node : Node)
  /-- `node_service.remove()` -/
  | remove (node : Node) (nodeService : Service)

def Loop.message (node : Node) (service : Service) : Loop → String
  | attaching => attachingMessage node service
  | scaling => scalingMessage service

/-- What follows a loop. -/
def Loop.next (node : Node) (service : Service) : Loop → Option Task
  | attaching => some (.fetch node service .scaling (apiMaxRetries - 1))
  | scaling => none

/-- What follows an attempt that raises. -/
def Task.retry (node : Node) (service : Service) (loop : Loop) : Nat → Exn → OrquestratorM δ (Option Task)
  | left + 1, .docker (.apiError _) => return some (.fetch node service loop left)
  | 0, .docker (.apiError _) => throw (.updatingServiceError (loop.message node service))
  | _, e => throw e

/-- One task, and the one that follows it in the same call. -/
def Task.next : Task → OrquestratorM δ (Option Task)
  | .create node => do
      let orquestrator ← get
      let service ← onClient (docker.create (nodeSpec dump orquestrator node))
      return some (.track node service)
  | .track node service => do
      modify fun o => { o with services := o.services.set node.index service }
      return some (.fetch node service .attaching (apiMaxRetries - 1))
  | .fetch node service loop left =>
      Effect.except (do
        let updatedService ← onClient (docker.get service.id)
        return some (.scale node service loop left updatedService)) (Task.retry node service loop left)
  | .scale node service loop left updatedService =>
      Effect.except (do
        onClient (docker.scale updatedService node.replicaCount)
        return loop.next node service) (Task.retry node service loop left)
  | .find node => do
      let nodeService ← MonadExcept.ofExcept (notNone "remove" ((← get).services.get? node.index))
      return some (.remove node nodeService)
  | .remove _ nodeService => do
      onClient (docker.remove nodeService)
      return none

end PrometheusRing.SwarmOrquestrator
