import PrometheusRing.Node.Yaml

/-!
# The orchestrator

One Docker swarm service runs for each node. The Docker client and `yaml.dump` are parameters: the client's
calls work on the state `δ` of the daemon and may raise.
-/

namespace PrometheusRing

open MonadExcept

/-- A handle on a service, as the Docker client gives it. -/
structure Service where
  id : String
  name : String
  deriving DecidableEq

/-- The arguments of `services.create`. The published port leads to port 9090 of the container. -/
structure ServiceSpec where
  image : String
  env : List String
  name : String
  publishedPort : Option Int
  networks : List String

/-- The calls of the Docker client. -/
structure Docker (δ : Type) where
  create : ServiceSpec → Effect DockerError δ Service
  get : String → Effect DockerError δ Service
  scale : Service → Int → Effect DockerError δ Unit
  remove : Service → Effect DockerError δ Unit

structure SwarmOrquestrator (δ : Type) where
  client : δ
  dockerNetwork : String := "prometheus-ring"
  prometheusDockerImage : String := "prom/prometheus"
  services : Dict Nat Service := Dict.empty

def serviceName (index : Nat) : String := s!"prometheus-{index}"

theorem toString_injective : Function.Injective (toString : Nat → String) := by
  intro i j h
  have hdigits := congrArg (fun s => Nat.ofDigitChars 10 s.toList 0) h
  simpa [Nat.toList_repr, Nat.ofDigitChars_toDigits] using hdigits

theorem serviceName_injective : Function.Injective serviceName := by
  intro i j h
  unfold serviceName at h
  simp only [String.append_right_inj] at h
  exact toString_injective h

namespace SwarmOrquestrator

variable {δ : Type} (docker : Docker δ) (dump : Yaml → String)

abbrev OrquestratorM (δ α : Type) := Effect Exn (SwarmOrquestrator δ) α

/-- A call of the Docker client. -/
def onClient {α : Type} (x : Effect DockerError δ α) : OrquestratorM δ α :=
  Effect.zoom client (fun c o => { o with client := c }) (Effect.mapError Exn.docker x)

def apiMaxRetries : Nat := 5

/-- The loop that scales a service: whether one of the attempts left went through. An `APIError` is retried,
whatever its text; the text only decides about the pause before the next attempt. -/
def scaleAttempts (service : Service) (replicaCount : Int) : Nat → OrquestratorM δ Bool
  | 0 => return false
  | attempts + 1 =>
      Effect.except (do
        let updatedService ← onClient (docker.get service.id)
        onClient (docker.scale updatedService replicaCount)
        return true) fun
      | .docker (.apiError _) => scaleAttempts service replicaCount attempts
      | e => throw e

/-- The loop and its `else` branch. -/
def scaleService (service : Service) (replicaCount : Int) (message : String) : OrquestratorM δ Unit := do
  if !(← scaleAttempts docker service replicaCount apiMaxRetries) then
    throw (.updatingServiceError message)

def createNode (node : Node) (environment : Dict String String := Dict.empty) : OrquestratorM δ Unit := do
  let environment := environment.set "PROMETHEUS_YML" (dump node.prometheusYml)
  let orquestrator ← get
  let service ← onClient (docker.create {
    image := orquestrator.prometheusDockerImage
    env := environment.items.map fun e => s!"{e.1}={e.2}"
    name := serviceName node.index
    publishedPort := node.port
    networks := [orquestrator.dockerNetwork] })
  modify fun o => { o with services := o.services.set node.index service }
  scaleService docker service node.replicaCount
    s!"Failed attaching port {Node.shown node.port} to {service.name} after {apiMaxRetries} attemps."
  scaleService docker service node.replicaCount
    s!"Failed scaling up service {service.name} after {apiMaxRetries} attemps."

/-- The service stays in `services`. -/
def deleteNode (node : Node) : OrquestratorM δ Unit := do
  let nodeService ← ofExcept (notNone "remove" ((← get).services.get? node.index))
  onClient (docker.remove nodeService)

end SwarmOrquestrator

end PrometheusRing
