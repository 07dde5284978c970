import PrometheusRing.Node.Yaml

/-!
# The orchestrator of containers

`Orquestrator` runs a container for each replica of a node. The source has two copies of it, which differ in the
ports that they publish. The Docker client is a parameter: what it answers may depend on all calls before.
-/

namespace PrometheusRing

open MonadExcept

/-- A handle on a container, as the Docker client gives it. -/
structure Container where
  id : String
  name : String
  deriving DecidableEq

/-- A handle on a network. -/
structure Network where
  id : String
  name : String

/-- The arguments of `containers.run`. A published port leads from a port of the container to one of the host. -/
structure ContainerSpec where
  name : String
  image : String
  network : String
  environment : Dict String String
  detach : Bool := false
  ports : Option (Int × Int) := none

/-- A call of the Docker client with its answer. -/
inductive DockerCall where
  | run (spec : ContainerSpec) (answer : Except DockerError Container)
  | stop (container : Container) (answer : Except DockerError Unit)
  | remove (container : Container) (answer : Except DockerError Unit)
  | getNetwork (name : String) (answer : Except DockerError Network)
  | connect (network : Network) (container : Container) (answer : Except DockerError Unit)

/-- What the Docker client answers after the calls so far. -/
structure ContainerClient where
  run : List DockerCall → ContainerSpec → Except DockerError Container
  stop : List DockerCall → Container → Except DockerError Unit
  remove : List DockerCall → Container → Except DockerError Unit
  getNetwork : List DockerCall → String → Except DockerError Network
  connect : List DockerCall → Network → Container → Except DockerError Unit

/-- `calls` are those that the client has answered. Only the copy of the class under `src/project` has a
`curr_port`. -/
structure Orquestrator where
  calls : List DockerCall := []
  apiNetwork : String := "prometheus-ring-api-network"
  prometheusDockerImage : String := "prom/prometheus"
  containers : Dict Nat (List Container) := Dict.empty
  currPort : Int := 39090

/-- The copies of the class, by the directory they are in. -/
inductive Copy where
  | operator
  | project

namespace Orquestrator

abbrev OrquestratorM (α : Type) := Effect Exn Orquestrator α

/-- A call of the Docker client. -/
def ask {α : Type} (answer : List DockerCall → Except DockerError α) (call : Except DockerError α → DockerCall) :
    OrquestratorM α := do
  let given := answer (← get).calls
  modify fun o => { o with calls := o.calls ++ [call given] }
  ofExcept (given.mapError Exn.docker)

/-- `del d[k]` -/
def del {ν : Type} (d : Dict Nat ν) (k : Nat) : Except Exn (Dict Nat ν) :=
  if d.contains k then .ok (d.erase k) else .error (.keyError k)

/-- `d[k]` -/
def item {ν : Type} (d : Dict Nat ν) (k : Nat) : Except Exn ν :=
  match d.get? k with
  | some v => .ok v
  | none => .error (.keyError k)

/-- What `for` iterates. -/
def iterable {α : Type} : Option (List α) → Except Exn (List α)
  | some as => .ok as
  | none => .error .typeError

/-- The `ports` of the next container. -/
def nextPorts (node : Node) : Copy → OrquestratorM (Option (Int × Int))
  | .operator => return none
  | .project => do
      modify fun o => { o with currPort := o.currPort + 1 }
      let o ← get
      return node.port.map fun port => (port, o.currPort)

variable (client : ContainerClient) (dump : Yaml → String)

/-- Attaches a container to a further network. -/
def connectNetwork (container : Container) (networkName : String) : OrquestratorM Unit := do
  let network ← ask (fun calls => client.getNetwork calls networkName) (.getNetwork networkName)
  ask (fun calls => client.connect calls network container) (.connect network container)

/-- The body of the loop over the replicas. -/
def runReplica (copy : Copy) (node : Node) (dockerNetworks : Option (List String))
    (environment : Dict String String) (i : Nat) : OrquestratorM Unit := do
  let ports ← nextPorts node copy
  let o ← get
  let spec : ContainerSpec := {
    name := s!"prometheus-{node.index}-{i}"
    image := o.prometheusDockerImage
    network := o.apiNetwork
    environment
    detach := true
    ports }
  let container ← ask (fun calls => client.run calls spec) (.run spec)
  let tracked ← ofExcept (item (← get).containers node.index)
  modify fun o => { o with containers := o.containers.set node.index (tracked ++ [container]) }
  forM (dockerNetworks.getD []) (connectNetwork client container)

def createInstance (copy : Copy) (node : Node) (dockerNetworks : Option (List String) := none)
    (environment : Dict String String := Dict.empty) : OrquestratorM Unit := do
  modify fun o => { o with containers := o.containers.set node.index [] }
  let environment := environment.set "PROMETHEUS_YML" (dump node.prometheusYml)
  -- `range` is empty for a negative number
  forM (List.range node.replicaCount.toNat) (runReplica client copy node dockerNetworks environment)

/-- The body of the loop of `delete_instance`. -/
def deleteContainer (node : Node) (container : Container) : OrquestratorM Unit := do
  ask (fun calls => client.stop calls container) (.stop container)
  ask (fun calls => client.remove calls container) (.remove container)
  let containers ← ofExcept (del (← get).containers node.index)
  modify fun o => { o with containers }

def deleteInstance (node : Node) : OrquestratorM Unit := do
  let tracked ← ofExcept (iterable ((← get).containers.get? node.index))
  forM tracked (deleteContainer client node)

end Orquestrator

end PrometheusRing
