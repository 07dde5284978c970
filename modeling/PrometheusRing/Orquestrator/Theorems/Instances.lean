import PrometheusRing.Orquestrator.Orquestrator

/-!
# Creating an instance and deleting it again

`delete_instance` takes the node out of `containers` within its loop. So it works for a node with exactly one
replica: without any the node stays in, and with more the second round raises.
-/

namespace PrometheusRing

open Effect

namespace DockerCall

/-! ## What became of the containers -/

def started? : DockerCall → Option Container
  | .run _ (.ok container) => some container
  | _ => none

def stopped? : DockerCall → Option Container
  | .stop container (.ok ()) => some container
  | _ => none

def removed? : DockerCall → Option Container
  | .remove container (.ok ()) => some container
  | _ => none

end DockerCall

/-- Every call of the client succeeds. -/
structure ContainerClient.Succeeds (client : ContainerClient) : Prop where
  run (calls : List DockerCall) (spec : ContainerSpec) : ∃ container, client.run calls spec = .ok container
  stop (calls : List DockerCall) (container : Container) : client.stop calls container = .ok ()
  remove (calls : List DockerCall) (container : Container) : client.remove calls container = .ok ()
  getNetwork (calls : List DockerCall) (name : String) : ∃ network, client.getNetwork calls name = .ok network
  connect (calls : List DockerCall) (network : Network) (container : Container) :
    client.connect calls network container = .ok ()

namespace Orquestrator

/-- The further calls have started, stopped and removed these containers, in this order. -/
structure Did (o o' : Orquestrator) (started stopped removed : List Container) : Prop where
  calls : ∃ calls, o'.calls = o.calls ++ calls ∧ calls.filterMap DockerCall.started? = started ∧
    calls.filterMap DockerCall.stopped? = stopped ∧ calls.filterMap DockerCall.removed? = removed

variable {client : ContainerClient} {node : Node} {o o' o'' : Orquestrator} {containers : Dict Nat (List Container)}
  {started started' stopped stopped' removed removed' tracked : List Container}

theorem Did.nothing (h : o'.calls = o.calls) : Did o o' [] [] [] := ⟨[], by simp [h], rfl, rfl, rfl⟩

theorem Did.trans (h : Did o o' started stopped removed) (h' : Did o' o'' started' stopped' removed') :
    Did o o'' (started ++ started') (stopped ++ stopped') (removed ++ removed') := by
  obtain ⟨calls, hcalls, rfl, rfl, rfl⟩ := h
  obtain ⟨calls', hcalls', rfl, rfl, rfl⟩ := h'
  exact ⟨calls ++ calls', by rw [hcalls', hcalls, List.append_assoc], by simp, by simp, by simp⟩

/-- The orchestrator after a further call. -/
def called (o : Orquestrator) (call : DockerCall) : Orquestrator := { o with calls := o.calls ++ [call] }

theorem Did.called (o : Orquestrator) (call : DockerCall) :
    Did o (o.called call) call.started?.toList call.stopped?.toList call.removed?.toList :=
  have hone {f : DockerCall → Option Container} : [call].filterMap f = (f call).toList := by
    cases h : f call <;> simp [h]
  ⟨[call], rfl, hone, hone, hone⟩

theorem exec_ask {α : Type} (answer : List DockerCall → Except DockerError α)
    (call : Except DockerError α → DockerCall) (o : Orquestrator) :
    exec (ask answer call) o =
      ((answer o.calls).mapError Exn.docker, o.called (call (answer o.calls))) := by
  simp only [ask, exec_bind, exec_get, exec_modify, exec_ofExcept]
  rfl

/-! ## Creating -/

theorem exec_nextPorts (node : Node) (copy : Copy) :
    ∃ ports o', exec (nextPorts node copy) o = (.ok ports, o') ∧ o'.containers = o.containers ∧
      Did o o' [] [] [] := by
  cases copy with
  | operator => exact ⟨_, o, rfl, rfl, Did.nothing rfl⟩
  | project => exact ⟨_, { o with currPort := o.currPort + 1 }, rfl, rfl, Did.nothing rfl⟩

section

variable (hc : client.Succeeds)
include hc

theorem exec_connectNetwork (container : Container) (networkName : String) :
    ∃ o', exec (connectNetwork client container networkName) o = (.ok (), o') ∧
      o'.containers = o.containers ∧ Did o o' [] [] [] := by
  obtain ⟨network, hnetwork⟩ := hc.getNetwork o.calls networkName
  have hconnect := hc.connect (o.called (.getNetwork networkName (.ok network))).calls network container
  refine ⟨(o.called (.getNetwork networkName (.ok network))).called (.connect network container (.ok ())), ?_, rfl,
    (Did.called o _).trans (Did.called _ _)⟩
  simp only [connectNetwork, exec_bind, exec_ask, hnetwork, hconnect, Except.mapError]

theorem exec_connectNetworks (container : Container) (networkNames : List String) :
    ∃ o', exec (forM networkNames (connectNetwork client container)) o = (.ok (), o') ∧
      o'.containers = o.containers ∧ Did o o' [] [] [] := by
  induction networkNames generalizing o with
  | nil => exact ⟨o, rfl, rfl, Did.nothing rfl⟩
  | cons networkName networkNames ih =>
      obtain ⟨o₁, hfirst, hcontainers, hdid⟩ := exec_connectNetwork (o := o) hc container networkName
      obtain ⟨o₂, hrest, hcontainers', hdid'⟩ := @ih o₁
      refine ⟨o₂, ?_, hcontainers'.trans hcontainers, hdid.trans hdid'⟩
      rw [exec_forM_cons, hfirst]
      exact hrest

/-- Each round starts one container and tracks it. -/
theorem exec_runReplica (copy : Copy) (networks : Option (List String)) (environment : Dict String String)
    (htracked : o.containers = containers.set node.index tracked) (i : Nat) :
    ∃ container o', exec (runReplica client copy node networks environment i) o = (.ok (), o') ∧
      o'.containers = containers.set node.index (tracked ++ [container]) ∧ Did o o' [container] [] [] := by
  obtain ⟨ports, o₁, hports, hcontainers₁, hdid₁⟩ := exec_nextPorts (o := o) node copy
  simp only [runReplica, exec_bind, hports, exec_get]
  generalize ContainerSpec.mk _ _ _ _ _ _ = spec
  obtain ⟨container, hrun⟩ := hc.run o₁.calls spec
  have hitem : item (o₁.called (.run spec (.ok container))).containers node.index = .ok tracked := by
    change item o₁.containers node.index = _
    rw [hcontainers₁, htracked, item, Dict.get?_set_self]
  simp only [exec_ask, hrun, Except.mapError, hitem, exec_ofExcept, exec_modify]
  generalize ho₂ : Orquestrator.mk _ _ _ _ _ = o₂
  obtain ⟨o₃, hconnect, hcontainers₃, hdid₃⟩ := exec_connectNetworks (o := o₂) hc container (networks.getD [])
  have hcontainers₂ : o₂.containers = containers.set node.index (tracked ++ [container]) := by
    rw [← ho₂]
    change o₁.containers.set node.index (tracked ++ [container]) = _
    rw [hcontainers₁, htracked, Dict.set_set]
  have hdid₂ : Did o₁ o₂ [container] [] [] := by
    rw [← ho₂]
    exact ⟨(Did.called o₁ (.run spec (.ok container))).calls⟩
  refine ⟨container, o₃, hconnect, hcontainers₃.trans hcontainers₂, ?_⟩
  exact (hdid₁.trans hdid₂).trans hdid₃

theorem exec_runReplicas (copy : Copy) (networks : Option (List String)) (environment : Dict String String)
    (htracked : o.containers = containers.set node.index tracked) (is : List Nat) :
    ∃ started o', exec (forM is (runReplica client copy node networks environment)) o = (.ok (), o') ∧
      o'.containers = containers.set node.index (tracked ++ started) ∧ started.length = is.length ∧
      Did o o' started [] [] := by
  induction is generalizing o tracked with
  | nil => exact ⟨[], o, rfl, by rw [List.append_nil]; exact htracked, rfl, Did.nothing rfl⟩
  | cons i is ih =>
      obtain ⟨container, o₁, hfirst, htracked₁, hdid⟩ :=
        exec_runReplica hc copy networks environment htracked i
      obtain ⟨started, o₂, hrest, htracked₂, hlength, hdid'⟩ := ih htracked₁
      refine ⟨container :: started, o₂, ?_, ?_, congrArg Nat.succ hlength, hdid.trans hdid'⟩
      · rw [exec_forM_cons, hfirst]
        exact hrest
      · rw [htracked₂, List.append_assoc, List.singleton_append]

/-- As many containers are started as the node has replicas, and all of them are tracked. -/
theorem exec_createInstance (dump : Yaml → String) (copy : Copy) (node : Node) (networks : Option (List String))
    (environment : Dict String String) :
    ∃ started o', exec (createInstance client dump copy node networks environment) o = (.ok (), o') ∧
      o'.containers = o.containers.set node.index started ∧ started.length = node.replicaCount.toNat ∧
      Did o o' started [] [] := by
  simp only [createInstance, exec_bind, exec_modify]
  generalize ho₁ : Orquestrator.mk _ _ _ _ _ = o₁
  have htracked : o₁.containers = o.containers.set node.index [] := by rw [← ho₁]
  obtain ⟨started, o₂, hloop, htracked₂, hlength, hdid⟩ := exec_runReplicas hc copy networks
    (environment.set "PROMETHEUS_YML" (dump node.prometheusYml)) htracked (List.range node.replicaCount.toNat)
  refine ⟨started, o₂, hloop, htracked₂, hlength.trans List.length_range, ?_⟩
  exact (Did.nothing (by rw [← ho₁])).trans hdid

/-! ## Deleting -/

theorem exec_deleteContainer (node : Node) (container : Container) :
    ∃ o₁, o₁.containers = o.containers ∧ Did o o₁ [] [container] [container] ∧
      exec (deleteContainer client node container) o =
        if o.containers.contains node.index then
          (.ok (), { o₁ with containers := o.containers.erase node.index })
        else (.error (.keyError node.index), o₁) := by
  have hstop := hc.stop o.calls container
  have hremove := hc.remove (o.called (.stop container (.ok ()))).calls container
  refine ⟨(o.called (.stop container (.ok ()))).called (.remove container (.ok ())), rfl,
    (Did.called o _).trans (Did.called _ _), ?_⟩
  generalize ho₁ : (o.called _).called _ = o₁
  have hcontainers : o₁.containers = o.containers := by rw [← ho₁]; rfl
  simp only [deleteContainer, exec_bind, exec_ask, hstop, hremove, Except.mapError, exec_get, exec_ofExcept, ho₁,
    hcontainers, del]
  cases o.containers.contains node.index <;> rfl

/-- The only round takes the node out of `containers`. -/
theorem exec_deleteOne (htracks : o.containers.contains node.index = true) (container : Container) :
    ∃ o', exec (forM [container] (deleteContainer client node)) o = (.ok (), o') ∧
      o'.containers = o.containers.erase node.index ∧ Did o o' [] [container] [container] := by
  obtain ⟨o₁, -, ⟨hdid⟩, hdelete⟩ := exec_deleteContainer hc node container (o := o)
  rw [if_pos htracks] at hdelete
  refine ⟨{ o₁ with containers := o.containers.erase node.index }, ?_, rfl, ⟨hdid⟩⟩
  rw [exec_forM_cons, hdelete]
  rfl

/-- The second round does not find the node in `containers` any more. -/
theorem exec_deleteMany (htracks : o.containers.contains node.index = true) (first second : Container)
    (rest : List Container) :
    (exec (forM (first :: second :: rest) (deleteContainer client node)) o).1 = .error (.keyError node.index) := by
  obtain ⟨o₁, -, -, hfirst⟩ := exec_deleteContainer hc node first (o := o)
  rw [if_pos htracks] at hfirst
  obtain ⟨o₂, -, -, hsecond⟩ :=
    exec_deleteContainer hc node second (o := { o₁ with containers := o.containers.erase node.index })
  have hgone : (o.containers.erase node.index).contains node.index = false := by simp [Dict.contains_erase]
  simp only [hgone, Bool.false_eq_true, ↓reduceIte] at hsecond
  simp only [exec_forM_cons, hfirst, hsecond]

end

/-! ## Both -/

/-- The instance of a node is created and deleted again. -/
def createThenDelete (client : ContainerClient) (dump : Yaml → String) (copy : Copy) (node : Node)
    (networks : Option (List String)) (environment : Dict String String) : OrquestratorM Unit := do
  createInstance client dump copy node networks environment
  deleteInstance client node

/-- Nothing is raised, the node's containers have been started, each of them has been stopped and removed once, and
`containers` is as it was. -/
def CancelsOut (node : Node) (o : Orquestrator) (outcome : Except Exn Unit) (o' : Orquestrator) : Prop :=
  outcome = .ok () ∧ o'.containers = o.containers ∧
    ∃ calls, o'.calls = o.calls ++ calls ∧
      (calls.filterMap DockerCall.started?).length = node.replicaCount.toNat ∧
      ∀ container ∈ calls.filterMap DockerCall.started?,
        (calls.filterMap DockerCall.stopped?).count container = 1 ∧
          (calls.filterMap DockerCall.removed?).count container = 1

/-- Deleting the instance undoes creating it exactly if the node has one replica. -/
theorem create_delete_cancels (hc : client.Succeeds) (dump : Yaml → String) (copy : Copy) (node : Node)
    (networks : Option (List String)) (environment : Dict String String)
    (hnew : o.containers.get? node.index = none) :
    let r := exec (createThenDelete client dump copy node networks environment) o
    CancelsOut node o r.1 r.2 ↔ node.replicaCount = 1 := by
  intro r
  have hcontains : o.containers.contains node.index = false := by rw [Dict.contains, hnew]; rfl
  obtain ⟨started, o₁, hcreate, htracked, hlength, hdid⟩ := exec_createInstance hc dump copy node networks environment
    (o := o)
  have hr : r = exec (forM started (deleteContainer client node)) o₁ := by
    change exec (createThenDelete client dump copy node networks environment) o = _
    simp only [createThenDelete, deleteInstance, exec_bind, hcreate, exec_get, htracked, Dict.get?_set_self, iterable,
      exec_ofExcept]
  have htracks : o₁.containers.contains node.index = true := by
    rw [Dict.contains_iff, htracked]
    exact ⟨started, Dict.get?_set_self _ _ _⟩
  cases started with
  | nil =>
      have hcount : node.replicaCount ≠ 1 := by
        rw [List.length_nil] at hlength
        omega
      refine iff_of_false (fun h => ?_) hcount
      have hsame : o₁.containers = o.containers := by rw [← h.2.1, hr]; rfl
      rw [hsame, hcontains] at htracks; cases htracks
  | cons first rest =>
      cases rest with
      | nil =>
          have hcount : node.replicaCount = 1 := by
            rw [List.length_singleton] at hlength
            omega
          refine iff_of_true ?_ hcount
          obtain ⟨o₂, hdelete, herase, hdid'⟩ := exec_deleteOne hc htracks first
          obtain ⟨calls, hcalls, hstarted, hstopped, hremoved⟩ := hdid.trans hdid'
          rw [hr, hdelete]
          refine ⟨rfl, ?_, calls, hcalls, by rw [hstarted]; exact hlength, fun x hx => ?_⟩
          · change o₂.containers = _
            rw [herase, htracked, Dict.erase_set hcontains]
          · rw [hstarted] at hx
            obtain rfl := List.mem_singleton.mp hx
            rw [hstopped, hremoved]
            simp
      | cons second rest =>
          have hcount : node.replicaCount ≠ 1 := by
            rw [List.length_cons, List.length_cons] at hlength
            omega
          refine iff_of_false (fun h => ?_) hcount
          have hraise : r.1 = .error (.keyError node.index) := by rw [hr, exec_deleteMany hc htracks]
          rw [h.1] at hraise; cases hraise

/-- A client that succeeds always. The id of a container is the number of the call that started it. -/
def countingClient : ContainerClient where
  run calls spec := .ok ⟨toString calls.length, spec.name⟩
  stop _ _ := .ok ()
  remove _ _ := .ok ()
  getNetwork _ name := .ok ⟨name, name⟩
  connect _ _ _ := .ok ()

theorem countingClient_succeeds : countingClient.Succeeds where
  run _ _ := ⟨_, rfl⟩
  stop _ _ := rfl
  remove _ _ := rfl
  getNetwork _ _ := ⟨_, rfl⟩
  connect _ _ _ := rfl

theorem create_delete_cancels_one :
    let node := Node.new { capacity := 10, sdProvider := some "consul" } 5 none
    let r := exec (createThenDelete countingClient (fun _ => "") .project node none Dict.empty) {}
    CancelsOut node {} r.1 r.2 :=
  (create_delete_cancels countingClient_succeeds _ _ _ _ _ rfl).mpr rfl

/-- With three replicas the second round raises, and the third container is neither stopped nor tracked. -/
theorem delete_instance_raises :
    let node := Node.new { capacity := 10, sdProvider := some "consul", replicaCount := 3 } 5 none
    let r := exec (createThenDelete countingClient (fun _ => "") .operator node none Dict.empty) {}
    r.1 = .error (.keyError 5) ∧ r.2.containers.get? 5 = none ∧
      (r.2.calls.filterMap DockerCall.started?).length = 3 ∧
      (r.2.calls.filterMap DockerCall.removed?).length = 2 ∧ ¬ CancelsOut node {} r.1 r.2 := by
  intro node r
  have hraise : r.1 = .error (.keyError 5) := by decide +kernel
  refine ⟨hraise, by decide +kernel, by decide +kernel, by decide +kernel, fun h => ?_⟩
  rw [h.1] at hraise; cases hraise

end Orquestrator

end PrometheusRing
