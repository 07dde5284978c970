import PrometheusRing.Api.Main
import PrometheusRing.Api.Theorems.Targets
import PrometheusRing.Orquestrator.Theorems.Retries

/-!
# The service as a registry

What a client of the service sees is a registry of targets: a target is registered until it is unregistered, and the
list is the registry. A failure of Docker shows as an internal server error, and the request has its effect all the
same.
-/

namespace PrometheusRing.Main

open Effect

/-- A registry: the target under each id. -/
abbrev Registry := String → Option Target

/-- The registry after a request with its response. -/
def record (registry : Registry) : Request × Response → Registry
  | (.registerTarget _, .httpException _ _) => registry
  | (.registerTarget target, _) => Function.update registry target.id (some target)
  | (.unregisterTarget targetId, _) => Function.update registry targetId none
  | (.getTargets, _) => registry

/-- The groups list every registered target once, with its endpoint and id, and nothing else. -/
def Lists (registry : Registry) (groups : List TargetGroup) : Prop :=
  (groups.map (·.labels.get? "target_id")).Nodup ∧
    (∀ id address, (∃ g ∈ groups, g.labels.get? "target_id" = some id ∧ g.targets = [address]) ↔
      ∃ t, registry id = some t ∧ t.endpoint = address) ∧
    ∀ g ∈ groups, ∃ id t, registry id = some t ∧ g.labels.get? "target_id" = some id ∧ g.targets = [t.endpoint]

/-- The responses that the registry allows. -/
def Answers (registry : Registry) : Request → Response → Prop
  | .registerTarget target, response =>
      if (registry target.id).isSome then
        response = .httpException 400 s!"Error registering target: id {target.id} already exists"
      else
        response = .message "Target registered successfully!" ∨ response = .internalServerError
  | .unregisterTarget targetId, response =>
      response = .message "Target unregistered successfully!" ∨
        response = .internalServerError ∧ (registry targetId).isSome
  | .getTargets, response => ∃ groups, response = .targets groups ∧ Lists registry groups

variable {δ : Type} {stableHash : String → Nat} {docker : Docker δ} {dump : Yaml → String}
  {a a₀ : API (BinarySearchTree Nat Ref) δ}

/-- No scale-down takes a node out of the tree that has two children or index 0. -/
def SafeRequest (stableHash : String → Nat) (a : API (BinarySearchTree Nat Ref) δ) : Request → Prop
  | .unregisterTarget targetId => Ring.SafeScaleDown stableHash a.ring (.delete targetId)
  | _ => True

instance (stableHash : String → Nat) (a : API (BinarySearchTree Nat Ref) δ) : DecidablePred (SafeRequest stableHash a)
  | .registerTarget _ => inferInstanceAs (Decidable True)
  | .unregisterTarget targetId => inferInstanceAs (Decidable (Ring.SafeScaleDown stableHash a.ring (.delete targetId)))
  | .getTargets => inferInstanceAs (Decidable True)

/-- The state of the service agrees with the registry. -/
structure Agrees (stableHash : String → Nat) (a : API (BinarySearchTree Nat Ref) δ) (registry : Registry) : Prop where
  tracked : Ring.Tracked stableHash a.ring
  capacity : a.ring.args.capacity ≠ 0
  keyed : API.Keyed stableHash a.ring
  lookup : a.ring.lookup stableHash = registry

/-! ## The endpoints -/

theorem machine_registerTarget (target : Target) : machine stableHash docker dump (.registerTarget target) a =
    match API.machine stableHash docker dump (.registerTarget target) a with
      | (.ok (), a') => (.message "Target registered successfully!", a')
      | (.error (.keyAlreadyExistsError _), a') =>
          (.httpException 400 s!"Error registering target: id {target.id} already exists", a')
      | (.error _, a') => (.internalServerError, a') := by
  simp only [machine, endpoint, registerTarget, exec_except, exec_bind]
  change _ = match exec (API.registerTarget stableHash docker dump target) a with
    | (.ok (), a') => _
    | (.error (.keyAlreadyExistsError _), a') => _
    | (.error _, a') => _
  rcases exec (API.registerTarget stableHash docker dump target) a with ⟨e | u, a'⟩
  · cases e <;> rfl
  · rfl

theorem machine_unregisterTarget (targetId : String) :
    machine stableHash docker dump (.unregisterTarget targetId) a =
      match API.machine stableHash docker dump (.unregisterTarget targetId) a with
        | (.ok (), a') => (.message "Target unregistered successfully!", a')
        | (.error (.keyNotFoundError _), a') =>
            (.httpException 404 s!"Error deregistering instance: ID {targetId} not found", a')
        | (.error _, a') => (.internalServerError, a') := by
  simp only [machine, endpoint, unregisterTarget, exec_except, exec_bind]
  change _ = match exec (API.unregisterTarget stableHash docker targetId) a with
    | (.ok (), a') => _
    | (.error (.keyNotFoundError _), a') => _
    | (.error _, a') => _
  rcases exec (API.unregisterTarget stableHash docker targetId) a with ⟨e | u, a'⟩
  · cases e <;> rfl
  · rfl

/-! ## What the API does behind them -/

namespace Agrees

variable {registry : Registry} {target : Target} {targetId : String}

theorem next (h : Agrees stableHash a registry) (op : API.Op) (hsafe : Ring.SafeScaleDown stableHash a.ring op.ringOp)
    {o : Ring.Outcome} {s' : Ring.TreeRing} (hring : Ring.machine stableHash op.ringOp a.ring = (o, s'))
    (orq : SwarmOrquestrator δ) :
    Agrees stableHash ⟨s', orq⟩ (Ring.register registry (op.ringOp, o)) := by
  have hstep := Ring.step_machine h.tracked.toSound stableHash op.ringOp
  have hkeyed := h.keyed.machine h.tracked.toPlaced op
  rw [hring] at hstep hkeyed
  refine ⟨h.tracked.step hsafe.safeMerge.1 hstep, ?_, hkeyed, ?_⟩
  · change s'.args.capacity ≠ 0
    rw [Ring.args_step hstep]
    exact h.capacity
  · rw [← h.lookup]
    exact Ring.lookup_step h.tracked h.capacity hsafe.safeMerge hstep

/-- A registered id is refused. -/
theorem register_registered (h : Agrees stableHash a registry) (hreg : (registry target.id).isSome) :
    machine stableHash docker dump (.registerTarget target) a =
      (.httpException 400 s!"Error registering target: id {target.id} already exists", a) := by
  have hstep := Ring.step_machine h.tracked.toSound stableHash (.insert target (some target.id) "")
  obtain ⟨hout, hsame⟩ := Ring.insert_existing (h.lookup ▸ hreg) hstep
  have hring : Ring.machine stableHash (.insert target (some target.id) "") a.ring = (_, a.ring) :=
    Prod.ext hout hsame
  have hcall : API.machine stableHash docker dump (.registerTarget target) a = _ :=
    API.exec_call h.tracked.toPlaced (.registerTarget target) hring
  rw [machine_registerTarget, hcall]
  rfl

theorem insert_returns (h : Agrees stableHash a registry) (hnew : registry target.id = none)
    {o : Ring.Outcome} {s' : Ring.TreeRing}
    (hstep : Ring.Step stableHash a.ring (.insert target (some target.id) "") o s') : ∃ x, o = .ok x := by
  have hlookup : a.ring.lookup stableHash target.id = none := (congrFun h.lookup target.id).trans hnew
  cases hstep with
  | Ins_Exists hk hn hkey =>
      obtain rfl : target.id = _ := hk
      rw [Ring.hasKey_of_lookup hn, hlookup] at hkey
      cases hkey
  | Ins_NoCapacity hk hn _ hz => exact absurd hz (h.tracked.capacity_ne h.capacity hn)
  | Ins_Stored => exact ⟨_, rfl⟩
  | Ins_Split => exact ⟨_, rfl⟩

/-- Another id is stored, whether or not Docker then fails. -/
theorem register_new (docker : Docker δ) (dump : Yaml → String) (h : Agrees stableHash a registry)
    (hnew : registry target.id = none) :
    ∃ r a', machine stableHash docker dump (.registerTarget target) a = (r, a') ∧
      (r = .message "Target registered successfully!" ∨ r = .internalServerError) ∧
      Agrees stableHash a' (Function.update registry target.id (some target)) := by
  have hstep := Ring.step_machine h.tracked.toSound stableHash (.insert target (some target.id) "")
  obtain ⟨x, hx⟩ := h.insert_returns hnew hstep
  generalize hs' : (Ring.machine stableHash (.insert target (some target.id) "") a.ring).2 = s'
  have hring : Ring.machine stableHash (API.Op.ringOp (.registerTarget target)) a.ring = (.ok x, s') :=
    Prod.ext hx hs'
  have hcall : API.machine stableHash docker dump (.registerTarget target) a = _ :=
    API.exec_call h.tracked.toPlaced (.registerTarget target) hring
  have hnext := h.next (.registerTarget target) trivial hring
  rw [machine_registerTarget, hcall]
  cases x with
  | none => exact ⟨_, _, rfl, Or.inl rfl, hnext _⟩
  | some newNode =>
      simp only [API.followUp]
      cases hcreate : exec (SwarmOrquestrator.createNode docker dump (s'.node newNode)) a.orquestrator with
      | mk r orq =>
          cases r with
          | ok u => exact ⟨_, _, rfl, Or.inl rfl, hnext _⟩
          | error e =>
              rcases SwarmOrquestrator.createNode_raises hcreate with ⟨d, rfl⟩ | ⟨text, rfl⟩
              · exact ⟨_, _, rfl, Or.inr rfl, hnext _⟩
              · exact ⟨_, _, rfl, Or.inr rfl, hnext _⟩

/-- An id that is not registered is unregistered all the same. -/
theorem unregister_missing (h : Agrees stableHash a registry) (hmissing : registry targetId = none) :
    machine stableHash docker dump (.unregisterTarget targetId) a =
      (.message "Target unregistered successfully!", a) := by
  have hstep := Ring.step_machine h.tracked.toSound stableHash (.delete targetId)
  obtain ⟨hout, hsame⟩ := Ring.delete_missing ((congrFun h.lookup targetId).trans hmissing) hstep
  have hring : Ring.machine stableHash (.delete targetId) a.ring = (_, a.ring) := Prod.ext hout hsame
  have hcall : API.machine stableHash docker dump (.unregisterTarget targetId) a = _ :=
    API.exec_call h.tracked.toPlaced (.unregisterTarget targetId) hring
  rw [machine_unregisterTarget, hcall]
  rfl

theorem delete_returns (h : Agrees stableHash a registry) (hreg : (registry targetId).isSome)
    (hsafe : Ring.SafeScaleDown stableHash a.ring (.delete targetId)) {o : Ring.Outcome} {s' : Ring.TreeRing}
    (hstep : Ring.Step stableHash a.ring (.delete targetId) o s') : ∃ x, o = .ok x := by
  cases o with
  | ok x => exact ⟨x, rfl⟩
  | error e =>
      obtain ⟨-, rfl⟩ := Ring.step_error h.tracked h.capacity hsafe.safeMerge hstep
      have hgone := Ring.lookup_delete h.tracked.toPlaced hstep
      rw [h.lookup] at hgone
      rw [hgone] at hreg
      cases hreg

/-- A registered id is removed, whether or not Docker then fails. -/
theorem unregister_registered (docker : Docker δ) (dump : Yaml → String) (h : Agrees stableHash a registry)
    (hreg : (registry targetId).isSome) (hsafe : Ring.SafeScaleDown stableHash a.ring (.delete targetId)) :
    ∃ r a', machine stableHash docker dump (.unregisterTarget targetId) a = (r, a') ∧
      (r = .message "Target unregistered successfully!" ∨ r = .internalServerError) ∧
      Agrees stableHash a' (Function.update registry targetId none) := by
  have hstep := Ring.step_machine h.tracked.toSound stableHash (.delete targetId)
  obtain ⟨x, hx⟩ := h.delete_returns hreg hsafe hstep
  generalize hs' : (Ring.machine stableHash (.delete targetId) a.ring).2 = s'
  have hring : Ring.machine stableHash (API.Op.ringOp (.unregisterTarget targetId)) a.ring = (.ok x, s') :=
    Prod.ext hx hs'
  have hcall : API.machine stableHash docker dump (.unregisterTarget targetId) a = _ :=
    API.exec_call h.tracked.toPlaced (.unregisterTarget targetId) hring
  have hnext := h.next (.unregisterTarget targetId) hsafe hring
  rw [machine_unregisterTarget, hcall]
  cases x with
  | none => exact ⟨_, _, rfl, Or.inl rfl, hnext _⟩
  | some deleted =>
      simp only [API.followUp]
      cases hdelete : exec (SwarmOrquestrator.deleteNode docker (s'.node deleted)) a.orquestrator with
      | mk r orq =>
          cases r with
          | ok u => exact ⟨_, _, rfl, Or.inl rfl, hnext _⟩
          | error e =>
              cases e with
              | keyNotFoundError message =>
                  exact absurd (congrArg Prod.fst hdelete) API.deleteNode_error
              | _ => exact ⟨_, _, rfl, Or.inr rfl, hnext _⟩

/-- The list is the registry. -/
theorem lists (h : Agrees stableHash a registry) : Lists registry a.buildTargetsJson := by
  have hlisted : ∀ g ∈ a.buildTargetsJson, ∃ id t, registry id = some t ∧ g.labels.get? "target_id" = some id ∧
      g.targets = [t.endpoint] := by
    intro g hg
    obtain ⟨r, hr, k, t, ht, rfl⟩ := API.mem_buildTargetsJson.mp hg
    have hlookup : a.ring.lookup stableHash k = some t := h.tracked.lookup_eq_some.mpr ⟨r, hr, ht⟩
    exact ⟨k, t, h.lookup ▸ hlookup, by rw [API.get?_targetId, h.keyed k t hlookup], rfl⟩
  refine ⟨API.nodup_targetIds h.tracked.toPlaced h.keyed, fun id address => ?_, hlisted⟩
  constructor
  · rintro ⟨g, hg, hid, haddress⟩
    obtain ⟨id', t, ht, hid', htargets⟩ := hlisted g hg
    obtain rfl : id = id' := Option.some.inj (hid.symm.trans hid')
    exact ⟨t, ht, List.head_eq_of_cons_eq (htargets.symm.trans haddress)⟩
  · rintro ⟨t, ht, rfl⟩
    rw [← h.lookup] at ht
    obtain ⟨r, hr, hget⟩ := h.tracked.lookup_eq_some.mp ht
    refine ⟨_, API.mem_buildTargetsJson.mpr ⟨r, hr, id, t, hget, rfl⟩, ?_, rfl⟩
    rw [API.get?_targetId, h.keyed id t ht]

/-- A request is answered as the registry allows, and the registry that records it agrees with the service. -/
theorem step (h : Agrees stableHash a registry) (request : Request) (hsafe : SafeRequest stableHash a request) :
    Answers registry request (machine stableHash docker dump request a).1 ∧
      Agrees stableHash (machine stableHash docker dump request a).2
        (record registry (request, (machine stableHash docker dump request a).1)) := by
  cases request with
  | registerTarget target =>
      cases hreg : registry target.id with
      | some t =>
          have hsome : (registry target.id).isSome := by rw [hreg]; rfl
          rw [h.register_registered hsome]
          exact ⟨(if_pos hsome).mpr rfl, h⟩
      | none =>
          have hnone : ¬ (registry target.id).isSome := by simp [hreg]
          obtain ⟨r, a', hmachine, hr, hnext⟩ := h.register_new docker dump hreg
          rw [hmachine]
          refine ⟨(if_neg hnone).mpr hr, ?_⟩
          rcases hr with rfl | rfl <;> exact hnext
  | unregisterTarget targetId =>
      cases hreg : registry targetId with
      | none =>
          rw [h.unregister_missing hreg]
          refine ⟨Or.inl rfl, ?_⟩
          rw [record, Function.update_eq_self_iff.mpr hreg.symm]
          exact h
      | some t =>
          have hsome : (registry targetId).isSome := by rw [hreg]; rfl
          obtain ⟨r, a', hmachine, hr, hnext⟩ := h.unregister_registered docker dump hsome hsafe
          rw [hmachine]
          refine ⟨hr.imp_right fun hr => ⟨hr, hsome⟩, ?_⟩
          rcases hr with rfl | rfl <;> exact hnext
  | getTargets => exact ⟨⟨_, rfl, h.lists⟩, h⟩

end Agrees

/-- The service starts on the ring of its settings, whatever Docker did for the first node. -/
theorem start_ring {settings : Settings} {client : δ} (h : start docker dump settings client = .ok a₀) :
    settings.ring (BinarySearchTree Nat Ref) = .ok a₀.ring := by
  unfold start at h
  cases hring : settings.ring (BinarySearchTree Nat Ref) with
  | error e => rw [hring] at h; cases h
  | ok s₀ =>
      rw [hring] at h
      simp only [bind, Except.bind] at h
      split at h
      case h_1 hcreate =>
          cases h
          rw [← show _ = a₀ from congrArg Prod.snd hcreate]
          rfl
      case h_2 => cases h

theorem Agrees.start {settings : Settings} {client : δ} (hcapacity : settings.nodeCapacity ≠ 0)
    (h : start docker dump settings client = .ok a₀) : Agrees stableHash a₀ fun _ => none := by
  obtain ⟨ring, orquestrator⟩ := a₀
  obtain ⟨hargs, rfl : ring = _⟩ := Ring.init_eq_ok.mp (start_ring h)
  have hlookup (k : String) : (Ring.fresh settings.nodeArgs hargs settings.nodeMinLoad settings.nodeMaxLoad
      AbstractDataType.empty 19090 : Ring.TreeRing).lookup stableHash k = none :=
    Ring.lookup_fresh settings.nodeArgs hargs settings.nodeMinLoad settings.nodeMaxLoad 19090
  exact {
    tracked := Ring.Tracked.fresh settings.nodeArgs hargs settings.nodeMinLoad settings.nodeMaxLoad 19090
    capacity := hcapacity
    keyed := fun k t ht => absurd ((hlookup k).symm.trans ht) (by simp)
    lookup := funext hlookup }

/-- Every request is answered as the registry of what came before allows. -/
theorem responses_follow_registry {settings : Settings} {client : δ} (hcapacity : settings.nodeCapacity ≠ 0)
    (hstart : start docker dump settings client = .ok a₀) (requests : List Request)
    (hsafe : (machine stableHash docker dump).Guarded (SafeRequest stableHash) requests a₀)
    {pre post : List (Request × Response)} {request : Request} {response : Response}
    (htrace : (machine stableHash docker dump).trace requests a₀ = pre ++ (request, response) :: post) :
    Answers (Machine.observe record (fun _ => none) pre) request response := by
  obtain ⟨requests₁, -, hsafe₁, rfl, hrequest, hresponse, -⟩ := hsafe.cut htrace
  have hagrees := hsafe₁.refines (Agrees stableHash)
    (fun a registry request (h : Agrees stableHash a registry) hsafe => by exact (h.step request hsafe).2)
    (Agrees.start hcapacity hstart)
  rw [show response = _ from hresponse]
  exact (hagrees.step request hrequest).1

theorem responses_follow_registry_default :
    let register (id : String) : Request := .registerTarget ⟨id, id, "host", 8000⟩
    let orquestrator : SwarmOrquestrator Swarm := { client := {}, prometheusDockerImage := "prometheus-ring-node" }
    let a₀ := (exec (API.createFirstNode Swarm.docker fun _ => "")
      ⟨Settings.freshRing (BinarySearchTree Nat Ref), orquestrator⟩).2
    let a := (machine String.length Swarm.docker fun _ => "").run [register "a", register "bbbb"] a₀
    (machine String.length Swarm.docker (fun _ => "") (register "bbbb") a).1 =
      .httpException 400 "Error registering target: id bbbb already exists" := by
  intro register orquestrator a₀ a
  have hstart : start Swarm.docker (fun _ => "") {} {} = .ok a₀ := by
    rw [start, Settings.ring_default]
    rfl
  have hsafe : (machine String.length Swarm.docker fun _ => "").Guarded (SafeRequest String.length)
      [register "a", register "bbbb", register "bbbb"] a₀ := by decide +kernel
  have htrace : (machine String.length Swarm.docker fun _ => "").trace
        [register "a", register "bbbb", register "bbbb"] a₀ =
      (machine String.length Swarm.docker fun _ => "").trace [register "a", register "bbbb"] a₀ ++
        (register "bbbb", (machine String.length Swarm.docker (fun _ => "") (register "bbbb") a).1) :: [] := rfl
  have hregistered : (Machine.observe record (fun _ => none)
      ((machine String.length Swarm.docker fun _ => "").trace [register "a", register "bbbb"] a₀) "bbbb").isSome := by
    decide +kernel
  generalize (machine String.length Swarm.docker fun _ => "").trace [register "a", register "bbbb"] a₀ = pre
    at htrace hregistered
  generalize (machine String.length Swarm.docker (fun _ => "") (register "bbbb") a).1 = response at htrace ⊢
  have hanswer := responses_follow_registry (by decide) hstart _ hsafe htrace
  exact ((if_pos hregistered).mp hanswer).trans (congrArg (Response.httpException 400) (by decide +kernel))

end PrometheusRing.Main
