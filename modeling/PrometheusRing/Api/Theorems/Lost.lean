import PrometheusRing.Api.Theorems.Failures
import PrometheusRing.Api.Theorems.Services
import PrometheusRing.Orquestrator.Theorems.Retries

/-!
# Services that were never created

A node whose service the client did not create stays in the ring, and nothing makes up for it: as long as the node is
there, the orchestrator has no service under its index, and the call that takes the node out raises.
-/

namespace PrometheusRing

open Effect

variable {δ : Type} {docker : Docker δ} {dump : Yaml → String}

/-! ## What the orchestrator tracks -/

namespace SwarmOrquestrator

variable {o : SwarmOrquestrator δ} {node : Node}

/-- A call that creates a service tracks it under the node's index, and changes nothing else. -/
theorem services_createNode : (exec (createNode docker dump node) o).2.services = o.services ∨
    ∃ x, (exec (createNode docker dump node) o).2.services = o.services.set node.index x := by
  cases hcreate : exec (docker.create (nodeSpec dump o node)) o.client with
  | mk r c =>
      cases r with
      | error d =>
          rw [exec_createNode_eq, hcreate]
          exact Or.inl rfl
      | ok x =>
          obtain ⟨c', -, hcall⟩ := createNode_tracking (I := fun _ => True) hcreate (fun _ _ => trivial) trivial
          exact Or.inr ⟨x, congrArg services hcall⟩

theorem services_createNode_error {d : DockerError}
    (h : (exec (docker.create (nodeSpec dump o node)) o.client).1 = .error d) :
    (exec (createNode docker dump node) o).2.services = o.services := by
  rw [exec_createNode_eq]
  cases hcreate : exec (docker.create (nodeSpec dump o node)) o.client with
  | mk r c =>
      rw [hcreate] at h
      obtain rfl : r = .error d := h
      rfl

theorem services_deleteNode : (exec (deleteNode docker node) o).2.services = o.services := by
  simp only [deleteNode, exec_bind, exec_get, exec_ofExcept]
  cases o.services.get? node.index with
  | none => rfl
  | some x => rfl

/-- Where no service is tracked, `None.remove` is called. -/
theorem deleteNode_untracked (h : o.services.get? node.index = none) :
    exec (deleteNode docker node) o = (.error (.attributeError "remove"), o) := by
  simp only [deleteNode, exec_bind, exec_get, exec_ofExcept, h, notNone]

end SwarmOrquestrator

namespace API

variable {stableHash : String → Nat} {a : API (BinarySearchTree Nat Ref) δ} {r : Ref} {i : Nat} {x : Option Service} {op : Op}

/-- The node has left the ring for good, or is there and the orchestrator has `x` under its index. -/
structure Lost (stableHash : String → Nat) (r : Ref) (i : Nat) (x : Option Service)
    (a : API (BinarySearchTree Nat Ref) δ) : Prop where
  tracked : Ring.Tracked stableHash a.ring
  indices : a.ring.DistinctIndices
  allocated : r < a.ring.heap.next
  index : (a.ring.node r).index = i
  untracked : r ∈ a.ring.getNodes → a.orquestrator.services.get? i = x

/-- The scale-down takes out no other node, and the split brings in an index that the ring has not. -/
def Regular (stableHash : String → Nat) (a : API (BinarySearchTree Nat Ref) δ) (op : Op) : Prop :=
  Ring.CleanScaleDown stableHash a.ring op.ringOp ∧ Ring.SplitsElsewhere stableHash a.ring op.ringOp

instance : DecidablePred (Regular stableHash a) := fun _ => inferInstanceAs (Decidable (_ ∧ _))

theorem Regular.indices (hop : Regular stableHash a op) (ht : Ring.Tracked stableHash a.ring) (hi : a.ring.DistinctIndices)
    {o : Ring.Outcome} {s' : Ring.TreeRing} (h : Ring.Step stableHash a.ring op.ringOp o s') : s'.DistinctIndices := by
  refine hi.step ht.toPlaced h ?_
  intro t k u n m he hup hm
  have hsplit := hop.2
  rw [he] at hsplit
  exact hsplit.index_ne ht hup hm

theorem Regular.ring (hop : Regular stableHash a op) (ht : Ring.Tracked stableHash a.ring)
    (hi : a.ring.DistinctIndices) : Ring.Tracked stableHash (machine stableHash docker dump op a).2.ring ∧
      (machine stableHash docker dump op a).2.ring.DistinctIndices := by
  have hstep := Ring.step_machine ht.toSound stableHash op.ringOp
  rw [ring_machine ht.toPlaced]
  exact ⟨ht.step hop.1.cleanMerge hstep, hop.indices ht hi hstep⟩

theorem Lost.step (h : Lost stableHash r i x a) (hop : Regular stableHash a op) :
    Lost stableHash r i x (machine stableHash docker dump op a).2 := by
  have hs := h.tracked.toPlaced
  have hstep := Ring.step_machine hs.toSound stableHash op.ringOp
  have hcall : machine stableHash docker dump op a = _ := exec_call hs op Prod.mk.eta.symm
  rw [hcall]
  generalize (Ring.machine stableHash op.ringOp a.ring).1 = o at hstep ⊢
  generalize (Ring.machine stableHash op.ringOp a.ring).2 = s' at hstep ⊢
  refine ⟨h.tracked.step hop.1.cleanMerge hstep, hop.indices h.tracked h.indices hstep,
    h.allocated.trans_le (Ring.next_le_step hstep), (Ring.index_step hs hstep h.allocated).trans h.index, fun hr => ?_⟩
  have hold : r ∈ a.ring.getNodes := (Ring.mem_step hs hstep hr).resolve_right h.allocated.ne
  have hentry := h.untracked hold
  cases op with
  | registerTarget target =>
      cases hstep with
      | Ins_Exists | Ins_NoCapacity | Ins_Stored => exact hentry
      | @Ins_Split _ _ _ _ n m hkey hup hm =>
          subst hkey
          obtain ⟨-, hmem, hs', -⟩ := hs.scaledUp hup hm
          have hne := hop.2.index_ne h.tracked hup hm r hold
          rcases SwarmOrquestrator.services_createNode with he | ⟨y, he⟩
          · exact (congrArg (Dict.get? · i) he).trans hentry
          · refine (congrArg (Dict.get? · i) he).trans ?_
            rw [Dict.get?_set, if_neg, hentry]
            exact fun he => hne (h.index.trans (he.trans (Ring.index_split_new (hs'.allocated _ hmem))))
  | unregisterTarget targetId =>
      cases hstep with
      | Del_Missing | Del_NoCapacity | Del_Kept | Del_Untracked | Del_NoPrior => exact hentry
      | Del_Merged => exact (congrArg (Dict.get? · i) SwarmOrquestrator.services_deleteNode).trans hentry

/-- A registration whose node gets no service from the client. -/
theorem Lost.registered {target : Target} {s' : Ring.TreeRing} {d : DockerError} (ht : Ring.Tracked stableHash a.ring)
    (hi : a.ring.DistinctIndices) (hop : Regular stableHash a (.registerTarget target))
    (hnew : Ring.machine stableHash (.insert target (some target.id) "") a.ring = (.ok (some r), s'))
    (hraise : (exec (docker.create (SwarmOrquestrator.nodeSpec dump a.orquestrator (s'.node r)))
      a.orquestrator.client).1 = .error d) :
    Lost stableHash r (s'.node r).index (a.orquestrator.services.get? (s'.node r).index)
      (machine stableHash docker dump (.registerTarget target) a).2 := by
  have hs := ht.toPlaced
  have hcall : machine stableHash docker dump (.registerTarget target) a = _ := exec_call hs _ hnew
  have hstep := Ring.step_machine hs.toSound stableHash (.insert target (some target.id) "")
  rw [hnew] at hstep
  have ht' : Ring.Tracked stableHash s' := ht.step hop.1.cleanMerge hstep
  rw [hcall]
  refine ⟨ht', hop.indices ht hi hstep, ?_, rfl, fun _ => ?_⟩
  · cases hstep with
    | Ins_Split hkey hup hm =>
        subst hkey
        obtain ⟨-, hmem, hs', hmid⟩ := hs.scaledUp hup hm
        exact ht'.allocated _ (hs'.new_mem_split hmem hmid)
  · exact congrArg (Dict.get? · _) (SwarmOrquestrator.services_createNode_error hraise)

variable {args : NodeArgs} {nodeMinLoad nodeMaxLoad nodeBasePorts : Int} {s₀ : Ring.TreeRing}

/-- When the client does not create the service of a new node, the orchestrator's entry under the node's index stays
what it was for as long as the node is in the ring, whatever is called and whatever the client answers. If there was
none, the call that takes the node out raises, and asks the client for nothing. -/
theorem lost_service_stays_lost
    (hinit : Ring.init args nodeMinLoad nodeMaxLoad AbstractDataType.empty nodeBasePorts = .ok s₀)
    (o₀ : SwarmOrquestrator δ) (ops ops' : List Op) (target : Target) (r : Ref) (s' : Ring.TreeRing) (d : DockerError)
    (hguard : (machine stableHash docker dump).Guarded (Regular stableHash) (ops ++ .registerTarget target :: ops')
      ⟨s₀, o₀⟩) :
    let a := (machine stableHash docker dump).run ops ⟨s₀, o₀⟩
    let c := (machine stableHash docker dump).run ops' (machine stableHash docker dump (.registerTarget target) a).2
    let index := (s'.node r).index
    Ring.machine stableHash (.insert target (some target.id) "") a.ring = (.ok (some r), s') →
    (exec (docker.create (SwarmOrquestrator.nodeSpec dump a.orquestrator (s'.node r))) a.orquestrator.client).1 =
      .error d →
    (r ∈ c.ring.getNodes → c.orquestrator.services.get? index = a.orquestrator.services.get? index) ∧
    (a.orquestrator.services.get? index = none →
      ∀ targetId s'', Ring.machine stableHash (.delete targetId) c.ring = (.ok (some r), s'') →
        machine stableHash docker dump (.unregisterTarget targetId) c =
          (.error (.attributeError "remove"), ⟨s'', c.orquestrator⟩)) := by
  intro a c index hnew hraise
  obtain ⟨h, rfl⟩ := Ring.init_eq_ok.mp hinit
  obtain ⟨hguard, hop, hguard'⟩ := Machine.Guarded.append_iff.mp hguard
  have ha : Ring.Tracked stableHash a.ring ∧ a.ring.DistinctIndices := hguard.invariant
    (fun a => Ring.Tracked stableHash a.ring ∧ a.ring.DistinctIndices)
    (fun _ _ h hop => hop.ring h.1 h.2)
    ⟨Ring.Tracked.fresh args h nodeMinLoad nodeMaxLoad nodeBasePorts,
      Ring.DistinctIndices.fresh args h nodeMinLoad nodeMaxLoad nodeBasePorts⟩
  have hc : Lost stableHash r index (a.orquestrator.services.get? index) c :=
    hguard'.invariant (Lost stableHash r index (a.orquestrator.services.get? index)) (fun _ _ h hop => h.step hop)
      (Lost.registered ha.1 ha.2 hop hnew hraise)
  refine ⟨hc.untracked, fun hnone targetId s'' hdel => ?_⟩
  have hstep := Ring.step_machine hc.tracked.toSound stableHash (.delete targetId)
  rw [hdel] at hstep
  have hmem : r ∈ c.ring.getNodes := by
    cases hstep with
    | Del_Merged hdown => exact Routing.owner_mem hc.tracked.valid (Ring.scaledDown_eq_some.mp hdown).1
  have hindex : (s''.node r).index = index :=
    (Ring.index_step hc.tracked.toPlaced hstep hc.allocated).trans hc.index
  have hcall : machine stableHash docker dump (.unregisterTarget targetId) ⟨c.ring, c.orquestrator⟩ = _ :=
    exec_call hc.tracked.toPlaced (.unregisterTarget targetId) hdel
  refine hcall.trans ?_
  rw [followUp, SwarmOrquestrator.deleteNode_untracked]
  rw [hindex]
  exact (hc.untracked hmem).trans hnone

/-- Node 50 is without its service when `b`, its only target, is unregistered. -/
theorem lost_service_stays_lost_default :
    let hash := tableHash [("a", 0), ("b", 100), ("c", 20)]
    let register (id : String) : Op := .registerTarget ⟨id, id, "host", 8000⟩
    let machine := machine hash downDocker fun _ => ""
    let a := machine.run [register "a"] ⟨Settings.freshRing (BinarySearchTree Nat Ref), { client := () }⟩
    let c := machine.run [register "c"] (machine (register "b") a).2
    let s := (Ring.machine hash (.delete "b") c.ring).2
    machine (.unregisterTarget "b") c = (.error (.attributeError "remove"), ⟨s, c.orquestrator⟩) := by
  intro hash register machine a c s
  have hfst {p : Ring.Outcome × Ring.TreeRing} {o : Ring.Outcome} (h : p.1 = o) : p = (o, p.2) := Prod.ext h rfl
  have hlost := @lost_service_stays_lost _ downDocker (fun _ => "") hash _ _ _ _ _ (Settings.ring_default _)
    { client := () } [register "a"] [register "c"] ⟨"b", "b", "host", 8000⟩ 1
    (Ring.machine hash (.insert ⟨"b", "b", "host", 8000⟩ (some "b") "") a.ring).2 (.apiError "500 Server Error")
    (by decide +kernel) (hfst (by decide +kernel)) (by decide +kernel)
  exact hlost.2 (by decide +kernel) "b" s (hfst (by decide +kernel))

end API

end PrometheusRing
