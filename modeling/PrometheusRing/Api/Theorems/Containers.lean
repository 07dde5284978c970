import PrometheusRing.Adt.Lemmas.MapRouting
import PrometheusRing.Adt.MockADT
import PrometheusRing.Api.Theorems.Services
import PrometheusRing.Ring.Lemmas.Simulation

/-!
# The search tree in place of an ordered map

The tests run the ring on a dictionary, the service runs it on the search tree. As long as no split repeats the
index of the old node and no scale-down meets a tree node with two children, nothing tells the two apart.
-/

namespace PrometheusRing

open Effect

variable {σ : Type} [AbstractDataType σ Ref] [OrderedMap σ] {stableHash : String → Nat} {args : NodeArgs}
  {nodeMinLoad nodeMaxLoad nodeBasePorts : Int}

namespace Ring

variable {s s₀ : TreeRing} {s' s₀' : Ring σ} {op : Op}

theorem Alike.step (h : Alike s s') (hs : Tracked stableHash s) (hclean : CleanScaleDown stableHash s op)
    (hsplit : SplitsElsewhere stableHash s op) :
    (machine stableHash op s').1 = (machine stableHash op s).1 ∧
      Alike (machine stableHash op s).2 (machine stableHash op s').2 := by
  have hclean' : CleanMerge stableHash s' op := fun _ _ _ _ => trivial
  refine h.machine_eq hs.toPlaced hclean.cleanMerge hclean' ?_
  rintro t k u n m rfl hup hm r hr
  exact hsplit.index_ne hs hup hm r (hs.mem hr) (hs.indexed m r hr)

theorem Alike.getNodes_perm (h : Alike s s') (hs : Placed stableHash s) : s'.getNodes.Perm s.getNodes := by
  obtain ⟨b, rfl, hb⟩ := h
  exact (List.perm_ext_iff_of_nodup (Routing.nodup_list hb.right) (Routing.nodup_list hs.valid)).mpr
    fun r => hb.mem_list.symm

theorem Alike.placed (h : Alike s s') (hs : Placed stableHash s) : Placed stableHash s' := by
  obtain ⟨b, rfl, hb⟩ := h
  exact hs.withRing hb

theorem Alike.node_eq (h : Alike s s') (r : Ref) : s'.node r = s.node r := by
  obtain ⟨b, rfl, -⟩ := h
  rfl

theorem Alike.heap_eq (h : Alike s s') : s'.heap = s.heap := by
  obtain ⟨b, rfl, -⟩ := h
  rfl

/-- A ring on the search tree and one on an ordered map give the same outcomes and end with the same nodes. -/
theorem tree_follows_map
    (hinit : Ring.init args nodeMinLoad nodeMaxLoad AbstractDataType.empty nodeBasePorts = .ok s₀)
    (hinit' : Ring.init args nodeMinLoad nodeMaxLoad AbstractDataType.empty nodeBasePorts = .ok s₀')
    (ops : List Op) (hguard : (machine stableHash).Guarded
      (fun s op => CleanScaleDown stableHash s op ∧ SplitsElsewhere stableHash s op) ops s₀) :
    let s := (machine stableHash).run ops s₀
    let s' := (machine stableHash).run ops s₀'
    (machine stableHash).trace ops s₀' = (machine stableHash).trace ops s₀ ∧ s'.heap = s.heap ∧
      s'.getNodes.Perm s.getNodes ∧ ∀ x, s'.findNode x = s.findNode x := by
  intro s s'
  obtain ⟨h, rfl⟩ := init_eq_ok.mp hinit
  obtain ⟨-, rfl⟩ := init_eq_ok.mp hinit'
  obtain ⟨htrace, halike, htracked⟩ := hguard.lockstep (fun s s' => Alike s s' ∧ Tracked stableHash s)
    (fun (s : TreeRing) (s' : Ring σ) op hs hop => by
      obtain ⟨hout, hnext⟩ := hs.1.step hs.2 hop.1 hop.2
      exact ⟨hout, hnext, hs.2.machine hop.1.cleanMerge⟩)
    ⟨Alike.fresh args h nodeMinLoad nodeMaxLoad nodeBasePorts,
      Tracked.fresh args h nodeMinLoad nodeMaxLoad nodeBasePorts⟩
  refine ⟨htrace, halike.heap_eq, halike.getNodes_perm htracked.toPlaced, fun x => ?_⟩
  obtain ⟨b, hb, hentries⟩ := halike
  change ((machine stableHash).run ops _).findNode x = _
  rw [hb]
  exact findNode_withRing hentries x

theorem tree_follows_map_default :
    let target (id : String) : Target := ⟨id, id, "host", 8000⟩
    let ops : List Op := [.insert (target "a") (some "") "", .insert (target "b") (some "bbbb") "",
      .update "bbbb" (target "c"), .delete "bbbb"]
    (machine String.length).trace ops (Settings.freshRing (MockADT Ref)) =
      (machine String.length).trace ops (Settings.freshRing _ : TreeRing) :=
  (tree_follows_map (Settings.ring_default _) (Settings.ring_default _) _ (by decide +kernel)).1

end Ring

namespace API

variable {δ : Type} {docker : Docker δ} {dump : Yaml → String} {a : API (BinarySearchTree Nat Ref) δ}
  {a' : API σ δ} {s₀ : Ring.TreeRing} {s₀' : Ring σ}

/-- The rings of the two services are alike, and their orchestrators are the same. -/
structure SameService (stableHash : String → Nat) (a : API (BinarySearchTree Nat Ref) δ) (a' : API σ δ) :
    Prop where
  tracked : Ring.Tracked stableHash a.ring
  alike : Ring.Alike a.ring a'.ring
  orquestrator : a'.orquestrator = a.orquestrator

theorem followUp_congr {s : Ring.TreeRing} {s' : Ring σ} (h : Ring.Alike s s') (op : Op) (o : Ring.Outcome) :
    followUp docker dump s' op o = followUp docker dump s op o := by
  cases op with
  | registerTarget target => rcases o with e | _ | r <;> simp only [followUp, h.node_eq]
  | unregisterTarget targetId => rcases o with e | _ | r <;> simp only [followUp, h.node_eq]

namespace SameService

theorem step (h : SameService stableHash a a') {op : Op}
    (hclean : Ring.CleanScaleDown stableHash a.ring op.ringOp)
    (hsplit : Ring.SplitsElsewhere stableHash a.ring op.ringOp) :
    (machine stableHash docker dump op a').1 = (machine stableHash docker dump op a).1 ∧
      SameService stableHash (machine stableHash docker dump op a).2
        (machine stableHash docker dump op a').2 := by
  obtain ⟨hout, hnext⟩ := h.alike.step h.tracked hclean hsplit
  have hcall : machine stableHash docker dump op a = _ := exec_call h.tracked.toPlaced op Prod.mk.eta.symm
  have hcall' : machine stableHash docker dump op a' = _ :=
    exec_call (h.alike.placed h.tracked.toPlaced) op Prod.mk.eta.symm
  rw [hout, followUp_congr hnext, h.orquestrator] at hcall'
  rw [hcall, hcall']
  exact ⟨rfl, h.tracked.machine hclean.cleanMerge, hnext, rfl⟩

theorem buildTargetsJson_perm (h : SameService stableHash a a') :
    a'.buildTargetsJson.Perm a.buildTargetsJson := by
  unfold buildTargetsJson
  simp only [h.alike.node_eq]
  exact (h.alike.getNodes_perm h.tracked.toPlaced).flatMap_right _

end SameService

/-- Whatever the Docker client does, the service gives the same responses on the search tree as on an ordered map,
its orchestrator and client end in the same state, and it lists the same targets. -/
theorem service_follows_map
    (hinit : Ring.init args nodeMinLoad nodeMaxLoad AbstractDataType.empty nodeBasePorts = .ok s₀)
    (hinit' : Ring.init args nodeMinLoad nodeMaxLoad AbstractDataType.empty nodeBasePorts = .ok s₀')
    (o₀ : SwarmOrquestrator δ) (ops : List Op)
    (hguard : (machine stableHash docker dump).Guarded
      (fun a op => Ring.CleanScaleDown stableHash a.ring op.ringOp ∧
        Ring.SplitsElsewhere stableHash a.ring op.ringOp)
      ops (exec (createFirstNode docker dump) ⟨s₀, o₀⟩).2) :
    let start := (exec (createFirstNode docker dump) ⟨s₀, o₀⟩).2
    let start' := (exec (createFirstNode docker dump) ⟨s₀', o₀⟩).2
    let a := (machine stableHash docker dump).run ops start
    let a' := (machine stableHash docker dump).run ops start'
    (machine stableHash docker dump).trace ops start' = (machine stableHash docker dump).trace ops start ∧
      a'.orquestrator = a.orquestrator ∧ a'.buildTargetsJson.Perm a.buildTargetsJson := by
  intro start start' a a'
  obtain ⟨h, rfl⟩ := Ring.init_eq_ok.mp hinit
  obtain ⟨-, rfl⟩ := Ring.init_eq_ok.mp hinit'
  have hstart : SameService stableHash start start' :=
    ⟨Ring.Tracked.fresh args h nodeMinLoad nodeMaxLoad nodeBasePorts,
      Ring.Alike.fresh args h nodeMinLoad nodeMaxLoad nodeBasePorts, rfl⟩
  obtain ⟨htrace, hend⟩ := hguard.lockstep (SameService stableHash)
    (fun a a' op ha hop => by exact ha.step hop.1 hop.2) hstart
  exact ⟨htrace, hend.orquestrator, hend.buildTargetsJson_perm⟩

theorem service_follows_map_default :
    let register (id : String) : Op := .registerTarget ⟨id, id, "host", 8000⟩
    let ops := [register "", register "bbbb", register "cc", .unregisterTarget "bbbb"]
    let start (σ : Type) [AbstractDataType σ Ref] :=
      (exec (createFirstNode Swarm.docker fun _ => "") ⟨Settings.freshRing σ, { client := {} }⟩).2
    (machine String.length Swarm.docker fun _ => "").trace ops (start (MockADT Ref)) =
      (machine String.length Swarm.docker fun _ => "").trace ops (start (BinarySearchTree Nat Ref)) :=
  (service_follows_map (Settings.ring_default _) (Settings.ring_default _) _ _ (by decide +kernel)).1

end API

end PrometheusRing
