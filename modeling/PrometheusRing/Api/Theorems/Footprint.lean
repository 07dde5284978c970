import Mathlib.Data.Set.Card
import PrometheusRing.Api.Theorems.Containers
import PrometheusRing.Ring.Theorems.Occupancy

/-!
# How many services run

That every node but node zero has a target was shown for an ordered map. The search tree follows such a map, so the
services of the ring are never more than one above the registered targets.
-/

namespace PrometheusRing

open Effect

variable {σ : Type} [AbstractDataType σ Ref] [OrderedMap σ] {stableHash : String → Nat}

namespace Ring

variable {s : TreeRing} {s' : Ring σ} {op : Op}

theorem Alike.freshHash (h : Alike s s') (hs : Placed stableHash s) (hf : FreshHash stableHash s op) :
    FreshHash stableHash s' op := by
  cases op with
  | insert t k u =>
      intro r hr
      rw [h.node_eq]
      exact hf r ((h.getNodes_perm hs).mem_iff.mp hr)
  | update => trivial
  | delete => trivial

theorem Alike.keepsNode (h : Alike s s') (hk : KeepsNode stableHash s op) : KeepsNode stableHash s' op := by
  obtain ⟨b, rfl, hb⟩ := h
  cases op with
  | insert t k u =>
      intro n hn
      rw [scaledUp_withRing hb] at hn
      exact hk n hn
  | update => trivial
  | delete => trivial

/-- There is an alike ring on an ordered map in which every node but node zero has a target. -/
def Shadowed (stableHash : String → Nat) (s : TreeRing) : Prop :=
  ∃ s' : Ring (MockADT Ref), Alike s s' ∧ Tracked stableHash s' ∧ DistinctHashes stableHash s' ∧ s'.Occupied

/-- No split repeats an index or empties a node, and no scale-down meets a tree node with two children. -/
def KeepsFootprint (stableHash : String → Nat) (s : TreeRing) (op : Op) : Prop :=
  (CleanScaleDown stableHash s op ∧ SplitsElsewhere stableHash s op) ∧ FreshHash stableHash s op ∧
    KeepsNode stableHash s op

instance (stableHash : String → Nat) (s : TreeRing) : DecidablePred (KeepsFootprint stableHash s) := fun _ =>
  inferInstanceAs (Decidable (_ ∧ _))

theorem Shadowed.machine (h : Shadowed stableHash s) (hs : Tracked stableHash s) (hcap : s.args.capacity ≠ 0)
    (hmin : 0 ≤ s.nodeMinLoad) (hop : KeepsFootprint stableHash s op) :
    Shadowed stableHash (machine stableHash op s).2 := by
  obtain ⟨s', halike, hs', hd, ho⟩ := h
  have hstep := step_machine hs'.toSound stableHash op
  have hf := halike.freshHash hs.toPlaced hop.2.1
  have hk := halike.keepsNode hop.2.2
  have hcap' : s'.args.capacity ≠ 0 ∧ 0 ≤ s'.nodeMinLoad := by
    obtain ⟨b, rfl, -⟩ := halike
    exact ⟨hcap, hmin⟩
  exact ⟨_, (halike.step hs hop.1.1 hop.1.2).2, hs'.step (cleanMerge op) hstep, hd.step hs'.toPlaced hf hstep,
    ho.step hs' hd hcap'.1 hcap'.2 hf hk hstep⟩

theorem Shadowed.occupied (h : Shadowed stableHash s) (hs : Placed stableHash s) :
    ∀ r ∈ s.getNodes, r ≠ s.nodeZero → 1 ≤ (s.node r).targets.size := by
  obtain ⟨s', halike, -, -, ho⟩ := h
  intro r hr hz
  have hr' := (halike.getNodes_perm hs).mem_iff.mpr hr
  obtain ⟨b, rfl, -⟩ := halike
  obtain ⟨k, hk⟩ := ho.occupied r hr' hz
  have hmem := List.length_pos_of_mem (Dict.mem_keys.mpr hk)
  rwa [Dict.keys, List.length_map] at hmem

end Ring

/-- A list without repetitions in which all but one count at least one is at most one longer than they count. -/
theorem length_le_succ_sum {α : Type} {z : α} {f : α → Nat} {l : List α} (hl : l.Nodup)
    (h : ∀ x ∈ l, x ≠ z → 1 ≤ f x) : l.length ≤ (l.map f).sum + 1 := by
  induction l with
  | nil => exact Nat.zero_le _
  | cons x l ih =>
      obtain ⟨hx, hl⟩ := List.nodup_cons.mp hl
      have htail := fun y hy => h y (List.mem_cons_of_mem x hy)
      rw [List.length_cons, List.map_cons, List.sum_cons]
      by_cases hz : x = z
      · have hones : l.length ≤ (l.map f).sum := by
          rw [← List.length_map f]
          refine List.length_le_sum_of_one_le _ fun i hi => ?_
          obtain ⟨y, hy, rfl⟩ := List.mem_map.mp hi
          exact htail y hy fun hyz => hx (hz.trans hyz.symm ▸ hy)
        omega
      · have hhead := h x List.mem_cons_self hz
        have hrest := ih hl htail
        omega

namespace API

variable {δ : Type} {docker : Docker δ} {dump : Yaml → String} {live : δ → Set Service}
  {a : API (BinarySearchTree Nat Ref) δ}

theorem length_buildTargetsJson :
    a.buildTargetsJson.length = (a.ring.getNodes.map fun r => (a.ring.node r).targets.size).sum := by
  simp [buildTargetsJson, List.length_flatMap, Node.listItems, Dict.values, Dict.size]

/-- There are as many services of the ring as nodes. -/
theorem InStep.encard_services (h : InStep live stableHash a) :
    {x ∈ live a.orquestrator.client | ∃ i, x.name = serviceName i}.encard = a.ring.getNodes.length := by
  have hinj : Set.InjOn Service.name {x ∈ live a.orquestrator.client | ∃ i, x.name = serviceName i} := by
    rintro x ⟨hx, i, hname⟩ y ⟨hy, -⟩ hxy
    exact h.unique x hx y hy i hname (hxy.symm.trans hname)
  have himage : Service.name '' {x ∈ live a.orquestrator.client | ∃ i, x.name = serviceName i} =
      ((a.ring.getNodes.map fun r => serviceName (a.ring.node r).index).toFinset : Set String) := by
    ext name
    simp only [Set.mem_image, Set.mem_ofPred_eq, List.coe_toFinset, List.mem_map]
    constructor
    · rintro ⟨x, ⟨hx, i, hname⟩, rfl⟩
      obtain ⟨r, hr, rfl⟩ := h.nodes x hx i hname
      exact ⟨r, hr, hname.symm⟩
    · rintro ⟨r, hr, rfl⟩
      obtain ⟨x, hx, -, hname⟩ := h.services r hr
      exact ⟨x, ⟨hx, _, hname⟩, hname⟩
  have hnodup : (a.ring.getNodes.map fun r => serviceName (a.ring.node r).index).Nodup := by
    have hindices := (h.indices.nodup h.tracked.toPlaced).map serviceName_injective
    rwa [List.map_map] at hindices
  rw [← hinj.encard_image, himage, Set.encard_coe_eq_coe_finsetCard, List.toFinset_card_of_nodup hnodup,
    List.length_map]

/-- The ring runs at most one service more than it has targets. -/
theorem services_within_targets (hd : docker.Working live) {args : NodeArgs}
    {nodeMinLoad nodeMaxLoad nodeBasePorts : Int} {s₀ : Ring.TreeRing}
    (hinit : Ring.init args nodeMinLoad nodeMaxLoad AbstractDataType.empty nodeBasePorts = .ok s₀)
    (hcap : args.capacity ≠ 0) (hmin : 0 ≤ nodeMinLoad)
    {o₀ : SwarmOrquestrator δ} (hfree : ∀ x ∈ live o₀.client, ∀ i, x.name ≠ serviceName i) (ops : List Op)
    (hguard : (machine stableHash docker dump).Guarded
      (fun a op => Ring.KeepsFootprint stableHash a.ring op.ringOp)
      ops (exec (createFirstNode docker dump) ⟨s₀, o₀⟩).2) :
    let a := (machine stableHash docker dump).run ops (exec (createFirstNode docker dump) ⟨s₀, o₀⟩).2
    let services := {x ∈ live a.orquestrator.client | ∃ i, x.name = serviceName i}
    services.encard = a.ring.getNodes.length ∧ services.encard ≤ a.buildTargetsJson.length + 1 := by
  intro a services
  obtain ⟨hargs, rfl⟩ := Ring.init_eq_ok.mp hinit
  have hfresh : Ring.Tracked stableHash
      (Ring.fresh args hargs nodeMinLoad nodeMaxLoad AbstractDataType.empty nodeBasePorts : Ring (MockADT Ref)) :=
    Ring.Tracked.fresh args hargs nodeMinLoad nodeMaxLoad nodeBasePorts
  obtain ⟨h, hshadowed, -⟩ := hguard.invariant (fun a => InStep live stableHash a ∧
      Ring.Shadowed stableHash a.ring ∧ a.ring.args = args ∧ a.ring.nodeMinLoad = nodeMinLoad)
    (fun a op h hop => by
      obtain ⟨h, hshadowed, rfl, rfl⟩ := h
      have hstep := Ring.step_machine h.tracked.toSound stableHash op.ringOp
      refine ⟨h.step hd hop.1.1 hop.1.2, ?_⟩
      rw [ring_machine h.tracked.toPlaced]
      exact ⟨hshadowed.machine h.tracked hcap hmin hop, Ring.args_step hstep, Ring.nodeMinLoad_step hstep⟩)
    ⟨InStep.start hd (Ring.Tracked.fresh args hargs nodeMinLoad nodeMaxLoad nodeBasePorts)
      (fun _ => Ring.mem_getNodes_fresh) hfree,
      ⟨_, Ring.Alike.fresh args hargs nodeMinLoad nodeMaxLoad nodeBasePorts, hfresh,
        Ring.DistinctHashes.fresh args hargs nodeMinLoad nodeMaxLoad nodeBasePorts,
        Ring.Occupied.fresh args hargs nodeMinLoad nodeMaxLoad nodeBasePorts⟩, rfl, rfl⟩
  have hcount := h.encard_services
  refine ⟨hcount, ?_⟩
  have hlength : a.ring.getNodes.length ≤ a.buildTargetsJson.length + 1 := by
    rw [length_buildTargetsJson]
    exact length_le_succ_sum (Routing.nodup_list h.tracked.valid) (hshadowed.occupied h.tracked.toPlaced)
  rw [hcount]
  exact_mod_cast hlength

theorem services_within_targets_default :
    let register (id : String) : Op := .registerTarget ⟨id, id, "host", 8000⟩
    let a := (machine String.length Swarm.docker fun _ => "").run
      [register "", register "bbbb", register "cc", .unregisterTarget "bbbb"]
      (exec (createFirstNode Swarm.docker fun _ => "")
        ⟨Settings.freshRing (BinarySearchTree Nat Ref), { client := {} }⟩).2
    {x ∈ Swarm.live a.orquestrator.client | ∃ i, x.name = serviceName i}.encard = 2 ∧ a.buildTargetsJson.length = 2 := by
  intro register a
  have hcount : a.ring.getNodes.length = 2 := by decide +kernel
  have hservices : {x ∈ Swarm.live a.orquestrator.client | ∃ i, x.name = serviceName i}.encard =
      a.ring.getNodes.length := by
    unfold a
    exact (services_within_targets Swarm.docker_working (Settings.ring_default _) (by decide) (by decide)
      (fun x hx => absurd hx List.not_mem_nil) _ (by decide +kernel)).1
  exact ⟨hservices.trans (congrArg _ hcount), by decide +kernel⟩

end API

end PrometheusRing
