import PrometheusRing.Api.Lemmas.Calls
import PrometheusRing.Orquestrator.Swarm
import PrometheusRing.Ring.Theorems.Tree

/-!
# The list served to Prometheus

The list is collected from all nodes of the tree, a target's node is found by its hash. The two agree in every
state that calls of the API reach, whatever the orchestrator raises.
-/

namespace PrometheusRing.API

open Effect

variable {δ : Type} {stableHash : String → Nat} {docker : Docker δ} {dump : Yaml → String}

/-- Every target sits under its own id. -/
def Keyed (stableHash : String → Nat) (s : Ring.TreeRing) : Prop :=
  ∀ k t, s.lookup stableHash k = some t → t.id = k

theorem Keyed.machine {s : Ring.TreeRing} (hk : Keyed stableHash s) (hs : Ring.Placed stableHash s) (op : Op) :
    Keyed stableHash (Ring.machine stableHash op.ringOp s).2 := by
  intro k t ht
  rcases Ring.lookup_step_some hs (Ring.step_machine hs.toSound stableHash op.ringOp) ht with hold | ⟨rfl, hw⟩
  · exact hk k t hold
  · cases op with
    | registerTarget target => cases hw; rfl
    | unregisterTarget targetId => cases hw

theorem get?_nodeIndex (node : Node) (t : Target) :
    (targetGroup node t).labels.get? "node_index" = some (toString node.index) := by
  simp [targetGroup, Dict.get?_set]

theorem get?_targetId (node : Node) (t : Target) :
    (targetGroup node t).labels.get? "target_id" = some t.id := by
  simp [targetGroup]

theorem mem_buildTargetsJson {a : API (BinarySearchTree Nat Ref) δ} {g : TargetGroup} :
    g ∈ a.buildTargetsJson ↔ ∃ r ∈ a.ring.getNodes, ∃ k t, (a.ring.node r).get k = some t ∧
      targetGroup (a.ring.node r) t = g := by
  simp only [buildTargetsJson, List.mem_flatMap, List.mem_map, Node.listItems, Dict.values, Node.get,
    Dict.get?_eq_some]
  constructor
  · rintro ⟨r, hr, t, ⟨e, he, rfl⟩, rfl⟩; exact ⟨r, hr, e.1, e.2, he, rfl⟩
  · rintro ⟨r, hr, k, t, he, rfl⟩; exact ⟨r, hr, t, ⟨(k, t), he, rfl⟩, rfl⟩

theorem targetIds_eq {a : API (BinarySearchTree Nat Ref) δ} (hs : Ring.Placed stableHash a.ring)
    (hk : Keyed stableHash a.ring) : a.buildTargetsJson.map (·.labels.get? "target_id") =
      (a.ring.getNodes.flatMap fun r => (a.ring.node r).targets.keys).map some := by
  simp only [buildTargetsJson, List.map_flatMap, List.map_map, Node.listItems, Dict.values, Dict.keys]
  refine List.flatMap_congr fun r hr => List.map_congr_left fun e he => ?_
  have hlookup : a.ring.lookup stableHash e.1 = some e.2 :=
    hs.lookup_eq_some.mpr ⟨r, hr, Dict.get?_eq_some.mpr he⟩
  simp only [Function.comp_apply, get?_targetId, hk _ _ hlookup]

theorem nodup_targetIds {a : API (BinarySearchTree Nat Ref) δ} (hs : Ring.Placed stableHash a.ring)
    (hk : Keyed stableHash a.ring) : (a.buildTargetsJson.map (·.labels.get? "target_id")).Nodup := by
  rw [targetIds_eq hs hk]
  have hdisjoint : a.ring.getNodes.Pairwise fun r r' =>
      (a.ring.node r).targets.keys.Disjoint (a.ring.node r').targets.keys := by
    refine (Routing.nodup_list hs.valid).imp_of_mem fun hr hr' hne k hk hk' => hne ?_
    have hfind := hs.of_hasKey hr (Dict.mem_keys.mp hk)
    exact Option.some.inj (hfind.symm.trans (hs.of_hasKey hr' (Dict.mem_keys.mp hk')))
  exact (List.nodup_flatMap.mpr ⟨fun r _ => (a.ring.node r).targets.nodup, hdisjoint⟩).map
    (Option.some_injective String)

theorem run_keyed {args : NodeArgs} {nodeMinLoad nodeMaxLoad nodeBasePorts : Int} {s₀ : Ring.TreeRing}
    (hinit : Ring.init args nodeMinLoad nodeMaxLoad AbstractDataType.empty nodeBasePorts = .ok s₀)
    (o₀ : SwarmOrquestrator δ) (ops : List Op) :
    let a := (machine stableHash docker dump).run ops ⟨s₀, o₀⟩
    Ring.Placed stableHash a.ring ∧ Keyed stableHash a.ring := by
  have hs₀ : Ring.Placed stableHash s₀ := Ring.run_placed hinit []
  have hk₀ : Keyed stableHash s₀ := by
    obtain ⟨h, rfl⟩ := Ring.init_eq_ok.mp hinit
    intro k t ht
    rw [Ring.lookup_fresh] at ht; cases ht
  refine Machine.run_invariant
    (fun a : API (BinarySearchTree Nat Ref) δ => Ring.Placed stableHash a.ring ∧ Keyed stableHash a.ring)
    (fun a op ha => ?_) ops ⟨hs₀, hk₀⟩
  rw [ring_machine ha.1]
  exact ⟨ha.1.machine op.ringOp, ha.2.machine ha.1 op⟩

/-- An id is listed with the index of the node that routing finds for it, and with no other; no id is listed
twice. -/
theorem targets_agree_with_routing {args : NodeArgs} {nodeMinLoad nodeMaxLoad nodeBasePorts : Int}
    {s₀ : Ring.TreeRing}
    (hinit : Ring.init args nodeMinLoad nodeMaxLoad AbstractDataType.empty nodeBasePorts = .ok s₀)
    (o₀ : SwarmOrquestrator δ) (ops : List Op) :
    let a := (machine stableHash docker dump).run ops ⟨s₀, o₀⟩
    (∀ id i, (∃ g ∈ a.buildTargetsJson, g.labels.get? "target_id" = some id ∧
        g.labels.get? "node_index" = some (toString i)) ↔
      ∃ r, (exec (Ring.getTargetNode stableHash id) a.ring).1 = .ok r ∧ (a.ring.node r).index = i) ∧
    (a.buildTargetsJson.map (·.labels.get? "target_id")).Nodup := by
  intro a
  obtain ⟨hs, hk⟩ : Ring.Placed stableHash a.ring ∧ Keyed stableHash a.ring := run_keyed hinit o₀ ops
  refine ⟨fun id i => ?_, nodup_targetIds hs hk⟩
  constructor
  · rintro ⟨g, hg, hid, hi⟩
    obtain ⟨r, hr, k, t, ht, rfl⟩ := mem_buildTargetsJson.mp hg
    rw [get?_targetId] at hid
    rw [get?_nodeIndex] at hi
    obtain rfl : k = id := (hk k t (hs.lookup_eq_some.mpr ⟨r, hr, ht⟩)).symm.trans (Option.some.inj hid)
    have hkey := Node.hasKey_iff.mpr ⟨t, ht⟩
    refine ⟨r, ?_, ?_⟩
    · rw [Ring.exec_getTargetNode (hs.of_hasKey hr hkey), if_pos hkey]
    · exact toString_injective (Option.some.inj hi)
  · rintro ⟨r, hr, rfl⟩
    obtain ⟨n, hn, hmem⟩ := hs.findNode (stableHash id)
    rw [Ring.exec_getTargetNode hn] at hr
    split at hr
    case isFalse => cases hr
    case isTrue hkey =>
        obtain rfl : n = r := Except.ok.inj hr
        obtain ⟨t, ht⟩ := Node.hasKey_iff.mp hkey
        refine ⟨_, mem_buildTargetsJson.mpr ⟨n, hmem, id, t, ht, rfl⟩, ?_, get?_nodeIndex _ _⟩
        rw [get?_targetId, hk id t (hs.lookup_eq_some.mpr ⟨n, hmem, ht⟩)]

theorem targets_agree_with_routing_default :
    let register (id : String) : Op := .registerTarget ⟨id, id, "host", 8000⟩
    let a := (machine (tableHash [("a", 0), ("b", 100)]) Swarm.docker fun _ => "").run
      [register "a", register "b", register "b"]
      ⟨Settings.freshRing (BinarySearchTree Nat Ref), { client := {} }⟩
    ∃ g ∈ a.buildTargetsJson, g.labels.get? "target_id" = some "b" ∧ g.labels.get? "node_index" = some "50" :=
  ((targets_agree_with_routing (Settings.ring_default _) _ _).1 "b" 50).mpr
    ⟨1, by decide +kernel, by decide +kernel⟩

end PrometheusRing.API
