import PrometheusRing.Node.Lemmas.ExportKeys

/-!
# No key is lost or doubled between two nodes
-/

namespace PrometheusRing.Node

open Effect

variable {stableHash : String → Nat} {self otherNode : Ref} {h : Heap Node} {n n' : Node} {k : String} {t : Int}

/-! ## What the two nodes hold afterwards -/

theorem items_withExported (hdisjoint : ∀ k ∈ n.targets.keys, k ∉ n'.targets.keys) :
    (withExported stableHash t n n').targets.items =
      n'.targets.items ++ n.targets.items.filter (fun e => (stableHash e.1 : Int) ≥ t) := by
  refine Dict.items_setAll (n.targets.nodup.sublist (List.filter_sublist.map _)) fun k hk => ?_
  obtain ⟨e, he, rfl⟩ := List.mem_map.mp hk
  have hnot := hdisjoint e.1 (List.mem_map_of_mem (List.mem_of_mem_filter he))
  rwa [Dict.mem_keys, Bool.not_eq_true] at hnot

theorem read_exportKeys (hne : self ≠ otherNode) (t : Int) (hclean : (h.read self).keysToDelete = []) (r : Ref) :
    (exec (exportKeys stableHash self otherNode t) h).2.read r =
      if r = self then keepBelow stableHash t (h.read self)
      else if r = otherNode then withExported stableHash t (h.read self) (h.read otherNode) else h.read r := by
  rw [exec_exportKeys hne t hclean]
  simp only [Heap.read_update, hne, ↓reduceIte]
  rfl

/-! ## The partition -/

/-- `export_keys` splits the entries of a node at the threshold: it keeps those below and appends the others to
those of the other node, which has none of the keys before. It raises nothing, leaves no key to delete and does not
touch a third node. -/
theorem export_keys_partitions (hne : self ≠ otherNode)
    (hdisjoint : ∀ k ∈ (h.read self).targets.keys, k ∉ (h.read otherNode).targets.keys)
    (hself : (h.read self).keysToDelete = []) (hother : (h.read otherNode).keysToDelete = []) (t : Int) :
    let items := (h.read self).targets.items
    let h' := (exec (exportKeys stableHash self otherNode t) h).2
    (exec (exportKeys stableHash self otherNode t) h).1 = .ok () ∧
      (h'.read self).targets.items = items.filter (fun e => (stableHash e.1 : Int) < t) ∧
      (h'.read otherNode).targets.items =
        (h.read otherNode).targets.items ++ items.filter (fun e => (stableHash e.1 : Int) ≥ t) ∧
      (∀ k, ((h'.read self).hasKey k = true ∨ (h'.read otherNode).hasKey k = true ↔
          (h.read self).hasKey k = true ∨ (h.read otherNode).hasKey k = true) ∧
        ¬ ((h'.read self).hasKey k = true ∧ (h'.read otherNode).hasKey k = true)) ∧
      (h'.read self).keysToDelete = [] ∧ (h'.read otherNode).keysToDelete = [] ∧
      ∀ r, r ≠ self → r ≠ otherNode → h'.read r = h.read r := by
  intro items h'
  have hreadSelf : h'.read self = keepBelow stableHash t (h.read self) :=
    (read_exportKeys hne t hself self).trans (if_pos rfl)
  have hreadOther : h'.read otherNode = withExported stableHash t (h.read self) (h.read otherNode) := by
    refine (read_exportKeys hne t hself otherNode).trans ?_
    rw [if_neg hne.symm, if_pos rfl]
  rw [hreadSelf, hreadOther]
  refine ⟨?_, rfl, items_withExported hdisjoint, fun k => ?_, hself, hother, fun r hr hr' => ?_⟩
  · rw [exec_exportKeys hne t hself]
  · rw [hasKey_keepBelow, hasKey_withExported]
    constructor
    · rcases lt_or_ge (stableHash k : Int) t with hlt | hge
      · simp [hlt, hlt.not_ge]
      · simp [hge, hge.not_gt]
    · rintro ⟨⟨hlt, hin⟩, ⟨hge, -⟩ | hin'⟩
      · exact absurd hge hlt.not_ge
      · exact hdisjoint k (Dict.mem_keys.mpr hin) (Dict.mem_keys.mpr hin')
  · refine (read_exportKeys hne t hself r).trans ?_
    rw [if_neg hr, if_neg hr']

/-- Two of four keys go to a node that has one. -/
theorem export_keys_partitions_half :
    let entry (id : String) : String × Target := (id, ⟨id, id, "host", 8000⟩)
    let args : NodeArgs := { capacity := 10, sdProvider := some "consul" }
    let node (ids : List String) : Node :=
      { Node.new args 0 none with targets := Dict.empty.setAll (ids.map entry) }
    let h := (Heap.singleton (node ["1", "55555", "333", "7777777"])).alloc (node ["666666"])
    ((exec (exportKeys String.length 0 1 5) h).2.read 1).targets.items =
      ["666666", "55555", "7777777"].map entry :=
  (export_keys_partitions (by decide) (by decide +kernel) rfl rfl 5).2.2.1

end PrometheusRing.Node
