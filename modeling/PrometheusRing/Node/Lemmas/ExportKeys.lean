import PrometheusRing.Node.Basic

/-!
# What `export_keys` does

Between two different nodes, with no key left over from an earlier call, `export_keys` splits the entries
at the threshold and raises nothing.
-/

namespace PrometheusRing.Node

open Effect

variable {stableHash : String → Nat}

/-- The node with changed targets. -/
def mapTargets (f : Dict String Target → Dict String Target) (n : Node) : Node :=
  { n with targets := f n.targets }

/-- The entries from the threshold on. -/
def exported (stableHash : String → Nat) (t : Int) (items : List (String × Target)) :
    List (String × Target) := items.filter (fun e => (stableHash e.1 : Int) ≥ t)

/-- The node without its entries from the threshold on. -/
def keepBelow (stableHash : String → Nat) (t : Int) : Node → Node :=
  mapTargets (·.filter (fun k => (stableHash k : Int) < t))

/-- The node with the entries that another one exports to it. -/
def withExported (stableHash : String → Nat) (t : Int) (n : Node) : Node → Node :=
  mapTargets (·.setAll (exported stableHash t n.targets.items))

theorem hasKey_keepBelow {n : Node} {k : String} {t : Int} :
    (keepBelow stableHash t n).hasKey k = true ↔ (stableHash k : Int) < t ∧ n.hasKey k = true := by
  simp [hasKey, keepBelow, mapTargets, Dict.contains_filter]

theorem hasKey_withExported {n n' : Node} {k : String} {t : Int} :
    (withExported stableHash t n n').hasKey k = true ↔
      (stableHash k : Int) ≥ t ∧ n.hasKey k = true ∨ n'.hasKey k = true := by
  change (n'.targets.setAll (n.targets.filter (fun k => (stableHash k : Int) ≥ t)).items).contains k = true ↔ _
  simp [Dict.contains_setAll, Dict.contains_filter, hasKey]

/-! ## Deleting -/

theorem exec_deleteKey {self : Ref} {key : String} {h : Heap Node} {target : Target}
    (ht : (h.read self).get key = some target) :
    exec (deleteKey self key) h = (.ok target, h.update self (mapTargets (·.erase key))) := by
  rw [Node.get] at ht
  simp only [deleteKey, exec_bind, exec_get, Node.delete, ht, exec_ofExcept, exec_modify, exec_pure]
  rfl

theorem exec_deleteKeys {self : Ref} {ks : List String} (hnd : ks.Nodup) {h : Heap Node}
    (hk : ∀ k ∈ ks, (h.read self).hasKey k) :
    exec (forM ks fun key => discard (deleteKey self key)) h =
      (.ok ⟨⟩, h.update self (mapTargets (·.filter (fun k => k ∉ ks)))) := by
  induction ks generalizing h with
  | nil =>
      rw [exec_forM_nil, Heap.update_self]
      simp [mapTargets, Dict.filter]
  | cons k ks ih =>
      obtain ⟨hkn, hnd⟩ := List.nodup_cons.mp hnd
      obtain ⟨v, hv⟩ := Dict.contains_iff.mp (hk k (by simp))
      have hdel := exec_deleteKey (show (h.read self).get k = some v from hv)
      have hrest : ∀ x ∈ ks, ((h.update self (mapTargets (·.erase k))).read self).hasKey x := by
        intro x hx
        have hxk : x ≠ k := fun he => hkn (he ▸ hx)
        have hxh := hk x (List.mem_cons_of_mem _ hx)
        rw [hasKey] at hxh ⊢
        simp [mapTargets, Dict.contains_erase, hxk, hxh]
      rw [exec_forM_cons, exec_discard, hdel]
      simp only [Except.map]
      rw [ih hnd hrest, Heap.update_update]
      congr 1
      refine Heap.update_congr ?_
      simp only [mapTargets, Dict.erase, Dict.filter, List.filter_filter]
      congr 2
      refine List.filter_congr fun e _ => ?_
      by_cases hek : e.1 = k <;> simp [hek]

theorem exec_cleanKeys {self : Ref} {ks : List String} {h : Heap Node} (hks : (h.read self).keysToDelete = ks)
    (hnd : ks.Nodup) (hk : ∀ k ∈ ks, (h.read self).hasKey k) :
    exec (cleanKeys self) h = (.ok ⟨⟩, h.update self fun n =>
      { mapTargets (·.filter (fun k => k ∉ ks)) n with keysToDelete := [] }) := by
  simp only [cleanKeys, exec_bind, exec_get, hks, exec_deleteKeys hnd hk, exec_modify, Heap.update_update]

/-! ## Exporting -/

/-- The loop copies the items from the threshold on and records their keys. -/
theorem exec_exportLoop {self otherNode : Ref} (hne : self ≠ otherNode) (t : Int)
    (items : List (String × Target)) (h : Heap Node) :
    exec (forM items (exportKey stableHash self otherNode t)) h =
      (.ok ⟨⟩, (h.update otherNode (mapTargets (·.setAll (exported stableHash t items)))).update self
        fun n => { n with keysToDelete := n.keysToDelete ++ (exported stableHash t items).map Prod.fst }) := by
  induction items generalizing h with
  | nil =>
      rw [exec_forM_nil, Heap.update_self (by simp [exported]),
        Heap.update_self (by simp [exported, mapTargets])]
  | cons e items ih =>
      rw [exec_forM_cons]
      by_cases he : (stableHash e.1 : Int) ≥ t
      · have hex : exported stableHash t (e :: items) = e :: exported stableHash t items := by
          simp [exported, he]
        simp only [exportKey, he, ↓reduceIte, exec_bind, exec_modify]
        rw [ih, hex, Heap.update_comm _ hne, Heap.update_update, Heap.update_update]
        simp only [List.map_cons, List.append_assoc, List.singleton_append, Dict.setAll_cons]
        rfl
      · have hex : exported stableHash t (e :: items) = exported stableHash t items := by
          simp [exported, he]
        simp only [exportKey, he, ↓reduceIte, exec_pure]
        rw [ih, hex]

theorem exec_exportKeys {self otherNode : Ref} (hne : self ≠ otherNode) (t : Int) {h : Heap Node}
    (hclean : (h.read self).keysToDelete = []) :
    exec (exportKeys stableHash self otherNode t) h =
      (.ok ⟨⟩, (h.update otherNode
        (mapTargets (·.setAll (exported stableHash t (h.read self).targets.items)))).update self
          (keepBelow stableHash t)) := by
  generalize hks : (exported stableHash t (h.read self).targets.items).map Prod.fst = ks
  have hnd : ks.Nodup := hks ▸ (h.read self).targets.nodup.sublist (List.filter_sublist.map _)
  have hthere : ∀ k ∈ ks, (h.read self).hasKey k := by
    intro k hk
    obtain ⟨e, he, rfl⟩ := List.mem_map.mp (hks ▸ hk)
    exact Dict.mem_keys.mp (List.mem_map_of_mem (List.mem_of_mem_filter he))
  simp only [exportKeys, exec_bind, exec_get, exec_exportLoop hne, hks]
  rw [exec_cleanKeys (by simp [hne, hclean]) hnd (by simpa [hne, hasKey] using hthere), Heap.update_update]
  congr 1
  refine Heap.update_congr ?_
  simp only [Heap.read_update, hne, ↓reduceIte, keepBelow, mapTargets, hclean]
  congr 1
  -- the keys that stay are those that were not recorded
  refine Dict.ext (List.filter_congr fun e he => ?_)
  have hmem : e.1 ∈ ks ↔ (stableHash e.1 : Int) ≥ t := by
    rw [← hks]
    simp only [exported, List.mem_map, List.mem_filter, decide_eq_true_eq]
    constructor
    · rintro ⟨f, ⟨_, hf⟩, hfe⟩; exact hfe ▸ hf
    · exact fun ht => ⟨e, ⟨he, ht⟩, rfl⟩
  rw [decide_eq_decide, hmem, not_le]

end PrometheusRing.Node
