import PrometheusRing.Ring.Lemmas.Locked

/-!
# The writes of a call

Made one after the other, the writes of a block leave the ring as the block does.
-/

namespace PrometheusRing.Ring

open AbstractDataType Effect

variable {σ : Type} [AbstractDataType σ Ref] {stableHash : String → Nat} {s s' : Ring σ} {n p : Ref} {i m : Nat}
  {key : String} {t : Target} {op : Op} {o : Outcome}

@[simp] theorem writeAll_nil : writeAll s [] = s := rfl

@[simp] theorem writeAll_cons (w : Write) (ws : List Write) : writeAll s (w :: ws) = writeAll (w.apply s) ws := rfl

theorem writeAll_append (ws ws' : List Write) : writeAll s (ws ++ ws') = writeAll (writeAll s ws) ws' :=
  Machine.run_append ws ws' s

/-! ## `export_keys` -/

theorem writeAll_exportLoop (stableHash : String → Nat) (self otherNode : Ref) (b : Int)
    (items : List (String × Target)) (s : Ring σ) :
    writeAll s ((Node.exported stableHash b items).flatMap
        fun item => [.setTarget otherNode item.1 item.2, .recordKey self item.1]) =
      { s with heap := (exec (forM items (Node.exportKey stableHash self otherNode b)) s.heap).2 } := by
  induction items generalizing s with
  | nil => rfl
  | cons e items ih =>
      rw [exec_forM_cons]
      by_cases he : (stableHash e.1 : Int) ≥ b
      · have hex : Node.exported stableHash b (e :: items) = e :: Node.exported stableHash b items := by
          simp [Node.exported, he]
        simp only [hex, List.flatMap_cons, List.cons_append, List.nil_append, writeAll_cons, ih, Node.exportKey, he,
          ↓reduceIte, exec_bind, exec_modify]
        rfl
      · have hex : Node.exported stableHash b (e :: items) = Node.exported stableHash b items := by
          simp [Node.exported, he]
        simp only [hex, ih, Node.exportKey, he, ↓reduceIte, exec_pure]

theorem writeAll_popTargets (self : Ref) (ks : List String) (s : Ring σ) :
    writeAll s (ks.map (.popTarget self)) =
      { s with heap := s.heap.update self (Node.mapTargets (·.filter (fun k => k ∉ ks))) } := by
  induction ks generalizing s with
  | nil =>
      rw [Heap.update_self]
      · rfl
      · simp [Node.mapTargets, Dict.filter]
  | cons k ks ih =>
      rw [List.map_cons, writeAll_cons, ih]
      simp only [Write.apply, Heap.update_update]
      congr 1
      refine Heap.update_congr ?_
      simp only [Node.mapTargets, Dict.erase, Dict.filter, List.filter_filter]
      congr 2
      refine List.filter_congr fun e _ => ?_
      by_cases hek : e.1 = k <;> simp [hek]

theorem exportWrites_eq (self otherNode : Ref) (b : Int) (x : Node) :
    exportWrites stableHash self otherNode b x =
      (Node.exported stableHash b x.targets.items).flatMap
          (fun item => [.setTarget otherNode item.1 item.2, .recordKey self item.1]) ++
        (x.keysToDelete ++ (Node.exported stableHash b x.targets.items).map Prod.fst).map (.popTarget self) ++
        [.resetKeys self] := rfl

theorem writeAll_exportWrites (hne : n ≠ p) (b : Int) (hsettled : (s.node n).keysToDelete = []) :
    writeAll s (exportWrites stableHash n p b (s.node n)) =
      { s with heap := (exec (Node.exportKeys stableHash n p b) s.heap).2 } := by
  unfold node at hsettled ⊢
  generalize hks : (Node.exported stableHash b (s.heap.read n).targets.items).map Prod.fst = ks
  have hnd : ks.Nodup := hks ▸ (s.heap.read n).targets.nodup.sublist (List.filter_sublist.map _)
  have hthere : ∀ k ∈ ks, (s.heap.read n).targets.contains k := by
    intro k hk
    obtain ⟨e, he, rfl⟩ := List.mem_map.mp (hks ▸ hk)
    exact Dict.mem_keys.mp (List.mem_map_of_mem (List.mem_of_mem_filter he))
  have hloop := @Node.exec_exportLoop stableHash n p hne b (s.heap.read n).targets.items s.heap
  have hwrites := writeAll_exportLoop stableHash n p b (s.heap.read n).targets.items s
  rw [hks] at hloop
  rw [hloop] at hwrites
  simp only [Node.exportKeys, exec_bind, exec_get, hloop]
  rw [Node.exec_cleanKeys (by simpa [hne] using hsettled) hnd (by simpa [hne, Node.hasKey] using hthere)]
  simp only [exportWrites_eq, writeAll_append, hwrites, hsettled, hks, List.nil_append, writeAll_popTargets,
    writeAll_cons, writeAll_nil, Write.apply, Heap.update_update]

/-! ## Splitting and merging -/

theorem writeAll_splitWrites (hlt : n < s.heap.next) (hsettled : (s.node n).keysToDelete = [])
    (hm : (s.node n).calcMidHash stableHash = .ok m) :
    writeAll s (splitWrites stableHash s n) = s.split stableHash n m := by
  have hne : n ≠ s.heap.next := hlt.ne
  simp only [splitWrites, hm, List.cons_append, List.nil_append, writeAll_cons, writeAll_append, Write.apply,
    writeAll_nil]
  -- the node that is split is the one it was before the new node was built
  have hnode : ∀ object a, ({ s with heap := s.heap.alloc object, ring := a } : Ring σ).node n = s.node n :=
    fun object a => if_neg hne
  rw [← hnode (Node.new s.args m (some (s.nodeBasePorts + s.nodeCount))) (insert s.ring m s.heap.next),
    writeAll_exportWrites hne m ((hnode _ _).symm ▸ hsettled)]
  have hexport := @Node.exec_exportKeys stableHash n s.heap.next hne m
    (s.heap.alloc (Node.new s.args m (some (s.nodeBasePorts + s.nodeCount))))
    ((congrArg Node.keysToDelete (hnode _ s.ring)).trans hsettled)
  rw [hexport, show (s.heap.alloc _).read n = s.node n from hnode _ s.ring]
  rfl

variable [Routing σ]

theorem writeAll_deleteNodeWrites (hs : s.Sound) (hd : search s.ring i = some n)
    (hp : findMaxSmallerThan s.ring i = some p) :
    writeAll s (deleteNodeWrites stableHash s i) = s.merged n p i := by
  have hmem : n ∈ s.getNodes := (Routing.mem_list hs.valid).mpr ⟨i, Routing.entry_of_search hs.valid hd⟩
  have hne : n ≠ p := (Routing.prior_ne hs.valid hd hp).symm
  simp only [deleteNodeWrites, hd, hp, writeAll_append, writeAll_exportWrites hne 0 (hs.settled n hmem),
    exec_exportAll hne (hs.settled n hmem), writeAll_cons, writeAll_nil, Write.apply]
  rfl

/-! ## Blocks -/

omit [Routing σ] in
theorem insertWrites_eq (hn : s.findNode (stableHash key) = some n) :
    insertWrites stableHash s t key = .setTarget n key t ::
      match ((s.node n).insert key t).load with
        | .ok load => if load > s.nodeMaxLoad then splitWrites stableHash (s.onNode n (·.insert key t)) n else []
        | .error _ => [] := by
  have hnode : ((Write.setTarget n key t).apply s).node n = (s.node n).insert key t := node_onNode_self
  simp only [insertWrites, hn, hnode]
  rfl

omit [Routing σ] in
theorem deleteWrites_eq (hn : s.findNode (stableHash key) = some n) (hkey : (s.node n).hasKey key = true) :
    deleteWrites stableHash s key = .popTarget n key ::
      match ((s.node n).without key).load with
        | .ok load =>
            if load ≤ s.nodeMinLoad ∧ n ≠ s.nodeZero then
              deleteNodeWrites stableHash (s.onNode n (·.without key)) (s.node n).index
            else []
        | .error _ => [] := by
  have hnode : ((Write.popTarget n key).apply s).node n = (s.node n).without key := node_onNode_self
  simp only [deleteWrites, hn, hkey, hnode]
  rfl

omit [Routing σ] in
/-- A scale-down ends with the writes of `_delete_node`. -/
theorem deleteWrites_of_scaledDown (hdown : s.scaledDown stableHash key = some n) :
    deleteWrites stableHash s key = .popTarget n key ::
      deleteNodeWrites stableHash (s.onNode n (·.without key)) (s.node n).index := by
  obtain ⟨hn, hkey, hz, l, hl, hle⟩ := scaledDown_eq_some.mp hdown
  simp only [deleteWrites_eq hn hkey, hl, if_pos (And.intro hle hz)]

omit [Routing σ] in
theorem deleteWrites_of_kept {l : Int} (hn : s.findNode (stableHash key) = some n)
    (hkey : (s.node n).hasKey key = true) (hl : ((s.node n).without key).load = .ok l)
    (hkeep : s.nodeMinLoad < l ∨ n = s.nodeZero) : deleteWrites stableHash s key = [.popTarget n key] := by
  have hkeep' : ¬ (l ≤ s.nodeMinLoad ∧ n ≠ s.nodeZero) := fun h =>
    hkeep.elim (fun hlt => absurd h.1 (not_le.mpr hlt)) fun hz => h.2 hz
  simp only [deleteWrites_eq hn hkey, hl, if_neg hkeep']

theorem writeAll_insertWrites (hs : s.Sound) (h : Stored stableHash s t key o s') :
    writeAll s (insertWrites stableHash s t key) = s' := by
  cases h with
  | @NoCapacity n hn hz =>
      have hl : ((s.node n).insert key t).load = .error .zeroDivisionError := if_pos hz
      simp only [insertWrites_eq hn, hl]
      rfl
  | Kept hn hl hle =>
      simp only [insertWrites_eq hn, hl, if_neg (not_lt.mpr hle)]
      rfl
  | @Split n l m hn hl hlt hm =>
      have hs' : (s.onNode n (·.insert key t)).Sound := hs.onNode rfl rfl
      have hmem := Routing.owner_mem hs.valid hn
      have hm' : ((s.onNode n (·.insert key t)).node n).calcMidHash stableHash = .ok m := by
        rw [node_onNode_self]; exact hm
      simp only [insertWrites_eq hn, hl, if_pos hlt]
      exact writeAll_splitWrites (hs'.allocated n hmem) (hs'.settled n hmem) hm'

omit [Routing σ] in
theorem writeAll_updateWrites (h : Step stableHash s (.update key t) o s') :
    writeAll s (updateWrites stableHash s key t) = s' := by
  cases h with
  | Upd_Missing hn hkey => simp [updateWrites, hn, hkey]
  | Upd_Stored hn hkey =>
      simp only [updateWrites, hn, hkey]
      rfl

theorem writeAll_deleteWrites (hs : s.Sound) (h : Step stableHash s (.delete key) o s') :
    writeAll s (deleteWrites stableHash s key) = s' := by
  cases h with
  | Del_Missing hn hkey => simp [deleteWrites, hn, hkey]
  | @Del_NoCapacity _ n hn hkey hz =>
      have hl : ((s.node n).without key).load = .error .zeroDivisionError := if_pos hz
      simp only [deleteWrites_eq hn hkey, hl]
      rfl
  | @Del_Kept _ n l hn hkey hl hkeep =>
      rw [deleteWrites_of_kept hn hkey hl hkeep]
      rfl
  | @Del_Untracked _ n hdown hd =>
      have hd' : search (s.onNode n (·.without key)).ring (s.node n).index = none := hd
      rw [deleteWrites_of_scaledDown hdown, deleteNodeWrites, hd']
      rfl
  | @Del_NoPrior _ n d hdown hd hp =>
      have hd' : search (s.onNode n (·.without key)).ring (s.node n).index = some d := hd
      have hp' : findMaxSmallerThan (s.onNode n (·.without key)).ring (s.node n).index = none := hp
      rw [deleteWrites_of_scaledDown hdown, deleteNodeWrites, hd', hp']
      rfl
  | @Del_Merged _ n d p hdown hd hp =>
      have hs' : (s.onNode n (·.without key)).Sound := hs.onNode rfl rfl
      rw [deleteWrites_of_scaledDown hdown]
      exact writeAll_deleteNodeWrites hs' hd hp

/-- One after the other, the writes of a block do what the block does. -/
theorem writeAll_writes (hs : s.Sound) (op : Op) :
    writeAll s (writes stableHash s op) = (exec (locked stableHash op) s).2 := by
  have h := step_locked hs stableHash op
  generalize (exec (locked stableHash op) s).1 = o at h
  generalize (exec (locked stableHash op) s).2 = s' at h
  cases h with
  | Insert h => exact writeAll_insertWrites hs h
  | Update h => exact writeAll_updateWrites h
  | Delete h => exact writeAll_deleteWrites hs h

end PrometheusRing.Ring
