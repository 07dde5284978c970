import PrometheusRing.Adt.Lemmas.MapRouting
import PrometheusRing.Adt.MockADT
import PrometheusRing.Ring.Lemmas.Indices
import PrometheusRing.Settings

/-!
# The ring on an ordered map

On a container that behaves as a finite map ordered by index, every key sits on the node with the greatest
index at most its hash, and a call moves no more keys than a split or a merge has to.
-/

namespace PrometheusRing.Ring

open AbstractDataType

variable {σ : Type} [AbstractDataType σ Ref] [OrderedMap σ] {stableHash : String → Nat} {s s' s₀ : Ring σ}
  {r n : Ref} {k : String} {args : NodeArgs} {nodeMinLoad nodeMaxLoad nodeBasePorts : Int}

theorem cleanMerge (op : Op) : CleanMerge stableHash s op := fun _ _ _ _ => trivial

theorem run_tracked (hinit : Ring.init args nodeMinLoad nodeMaxLoad empty nodeBasePorts = .ok s₀)
    (ops : List Op) : Tracked stableHash ((machine stableHash).run ops s₀) := by
  obtain ⟨h, rfl⟩ := init_eq_ok.mp hinit
  exact Machine.run_invariant (Tracked stableHash) (fun _ op hs => hs.machine (cleanMerge op)) ops
    (Tracked.fresh args h nodeMinLoad nodeMaxLoad nodeBasePorts)

/-! ## Placement -/

/-- The keys that a call which returned has inserted and that no call has been asked to delete since. -/
def storedKeys (keys : Set String) : Op × Outcome → Set String
  | (.insert _ key uuid4, .ok _) => insert (key.getD uuid4) keys
  | (.delete key, _) => keys \ {key}
  | _ => keys

theorem storedKeys_step {op : Op} {o : Outcome} {keys : Set String} (hs : Placed stableHash s)
    (hcap : s.args.capacity ≠ 0) (h : Step stableHash s op o s')
    (hkeys : ∀ k, k ∈ keys ↔ (s.lookup stableHash k).isSome) :
    ∀ k, k ∈ storedKeys keys (op, o) ↔ (s'.lookup stableHash k).isSome := by
  intro k
  cases op with
  | insert target key uuid4 =>
      cases o with
      | ok x =>
          rw [lookup_step_ok hs (cleanMerge _) h]
          by_cases hk : k = key.getD uuid4 <;> simp [storedKeys, Op.key, Op.written, hk, hkeys]
      | error e =>
          cases h with
          | Ins_Exists => exact hkeys k
          | Ins_NoCapacity _ hn _ hz =>
              rw [hs.shared _ (Routing.owner_mem hs.valid hn)] at hz
              exact absurd hz hcap
  | update key newTarget =>
      cases h with
      | Upd_Missing => exact hkeys k
      | Upd_Stored hn hin =>
          rw [lookup_stored hn]
          by_cases hk : k = key
          · subst hk; simpa [storedKeys, hkeys, ← hasKey_of_lookup hn] using hin
          · simp [storedKeys, hk, hkeys]
  | delete key =>
      by_cases hk : k = key
      · subst hk; simp [storedKeys, lookup_delete hs h]
      · rw [lookup_step_of_ne hs (cleanMerge _) h hk, ← hkeys]
        simp [storedKeys, hk]

theorem run_storedKeys (hinit : Ring.init args nodeMinLoad nodeMaxLoad (empty : σ) nodeBasePorts = .ok s₀)
    (hcap : args.capacity ≠ 0) (ops : List Op) (k : String) :
    k ∈ Machine.observe storedKeys ∅ ((machine stableHash).trace ops s₀) ↔
      (((machine stableHash).run ops s₀).lookup stableHash k).isSome := by
  obtain ⟨h, rfl⟩ := init_eq_ok.mp hinit
  have hfresh : Placed stableHash (Ring.fresh args h nodeMinLoad nodeMaxLoad (empty : σ) nodeBasePorts) :=
    Placed.fresh args h nodeMinLoad nodeMaxLoad nodeBasePorts
  refine (Machine.run_refines (fun s keys => Placed stableHash s ∧ s.args = args ∧
    ∀ k, k ∈ keys ↔ (s.lookup stableHash k).isSome) (fun s keys op hs => ?_) ops
      ⟨hfresh, rfl, fun k => ?_⟩).2.2 k
  · obtain ⟨hs, rfl, hkeys⟩ := hs
    have hstep := step_machine hs.toSound stableHash op
    exact ⟨hs.step hstep, args_step hstep, storedKeys_step hs hcap hstep hkeys⟩
  · rw [lookup_fresh]
    exact ⟨fun hk => hk.elim, fun hk => (nomatch hk)⟩

/-- Every key that was stored and not deleted is held by exactly one node of the map, the one with the greatest
index at most the key's hash, and every node is in the map under its own index. -/
theorem placement (hinit : Ring.init args nodeMinLoad nodeMaxLoad (empty : σ) nodeBasePorts = .ok s₀)
    (hcap : 1 ≤ args.capacity) (ops : List Op) :
    let s := (machine stableHash).run ops s₀
    (∀ k, k ∈ Machine.observe storedKeys ∅ ((machine stableHash).trace ops s₀) ↔
      ∃ r ∈ s.getNodes, (s.node r).hasKey k = true) ∧
    (∀ k, ∀ r ∈ s.getNodes, (s.node r).hasKey k = true →
      (∀ r' ∈ s.getNodes, (s.node r').hasKey k = true → r' = r) ∧
      IsGreatest {i | i ≤ stableHash k ∧ ∃ r' ∈ s.getNodes, (s.node r').index = i} (s.node r).index) ∧
    (∀ r ∈ s.getNodes, search s.ring (s.node r).index = some r) := by
  intro s
  have hs : Tracked stableHash s := run_tracked hinit ops
  refine ⟨fun k => ?_, fun k r hr hk => ⟨fun r' hr' hk' => ?_, ?_⟩, fun r hr => hs.entry hr⟩
  · rw [run_storedKeys hinit (by omega), Option.isSome_iff_exists]
    constructor
    · rintro ⟨t, ht⟩
      obtain ⟨r, hr, hk⟩ := hs.lookup_eq_some.mp ht
      exact ⟨r, hr, Node.hasKey_iff.mpr ⟨t, hk⟩⟩
    · rintro ⟨r, hr, hk⟩
      obtain ⟨t, ht⟩ := Node.hasKey_iff.mp hk
      exact ⟨t, hs.lookup_eq_some.mpr ⟨r, hr, ht⟩⟩
  · exact Option.some.inj ((hs.of_hasKey hr' hk').symm.trans (hs.of_hasKey hr hk))
  · obtain ⟨i, hi, hle, hmax⟩ := Routing.owner_greatest hs.valid (hs.of_hasKey hr hk)
    obtain rfl := hs.indexed i r hi
    refine ⟨⟨hle, r, hr, rfl⟩, ?_⟩
    rintro j ⟨hj, r', hr', rfl⟩
    exact hmax _ r' (hs.entry hr') hj

/-- Two splits, and a merge between them and the end. -/
theorem placement_default :
    let insert (id : String) : Op := .insert ⟨id, id, "host", 8000⟩ (some id) ""
    let s := (machine String.length).run [insert "a", insert "bbbbb", insert "ccccccccc", .delete "bbbbb"]
      (Settings.freshRing (MockADT Ref))
    s.getNodes.map (fun r => (s.node r).index) = [0, 7] ∧ ∀ r ∈ s.getNodes, search s.ring (s.node r).index = some r :=
  ⟨by decide +kernel, (placement (Settings.ring_default (MockADT Ref)) (by decide) _).2.2⟩

/-! ## Movement -/

/-- How the node of another key changes with a call: not at all, unless the key is handed to the new node of a
split, or its node is removed and it is handed to the node with the next smaller index. -/
def Moved (stableHash : String → Nat) (s s' : Ring σ) (k : String) (n n' : Ref) : Op → Outcome → Prop
  | .insert _ key uuid4, .ok (some newNode) =>
      ∃ splitNode, s.findNode (stableHash (key.getD uuid4)) = some splitNode ∧
        n' = if n = splitNode ∧ (s'.node newNode).index ≤ stableHash k then newNode else n
  | .delete _, .ok (some deleted) =>
      n ≠ deleted ∧ n' = n ∨ n = deleted ∧ n' ∈ s.getNodes ∧
        IsGreatest {i | i < (s.node deleted).index ∧ ∃ r ∈ s.getNodes, (s.node r).index = i} (s.node n').index
  | _, _ => n' = n

theorem moved_step {op : Op} {o : Outcome} {n : Ref} (hs : Tracked stableHash s)
    (h : Step stableHash s op o s') (hn : s.findNode (stableHash k) = some n) :
    ∃ n', s'.findNode (stableHash k) = some n' ∧ Moved stableHash s s' k n n' op o := by
  cases h with
  | Ins_Exists | Upd_Missing | Del_Missing => exact ⟨n, hn, rfl⟩
  | Ins_NoCapacity | Ins_Stored | Upd_Stored | Del_NoCapacity | Del_Kept | Del_Untracked | Del_NoPrior =>
      exact ⟨n, hn, rfl⟩
  | @Ins_Split t _ _ key x m hkey hup hm =>
      subst hkey
      obtain ⟨hx, hmem, hs', hmid⟩ := hs.toPlaced.scaledUp hup hm
      have hnew : ((split stableHash (s.onNode x (·.insert _ t)) x m).node s.heap.next).index = m :=
        index_split_new (hs'.allocated x hmem)
      refine ⟨_, ?_, x, hx, rfl⟩
      rw [hs'.findNode_split hmid, findNode_onNode, hn, hnew]
      by_cases hc : n = x ∧ m ≤ stableHash k
      · rw [if_pos hc, if_pos ⟨hc.2, congrArg some hc.1⟩]; rfl
      · rw [if_neg hc, if_neg fun h => hc ⟨Option.some.inj h.2, h.1⟩]
  | @Del_Merged key x d p hdown hd hp =>
      obtain ⟨hx, -⟩ := scaledDown_eq_some.mp hdown
      -- in a map there is one node under the index, the one that is deleted
      obtain rfl : x = d := Option.some.inj ((hs.entry (Routing.owner_mem hs.valid hx)).symm.trans hd)
      have hfind := findNode_merged (hs.toPlaced.dropped x key) trivial hd hp (stableHash k)
      rw [findNode_onNode, hn] at hfind
      by_cases hnx : n = x
      · subst hnx
        obtain ⟨i, ⟨⟨hlt, -⟩, hmax⟩, hi⟩ := (OrderedMap.findMaxSmallerThan_eq_some _ _ _).mp hp
        obtain rfl := hs.indexed i p hi
        refine ⟨p, hfind.trans (if_pos rfl), Or.inr ⟨rfl, hs.mem hi, ⟨hlt, p, hs.mem hi, rfl⟩, ?_⟩⟩
        rintro j ⟨hj, r, hr, rfl⟩
        exact hmax ⟨hj, Option.isSome_iff_exists.mpr ⟨r, hs.entry hr⟩⟩
      · exact ⟨n, hfind.trans (if_neg fun h => hnx (Option.some.inj h)), Or.inl ⟨hnx, rfl⟩⟩

/-- Another key keeps its target, and its node changes only as `Moved` says. -/
theorem minimal_movement (hinit : Ring.init args nodeMinLoad nodeMaxLoad (empty : σ) nodeBasePorts = .ok s₀)
    (ops : List Op) (op : Op) {k : String} (hk : k ≠ op.key) {n : Ref} {t : Target} :
    let s := (machine stableHash).run ops s₀
    let s' := (machine stableHash op s).2
    n ∈ s.getNodes → (s.node n).get k = some t →
      ∃ n' ∈ s'.getNodes, (s'.node n').get k = some t ∧ (∀ r ∈ s'.getNodes, (s'.node r).hasKey k = true → r = n') ∧
        Moved stableHash s s' k n n' op (machine stableHash op s).1 := by
  intro s s' hn ht
  have hs : Tracked stableHash s := run_tracked hinit ops
  have hstep := step_machine hs.toSound stableHash op
  have hs' := hs.toPlaced.step hstep
  have hfind := hs.of_hasKey hn (Node.hasKey_iff.mpr ⟨t, ht⟩)
  obtain ⟨n', hn', hmoved⟩ := moved_step hs hstep hfind
  refine ⟨n', Routing.owner_mem hs'.valid hn', ?_, fun r hr hrk => ?_, hmoved⟩
  · rw [← lookup_of_findNode hn', lookup_step_of_ne hs.toPlaced (cleanMerge op) hstep hk, lookup_of_findNode hfind,
      ht]
  · exact Option.some.inj ((hs'.of_hasKey hr hrk).symm.trans hn')

theorem minimal_movement_default :
    let s := (machine String.length).run [.insert ⟨"bbbbb", "b", "host", 8000⟩ (some "bbbbb") ""]
      (Settings.freshRing (MockADT Ref))
    let op := Op.insert ⟨"a", "a", "host", 8000⟩ (some "a") ""
    let s' := (machine String.length op s).2
    ∃ n' ∈ s'.getNodes, (s'.node n').get "bbbbb" = some ⟨"bbbbb", "b", "host", 8000⟩ ∧
      (∀ r ∈ s'.getNodes, (s'.node r).hasKey "bbbbb" = true → r = n') ∧
      Moved String.length s s' "bbbbb" 0 n' op (machine String.length op s).1 :=
  minimal_movement (Settings.ring_default (MockADT Ref)) _ _ (by decide) (by decide +kernel) (by decide +kernel)

/-! ## Splits -/

/-- The mean of a node's hashes is an index that is free for its new node: it is not below the node's own index,
and below all greater ones. -/
theorem mid_in_range {m : Nat} (hs : Tracked stableHash s) (hn : n ∈ s.getNodes)
    (hm : (s.node n).calcMidHash stableHash = .ok m) :
    (s.node n).index ≤ m ∧ ∀ r ∈ s.getNodes, (s.node n).index < (s.node r).index → m < (s.node r).index := by
  obtain ⟨i, hi, hle, hmax⟩ := Routing.owner_greatest hs.valid (hs.findNode_mid hn hm)
  obtain rfl := hs.indexed i n hi
  refine ⟨hle, fun r hr hlt => ?_⟩
  by_contra hge
  exact absurd (hmax _ r (hs.entry hr) (not_lt.mp hge)) (not_le.mpr hlt)

/-- An insert that overloads a node splits it at the mean of its hashes, which lies between the node's index and the
next one. The new node gets the mean as its index, and at least one key. No other insert splits a node. -/
theorem split_in_range (hinit : Ring.init args nodeMinLoad nodeMaxLoad (empty : σ) nodeBasePorts = .ok s₀)
    (ops : List Op) (target : Target) (key : Option String) (uuid4 : String) :
    let s := (machine stableHash).run ops s₀
    let outcome := (machine stableHash (.insert target key uuid4) s).1
    let s' := (machine stableHash (.insert target key uuid4) s).2
    ((∃ newNode, outcome = .ok (some newNode)) ↔ (s.scaledUp stableHash (key.getD uuid4) target).isSome) ∧
      ∀ n, s.scaledUp stableHash (key.getD uuid4) target = some n →
        let overloaded := (s.node n).insert (key.getD uuid4) target
        ∃ m newNode, overloaded.calcMidHash stableHash = .ok m ∧ outcome = .ok (some newNode) ∧
          (∃ x ∈ overloaded.hashes stableHash, x ≤ m) ∧ (∃ x ∈ overloaded.hashes stableHash, m ≤ x) ∧
          (s.node n).index ≤ m ∧
          (∀ r ∈ s.getNodes, (s.node n).index < (s.node r).index → m < (s.node r).index) ∧
          newNode ∈ s'.getNodes ∧ (s'.node newNode).index = m ∧ ∃ k, (s'.node newNode).hasKey k = true := by
  intro s outcome s'
  have hs : Tracked stableHash s := run_tracked hinit ops
  have hstep : Step stableHash s (.insert target key uuid4) outcome s' :=
    step_machine hs.toSound stableHash (.insert target key uuid4)
  constructor
  · constructor
    · rintro ⟨newNode, ho⟩
      rw [ho] at hstep
      exact isSome_scaledUp hstep
    · intro hsome
      obtain ⟨n, hup⟩ := Option.isSome_iff_exists.mp hsome
      obtain ⟨m, -, ho, -⟩ := split_of_scaledUp hstep hup
      exact ⟨_, ho⟩
  · intro n hup overloaded
    obtain ⟨m, hm, ho, hs'⟩ := split_of_scaledUp hstep hup
    obtain ⟨hn, hmem, hstored, hmid⟩ := hs.toPlaced.scaledUp hup hm
    have hm' : ((s.onNode n (·.insert (key.getD uuid4) target)).node n).calcMidHash stableHash = .ok m := by
      rw [node_onNode_self]; exact hm
    have hindex (r : Ref) : ((s.onNode n (·.insert (key.getD uuid4) target)).node r).index = (s.node r).index :=
      field_onNode Node.index fun _ => rfl
    obtain ⟨hlow, hhigh⟩ := mid_in_range (hs.stored hn target) hmem hm'
    simp only [hindex] at hlow hhigh
    obtain ⟨hne, hmean⟩ := Node.calcMidHash_eq_ok.mp hm
    rw [hs']
    exact ⟨m, s.heap.next, hm, ho, hmean ▸ Mean.exists_le_mean hne, hmean ▸ Mean.exists_mean_le hne, hlow, hhigh,
      hstored.new_mem_split hmem hmid, index_split_new (hstored.allocated n hmem),
      exists_hasKey_split_new (hstored.allocated n hmem) hm'⟩

/-- Two keys with the hash of node zero: the new node takes its index. -/
theorem split_in_range_collision :
    let hash := tableHash []
    let target (id : String) : Target := ⟨id, id, "host", 8000⟩
    let s := (machine hash).run [.insert (target "a") (some "a") ""] (Settings.freshRing (MockADT Ref))
    let overloaded := (s.node 0).insert "b" (target "b")
    ∃ m newNode, overloaded.calcMidHash hash = .ok m ∧
      (machine hash (.insert (target "b") (some "b") "") s).1 = .ok (some newNode) ∧
      (∃ x ∈ overloaded.hashes hash, x ≤ m) ∧ (∃ x ∈ overloaded.hashes hash, m ≤ x) ∧ (s.node 0).index ≤ m :=
  have ⟨m, newNode, hm, ho, hle, hge, hlow, _⟩ :=
    (@split_in_range (MockADT Ref) _ _ (tableHash []) _ _ _ _ _ (Settings.ring_default _)
      [.insert ⟨"a", "a", "host", 8000⟩ (some "a") ""] ⟨"b", "b", "host", 8000⟩ (some "b") "").2 0 (by decide +kernel)
  ⟨m, newNode, hm, ho, hle, hge, hlow⟩

end PrometheusRing.Ring
