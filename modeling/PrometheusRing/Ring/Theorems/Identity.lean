import PrometheusRing.Orquestrator.SwarmOrquestrator
import PrometheusRing.Ring.Lemmas.Hashes
import PrometheusRing.Ring.Theorems.Tree

/-!
# Every scale-up gets a fresh identity

The index of a new node is the mean hash of the node that is split. This can be that node's own key in the tree,
or the index of a node that a scale-down has moved to a greater key.
-/

namespace PrometheusRing.Ring

open AbstractDataType

variable (stableHash : String → Nat)

/-- The index of no other node lies between the hashes of the keys of the node that is split, and these do not
all lie at its own key in the tree and the next number, one of them at the key itself. -/
def SplitsApart (s : TreeRing) : Op → Prop
  | .insert target key uuid4 => ∀ n ∈ s.scaledUp stableHash (key.getD uuid4) target,
      let hashes := ((s.node n).insert (key.getD uuid4) target).hashes stableHash
      (∀ r ∈ s.getNodes, r ≠ n → ∀ x ∈ hashes, ∀ y ∈ hashes, ¬ (x ≤ (s.node r).index ∧ (s.node r).index ≤ y)) ∧
      ∀ e ∈ s.ring.inorder, e.2 = n → ¬ (e.1 ∈ hashes ∧ ∀ x ∈ hashes, x ≤ e.1 + 1)
  | _ => True

instance (s : TreeRing) : DecidablePred (SplitsApart stableHash s)
  | .insert _ _ _ => inferInstanceAs (Decidable (∀ n ∈ _, _))
  | .update _ _ => inferInstanceAs (Decidable True)
  | .delete _ => inferInstanceAs (Decidable True)

/-- Indices and tree keys are distinct, and no node is under a smaller key than its index. -/
structure Identified (s : TreeRing) : Prop extends Placed stableHash s where
  hashes : DistinctHashes stableHash s
  indices : s.DistinctIndices
  keys : (s.ring.inorder.map Prod.fst).Nodup
  index_le : ∀ i r, (i, r) ∈ s.ring.inorder → (s.node r).index ≤ i

variable {stableHash} {s s' s₀ : TreeRing} {n r : Ref} {m : Nat} {t : Target} {k : Option String} {u : String}
  {op : Op} {o : Outcome}

namespace Identified

theorem fresh (args : NodeArgs) (argsOk : args.check = .ok ()) (nodeMinLoad nodeMaxLoad nodeBasePorts : Int) :
    Identified stableHash (Ring.fresh args argsOk nodeMinLoad nodeMaxLoad empty nodeBasePorts) where
  toPlaced := Placed.fresh args argsOk nodeMinLoad nodeMaxLoad nodeBasePorts
  hashes := DistinctHashes.fresh args argsOk nodeMinLoad nodeMaxLoad nodeBasePorts
  indices := DistinctIndices.fresh args argsOk nodeMinLoad nodeMaxLoad nodeBasePorts
  keys := List.nodup_singleton 0
  index_le i _ _ := Nat.zero_le i

/-- No entry of the tree has the new index as its key, and no node has it as its index. -/
theorem mid_fresh (hs : Identified stableHash s) (hf : FreshHash stableHash s (.insert t k u))
    (hsplit : SplitsApart stableHash s (.insert t k u)) (hup : s.scaledUp stableHash (k.getD u) t = some n)
    (hm : ((s.node n).insert (k.getD u) t).calcMidHash stableHash = .ok m) :
    (∀ v, (m, v) ∉ s.ring.inorder) ∧ ∀ r ∈ s.getNodes, (s.node r).index ≠ m := by
  obtain ⟨hn, hmem, hs', hmid⟩ := hs.scaledUp hup hm
  obtain ⟨hother, hcrowd⟩ := hsplit n hup
  obtain ⟨i, hi, him, hmax⟩ := Routing.owner_greatest hs.valid hmid
  have hnode : (s.onNode n (·.insert (k.getD u) t)).node n = (s.node n).insert (k.getD u) t := node_onNode_self
  have hle := hs'.entry_le hi
  have hnodup := (hs.hashes.stored hs.toPlaced hf hn).nodup hs' hmem
  rw [hnode] at hle hnodup
  obtain ⟨hne, hmean⟩ := Node.calcMidHash_eq_ok.mp hm
  have hlt : i ≠ m := by
    rintro rfl
    exact hcrowd (i, n) hi rfl ((Mean.mean_eq_iff hne hnodup hle).mp hmean)
  constructor
  · exact fun v hv => hlt (le_antisymm him (hmax m v hv le_rfl))
  · rintro r hr rfl
    cases eq_or_ne r n with
    | inl he => subst he; exact hlt (le_antisymm him (hs.index_le i r hi))
    | inr hrn =>
        obtain ⟨⟨x, hx, hxm⟩, y, hy, hmy⟩ := Node.calcMidHash_between hm
        exact hother r hr hrn (stableHash x) (Node.mem_hashes.mpr ⟨x, hx, rfl⟩) (stableHash y)
          (Node.mem_hashes.mpr ⟨y, hy, rfl⟩) ⟨hxm, hmy⟩

theorem step (hs : Identified stableHash s) (hf : FreshHash stableHash s op)
    (hsplit : SplitsApart stableHash s op) (h : Step stableHash s op o s') : Identified stableHash s' where
  toPlaced := hs.toPlaced.step h
  hashes := hs.hashes.step hs.toPlaced hf h
  indices := by
    refine hs.indices.step hs.toPlaced h ?_
    rintro t k u n m rfl hup hm
    exact (hs.mid_fresh hf hsplit hup hm).2
  keys := by
    cases h with
    | Ins_Exists | Upd_Missing | Del_Missing | Ins_NoCapacity | Ins_Stored | Upd_Stored | Del_NoCapacity
    | Del_Kept | Del_Untracked | Del_NoPrior => exact hs.keys
    | Del_Merged _ hd hp => exact hs.valid.nodup_keys_remove hd hp hs.keys
    | Ins_Split hkey hup hm =>
        subst hkey
        exact hs.valid.nodup_keys_insert hs.keys (hs.mid_fresh hf hsplit hup hm).1 _
  index_le := by
    have hkeep : ∀ i r, (i, r) ∈ s.ring.inorder → (s'.node r).index ≤ i := by
      intro i r hr
      rw [index_step hs.toPlaced h (hs.allocated r ((Routing.mem_list hs.valid).mpr ⟨i, hr⟩))]
      exact hs.index_le i r hr
    cases h with
    | Ins_Exists | Upd_Missing | Del_Missing => exact hs.index_le
    | Ins_NoCapacity | Ins_Stored | Upd_Stored | Del_NoCapacity | Del_Kept | Del_Untracked | Del_NoPrior =>
        exact hkeep
    | Ins_Split _ hup hm =>
        obtain ⟨-, hmem, hs', -⟩ := hs.scaledUp hup hm
        intro i r hr
        rcases Routing.entry_of_insert hs.valid hr with ⟨rfl, rfl⟩ | hr
        · rw [index_split_new (hs'.allocated _ hmem)]
        · exact hkeep i r hr
    | Del_Merged _ hd hp =>
        intro i r hr
        obtain ⟨j, hji, hj⟩ := hs.valid.entry_of_remove hd hp hr
        exact (hkeep j r hj).trans hji

end Identified

/-- In every state that a run reaches, indices, service names and tree keys are distinct, and the index of a new
node is not that of a node in the ring. -/
theorem fresh_identity {args : NodeArgs} {nodeMinLoad nodeMaxLoad nodeBasePorts : Int}
    (hinit : Ring.init args nodeMinLoad nodeMaxLoad empty nodeBasePorts = .ok s₀) (ops : List Op)
    (hguard : (machine stableHash).Guarded
      (fun s op => FreshHash stableHash s op ∧ SplitsApart stableHash s op) ops s₀) :
    let s := (machine stableHash).run ops s₀
    (s.getNodes.map fun r => (s.node r).index).Nodup ∧
      (s.getNodes.map fun r => serviceName (s.node r).index).Nodup ∧
      (s.ring.inorder.map Prod.fst).Nodup ∧
      ∀ target key uuid4 newNode, FreshHash stableHash s (.insert target key uuid4) →
        SplitsApart stableHash s (.insert target key uuid4) →
        (machine stableHash (.insert target key uuid4) s).1 = .ok (some newNode) →
        ∀ r ∈ s.getNodes,
          (s.node r).index ≠ ((machine stableHash (.insert target key uuid4) s).2.node newNode).index := by
  intro s
  obtain ⟨h, rfl⟩ := init_eq_ok.mp hinit
  have hs : Identified stableHash s := hguard.invariant (Identified stableHash)
    (fun s op hs hop => hs.step hop.1 hop.2 (step_machine hs.toSound stableHash op))
    (Identified.fresh args h nodeMinLoad nodeMaxLoad nodeBasePorts)
  refine ⟨hs.indices.nodup hs.toPlaced, ?_, hs.keys, ?_⟩
  · have hnames := (hs.indices.nodup hs.toPlaced).map serviceName_injective
    rwa [List.map_map] at hnames
  · intro target key uuid4 newNode hf hsplit hnew
    have hstep := step_machine hs.toSound stableHash (.insert target key uuid4)
    rw [hnew] at hstep
    generalize (machine stableHash (.insert target key uuid4) s).2 = s' at hstep
    cases hstep with
    | Ins_Split hkey hup hm =>
        subst hkey
        obtain ⟨-, hmem, hs', -⟩ := hs.scaledUp hup hm
        intro r hr he
        exact (hs.mid_fresh hf hsplit hup hm).2 r hr (he.trans (index_split_new (hs'.allocated _ hmem)))

theorem fresh_identity_default :
    let t : Target := ⟨"a", "a", "host", 8000⟩
    let insert (id : String) : Op := .insert t (some id) ""
    let s := (machine String.length).run [insert "", insert "bbbb", insert "cc", .delete "bbbb"]
      (Settings.freshRing _ : TreeRing)
    (s.getNodes.map fun r => (s.node r).index).Nodup :=
  (fresh_identity (Settings.ring_default _) _ (by decide +kernel)).1

/-- Neighbouring hashes from node zero's index on: the new node gets index 0, too. -/
theorem split_repeats_index :
    let hash := tableHash [("a", 0), ("b", 1)]
    let target (id : String) : Target := ⟨id, id, "host", 8000⟩
    let s := (machine hash).run [.insert (target "a") (some "a") ""] (Settings.freshRing _ : TreeRing)
    let r := machine hash (.insert (target "b") (some "b") "") s
    r.1 = .ok (some 1) ∧ (r.2.node 1).index = (s.node 0).index ∧ 0 ∈ s.getNodes ∧
      r.2.getNodes.map (fun n => serviceName (r.2.node n).index) = ["prometheus-0", "prometheus-0"] ∧
      r.2.ring.inorder.map Prod.fst = [0, 0] := by
  decide +kernel

end PrometheusRing.Ring
