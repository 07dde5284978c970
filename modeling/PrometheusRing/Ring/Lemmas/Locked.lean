import PrometheusRing.Ring.Lemmas.Indices
import PrometheusRing.Ring.Writes

/-!
# The blocks that run under the lock

The block of `insert` may find its key taken: another thread can register the key after the duplicate check.
`Stored` lists the ways it can go, with no assumption about the key.
-/

namespace PrometheusRing.Ring

open AbstractDataType Effect

variable {σ : Type} [AbstractDataType σ Ref] (stableHash : String → Nat)

/-- The block of `insert`: its outcome and the state it leaves. -/
inductive Stored (s : Ring σ) (t : Target) (key : String) : Outcome → Ring σ → Prop where
  | NoCapacity {n} : s.findNode (stableHash key) = some n → (s.node n).capacity = 0 →
      Stored s t key (.error .zeroDivisionError) (s.onNode n (·.insert key t))
  | Kept {n l} : s.findNode (stableHash key) = some n → ((s.node n).insert key t).load = .ok l →
      l ≤ s.nodeMaxLoad → Stored s t key (.ok none) (s.onNode n (·.insert key t))
  | Split {n l m} : s.findNode (stableHash key) = some n → ((s.node n).insert key t).load = .ok l →
      s.nodeMaxLoad < l → ((s.node n).insert key t).calcMidHash stableHash = .ok m →
      Stored s t key (.ok (some s.heap.next)) ((s.onNode n (·.insert key t)).split stableHash n m)

/-- One block: the call, its outcome and the state it leaves. -/
inductive LockedStep (s : Ring σ) : Op → Outcome → Ring σ → Prop where
  | Insert {t k u o s'} : Stored stableHash s t (k.getD u) o s' → LockedStep s (.insert t k u) o s'
  | Update {key t o s'} : Step stableHash s (.update key t) o s' → LockedStep s (.update key t) o s'
  | Delete {key o s'} : Step stableHash s (.delete key) o s' → LockedStep s (.delete key) o s'

/-- A split gives the new node an index that no node of the ring has. -/
def FreshSplit (s : Ring σ) (t : Target) (key : String) : Prop :=
  ∀ n ∈ s.findNode (stableHash key), ∀ l ∈ ((s.node n).insert key t).load.toOption, s.nodeMaxLoad < l →
    ∀ m ∈ (((s.node n).insert key t).calcMidHash stableHash).toOption, ∀ r ∈ s.getNodes, (s.node r).index ≠ m

instance (s : Ring σ) (t : Target) (key : String) : Decidable (FreshSplit stableHash s t key) :=
  inferInstanceAs (Decidable (∀ n ∈ _, _))

variable {stableHash} {s s' : Ring σ} {n r : Ref} {m : Nat} {key k : String} {t : Target} {op : Op} {o : Outcome}
  [Routing σ]

omit [Routing σ] in
theorem freshSplit_of (h : ∀ n l m, s.findNode (stableHash key) = some n → ((s.node n).insert key t).load = .ok l →
    s.nodeMaxLoad < l → ((s.node n).insert key t).calcMidHash stableHash = .ok m →
      ∀ r ∈ s.getNodes, (s.node r).index ≠ m) : FreshSplit stableHash s t key := by
  intro n hn l hl hlt m hm
  cases hload : ((s.node n).insert key t).load with
  | error e => rw [hload] at hl; cases hl
  | ok l' =>
      rw [hload] at hl
      cases hl
      cases hmid : ((s.node n).insert key t).calcMidHash stableHash with
      | error e => rw [hmid] at hm; cases hm
      | ok m' =>
          rw [hmid] at hm
          cases hm
          exact h n l m hn hload hlt hmid

theorem stored_insertLocked (hs : s.Sound) (t : Target) (key : String) :
    Stored stableHash s t key (exec (insertLocked stableHash t key) s).1
      (exec (insertLocked stableHash t key) s).2 := by
  obtain ⟨n, hn, hmem⟩ := hs.findNode (stableHash key)
  simp only [insertLocked, exec_bind, exec_get, notNone, hn, exec_ofExcept, exec_update, node_onNode_self]
  cases hl : ((s.node n).insert key t).load with
  | error e =>
      obtain ⟨hc, rfl⟩ := Node.load_eq_error hl
      exact Stored.NoCapacity hn hc
  | ok l =>
      by_cases hlt : s.nodeMaxLoad < l
      · obtain ⟨m, hm⟩ := @calcMidHash_insert stableHash (s.node n) key t
        have hs' : (s.onNode n (·.insert key t)).Sound := hs.onNode rfl rfl
        have hm' : ((s.onNode n (·.insert key t)).node n).calcMidHash stableHash = .ok m := by
          rw [node_onNode_self]; exact hm
        simp only [gt_iff_lt, nodeMaxLoad_onNode, hlt, ↓reduceIte, exec_bind, exec_pure,
          exec_splitNode (hs'.allocated n hmem) (hs'.settled n hmem) hm']
        exact Stored.Split hn hl hlt hm
      · simp only [gt_iff_lt, nodeMaxLoad_onNode, hlt, ↓reduceIte, exec_pure]
        exact Stored.Kept hn hl (not_lt.mp hlt)

theorem step_locked (hs : s.Sound) (stableHash : String → Nat) (op : Op) :
    LockedStep stableHash s op (exec (locked stableHash op) s).1 (exec (locked stableHash op) s).2 := by
  cases op with
  | insert t k u => exact .Insert (stored_insertLocked hs t (k.getD u))
  | update key t => exact .Update (step_machine hs stableHash (.update key t))
  | delete key => exact .Delete (step_machine hs stableHash (.delete key))

/-! ## What a block keeps -/

/-- The node that an insert splits, and where. -/
theorem Placed.mid_stored (hs : Placed stableHash s) (hn : s.findNode (stableHash key) = some n)
    (hm : ((s.node n).insert key t).calcMidHash stableHash = .ok m) :
    n ∈ s.getNodes ∧ Placed stableHash (s.onNode n (·.insert key t)) ∧
      (s.onNode n (·.insert key t)).findNode m = some n := by
  have hs' := hs.stored hn t
  have hmem := Routing.owner_mem hs.valid hn
  exact ⟨hmem, hs', hs'.findNode_mid hmem (by rw [node_onNode_self]; exact hm)⟩

namespace DistinctIndices

omit [Routing σ] in
theorem stored (hd : s.DistinctIndices) (n : Ref) (key : String) (t : Target) :
    (s.onNode n (·.insert key t)).DistinctIndices := by
  have hold : ∀ r, ((s.onNode n (·.insert key t)).node r).index = (s.node r).index := fun r =>
    field_onNode Node.index fun _ => rfl
  intro r hr r' hr' he
  rw [hold r, hold r'] at he
  exact hd r hr r' hr' he

theorem split (hd : s.DistinctIndices) (hs : Placed stableHash s) (hn : n ∈ s.getNodes)
    (hfresh : ∀ r ∈ s.getNodes, (s.node r).index ≠ m) : (s.split stableHash n m).DistinctIndices := by
  have hold : ∀ r ∈ s.getNodes, ((s.split stableHash n m).node r).index = (s.node r).index := fun r hr =>
    field_split Node.index (fun _ _ => rfl) (hs.allocated n hn) (hs.allocated r hr)
  have hnew := @index_split_new _ _ stableHash s _ m (hs.allocated n hn)
  intro r hr r' hr' he
  rcases hs.mem_of_mem_split hr with rfl | hr
  · rcases hs.mem_of_mem_split hr' with rfl | hr'
    · rfl
    · rw [hnew, hold r' hr'] at he
      exact absurd he.symm (hfresh r' hr')
  · rcases hs.mem_of_mem_split hr' with rfl | hr'
    · rw [hnew, hold r hr] at he
      exact absurd he (hfresh r hr)
    · rw [hold r hr, hold r' hr'] at he
      exact hd r hr r' hr' he

end DistinctIndices

namespace Stored

theorem placed (h : Stored stableHash s t key o s') (hs : Placed stableHash s) : Placed stableHash s' := by
  cases h with
  | NoCapacity hn => exact hs.stored hn t
  | Kept hn => exact hs.stored hn t
  | Split hn _ _ hm =>
      obtain ⟨hmem, hs', hmid⟩ := hs.mid_stored hn hm
      exact hs'.split hmem hmid

theorem tracked (h : Stored stableHash s t key o s') (hs : Tracked stableHash s) : Tracked stableHash s' where
  toPlaced := h.placed hs.toPlaced
  indexed := by
    cases h with
    | NoCapacity hn => exact (hs.stored hn t).indexed
    | Kept hn => exact (hs.stored hn t).indexed
    | Split hn _ _ hm =>
        obtain ⟨hmem, -, -⟩ := hs.mid_stored hn hm
        have hs' := hs.stored hn t
        intro i r hr
        rcases Routing.entry_of_insert hs.valid hr with ⟨rfl, rfl⟩ | hr
        · exact index_split_new (hs'.allocated _ hmem)
        · exact (field_split Node.index (fun _ _ => rfl) (hs'.allocated _ hmem)
            (hs'.allocated r (hs.mem hr))).trans (hs'.indexed i r hr)

theorem distinct (h : Stored stableHash s t key o s') (hs : Placed stableHash s) (hd : s.DistinctIndices)
    (hfresh : FreshSplit stableHash s t key) : s'.DistinctIndices := by
  cases h with
  | @NoCapacity n | @Kept n => exact hd.stored n key t
  | @Split n _ m hn hl hlt hm =>
      obtain ⟨hmem, hs', -⟩ := hs.mid_stored hn hm
      refine (hd.stored n key t).split hs' hmem fun r hr => ?_
      have hold : ((s.onNode n (·.insert key t)).node r).index = (s.node r).index := field_onNode Node.index fun _ => rfl
      rw [hold]
      exact hfresh n hn _ (hl ▸ rfl) hlt m (hm ▸ rfl) r hr

omit [Routing σ] in
theorem args (h : Stored stableHash s t key o s') : s'.args = s.args := by
  cases h <;> rfl

theorem returned (h : Stored stableHash s t key o s') (hs : Placed stableHash s) (hcap : s.args.capacity ≠ 0) :
    ∃ x, o = .ok x := by
  cases h with
  | NoCapacity hn hz => exact absurd hz (hs.capacity_ne hcap hn)
  | Kept => exact ⟨_, rfl⟩
  | Split => exact ⟨_, rfl⟩

/-- The target is found under the key, whether or not the key was taken, and nothing else has changed. -/
theorem lookup_eq (h : Stored stableHash s t key o s') (hs : Placed stableHash s) :
    s'.lookup stableHash = Function.update (s.lookup stableHash) key (some t) := by
  funext k
  rw [Function.update_apply]
  cases h with
  | NoCapacity hn => exact lookup_stored hn
  | Kept hn => exact lookup_stored hn
  | Split hn _ _ hm =>
      obtain ⟨hmem, hs', hmid⟩ := hs.mid_stored hn hm
      exact (lookup_split hs' hmem hmid).trans (lookup_stored hn)

end Stored

namespace LockedStep

theorem placed (h : LockedStep stableHash s op o s') (hs : Placed stableHash s) : Placed stableHash s' := by
  cases h with
  | Insert h => exact h.placed hs
  | Update h => exact hs.step h
  | Delete h => exact hs.step h

theorem tracked (h : LockedStep stableHash s op o s') (hs : Tracked stableHash s)
    (hc : CleanMerge stableHash s op) : Tracked stableHash s' := by
  cases h with
  | Insert h => exact h.tracked hs
  | Update h => exact hs.step hc h
  | Delete h => exact hs.step hc h

omit [Routing σ] in
theorem args (h : LockedStep stableHash s op o s') : s'.args = s.args := by
  cases h with
  | Insert h => exact h.args
  | Update h => exact args_step h
  | Delete h => exact args_step h

/-- A block changes what routing finds as it changes the registry. -/
theorem lookup_eq (h : LockedStep stableHash s op o s') (hs : Tracked stableHash s)
    (hcap : s.args.capacity ≠ 0) (hsafe : SafeMerge stableHash s op) :
    s'.lookup stableHash = register (s.lookup stableHash) (op, o) := by
  cases h with
  | Insert h =>
      obtain ⟨x, rfl⟩ := h.returned hs.toPlaced hcap
      exact h.lookup_eq hs.toPlaced
  | Update h => exact lookup_step hs hcap hsafe h
  | Delete h => exact lookup_step hs hcap hsafe h

end LockedStep

end PrometheusRing.Ring
