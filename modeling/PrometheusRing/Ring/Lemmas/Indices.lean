import PrometheusRing.Ring.Lemmas.Lookup

/-!
# Nodes and their indices

As long as scale-downs are clean, every node is in the container under its own index. This is what `delete`
relies on when it looks the node up by `node.index`.
-/

namespace PrometheusRing.Ring

open AbstractDataType

variable {σ : Type} [AbstractDataType σ Ref] {stableHash : String → Nat} {s s' : Ring σ}
  {n r d p : Ref} {i m : Nat} {key k : String} {t : Target} {op : Op} {o : Outcome}

/-! ## What no call changes -/

theorem args_step [Percentage] (h : Step stableHash s op o s') : s'.args = s.args := by cases h <;> rfl

theorem nodeMinLoad_step [Percentage] (h : Step stableHash s op o s') : s'.nodeMinLoad = s.nodeMinLoad := by
  cases h <;> rfl

theorem nodeMaxLoad_step [Percentage] (h : Step stableHash s op o s') : s'.nodeMaxLoad = s.nodeMaxLoad := by
  cases h <;> rfl

theorem nodeBasePorts_step [Percentage] (h : Step stableHash s op o s') : s'.nodeBasePorts = s.nodeBasePorts := by
  cases h <;> rfl

theorem nodeZero_step [Percentage] (h : Step stableHash s op o s') : s'.nodeZero = s.nodeZero := by cases h <;> rfl

section Fields

/-! A field of the node objects that storing and dropping keys leaves alone. -/

variable {α : Type} (g : Node → α)

omit [AbstractDataType σ Ref] in
theorem field_onNode {f : Node → Node} (hf : ∀ x, g (f x) = g x) :
    g ((s.onNode n f).node r) = g (s.node r) := by
  rw [node_onNode]
  split
  case isTrue => exact hf _
  case isFalse => rfl

variable (hg : ∀ x targets, g { x with targets } = g x)
include hg

theorem field_split (hn : n < s.heap.next) (hr : r < s.heap.next) :
    g ((s.split stableHash n m).node r) = g (s.node r) := by
  rw [node_split hn hr]
  split
  case isTrue he => subst he; exact hg _ _
  case isFalse => rfl

theorem field_merged (hdp : d ≠ p) : g ((s.merged d p i).node r) = g (s.node r) := by
  rw [node_merged hdp]
  split
  case isTrue he => subst he; exact hg _ _
  case isFalse =>
      split
      case isTrue he => subst he; exact hg _ _
      case isFalse => rfl

theorem field_step [Routing σ] (hs : Placed stableHash s) (h : Step stableHash s op o s')
    (hr : r < s.heap.next) : g (s'.node r) = g (s.node r) := by
  cases h with
  | Ins_Exists | Upd_Missing | Del_Missing => rfl
  | Ins_NoCapacity | Ins_Stored | Upd_Stored | Del_NoCapacity | Del_Kept | Del_Untracked | Del_NoPrior =>
      exact field_onNode g fun _ => hg _ _
  | Ins_Split _ hup hm =>
      obtain ⟨-, hmem, hs', -⟩ := hs.scaledUp hup hm
      exact Eq.trans (field_split g hg (hs'.allocated _ hmem) hr) (field_onNode g fun _ => hg _ _)
  | Del_Merged _ hd hp =>
      exact (field_merged g hg (Routing.prior_ne hs.valid hd hp).symm).trans (field_onNode g fun _ => hg _ _)

end Fields

theorem index_split_new (hn : n < s.heap.next) :
    ((s.split stableHash n m).node s.heap.next).index = m := by rw [node_split_new hn]; rfl

variable [Routing σ]

theorem index_step (hs : Placed stableHash s) (h : Step stableHash s op o s') (hr : r < s.heap.next) :
    (s'.node r).index = (s.node r).index := field_step Node.index (fun _ _ => rfl) hs h hr

omit [Routing σ] in
/-- Node objects are only added. -/
theorem next_le_step (h : Step stableHash s op o s') : s.heap.next ≤ s'.heap.next := by
  cases h <;> simp [onNode, split, merged]

theorem mem_step (hs : Placed stableHash s) (h : Step stableHash s op o s') (hr : r ∈ s'.getNodes) :
    r ∈ s.getNodes ∨ r = s.heap.next := by
  cases h with
  | Ins_Exists | Upd_Missing | Del_Missing | Ins_NoCapacity | Ins_Stored | Upd_Stored | Del_NoCapacity | Del_Kept
  | Del_Untracked | Del_NoPrior => exact Or.inl hr
  | Ins_Split _ hup hm =>
      obtain ⟨-, -, hs', -⟩ := hs.scaledUp hup hm
      exact (hs'.mem_of_mem_split hr).symm
  | Del_Merged _ hd hp => exact Or.inl (Routing.mem_list_of_remove hs.valid hd hp hr)

/-- Only a split brings a node into the container. -/
theorem split_of_new_mem (hs : Placed stableHash s) (h : Step stableHash s op o s')
    (hnew : s.heap.next ∈ s'.getNodes) :
    ∃ t k u n m, op = .insert t k u ∧ s.scaledUp stableHash (k.getD u) t = some n ∧
      ((s.node n).insert (k.getD u) t).calcMidHash stableHash = .ok m ∧
      s' = (s.onNode n (·.insert (k.getD u) t)).split stableHash n m := by
  cases h with
  | Ins_Exists | Upd_Missing | Del_Missing | Ins_NoCapacity | Ins_Stored | Upd_Stored | Del_NoCapacity | Del_Kept
  | Del_Untracked | Del_NoPrior => exact absurd hnew hs.new_notMem
  | Del_Merged _ hd hp => exact absurd (Routing.mem_list_of_remove hs.valid hd hp hnew) hs.new_notMem
  | Ins_Split hkey hup hm =>
      subst hkey
      exact ⟨_, _, _, _, _, rfl, hup, hm, rfl⟩

/-! ## Different nodes with different indices -/

/-- No two nodes of the container share an index. -/
def DistinctIndices (s : Ring σ) : Prop :=
  ∀ r ∈ s.getNodes, ∀ r' ∈ s.getNodes, (s.node r).index = (s.node r').index → r = r'

theorem DistinctIndices.fresh (args : NodeArgs) (argsOk : args.check = .ok ())
    (nodeMinLoad nodeMaxLoad nodeBasePorts : Int) :
    (Ring.fresh args argsOk nodeMinLoad nodeMaxLoad (empty : σ) nodeBasePorts).DistinctIndices := by
  intro r hr r' hr' _
  exact (mem_getNodes_fresh.mp hr).trans (mem_getNodes_fresh.mp hr').symm

/-- Indices stay distinct as long as a new node does not take the index of a node that is there. -/
theorem DistinctIndices.step (hd : s.DistinctIndices) (hs : Placed stableHash s)
    (h : Step stableHash s op o s')
    (hnew : ∀ {t k u n m}, op = .insert t k u → s.scaledUp stableHash (k.getD u) t = some n →
      ((s.node n).insert (k.getD u) t).calcMidHash stableHash = .ok m →
        ∀ r ∈ s.getNodes, (s.node r).index ≠ m) :
    s'.DistinctIndices := by
  have hold : ∀ r ∈ s.getNodes, (s'.node r).index = (s.node r).index := fun r hr =>
    index_step hs h (hs.allocated r hr)
  have hfresh : s.heap.next ∈ s'.getNodes →
      ∀ r ∈ s.getNodes, (s.node r).index ≠ (s'.node s.heap.next).index := by
    intro hmem r hr he
    obtain ⟨t, k, u, n, m, rfl, hup, hm, rfl⟩ := split_of_new_mem hs h hmem
    obtain ⟨-, hn, hs', -⟩ := hs.scaledUp hup hm
    exact hnew rfl hup hm r hr (he.trans (index_split_new (hs'.allocated _ hn)))
  intro r hr r' hr' he
  rcases mem_step hs h hr with hr₀ | rfl
  · rcases mem_step hs h hr' with hr₀' | rfl
    · rw [hold r hr₀, hold r' hr₀'] at he
      exact hd r hr₀ r' hr₀' he
    · exact absurd ((hold r hr₀).symm.trans he) (hfresh hr' r hr₀)
  · rcases mem_step hs h hr' with hr₀' | rfl
    · exact absurd ((hold r' hr₀').symm.trans he.symm) (hfresh hr r' hr₀')
    · rfl

theorem DistinctIndices.nodup (hd : s.DistinctIndices) (hs : Placed stableHash s) :
    (s.getNodes.map fun r => (s.node r).index).Nodup :=
  (Routing.nodup_list hs.valid).map_on fun r hr r' hr' he => hd r hr r' hr' he

/-! ## Every node under its own index -/

/-- The placement invariant, and every node is in the container under its own index. -/
structure Tracked (stableHash : String → Nat) (s : Ring σ) : Prop extends Placed stableHash s where
  indexed : ∀ i r, Routing.Entry s.ring i r → (s.node r).index = i

namespace Tracked

theorem fresh (args : NodeArgs) (argsOk : args.check = .ok ()) (nodeMinLoad nodeMaxLoad nodeBasePorts : Int) :
    Tracked stableHash (Ring.fresh args argsOk nodeMinLoad nodeMaxLoad (empty : σ) nodeBasePorts) where
  toPlaced := Placed.fresh args argsOk nodeMinLoad nodeMaxLoad nodeBasePorts
  indexed i r hr := by
    obtain ⟨rfl, rfl⟩ := Routing.entry_seed.mp hr
    rfl

theorem mem (hs : Tracked stableHash s) (hr : Routing.Entry s.ring i r) : r ∈ s.getNodes :=
  (Routing.mem_list hs.valid).mpr ⟨i, hr⟩

theorem step (hs : Tracked stableHash s) (hc : CleanMerge stableHash s op) (h : Step stableHash s op o s') :
    Tracked stableHash s' where
  toPlaced := hs.toPlaced.step h
  indexed := by
    -- an entry that was there before still has its index
    have hkeep : ∀ i r, Routing.Entry s.ring i r → (s'.node r).index = i := fun i r hr =>
      (index_step hs.toPlaced h (hs.allocated r (hs.mem hr))).trans (hs.indexed i r hr)
    cases h with
    | Ins_Exists | Upd_Missing | Del_Missing => exact hs.indexed
    | Ins_NoCapacity | Ins_Stored | Upd_Stored | Del_NoCapacity | Del_Kept | Del_Untracked | Del_NoPrior =>
        exact hkeep
    | Ins_Split _ hup hm =>
        obtain ⟨-, hmem, hs', -⟩ := hs.scaledUp hup hm
        intro i r hr
        rcases Routing.entry_of_insert hs.valid hr with ⟨rfl, rfl⟩ | hr
        · exact index_split_new (hs'.allocated _ hmem)
        · exact hkeep i r hr
    | Del_Merged hdown hd hp =>
        intro i r hr
        obtain ⟨hr, -⟩ := (Routing.entry_remove hs.valid (hc _ _ rfl hdown) hd hp).mp hr
        exact hkeep i r hr

theorem stored (hs : Tracked stableHash s) (hn : s.findNode (stableHash key) = some n) (t : Target) :
    Tracked stableHash (s.onNode n (·.insert key t)) where
  toPlaced := hs.toPlaced.stored hn t
  indexed i r hr := Eq.trans (field_onNode Node.index fun _ => rfl) (hs.indexed i r hr)

theorem machine (hs : Tracked stableHash s) (hc : CleanMerge stableHash s op) :
    Tracked stableHash (machine stableHash op s).2 :=
  hs.step hc (step_machine hs.toSound stableHash op)

theorem entry (hs : Tracked stableHash s) (hr : r ∈ s.getNodes) :
    Routing.Entry s.ring (s.node r).index r := by
  obtain ⟨i, h⟩ := (Routing.mem_list hs.valid).mp hr
  rw [hs.indexed i r h]
  exact h

theorem search (hs : Tracked stableHash s) (hr : r ∈ s.getNodes) :
    ∃ d, search s.ring (s.node r).index = some d := Routing.search_of_entry hs.valid (hs.entry hr)

theorem search_scaledDown (hs : Tracked stableHash s) (hdown : s.scaledDown stableHash key = some n) :
    AbstractDataType.search s.ring (s.node n).index ≠ none := by
  obtain ⟨d, hd⟩ := hs.search (Routing.owner_mem hs.valid (scaledDown_eq_some.mp hdown).1)
  rw [hd]
  exact Option.some_ne_none d

end Tracked

/-! ## Calls that raise -/

/-- What a raising call says. -/
def Op.documented : Op → Exn
  | .insert _ key uuid4 => .keyAlreadyExistsError s!"Key {key.getD uuid4} already exists"
  | .update key _ => .keyNotFoundError s!"Key {key} not found"
  | .delete key => .keyNotFoundError s!"Key {key} not found"

/-- A scale-down has a node below the one it removes, and takes nothing else out of the container. -/
def SafeMerge (stableHash : String → Nat) (s : Ring σ) (op : Op) : Prop :=
  CleanMerge stableHash s op ∧
    ∀ key n, op = .delete key → s.scaledDown stableHash key = some n → (s.node n).index ≠ 0

theorem safeMerge_delete_iff : SafeMerge stableHash s (.delete key) ↔
    ∀ n ∈ s.scaledDown stableHash key, Routing.Clean s.ring (s.node n).index ∧ (s.node n).index ≠ 0 := by
  constructor
  · intro h n hn
    exact ⟨h.1 key n rfl hn, h.2 key n rfl hn⟩
  · intro h
    constructor
    · rintro _ n ⟨⟩ hn; exact (h n hn).1
    · rintro _ n ⟨⟩ hn; exact (h n hn).2

instance [∀ (a : σ) i, Decidable (Routing.Clean a i)] : Decidable (SafeMerge stableHash s (.delete key)) :=
  decidable_of_iff' _ safeMerge_delete_iff

/-- A call that raises changes nothing, and raises what is documented. -/
theorem step_error (hs : Tracked stableHash s) (hcap : s.args.capacity ≠ 0)
    (hsafe : SafeMerge stableHash s op) {e : Exn} (h : Step stableHash s op (.error e) s') :
    e = op.documented ∧ s' = s := by
  cases h with
  | Ins_Exists hk => subst hk; exact ⟨rfl, rfl⟩
  | Upd_Missing | Del_Missing => exact ⟨rfl, rfl⟩
  | Ins_NoCapacity _ hn _ hz | Del_NoCapacity hn _ hz => exact absurd hz (hs.capacity_ne hcap hn)
  | Del_Untracked hdown hd => exact absurd hd (hs.search_scaledDown hdown)
  | Del_NoPrior hdown _ hp =>
      obtain ⟨p, hp'⟩ := Routing.prior_total hs.valid (hsafe.2 _ _ rfl hdown)
      rw [hp] at hp'; cases hp'

/-! ## The registered targets -/

/-- The registry of an observer of the calls: the target last stored under each key. -/
def register (registry : String → Option Target) : Op × Outcome → String → Option Target
  | (.insert target key uuid4, .ok _) => Function.update registry (key.getD uuid4) (some target)
  | (.update key newTarget, .ok _) => Function.update registry key (some newTarget)
  | (.delete key, .ok _) => Function.update registry key none
  | (_, .error _) => registry

/-- A call changes what routing finds as it changes the registry. -/
theorem lookup_step (hs : Tracked stableHash s) (hcap : s.args.capacity ≠ 0)
    (hsafe : SafeMerge stableHash s op) (h : Step stableHash s op o s') :
    s'.lookup stableHash = register (s.lookup stableHash) (op, o) := by
  funext k
  cases o with
  | error e =>
      obtain ⟨-, rfl⟩ := step_error hs hcap hsafe h
      cases op <;> rfl
  | ok x =>
      rw [lookup_step_ok hs.toPlaced hsafe.1 h k]
      cases op <;> (simp only [register, Function.update_apply]; rfl)

end PrometheusRing.Ring
