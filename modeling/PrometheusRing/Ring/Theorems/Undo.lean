import PrometheusRing.Api.Theorems.Services

/-!
# Deleting what was just inserted

A new node is a leaf of the tree, so a scale-down that takes it out again leaves the tree as it was. With the registry
restored, every target is then back at its node.
-/

namespace PrometheusRing

open Effect

namespace Ring

variable {stableHash : String → Nat} {s s₁ s₂ : TreeRing} {r : Ref} {key : String} {t : Target} {o : Outcome}

/-- What a node has for a key follows from the routing and the registry. -/
theorem Placed.get_eq (hs : Placed stableHash s) (hr : r ∈ s.getNodes) (k : String) :
    (s.node r).get k = if s.findNode (stableHash k) = some r then s.lookup stableHash k else none := by
  split
  case isTrue hfind => exact (lookup_of_findNode hfind).symm
  case isFalse hfind =>
      rw [← Node.hasKey_eq_false, ← Bool.not_eq_true]
      exact fun hk => hfind (hs.of_hasKey hr hk)

/-- No index of the ring is that of the node that a split brings in. -/
theorem SplitsElsewhere.keys_ne (hsplit : SplitsElsewhere stableHash s (.insert t (some key) ""))
    (hs : Tracked stableHash s) {n : Ref} {m : Nat} (hup : s.scaledUp stableHash key t = some n)
    (hm : ((s.node n).insert key t).calcMidHash stableHash = .ok m) : ∀ e ∈ s.ring.inorder, e.1 ≠ m := by
  rintro ⟨i, r⟩ he rfl
  have hentry : Routing.Entry s.ring i r := he
  exact hsplit.index_ne hs hup hm r (hs.mem hentry) (hs.indexed i r hentry)

/-- The calls that the result is about: no split repeats an index, and a scale-down takes out a node at a positive
index with at most one child. -/
def Plain (stableHash : String → Nat) (s : TreeRing) (op : Op) : Prop :=
  SafeScaleDown stableHash s op ∧ SplitsElsewhere stableHash s op

instance (stableHash : String → Nat) (s : TreeRing) : DecidablePred (Plain stableHash s) := fun _ =>
  inferInstanceAs (Decidable (_ ∧ _))

/-- What a plain run keeps. -/
structure Distinct (stableHash : String → Nat) (args : NodeArgs) (s : TreeRing) : Prop extends
    Tracked stableHash s where
  distinct : s.DistinctIndices
  args_eq : s.args = args

theorem Distinct.step {args : NodeArgs} {op : Op} (hs : Distinct stableHash args s) (hop : Plain stableHash s op)
    (h : Step stableHash s op o s₁) : Distinct stableHash args s₁ where
  toTracked := hs.toTracked.step hop.1.safeMerge.1 h
  distinct := hs.distinct.step hs.toPlaced h fun {t k u n m} hop' hup hm => by
    subst hop'
    exact hop.2.index_ne hs.toTracked hup hm
  args_eq := (args_step h).trans hs.args_eq

variable {args : NodeArgs}

/-- An insert of a new key leaves the tree alone or brings in a node. -/
theorem Distinct.insert_cases (hs : Distinct stableHash args s) (hcap : args.capacity ≠ 0)
    (hfresh : s.lookup stableHash key = none) (h : Step stableHash s (.insert t (some key) "") o s₁) :
    o = .ok none ∧ s₁.ring = s.ring ∨
      ∃ r, o = .ok (some r) ∧ r ∉ s.getNodes ∧ r ∈ s₁.getNodes := by
  cases h with
  | Ins_Exists hk hn hkey =>
      obtain rfl : key = _ := hk
      rw [hasKey_of_lookup hn, hfresh] at hkey
      cases hkey
  | Ins_NoCapacity _ hn _ hz => exact absurd hz (hs.capacity_ne (hs.args_eq ▸ hcap) hn)
  | Ins_Stored => exact Or.inl ⟨rfl, rfl⟩
  | Ins_Split hk hup hm =>
      obtain rfl : key = _ := hk
      obtain ⟨-, -, hs', -⟩ := hs.toPlaced.scaledUp hup hm
      exact Or.inr ⟨_, rfl, hs.new_notMem, (mem_getNodes_split hs').mpr (Or.inr rfl)⟩

/-- A delete of a stored key leaves the tree alone or takes out the node that it returns. -/
theorem Distinct.delete_cases (hs : Distinct stableHash args s) (hcap : args.capacity ≠ 0)
    (hstored : (s.lookup stableHash key).isSome) (hplain : Plain stableHash s (.delete key))
    (h : Step stableHash s (.delete key) o s₁) :
    o = .ok none ∧ s₁.ring = s.ring ∨
      ∃ r ∈ s.getNodes, o = .ok (some r) ∧ ∀ w, w ∈ s₁.getNodes ↔ w ∈ s.getNodes ∧ w ≠ r := by
  cases h with
  | Del_Missing hn hkey =>
      rw [hasKey_of_lookup hn, hstored] at hkey
      cases hkey
  | Del_NoCapacity hn _ hz => exact absurd hz (hs.capacity_ne (hs.args_eq ▸ hcap) hn)
  | Del_Kept => exact Or.inl ⟨rfl, rfl⟩
  | Del_Untracked hdown hd => exact absurd hd (hs.search_scaledDown hdown)
  | Del_NoPrior hdown _ hp =>
      obtain ⟨p, hp'⟩ := Routing.prior_total hs.valid (hplain.1.safeMerge.2 _ _ rfl hdown)
      rw [hp] at hp'; cases hp'
  | @Del_Merged _ n d p hdown hd hp =>
      have hmem := Routing.owner_mem hs.valid (scaledDown_eq_some.mp hdown).1
      have hentry := Routing.entry_of_search hs.valid hd
      obtain rfl : d = n := hs.distinct d (hs.mem hentry) n hmem (hs.indexed _ d hentry)
      exact Or.inr ⟨d, hmem, rfl, fun w =>
        Routing.mem_list_remove hs.valid (hplain.1.safeMerge.1 _ _ rfl hdown) hd hp⟩

/-- A node that comes with an insert and goes with the next delete leaves the tree as it was. -/
theorem ring_undone (hs : Distinct stableHash args s) (hsplit : SplitsElsewhere stableHash s (.insert t (some key) ""))
    (h₁ : Step stableHash s (.insert t (some key) "") (.ok (some r)) s₁)
    (h₂ : Step stableHash s₁ (.delete key) (.ok (some r)) s₂) : s₂.ring = s.ring := by
  cases h₁ with
  | @Ins_Split _ _ _ _ n m hk hup hm =>
      obtain rfl : key = _ := hk
      obtain ⟨-, hmem, hs', -⟩ := hs.toPlaced.scaledUp hup hm
      have hindex : ((split stableHash (s.onNode n (·.insert key t)) n m).node s.heap.next).index = m :=
        index_split_new (hs'.allocated n hmem)
      have hne : s.ring ≠ .nil := by
        intro hnil
        change n ∈ s.ring.list at hmem
        rw [hnil] at hmem
        cases hmem
      cases h₂ with
      | Del_Merged hdown hd hp =>
          change (s.ring.insert m s.heap.next).remove
            ((split stableHash (s.onNode n (·.insert key t)) n m).node s.heap.next).index = s.ring
          rw [hindex]
          exact BinarySearchTree.remove_insert hne (hsplit.keys_ne hs.toTracked hup hm)

theorem outcomes_agree_iff (hs : Distinct stableHash args s) (hcap : args.capacity ≠ 0)
    (hfresh : s.lookup stableHash key = none) (hplain : Plain stableHash s (.insert t (some key) ""))
    {o₁ o₂ : Outcome} (h₁ : Step stableHash s (.insert t (some key) "") o₁ s₁)
    (hplain' : Plain stableHash s₁ (.delete key)) (h₂ : Step stableHash s₁ (.delete key) o₂ s₂) :
    s₂.ring = s.ring ↔ o₁ = o₂ := by
  have hs₁ := hs.step hplain h₁
  have hstored {x : Option Ref} (h : o₁ = .ok x) : (s₁.lookup stableHash key).isSome := by
    subst h
    rw [lookup_step_ok hs.toPlaced hplain.1.safeMerge.1 h₁]
    exact congrArg Option.isSome (if_pos rfl)
  rcases hs.insert_cases hcap hfresh h₁ with ⟨rfl, hring₁⟩ | ⟨r₁, rfl, hold, hnew⟩
  · rcases hs₁.delete_cases hcap (hstored rfl) hplain' h₂ with ⟨rfl, hring₂⟩ | ⟨r₂, hr₂, rfl, hnodes₂⟩
    · exact iff_of_true (hring₂.trans hring₁) rfl
    · refine iff_of_false (fun hring => ?_) (by simp)
      have hsame : s₂.getNodes = s₁.getNodes := congrArg AbstractDataType.list (hring.trans hring₁.symm)
      exact ((hnodes₂ r₂).mp (hsame ▸ hr₂)).2 rfl
  · rcases hs₁.delete_cases hcap (hstored rfl) hplain' h₂ with ⟨rfl, hring₂⟩ | ⟨r₂, -, rfl, hnodes₂⟩
    · refine iff_of_false (fun hring => ?_) (by simp)
      have hsame : s₁.getNodes = s.getNodes := congrArg AbstractDataType.list (hring₂.symm.trans hring)
      exact hold (hsame ▸ hnew)
    · by_cases hr : r₁ = r₂
      · subst hr
        exact iff_of_true (ring_undone hs hplain.2 h₁ h₂) rfl
      · refine iff_of_false (fun hring => ?_) (by simpa using hr)
        have hsame : s₂.getNodes = s.getNodes := congrArg AbstractDataType.list hring
        exact hold (hsame ▸ (hnodes₂ r₁).mpr ⟨hnew, hr⟩)

/-- With the tree restored, everything is: the registry is the same again, and so every node has what it had. -/
theorem nodes_undone (hs : Distinct stableHash args s) (hfresh : s.lookup stableHash key = none)
    (hplain : Plain stableHash s (.insert t (some key) "")) {x : Option Ref}
    (h₁ : Step stableHash s (.insert t (some key) "") (.ok x) s₁) (hplain' : Plain stableHash s₁ (.delete key))
    (h₂ : Step stableHash s₁ (.delete key) (.ok x) s₂) (hring : s₂.ring = s.ring) (hr : r ∈ s.getNodes) :
    (s₂.node r).index = (s.node r).index ∧ (s₂.node r).port = (s.node r).port ∧
      ∀ k, (s₂.node r).get k = (s.node r).get k := by
  have hs₁ := hs.step hplain h₁
  have hs₂ := hs₁.step hplain' h₂
  have hfield {α : Type} (g : Node → α) (hg : ∀ x targets, g { x with targets } = g x) :
      g (s₂.node r) = g (s.node r) :=
    have hallocated := hs.allocated r hr
    (field_step g hg hs₁.toPlaced h₂ (hallocated.trans_le (next_le_step h₁))).trans
      (field_step g hg hs.toPlaced h₁ hallocated)
  have hlookup (k : String) : s₂.lookup stableHash k = s.lookup stableHash k := by
    rw [lookup_step_ok hs₁.toPlaced hplain'.1.safeMerge.1 h₂, lookup_step_ok hs.toPlaced hplain.1.safeMerge.1 h₁]
    by_cases hk : k = key
    · rw [hk, hfresh]
      exact if_pos rfl
    · exact (if_neg hk).trans (if_neg hk)
  refine ⟨hfield Node.index fun _ _ => rfl, hfield Node.port fun _ _ => rfl, fun k => ?_⟩
  have hr₂ : r ∈ s₂.getNodes := by
    change r ∈ AbstractDataType.list s₂.ring
    rwa [hring]
  rw [hs₂.get_eq hr₂, hs.get_eq hr, hlookup, findNode, findNode, hring]

/-- An insert of a new key and a delete of the same key leave the tree from before exactly if both return the same node,
or none. Then every node has the index, the port and the targets from before. -/
theorem delete_undoes_insert {nodeMinLoad nodeMaxLoad nodeBasePorts : Int} {s₀ : TreeRing}
    (hinit : Ring.init args nodeMinLoad nodeMaxLoad AbstractDataType.empty nodeBasePorts = .ok s₀)
    (hcap : args.capacity ≠ 0) (ops : List Op) (key : String) (t : Target)
    (hguard : (machine stableHash).Guarded (Plain stableHash) (ops ++ [.insert t (some key) "", .delete key]) s₀)
    (hfresh : (exec (Ring.get stableHash key) ((machine stableHash).run ops s₀)).1 =
      .error (.keyNotFoundError s!"Key {key} not found")) :
    let s := (machine stableHash).run ops s₀
    let inserted := machine stableHash (.insert t (some key) "") s
    let deleted := machine stableHash (.delete key) inserted.2
    (deleted.2.ring = s.ring ↔ inserted.1 = deleted.1) ∧
      (inserted.1 = deleted.1 → ∀ r ∈ s.getNodes, (deleted.2.node r).index = (s.node r).index ∧
        (deleted.2.node r).port = (s.node r).port ∧ ∀ k, (deleted.2.node r).get k = (s.node r).get k) := by
  intro s inserted deleted
  have hsplit := Machine.Guarded.append_iff.mp hguard
  obtain ⟨hguard, hplain, hplain', -⟩ := hsplit
  have hs : Distinct stableHash args s := by
    obtain ⟨h, rfl⟩ := init_eq_ok.mp hinit
    exact hguard.invariant (Distinct stableHash args)
      (fun s op hs hop => hs.step hop (step_machine hs.toSound stableHash op))
      ⟨Tracked.fresh args h nodeMinLoad nodeMaxLoad nodeBasePorts,
        DistinctIndices.fresh args h nodeMinLoad nodeMaxLoad nodeBasePorts, rfl⟩
  have hnone : s.lookup stableHash key = none := by
    rw [exec_get_eq hs.toPlaced] at hfresh
    cases hlookup : s.lookup stableHash key with
    | none => rfl
    | some t => rw [hlookup] at hfresh; cases hfresh
  have h₁ : Step stableHash s _ inserted.1 inserted.2 := step_machine hs.toSound stableHash _
  have h₂ : Step stableHash inserted.2 _ deleted.1 deleted.2 :=
    step_machine (hs.step hplain h₁).toSound stableHash _
  have hagree := outcomes_agree_iff hs hcap hnone hplain h₁ hplain' h₂
  refine ⟨hagree, fun heq r hr => ?_⟩
  have hring := hagree.mpr heq
  obtain ⟨x, hx⟩ : ∃ x, inserted.1 = .ok x := by
    rcases hs.insert_cases hcap hnone h₁ with ⟨hx, -⟩ | ⟨r, hx, -⟩
    · exact ⟨_, hx⟩
    · exact ⟨_, hx⟩
  rw [← heq] at h₂
  rw [hx] at h₁ h₂
  exact nodes_undone hs hnone hplain h₁ hplain' h₂ hring hr

theorem delete_undoes_insert_default :
    let target (id : String) : Target := ⟨id, id, "host", 8000⟩
    let s := (machine String.length).run [.insert (target "") (some "") ""] (Settings.freshRing _ : TreeRing)
    let inserted := machine String.length (.insert (target "bbbb") (some "bbbb") "") s
    inserted.1 = .ok (some 1) ∧ (machine String.length (.delete "bbbb") inserted.2).2.ring = s.ring := by
  intro target s inserted
  have hguard : (machine String.length).Guarded (Plain String.length)
      ([.insert (target "") (some "") ""] ++ [.insert (target "bbbb") (some "bbbb") "", .delete "bbbb"])
      (Settings.freshRing _) := by decide +kernel
  exact ⟨by decide +kernel, (delete_undoes_insert (Settings.ring_default _) (by decide) _ "bbbb" (target "bbbb")
    hguard (by decide +kernel)).1.mpr (by decide +kernel)⟩

end Ring

end PrometheusRing
