import PrometheusRing.Adt.Lemmas.TreeRouting
import PrometheusRing.Ring.Lemmas.Indices
import PrometheusRing.Settings

/-!
# The ring on the search tree

Node zero stays at the root of the tree, so routing is total. No target is lost and no call fails halfway, as
long as no scale-down removes an inner node with two children or looks for a node below index 0.
-/

namespace PrometheusRing.Ring

open AbstractDataType Effect

abbrev TreeRing : Type := Ring (BinarySearchTree Nat Ref)

variable {stableHash : String → Nat} {s s' s₀ : TreeRing} {op : Op} {o : Outcome}
  {args : NodeArgs} {nodeMinLoad nodeMaxLoad nodeBasePorts : Int}

/-! ## Node zero -/

/-- The root of the tree has key 0 and holds node zero. -/
def Rooted (s : TreeRing) : Prop := ∃ l r, s.ring = .node l 0 s.nodeZero r

theorem Rooted.step (hr : s.Rooted) (hs : Placed stableHash s) (h : Step stableHash s op o s') : s'.Rooted := by
  obtain ⟨l, r, hlr⟩ := hr
  cases h with
  | Ins_Exists | Upd_Missing | Del_Missing | Ins_NoCapacity | Ins_Stored | Upd_Stored | Del_NoCapacity | Del_Kept
  | Del_Untracked | Del_NoPrior => exact ⟨l, r, hlr⟩
  | @Ins_Split t _ _ _ n m =>
      -- a new entry with key 0 goes to the right
      refine ⟨l, r.insert m s.heap.next, ?_⟩
      change s.ring.insert m s.heap.next = _
      rw [hlr]
      simp [BinarySearchTree.insert, split, onNode]
  | @Del_Merged key n d p _ hd hp =>
      -- the removed index has one below it, so it is not the root's
      obtain ⟨x, hx, -⟩ := Routing.owner_of_prior hs.valid hp
      refine ⟨l, (r.removeNode (s.node n).index).2, ?_⟩
      change s.ring.remove (s.node n).index = _
      rw [hlr, hx]
      simp [BinarySearchTree.remove, BinarySearchTree.removeNode, merged, onNode]

theorem run_rooted (hinit : Ring.init args nodeMinLoad nodeMaxLoad empty nodeBasePorts = .ok s₀)
    (ops : List Op) :
    ((machine stableHash).run ops s₀).Rooted ∧ ((machine stableHash).run ops s₀).nodeZero = s₀.nodeZero := by
  obtain ⟨h, rfl⟩ := init_eq_ok.mp hinit
  have hplaced : Placed stableHash (Ring.fresh args h nodeMinLoad nodeMaxLoad empty nodeBasePorts : TreeRing) :=
    Placed.fresh args h nodeMinLoad nodeMaxLoad nodeBasePorts
  refine (Machine.run_invariant (fun s => Placed stableHash s ∧ s.Rooted ∧ s.nodeZero = 0)
    (fun s op hs => ?_) ops ⟨hplaced, ⟨.nil, .nil, rfl⟩, rfl⟩).2
  have hstep := step_machine hs.1.toSound stableHash op
  exact ⟨hs.1.step hstep, hs.2.1.step hs.1 hstep, (nodeZero_step hstep).trans hs.2.2⟩

/-- Node zero stays at the root under key 0, so every hash has a node, and every node under a positive index has
another one before it. -/
theorem node_zero_stays (hinit : Ring.init args nodeMinLoad nodeMaxLoad empty nodeBasePorts = .ok s₀)
    (ops : List Op) :
    let s := (machine stableHash).run ops s₀
    (∃ l r, s.ring = .node l 0 s₀.nodeZero r) ∧ (∀ x, s.findNode x ≠ none) ∧
      ∀ index d, 0 < index → search s.ring index = some d →
        ∃ p, findMaxSmallerThan s.ring index = some p ∧ p ≠ d := by
  intro s
  have hs : Placed stableHash s := run_placed hinit ops
  refine ⟨?_, fun x hx => ?_, fun index d hpos hd => ?_⟩
  · obtain ⟨hrooted, hzero⟩ := run_rooted hinit ops
    rw [← hzero]
    exact hrooted
  · obtain ⟨n, hn, -⟩ := hs.findNode x
    rw [hn] at hx; cases hx
  · obtain ⟨p, hp⟩ := Routing.prior_total hs.valid hpos.ne'
    exact ⟨p, hp, Routing.prior_ne hs.valid hd hp⟩

theorem node_zero_stays_default :
    let hash := tableHash [("a", 0), ("b", 100), ("c", 20)]
    let insert (id : String) : Op := .insert ⟨id, id, "host", 8000⟩ (some id) ""
    let s := (machine hash).run [insert "a", insert "b", insert "c", .delete "b"] (Settings.freshRing _ : TreeRing)
    s.heap.next = 3 ∧ (s.getNodes.map fun r => (s.node r).index) = [0, 10] ∧ ∃ l r, s.ring = .node l 0 0 r := by
  intro hash insert s
  refine ⟨by decide +kernel, by decide +kernel, ?_⟩
  unfold s
  exact (node_zero_stays (Settings.ring_default _) _).1

/-! ## No target is lost -/

/-- A scale-down looks for a node at a positive index, and the tree node found there has at most one child. -/
def SafeScaleDown (stableHash : String → Nat) (s : TreeRing) : Op → Prop
  | .delete key => ∀ n ∈ s.scaledDown stableHash key,
      (s.node n).index ≠ 0 ∧ s.ring.HasTwoChildren (s.node n).index = false
  | _ => True

instance (stableHash : String → Nat) (s : TreeRing) :
    DecidablePred (SafeScaleDown stableHash s)
  | .insert _ _ _ => inferInstanceAs (Decidable True)
  | .update _ _ => inferInstanceAs (Decidable True)
  | .delete _ => inferInstanceAs (Decidable (∀ n ∈ _, _))

theorem SafeScaleDown.safeMerge (h : SafeScaleDown stableHash s op) : SafeMerge stableHash s op := by
  constructor
  · rintro key n rfl hn; exact (h n hn).2
  · rintro key n rfl hn; exact (h n hn).1

/-- What a guarded run keeps: the invariants of the nodes, and a registry that agrees with routing. -/
theorem run_safe (hinit : Ring.init args nodeMinLoad nodeMaxLoad empty nodeBasePorts = .ok s₀)
    (hcap : args.capacity ≠ 0) {ops : List Op}
    (hsafe : (machine stableHash).Guarded (SafeScaleDown stableHash) ops s₀) :
    let s := (machine stableHash).run ops s₀
    Tracked stableHash s ∧ s.args = args ∧
      s.lookup stableHash = Machine.observe register (fun _ => none) ((machine stableHash).trace ops s₀) := by
  obtain ⟨h, rfl⟩ := init_eq_ok.mp hinit
  have hfresh : Tracked stableHash (Ring.fresh args h nodeMinLoad nodeMaxLoad empty nodeBasePorts : TreeRing) :=
    Tracked.fresh args h nodeMinLoad nodeMaxLoad nodeBasePorts
  refine hsafe.refines (fun s registry => Tracked stableHash s ∧ s.args = args ∧
    s.lookup stableHash = registry) (fun s registry op hs hop => ?_) ⟨hfresh, rfl, ?_⟩
  · obtain ⟨hs, rfl, rfl⟩ := hs
    have hstep := step_machine hs.toSound stableHash op
    exact ⟨hs.step hop.safeMerge.1 hstep, args_step hstep, lookup_step hs hcap hop.safeMerge hstep⟩
  · funext k
    exact lookup_fresh args h nodeMinLoad nodeMaxLoad nodeBasePorts

/-- Reading a key gives the target last stored under it, unless it was never stored or was deleted since. -/
theorem get_last_stored (hinit : Ring.init args nodeMinLoad nodeMaxLoad empty nodeBasePorts = .ok s₀)
    (hcap : 1 ≤ args.capacity) (ops : List Op)
    (hsafe : (machine stableHash).Guarded (SafeScaleDown stableHash) ops s₀) (key : String) :
    (exec (Ring.get stableHash key) ((machine stableHash).run ops s₀)).1 =
      answer key (Machine.observe register (fun _ => none) ((machine stableHash).trace ops s₀) key) := by
  obtain ⟨hs, -, hlookup⟩ := run_safe hinit (by omega) hsafe
  rw [exec_get_eq hs.toPlaced, hlookup]

theorem get_last_stored_default :
    let t : Target := ⟨"a", "a", "host", 8000⟩
    let ops : List Op := [.insert t (some "a") "", .insert t (some "bbbbb") "", .delete "bbbbb"]
    (exec (Ring.get String.length "a") ((machine String.length).run ops (Settings.freshRing _ : TreeRing))).1 =
      .ok (some t) := by
  intro t ops
  have hsafe : (machine String.length).Guarded (SafeScaleDown String.length) ops (Settings.freshRing _) := by
    decide +kernel
  rw [get_last_stored (Settings.ring_default _) (by decide) ops hsafe "a"]
  decide +kernel

/-- Removing a tree node with two children drops the node after it: its target can no longer be read. -/
theorem merge_loses_target :
    let hash := tableHash [("a", 0), ("b", 100), ("c", 20), ("d", 180)]
    let target (id : String) : Target := ⟨id, id, "host", 8000⟩
    let insert (id : String) : Op := .insert (target id) (some id) ""
    let ops := [insert "a", insert "b", insert "c", insert "d", .delete "b"]
    let s₀ : TreeRing := Settings.freshRing _
    Machine.observe register (fun _ => none) ((machine hash).trace ops s₀) "d" = some (target "d") ∧
      (exec (Ring.get hash "d") ((machine hash).run ops s₀)).1 = .error (.keyNotFoundError "Key d not found") := by
  decide +kernel

/-- A call that raises says what is documented and leaves the ring as it was. -/
theorem raises_documented (hinit : Ring.init args nodeMinLoad nodeMaxLoad empty nodeBasePorts = .ok s₀)
    (hcap : 1 ≤ args.capacity) (ops : List Op)
    (hsafe : (machine stableHash).Guarded (SafeScaleDown stableHash) ops s₀) (op : Op)
    (hop : SafeScaleDown stableHash ((machine stableHash).run ops s₀) op) (e : Exn)
    (hraise : (machine stableHash op ((machine stableHash).run ops s₀)).1 = .error e) :
    e = op.documented ∧
      (machine stableHash op ((machine stableHash).run ops s₀)).2 = (machine stableHash).run ops s₀ := by
  obtain ⟨hs, hargs, -⟩ := run_safe hinit (by omega) hsafe
  have hstep := step_machine hs.toSound stableHash op
  rw [hraise] at hstep
  exact step_error hs (by rw [hargs]; omega) hop.safeMerge hstep

theorem raises_documented_default :
    let t : Target := ⟨"a", "a", "host", 8000⟩
    let s := (machine String.length).run [.insert t (some "a") "", .insert t (some "bbbbb") "", .delete "bbbbb"]
      (Settings.freshRing _ : TreeRing)
    (machine String.length (.delete "bbbbb") s).2 = s :=
  (raises_documented (Settings.ring_default _) (by decide) _ (by decide +kernel) (.delete "bbbbb")
    (by decide +kernel) (.keyNotFoundError "Key bbbbb not found") (by decide +kernel)).2

/-- A split of node zero at index 0 leaves a second node with index 0. Deleting its last key raises on the
missing node below it, after the key is gone. -/
theorem delete_raises_halfway :
    let hash := tableHash [("a", 0), ("b", 1)]
    let target (id : String) : Target := ⟨id, id, "host", 8000⟩
    let insert (id : String) : Op := .insert (target id) (some id) ""
    let s := (machine hash).run [insert "a", insert "b", .delete "a"] (Settings.freshRing _ : TreeRing)
    let r := machine hash (.delete "b") s
    r.1 = .error (.attributeError "index") ∧ (s.node 1).hasKey "b" = true ∧ (r.2.node 1).hasKey "b" = false := by
  decide +kernel

end PrometheusRing.Ring
