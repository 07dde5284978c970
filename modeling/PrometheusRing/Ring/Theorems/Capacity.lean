import PrometheusRing.Ring.Lemmas.Loads
import PrometheusRing.Ring.Theorems.OrderedMap

/-!
# Loads after an insert

An insert splits a node at most once, at the mean hash. When the hashes of the node's keys are neighbours, the
new node gets all of them; and a node that merges have overloaded can need more than one split. The results hold of
every reading of the load; the runs on fixed keys are those of the exact one.
-/

namespace PrometheusRing.Ring

open AbstractDataType

variable {σ : Type} [AbstractDataType σ Ref] (stableHash : String → Nat)

/-! ## Growing only -/

def Op.isInsert : Op → Bool
  | .insert _ _ _ => true
  | .update _ _ | .delete _ => false

/-- No node holds more targets than its capacity. -/
def WithinCapacity (s : Ring σ) : Prop := ∀ r ∈ s.getNodes, ((s.node r).targets.size : Int) ≤ s.args.capacity

instance : DecidablePred (WithinCapacity (σ := σ)) := fun s => inferInstanceAs (Decidable (∀ r ∈ s.getNodes, _))

/-- When a full node gets another key, that is too high a load, and the hashes of its keys are not just
neighbours. -/
def KeepsCapacity [Percentage] (s : Ring σ) : Op → Prop
  | .insert target key uuid4 => ∀ n ∈ s.findNode (stableHash (key.getD uuid4)),
      (s.node n).hasKey (key.getD uuid4) = false → ((s.node n).targets.size : Int) = s.args.capacity →
        ¬ Node.fits s.args.capacity s.nodeMaxLoad ((s.node n).targets.size + 1) ∧
          ¬ Mean.Close (((s.node n).insert (key.getD uuid4) target).hashes stableHash)
  | _ => True

instance [Percentage] (s : Ring σ) : DecidablePred (KeepsCapacity stableHash s)
  | .insert _ _ _ => inferInstanceAs (Decidable (∀ n ∈ _, _))
  | .update _ _ => inferInstanceAs (Decidable True)
  | .delete _ => inferInstanceAs (Decidable True)

variable {stableHash} [Routing σ] {s s' : Ring σ} {n r : Ref} {m : Nat} {key : String} {t : Target} {op : Op}
  {o : Outcome}

/-- What the split of an overloaded node leaves: on the old node the keys that hash below the mean, on the new
one the others. -/
theorem sizes_split [Percentage] (hs : Placed stableHash s) (hup : s.scaledUp stableHash key t = some n)
    (hm : ((s.node n).insert key t).calcMidHash stableHash = .ok m) :
    let hashes := ((s.node n).insert key t).hashes stableHash
    let s' := split stableHash (s.onNode n (·.insert key t)) n m
    (s'.node n).targets.size = hashes.countP (· < mean hashes) ∧
      (s'.node s.heap.next).targets.size = hashes.countP (mean hashes ≤ ·) ∧
      ∀ r ∈ s.getNodes, r ≠ n → s'.node r = s.node r := by
  obtain ⟨-, hmem, hs', -⟩ := hs.scaledUp hup hm
  have hlt := hs'.allocated n hmem
  obtain ⟨-, rfl⟩ := Node.calcMidHash_eq_ok.mp hm
  refine ⟨?_, ?_, ?_⟩
  · rw [size_split_old hlt, node_onNode_self]
  · exact Eq.trans (size_split_new hlt) (by rw [node_onNode_self])
  · intro r hr hrn
    rw [node_split hlt (hs'.allocated r hr), if_neg hrn, node_onNode, if_neg hrn]

theorem nodup_hashes_insert (hs : Placed stableHash s) (hd : DistinctHashes stableHash s) {u : String}
    {k : Option String} (hf : FreshHash stableHash s (.insert t k u))
    (hn : s.findNode (stableHash (k.getD u)) = some n) :
    (((s.node n).insert (k.getD u) t).hashes stableHash).Nodup := by
  have hstored := (hd.stored hs hf hn).nodup (hs.stored hn t) (Routing.owner_mem hs.valid hn)
  rwa [node_onNode_self] at hstored

/-- Each side of a split gets fewer keys than there are, unless all the hashes are neighbours. -/
theorem sizes_split_le [Percentage] (hs : Placed stableHash s) (hd : DistinctHashes stableHash s) {u : String}
    {k : Option String} (hf : FreshHash stableHash s (.insert t k u))
    (hup : s.scaledUp stableHash (k.getD u) t = some n)
    (hm : ((s.node n).insert (k.getD u) t).calcMidHash stableHash = .ok m) :
    let s' := split stableHash (s.onNode n (·.insert (k.getD u) t)) n m
    (s'.node n).targets.size ≤ (s.node n).targets.size ∧
      (s'.node s.heap.next).targets.size ≤ (s.node n).targets.size + 1 ∧
      ((s'.node s.heap.next).targets.size ≤ (s.node n).targets.size ↔
        ¬ Mean.Close (((s.node n).insert (k.getD u) t).hashes stableHash)) := by
  obtain ⟨hn, hkey, -⟩ := scaledUp_eq_some.mp hup
  obtain ⟨hold, hnew, -⟩ := sizes_split hs hup hm
  have hne := (Node.calcMidHash_eq_ok.mp hm).1
  have hnd := nodup_hashes_insert hs hd hf hn
  have hlen : (((s.node n).insert (k.getD u) t).hashes stableHash).length = (s.node n).targets.size + 1 := by
    rw [Node.length_hashes, Node.size_insert hkey]
  dsimp only
  rw [hold, hnew]
  generalize ((s.node n).insert (k.getD u) t).hashes stableHash = hashes at hne hnd hlen ⊢
  have hbelow := Mean.countP_lt_mean hne
  have hle : hashes.countP (mean hashes ≤ ·) ≤ hashes.length := List.countP_le_length
  rw [← Mean.countP_mean_le_eq hne hnd]
  omega

/-- Whether a key overloads its node is a matter of the number of keys. -/
theorem loadAtMost_insert [Percentage] (hs : Placed stableHash s) (hcap : 1 ≤ s.args.capacity) {x : Nat}
    (hn : s.findNode x = some n) (hkey : (s.node n).hasKey key = false) {maxLoad : Int} :
    ((s.node n).insert key t).LoadAtMost maxLoad ↔
      Node.fits s.args.capacity maxLoad ((s.node n).targets.size + 1) := by
  have hcapn : (s.node n).capacity = s.args.capacity :=
    congrArg NodeArgs.capacity (hs.shared n (Routing.owner_mem hs.valid hn))
  have hne : ((s.node n).insert key t).capacity ≠ 0 := by
    change (s.node n).capacity ≠ 0
    omega
  rw [Node.loadAtMost_iff hne, Node.size_insert hkey, ← hcapn]
  rfl

/-- A node that is split has too high a load with the new key. -/
theorem not_fits_of_scaledUp [Percentage] (hs : Placed stableHash s) (hcap : 1 ≤ s.args.capacity)
    (hup : s.scaledUp stableHash key t = some n) :
    ¬ Node.fits s.args.capacity s.nodeMaxLoad ((s.node n).targets.size + 1) := by
  obtain ⟨hn, hkey, l, hl, hlt⟩ := scaledUp_eq_some.mp hup
  rw [← loadAtMost_insert hs hcap hn hkey (t := t)]
  rintro ⟨l', hl', hle⟩
  rw [hl] at hl'
  cases hl'
  omega

omit [Routing σ] in
theorem keepsCapacity_iff [Percentage] {k : Option String} {u : String}
    (hn : s.findNode (stableHash (k.getD u)) = some n) (hkey : (s.node n).hasKey (k.getD u) = false) :
    KeepsCapacity stableHash s (.insert t k u) ↔
      (((s.node n).targets.size : Int) = s.args.capacity →
        ¬ Node.fits s.args.capacity s.nodeMaxLoad ((s.node n).targets.size + 1) ∧
          ¬ Mean.Close (((s.node n).insert (k.getD u) t).hashes stableHash)) := by
  simp [KeepsCapacity, hn, hkey]

theorem withinCapacity_step [Percentage] (hs : Placed stableHash s) (hd : DistinctHashes stableHash s)
    (hcap : 1 ≤ s.args.capacity) (hf : FreshHash stableHash s op) (hin : op.isInsert) (hw : s.WithinCapacity)
    (h : Step stableHash s op o s') : s'.WithinCapacity ↔ KeepsCapacity stableHash s op := by
  cases h with
  | @Ins_Exists t k u key n hk hn hkey =>
      subst hk
      refine ⟨fun _ => ?_, fun _ => hw⟩
      intro n' hn' hno
      obtain rfl : n = n' := Option.some.inj (hn.symm.trans hn')
      rw [hkey] at hno
      cases hno
  | Ins_NoCapacity _ hn _ hz => exact absurd hz (hs.capacity_ne (by omega) hn)
  | @Ins_Stored t k u key n l hk hn hkey hl hle =>
      subst hk
      have hmem := Routing.owner_mem hs.valid hn
      have hfits := (loadAtMost_insert hs hcap hn hkey).mp ⟨l, hl, hle⟩
      have hbound := hw n hmem
      rw [keepsCapacity_iff hn hkey]
      constructor
      · intro hafter hfull
        have hn' := hafter n hmem
        rw [node_onNode_self, Node.size_insert hkey] at hn'
        change _ ≤ s.args.capacity at hn'
        omega
      · intro hkeep r hr
        rw [node_onNode]
        split
        case isTrue he =>
            subst he
            have hfull : ((s.node r).targets.size : Int) ≠ s.args.capacity := fun he => (hkeep he).1 hfits
            rw [Node.size_insert hkey]
            change _ ≤ s.args.capacity
            omega
        case isFalse => exact hw r hr
  | @Ins_Split t k u key n m hk hup hm =>
      subst hk
      obtain ⟨hn, hkey, -⟩ := scaledUp_eq_some.mp hup
      obtain ⟨-, hmem, hs', hmid⟩ := hs.scaledUp hup hm
      have hnot := not_fits_of_scaledUp hs hcap hup
      obtain ⟨hold, hnew, hclose⟩ := sizes_split_le hs hd hf hup hm
      obtain ⟨-, -, hrest⟩ := sizes_split hs hup hm
      have hbound := hw n hmem
      have hnewmem : s.heap.next ∈ (split stableHash (s.onNode n (·.insert (k.getD u) t)) n m).getNodes :=
        hs'.new_mem_split hmem hmid
      rw [keepsCapacity_iff hn hkey]
      constructor
      · intro hafter hfull
        have hn' := hafter _ hnewmem
        change _ ≤ s.args.capacity at hn'
        exact ⟨hnot, hclose.mp (by omega)⟩
      · intro hkeep r hr
        change _ ≤ s.args.capacity
        rcases hs'.mem_of_mem_split hr with rfl | hr
        · change (((split stableHash (s.onNode n (·.insert (k.getD u) t)) n m).node s.heap.next).targets.size : Int) ≤ _
          by_cases hfull : ((s.node n).targets.size : Int) = s.args.capacity
          · have hle := hclose.mpr (hkeep hfull).2
            omega
          · omega
        · by_cases hrn : r = n
          · subst hrn
            omega
          · rw [hrest r hr hrn]
            exact hw r hr
  | Upd_Missing | Upd_Stored | Del_Missing | Del_NoCapacity | Del_Kept | Del_Untracked | Del_NoPrior
  | Del_Merged => cases hin

omit [Routing σ] in
theorem WithinCapacity.fresh [OrderedMap σ] {args : NodeArgs} (hcap : 1 ≤ args.capacity)
    (argsOk : args.check = .ok ()) (nodeMinLoad nodeMaxLoad nodeBasePorts : Int) :
    (Ring.fresh args argsOk nodeMinLoad nodeMaxLoad (empty : σ) nodeBasePorts).WithinCapacity := by
  intro r _
  change ((0 : Nat) : Int) ≤ args.capacity
  omega

/-- A run on a fresh ring keeps a property of the loads exactly if each of its steps meets the condition under which
the property is kept. -/
theorem always_iff_of_step [Percentage] {args : NodeArgs} (h : args.check = .ok ())
    {nodeMinLoad nodeMaxLoad nodeBasePorts : Int} (I : Ring σ → Prop) {free guard : Ring σ → Op → Prop}
    (hfree : ∀ s op, free s op → FreshHash stableHash s op)
    (hI : ∀ {s s' op o}, Placed stableHash s → DistinctHashes stableHash s → s.args = args → free s op → I s →
      Step stableHash s op o s' → (I s' ↔ guard s op)) {ops : List Op}
    (hguard : (machine stableHash).Guarded free ops (Ring.fresh args h nodeMinLoad nodeMaxLoad empty nodeBasePorts))
    (hfresh : I (Ring.fresh args h nodeMinLoad nodeMaxLoad empty nodeBasePorts)) :
    (machine stableHash).Always I ops (Ring.fresh args h nodeMinLoad nodeMaxLoad empty nodeBasePorts) ↔
      (machine stableHash).Guarded guard ops (Ring.fresh args h nodeMinLoad nodeMaxLoad empty nodeBasePorts) := by
  refine hguard.always_iff (fun s => Placed stableHash s ∧ DistinctHashes stableHash s ∧ s.args = args) I ?_ ?_
    ⟨Placed.fresh args h nodeMinLoad nodeMaxLoad nodeBasePorts,
      DistinctHashes.fresh args h nodeMinLoad nodeMaxLoad nodeBasePorts, rfl⟩ hfresh
  · rintro s op ⟨hs, hd, rfl⟩ hop
    have hstep := step_machine hs.toSound stableHash op
    exact ⟨hs.step hstep, hd.step hs (hfree s op hop) hstep, args_step hstep⟩
  · rintro s op ⟨hs, hd, hargs⟩ hop hs₀
    exact hI hs hd hargs hop hs₀ (step_machine hs.toSound stableHash op)

omit [Routing σ] in
/-- While keys are only inserted, all nodes stay within their capacity exactly as long as no full node keeps
another key: neither because the load is not too high yet, nor because a split hands all keys to the new
node. -/
theorem capacity_respected [Percentage] [OrderedMap σ] {args : NodeArgs} {nodeMinLoad nodeMaxLoad nodeBasePorts : Int}
    {s₀ : Ring σ} (hinit : Ring.init args nodeMinLoad nodeMaxLoad (empty : σ) nodeBasePorts = .ok s₀)
    (hcap : 1 ≤ args.capacity) (ops : List Op)
    (hguard : (machine stableHash).Guarded (fun s op => op.isInsert = true ∧ FreshHash stableHash s op) ops s₀) :
    (machine stableHash).Always WithinCapacity ops s₀ ↔
      (machine stableHash).Guarded (KeepsCapacity stableHash) ops s₀ := by
  obtain ⟨h, rfl⟩ := init_eq_ok.mp hinit
  apply always_iff_of_step h WithinCapacity (fun s op hop => hop.2) ?_ hguard
  · exact WithinCapacity.fresh hcap h nodeMinLoad nodeMaxLoad nodeBasePorts
  · rintro s s' op o hs hd rfl hop hw hstep
    exact withinCapacity_step hs hd hcap hop.2 hop.1 hw hstep

attribute [local instance] Percentage.exact in
/-- The node with `a` and `b` is full when `c` comes. -/
theorem capacity_respected_default :
    let hash := tableHash [("a", 5), ("b", 6), ("c", 9)]
    let insert (id : String) : Op := .insert ⟨id, id, "host", 8000⟩ (some id) ""
    (machine hash).Always WithinCapacity [insert "a", insert "b", insert "c"] (Settings.freshRing (MockADT Ref)) :=
  (capacity_respected (Settings.ring_default _) (by decide) _ (by decide +kernel)).mpr (by decide +kernel)

attribute [local instance] Percentage.exact in
/-- With capacity 1, two keys with neighbouring hashes both go to the new node. -/
theorem split_exceeds_capacity :
    let hash := tableHash [("a", 5), ("b", 6)]
    let insert (id : String) : Op := .insert ⟨id, id, "host", 8000⟩ (some id) ""
    let s₀ : Ring (MockADT Ref) :=
      Ring.fresh ({ nodeCapacity := 1 } : Settings).nodeArgs (by decide +kernel) 25 75 empty 19090
    (machine hash).Guarded (fun s op => op.isInsert = true ∧ FreshHash hash s op) [insert "a", insert "b"] s₀ ∧
      ¬ ((machine hash).run [insert "a", insert "b"] s₀).WithinCapacity := by
  decide +kernel

/-! ## One split at a time -/

variable (stableHash) in
/-- A node that was not overloaded before has more than neighbouring hashes to divide; a node that was
already has so few hashes on either side of their mean that no second split is due. It takes a merge, or an
earlier split that failed, to bring about the second case (`never_overloaded`). -/
def OneSplitSuffices [Percentage] (s : Ring σ) (target : Target) (key : String) : Prop :=
  ∀ n ∈ s.scaledUp stableHash key target,
    let hashes := ((s.node n).insert key target).hashes stableHash
    if Node.fits s.args.capacity s.nodeMaxLoad (s.node n).targets.size then ¬ Mean.Close hashes
    else Node.fits s.args.capacity s.nodeMaxLoad (hashes.countP (· < mean hashes)) ∧
      Node.fits s.args.capacity s.nodeMaxLoad (hashes.countP (mean hashes ≤ ·))

theorem capacity_split [Percentage] (hs : Placed stableHash s) (hup : s.scaledUp stableHash key t = some n)
    (hm : ((s.node n).insert key t).calcMidHash stableHash = .ok m) :
    let s' := split stableHash (s.onNode n (·.insert key t)) n m
    (s'.node n).capacity = s.args.capacity ∧ (s'.node s.heap.next).capacity = s.args.capacity := by
  obtain ⟨-, hmem, hs', -⟩ := hs.scaledUp hup hm
  have hlt := hs'.allocated n hmem
  constructor
  · rw [node_split hlt hlt, if_pos rfl, node_onNode_self]
    exact congrArg NodeArgs.capacity (hs.shared n hmem)
  · exact congrArg (fun n : Node => n.capacity) (node_split_new hlt)

theorem oneSplitSuffices_iff [Percentage] {x : Ref} {u : String} {k : Option String} (hs : Placed stableHash s)
    (hd : DistinctHashes stableHash s) (hcap : 1 ≤ s.args.capacity)
    (hf : FreshHash stableHash s (.insert t k u)) (hx : s.findNode (stableHash (k.getD u)) = some x)
    {o : Option Ref} (h : Step stableHash s (.insert t k u) (.ok o) s') :
    ((s'.node x).LoadAtMost s.nodeMaxLoad ∧ ∀ r ∈ o, (s'.node r).LoadAtMost s.nodeMaxLoad) ↔
      OneSplitSuffices stableHash s t (k.getD u) := by
  cases h with
  | @Ins_Stored _ _ _ key n l hk hn hkey hl hle =>
      subst hk
      obtain rfl : n = x := Option.some.inj (hn.symm.trans hx)
      have hload : ((s.onNode n (·.insert (k.getD u) t)).node n).LoadAtMost s.nodeMaxLoad := by
        rw [node_onNode_self]
        exact ⟨l, hl, hle⟩
      refine ⟨fun _ => ?_, fun _ => ⟨hload, by simp⟩⟩
      intro n' hup
      rw [scaledUp_eq_none hn hl hle] at hup
      cases hup
  | @Ins_Split _ _ _ key n m hk hup hm =>
      subst hk
      obtain ⟨hn, -⟩ := scaledUp_eq_some.mp hup
      obtain rfl : n = x := Option.some.inj (hn.symm.trans hx)
      obtain ⟨hold, hnew, hclose⟩ := sizes_split_le hs hd hf hup hm
      obtain ⟨hsold, hsnew, -⟩ := sizes_split hs hup hm
      obtain ⟨hcold, hcnew⟩ := capacity_split hs hup hm
      have hnot := not_fits_of_scaledUp hs hcap hup
      simp only [OneSplitSuffices, hup, Option.mem_def, Option.some.injEq, forall_eq']
      rw [Node.loadAtMost_iff (by omega), Node.loadAtMost_iff (by omega), hcold, hcnew]
      by_cases hfits : Node.fits s.args.capacity s.nodeMaxLoad (s.node n).targets.size
      · rw [if_pos hfits, ← hclose]
        constructor
        · intro hboth
          by_contra hmore
          -- all the keys are on the new node
          exact hnot (Node.fits_mono (by omega) (by omega) hboth.2)
        · intro hle
          exact ⟨Node.fits_mono (by omega) hold hfits, Node.fits_mono (by omega) hle hfits⟩
      · rw [if_neg hfits, hsold, hsnew]

instance [Percentage] (s : Ring σ) (target : Target) (key : String) :
    Decidable (OneSplitSuffices stableHash s target key) :=
  inferInstanceAs (Decidable (∀ n ∈ _, _))

omit [Routing σ] in
/-- In every reachable state, an insert that returns leaves neither the node that got the key nor the one it
returns overloaded, exactly if one split is enough. -/
theorem insert_leaves_no_overload [Percentage] [OrderedMap σ] {args : NodeArgs}
    {nodeMinLoad nodeMaxLoad nodeBasePorts : Int} {s₀ : Ring σ}
    (hinit : Ring.init args nodeMinLoad nodeMaxLoad (empty : σ) nodeBasePorts = .ok s₀)
    (hcap : 1 ≤ args.capacity) (ops : List Op)
    (hguard : (machine stableHash).Guarded (FreshHash stableHash) ops s₀) (target : Target)
    (key : Option String) (uuid4 : String) :
    let s := (machine stableHash).run ops s₀
    let s' := (machine stableHash (.insert target key uuid4) s).2
    FreshHash stableHash s (.insert target key uuid4) →
      ∀ n o, s.findNode (stableHash (key.getD uuid4)) = some n →
        (machine stableHash (.insert target key uuid4) s).1 = .ok o →
          (((s'.node n).LoadAtMost nodeMaxLoad ∧ ∀ r ∈ o, (s'.node r).LoadAtMost nodeMaxLoad) ↔
            OneSplitSuffices stableHash s target (key.getD uuid4)) := by
  intro s s' hf n o hn ho
  obtain ⟨h, rfl⟩ := init_eq_ok.mp hinit
  obtain ⟨hs, hd, hargs, hmax⟩ := hguard.invariant
    (fun s => Placed stableHash s ∧ DistinctHashes stableHash s ∧ s.args = args ∧ s.nodeMaxLoad = nodeMaxLoad)
    (fun s op hs hop => by
      obtain ⟨hs, hd, rfl, rfl⟩ := hs
      have hstep := step_machine hs.toSound stableHash op
      exact ⟨hs.step hstep, hd.step hs hop hstep, args_step hstep, nodeMaxLoad_step hstep⟩)
    ⟨Placed.fresh args h nodeMinLoad nodeMaxLoad nodeBasePorts,
      DistinctHashes.fresh args h nodeMinLoad nodeMaxLoad nodeBasePorts, rfl, rfl⟩
  have hstep := step_machine hs.toSound stableHash (.insert target key uuid4)
  rw [ho] at hstep
  have hcap' : 1 ≤ s.args.capacity := hargs.symm ▸ hcap
  rw [← hmax]
  exact oneSplitSuffices_iff hs hd hcap' hf hn hstep

attribute [local instance] Percentage.exact in
/-- Two keys that hash far apart: each half of the split has one. -/
theorem insert_leaves_no_overload_default :
    let ops : List Op := [.insert ⟨"a", "a", "host", 8000⟩ (some "a") ""]
    let op : Op := .insert ⟨"bbbbb", "b", "host", 8000⟩ (some "bbbbb") ""
    let s := (machine String.length).run ops (Settings.freshRing (MockADT Ref))
    let s' := (machine String.length op s).2
    (s'.node 0).LoadAtMost 75 ∧ ∀ r ∈ some (1 : Ref), (s'.node r).LoadAtMost 75 :=
  (insert_leaves_no_overload (Settings.ring_default (MockADT Ref)) (by decide)
    [.insert ⟨"a", "a", "host", 8000⟩ (some "a") ""] (by decide +kernel) ⟨"bbbbb", "b", "host", 8000⟩
    (some "bbbbb") "" (by decide +kernel) 0 (some 1) (by decide +kernel) (by decide +kernel)).mpr (by decide +kernel)

attribute [local instance] Percentage.exact in
/-- Two keys with neighbouring hashes: the new node gets both and is as loaded as the old one was. -/
theorem split_leaves_overload :
    let hash := tableHash [("a", 5), ("b", 6)]
    let insert (id : String) : Op := .insert ⟨id, id, "host", 8000⟩ (some id) ""
    let s₀ := Settings.freshRing (MockADT Ref)
    let s' := (machine hash).run [insert "a", insert "b"] s₀
    (machine hash).Guarded (FreshHash hash) [insert "a", insert "b"] s₀ ∧ 1 ∈ s'.getNodes ∧
      ¬ (s'.node 1).LoadAtMost 75 := by
  decide +kernel

/-! ## Without scale-downs -/

section Growing

variable (stableHash) in
/-- The call is not a delete that scales the ring down. -/
def NoScaleDown [Percentage] (s : Ring σ) : Op → Prop
  | .delete key => s.scaledDown stableHash key = none
  | .insert _ _ _ | .update _ _ => True

variable (stableHash) in
/-- The hashes of a node that the call overloads are not just neighbours. -/
def Divides [Percentage] (s : Ring σ) : Op → Prop
  | .insert target key uuid4 => ∀ n ∈ s.scaledUp stableHash (key.getD uuid4) target,
      ¬ Mean.Close (((s.node n).insert (key.getD uuid4) target).hashes stableHash)
  | .update _ _ | .delete _ => True

/-- No node is overloaded. -/
def NoOverload [Percentage] (s : Ring σ) : Prop := ∀ r ∈ s.getNodes, (s.node r).LoadAtMost s.nodeMaxLoad

theorem noOverload_iff [Percentage] (hs : Placed stableHash s) (hcap : 1 ≤ s.args.capacity) :
    s.NoOverload ↔ ∀ r ∈ s.getNodes, Node.fits s.args.capacity s.nodeMaxLoad (s.node r).targets.size := by
  refine forall₂_congr fun r hr => ?_
  have hcapr : (s.node r).capacity = s.args.capacity := congrArg NodeArgs.capacity (hs.shared r hr)
  rw [Node.loadAtMost_iff (by omega), hcapr]

/-- A node that gets no more keys than it had is not overloaded by them. -/
theorem NoOverload.onNode [Percentage] (hs : Placed stableHash s) (hcap : 1 ≤ s.args.capacity) (hw : s.NoOverload)
    {f : Node → Node} (hs' : Placed stableHash (s.onNode n f)) (hf : ∀ k, (f (s.node n)).hasKey k = true →
      (s.node n).hasKey k = true) : (s.onNode n f).NoOverload := by
  rw [noOverload_iff hs hcap] at hw
  rw [noOverload_iff hs' hcap]
  intro r hr
  refine Node.fits_mono (by omega : 0 < s.args.capacity) ?_ (hw r hr)
  rw [node_onNode]
  split
  case isTrue he => subst he; exact Dict.size_le hf
  case isFalse => exact Nat.le_refl _

theorem noOverload_step [Percentage] (hs : Placed stableHash s) (hd : DistinctHashes stableHash s)
    (hcap : 1 ≤ s.args.capacity) (hf : FreshHash stableHash s op) (hkeeps : NoScaleDown stableHash s op)
    (hw : s.NoOverload) (h : Step stableHash s op o s') : s'.NoOverload ↔ Divides stableHash s op := by
  have hs' := hs.step h
  have hcap' : 1 ≤ s'.args.capacity := (args_step h).symm ▸ hcap
  cases h with
  | @Ins_Exists t k u key n hk hn hkey =>
      subst hk
      refine iff_of_true hw fun n' hup => ?_
      obtain ⟨hn', hno, -⟩ := scaledUp_eq_some.mp hup
      obtain rfl : n = n' := Option.some.inj (hn.symm.trans hn')
      rw [hkey] at hno
      cases hno
  | Ins_NoCapacity _ hn _ hz => exact absurd hz (hs.capacity_ne (by omega) hn)
  | @Ins_Stored t k u key n l hk hn hkey hl hle =>
      subst hk
      refine iff_of_true (fun r hr => ?_) fun n' hup => ?_
      · rw [node_onNode]
        split
        case isTrue he => subst he; exact ⟨l, hl, hle⟩
        case isFalse => exact hw r hr
      · rw [scaledUp_eq_none hn hl hle] at hup
        cases hup
  | @Ins_Split t k u key n m hk hup hm =>
      subst hk
      obtain ⟨-, hmem, hsplit, hmid⟩ := hs.scaledUp hup hm
      have hnot := not_fits_of_scaledUp hs hcap hup
      obtain ⟨hold, hnew, hclose⟩ := sizes_split_le hs hd hf hup hm
      obtain ⟨-, -, hrest⟩ := sizes_split hs hup hm
      rw [noOverload_iff hs hcap] at hw
      rw [noOverload_iff hs' hcap']
      simp only [Divides, hup, Option.mem_def, Option.some.injEq, forall_eq', ← hclose]
      constructor
      · intro hafter
        have hfits : Node.fits _ _ ((split stableHash (s.onNode n _) n m).node s.heap.next).targets.size :=
          hafter _ (hsplit.new_mem_split hmem hmid)
        by_contra hmore
        -- all the keys are on the new node
        exact hnot (Node.fits_mono (by omega) (by omega) hfits)
      · intro hle r hr
        rcases hsplit.mem_of_mem_split hr with rfl | hr
        · exact Node.fits_mono (by omega) hle (hw n hmem)
        · by_cases hrn : r = n
          · subst hrn
            exact Node.fits_mono (by omega) hold (hw r hmem)
          · rw [hrest r hr hrn]
            exact hw r hr
  | Upd_Missing | Del_Missing => exact iff_of_true hw trivial
  | @Upd_Stored t key n hn hkey =>
      refine iff_of_true (hw.onNode hs hcap hs' fun k hk => ?_) trivial
      rcases Node.hasKey_insert.mp hk with rfl | hk
      · exact hkey
      · exact hk
  | Del_NoCapacity | Del_Kept =>
      exact iff_of_true (hw.onNode hs hcap hs' fun k hk => (Node.hasKey_without.mp hk).2) trivial
  | Del_Untracked hdown | Del_NoPrior hdown | Del_Merged hdown =>
      exact absurd hkeeps (by simp [NoScaleDown, hdown])

omit [Routing σ] in
/-- As long as no call scales the ring down, no node is ever overloaded, exactly if no node is overloaded by keys whose
hashes are just neighbours. -/
theorem never_overloaded [Percentage] [OrderedMap σ] {args : NodeArgs} {nodeMinLoad nodeMaxLoad nodeBasePorts : Int}
    {s₀ : Ring σ} (hinit : Ring.init args nodeMinLoad nodeMaxLoad (empty : σ) nodeBasePorts = .ok s₀)
    (hcap : 1 ≤ args.capacity) (hmax : 0 ≤ nodeMaxLoad) (ops : List Op)
    (hguard : (machine stableHash).Guarded
      (fun s op => FreshHash stableHash s op ∧ NoScaleDown stableHash s op) ops s₀) :
    (machine stableHash).Always NoOverload ops s₀ ↔ (machine stableHash).Guarded (Divides stableHash) ops s₀ := by
  obtain ⟨h, rfl⟩ := init_eq_ok.mp hinit
  have hs₀ : Placed stableHash (Ring.fresh args h nodeMinLoad nodeMaxLoad (empty : σ) nodeBasePorts) :=
    Placed.fresh args h nodeMinLoad nodeMaxLoad nodeBasePorts
  apply always_iff_of_step h NoOverload (fun s op hop => hop.1) ?_ hguard
  · exact (noOverload_iff hs₀ hcap).mpr fun r _ => (Percentage.percent_zero _).trans_le hmax
  · rintro s s' op o hs hd rfl hop hw hstep
    exact noOverload_step hs hd hcap hop.1 hop.2 hw hstep

end Growing

end PrometheusRing.Ring
