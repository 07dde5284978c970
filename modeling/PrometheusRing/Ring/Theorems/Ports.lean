import PrometheusRing.Ring.Lemmas.Loads
import PrometheusRing.Ring.Theorems.Occupancy

/-!
# The ports of the nodes

A new node gets the next number of a counter that no scale-down turns back. The ports of a ring never clash,
but they run out after as many splits as there are ports above the first one, however few nodes are left.
-/

namespace PrometheusRing.Ring

open AbstractDataType

variable {σ : Type} [AbstractDataType σ Ref] (stableHash : String → Nat)

/-- The ports of the nodes in the ring differ, and each is a port number. -/
def Published (s : Ring σ) : Prop :=
  (s.getNodes.map fun r => (s.node r).port).Nodup ∧ ∀ r ∈ s.getNodes, ∃ p ∈ (s.node r).port, 1 ≤ p ∧ p ≤ 65535

/-- The call splits a node. -/
def Splits (s : Ring σ) : Op → Prop
  | .insert target key uuid4 => (s.scaledUp stableHash (key.getD uuid4) target).isSome
  | _ => False

instance (s : Ring σ) : DecidablePred (Splits stableHash s)
  | .insert _ _ _ => inferInstanceAs (Decidable (_ = true))
  | .update _ _ => inferInstanceAs (Decidable False)
  | .delete _ => inferInstanceAs (Decidable False)

/-- When the call splits a node, the counter still gives a port number. -/
def PortLeft (s : Ring σ) (op : Op) : Prop := Splits stableHash s op → s.nodeBasePorts + s.nodeCount ≤ 65535

variable {stableHash} {s s' : Ring σ} {n r : Ref} {m : Nat} {key : String} {t : Target} {op : Op}
  {o : Outcome}

theorem splits_iff {k : Option String} {u : String} (hn : s.findNode (stableHash (k.getD u)) = some n) :
    Splits stableHash s (.insert t k u) ↔ (s.node n).hasKey (k.getD u) = false ∧
      ∃ l, ((s.node n).insert (k.getD u) t).load = .ok l ∧ s.nodeMaxLoad < l := by
  simp only [Splits, Option.isSome_iff_exists, scaledUp_eq_some, hn, Option.some.injEq]
  constructor
  · rintro ⟨_, rfl, h⟩; exact h
  · exact fun h => ⟨n, rfl, h⟩

section Counter

variable [Routing σ]

theorem new_mem_iff (hs : Placed stableHash s) (h : Step stableHash s op o s') :
    s.heap.next ∈ s'.getNodes ↔ Splits stableHash s op := by
  constructor
  · intro hnew
    obtain ⟨t, k, u, n, m, rfl, hup, -, -⟩ := split_of_new_mem hs h hnew
    exact Option.isSome_of_eq_some hup
  · intro hsplits
    cases op with
    | insert t k u =>
        obtain ⟨n, hup⟩ := Option.isSome_iff_exists.mp hsplits
        obtain ⟨m, hm, -, rfl⟩ := split_of_scaledUp h hup
        obtain ⟨-, hmem, hs', hmid⟩ := hs.scaledUp hup hm
        exact hs'.new_mem_split hmem hmid
    | update key t => exact hsplits.elim
    | delete key => exact hsplits.elim

theorem nodeCount_step (hs : Placed stableHash s) (h : Step stableHash s op o s') :
    s'.nodeCount = if Splits stableHash s op then s.nodeCount + 1 else s.nodeCount := by
  rw [← if_congr (new_mem_iff hs h) rfl rfl]
  cases h with
  | Ins_Split _ hup hm =>
      obtain ⟨-, hmem, hs', hmid⟩ := hs.scaledUp hup hm
      exact (if_pos (hs'.new_mem_split hmem hmid)).symm
  | Ins_Exists | Upd_Missing | Del_Missing | Ins_NoCapacity | Ins_Stored | Upd_Stored | Del_NoCapacity | Del_Kept
  | Del_Untracked | Del_NoPrior => exact (if_neg hs.new_notMem).symm
  | Del_Merged _ hd hp =>
      exact (if_neg fun hr => hs.new_notMem (Routing.mem_list_of_remove hs.valid hd hp hr)).symm

/-! ## One port for each node ever created -/

/-- The placement invariant, and every node has the port of its number in the order of creation. -/
structure Numbered (stableHash : String → Nat) (s : Ring σ) : Prop extends Placed stableHash s where
  counted : s.nodeCount = s.heap.next
  numbered : ∀ r ∈ s.getNodes, (s.node r).port = some (s.nodeBasePorts + r)

namespace Numbered

theorem fresh (args : NodeArgs) (argsOk : args.check = .ok ()) (nodeMinLoad nodeMaxLoad nodeBasePorts : Int) :
    Numbered stableHash (Ring.fresh args argsOk nodeMinLoad nodeMaxLoad (empty : σ) nodeBasePorts) where
  toPlaced := Placed.fresh args argsOk nodeMinLoad nodeMaxLoad nodeBasePorts
  counted := rfl
  numbered r hr := by
    obtain rfl := mem_getNodes_fresh.mp hr
    exact congrArg some (Int.add_zero nodeBasePorts).symm

theorem counted_step (hs : Numbered stableHash s) (h : Step stableHash s op o s') :
    s'.nodeCount = s'.heap.next := by
  cases h with
  | Ins_Split => exact congrArg (· + 1) hs.counted
  | Ins_Exists | Upd_Missing | Del_Missing | Ins_NoCapacity | Ins_Stored | Upd_Stored | Del_NoCapacity | Del_Kept
  | Del_Untracked | Del_NoPrior | Del_Merged => exact hs.counted

theorem port_split_new (hs : Numbered stableHash s) (hn : n < s.heap.next) :
    ((s.split stableHash n m).node s.heap.next).port = some (s.nodeBasePorts + s.heap.next) := by
  rw [node_split_new hn, ← hs.counted]
  rfl

theorem stored (hs : Numbered stableHash s) (hn : s.findNode (stableHash key) = some n) (t : Target) :
    Numbered stableHash (s.onNode n (·.insert key t)) where
  toPlaced := hs.toPlaced.stored hn t
  counted := hs.counted
  numbered r hr := Eq.trans (field_onNode Node.port fun _ => rfl) (hs.numbered r hr)

theorem step (hs : Numbered stableHash s) (h : Step stableHash s op o s') : Numbered stableHash s' where
  toPlaced := hs.toPlaced.step h
  counted := hs.counted_step h
  numbered := by
    intro r hr
    rw [nodeBasePorts_step h]
    rcases mem_step hs.toPlaced h hr with hr₀ | rfl
    · rw [field_step Node.port (fun _ _ => rfl) hs.toPlaced h (hs.allocated r hr₀)]
      exact hs.numbered r hr₀
    · obtain ⟨t, k, u, n, m, rfl, hup, hm, rfl⟩ := split_of_new_mem hs.toPlaced h hr
      obtain ⟨hn, hmem, -⟩ := hs.toPlaced.scaledUp hup hm
      exact (hs.stored hn t).port_split_new (hs.allocated _ hmem)

/-- Ports of a ring never clash, so only their size matters. -/
theorem published_iff (hs : Numbered stableHash s) (hbase : 1 ≤ s.nodeBasePorts) :
    s.Published ↔ ∀ r ∈ s.getNodes, s.nodeBasePorts + r ≤ 65535 := by
  constructor
  · intro h r hr
    obtain ⟨p, hp, -, hle⟩ := h.2 r hr
    rw [hs.numbered r hr] at hp
    cases hp
    exact hle
  · intro h
    constructor
    · apply (Routing.nodup_list hs.valid).map_on
      intro r hr r' hr' he
      rw [hs.numbered r hr, hs.numbered r' hr'] at he
      have hports := Option.some.inj he
      exact Int.ofNat.inj (Int.add_left_cancel hports)
    · intro r hr
      exact ⟨_, hs.numbered r hr, by omega, h r hr⟩

end Numbered

theorem published_step (hs : Numbered stableHash s) (hbase : 1 ≤ s.nodeBasePorts) (hp : s.Published)
    (h : Step stableHash s op o s') : s'.Published ↔ PortLeft stableHash s op := by
  rw [(hs.step h).published_iff (nodeBasePorts_step h ▸ hbase), nodeBasePorts_step h]
  rw [hs.published_iff hbase] at hp
  have hnew := new_mem_iff hs.toPlaced h
  unfold PortLeft
  rw [hs.counted]
  constructor
  · intro hafter hsplit
    exact hafter _ (hnew.mpr hsplit)
  · intro hleft r hr
    rcases mem_step hs.toPlaced h hr with hr₀ | rfl
    · exact hp r hr₀
    · exact hleft (hnew.mp hr)

theorem always_published (hs : Numbered stableHash s) (hbase : 1 ≤ s.nodeBasePorts) (hp : s.Published)
    (ops : List Op) :
    (machine stableHash).Always Published ops s ↔ (machine stableHash).Guarded (PortLeft stableHash) ops s := by
  have hfree : (machine stableHash).Guarded (fun _ _ => True) ops s :=
    Machine.Guarded.of_forall (fun _ _ => trivial) ops s
  apply hfree.always_iff (fun s => Numbered stableHash s ∧ 1 ≤ s.nodeBasePorts) Published
  · rintro s op ⟨hs, hbase⟩ -
    have hstep := step_machine hs.toSound stableHash op
    exact ⟨hs.step hstep, nodeBasePorts_step hstep ▸ hbase⟩
  · rintro s op ⟨hs, hbase⟩ - hp
    exact published_step hs hbase hp (step_machine hs.toSound stableHash op)
  · exact ⟨hs, hbase⟩
  · exact hp

/-- Every split takes one port, and nothing gives it back. -/
theorem portLeft_iff_count (hs : Placed stableHash s) (ops : List Op)
    (hleft : s.nodeBasePorts + s.nodeCount ≤ 65536) :
    (machine stableHash).Guarded (PortLeft stableHash) ops s ↔
      s.nodeBasePorts + s.nodeCount + (machine stableHash).count (Splits stableHash) ops s ≤ 65536 := by
  apply Machine.Guarded.iff_count (Placed stableHash) fun s => s.nodeBasePorts + s.nodeCount
  · exact fun s op hs => hs.step (step_machine hs.toSound stableHash op)
  · intro s op hs
    have hstep := step_machine hs.toSound stableHash op
    rw [nodeBasePorts_step hstep, nodeCount_step hs hstep]
    split <;> omega
  · intro s op
    exact imp_congr_right fun _ => Int.lt_add_one_iff.symm
  · exact hs
  · exact hleft

theorem Published.fresh (args : NodeArgs) (argsOk : args.check = .ok ()) (nodeMinLoad nodeMaxLoad : Int) :
    (Ring.fresh args argsOk nodeMinLoad nodeMaxLoad (empty : σ) 19090).Published := by
  have hs : Numbered (fun _ => 0) (Ring.fresh args argsOk nodeMinLoad nodeMaxLoad (empty : σ) 19090) :=
    Numbered.fresh args argsOk nodeMinLoad nodeMaxLoad 19090
  rw [hs.published_iff (show (1 : Int) ≤ 19090 by decide)]
  intro r hr
  obtain rfl := mem_getNodes_fresh.mp hr
  exact show (19090 + (0 : Nat) : Int) ≤ 65535 by decide

end Counter

variable [OrderedMap σ]

/-- In every state of a run the nodes have distinct port numbers, exactly as long as at most 46445 calls have
split a node: the `k`-th split takes the port 19090 + `k`, however few nodes are left. -/
theorem ports_distinct_in_range {args : NodeArgs} {nodeMinLoad nodeMaxLoad : Int} {s₀ : Ring σ}
    (hinit : Ring.init args nodeMinLoad nodeMaxLoad (empty : σ) = .ok s₀) (ops : List Op) :
    (machine stableHash).Always Published ops s₀ ↔
      (machine stableHash).count (Splits stableHash) ops s₀ ≤ 46445 := by
  obtain ⟨h, rfl⟩ := init_eq_ok.mp hinit
  have hs : Numbered stableHash (Ring.fresh args h nodeMinLoad nodeMaxLoad (empty : σ) 19090) :=
    Numbered.fresh args h nodeMinLoad nodeMaxLoad 19090
  rw [always_published hs (show (1 : Int) ≤ 19090 by decide) (Published.fresh args h nodeMinLoad nodeMaxLoad),
    portLeft_iff_count hs.toPlaced ops (show (19090 + (1 : Nat) : Int) ≤ 65536 by decide)]
  change (19090 + (1 : Nat) + _ : Int) ≤ 65536 ↔ _
  omega

theorem ports_distinct_in_range_default :
    let ops : List Op := [.insert ⟨"a", "a", "host", 8000⟩ (some "a") "",
      .insert ⟨"bbbbb", "b", "host", 8000⟩ (some "bbbbb") "", .delete "a"]
    (machine String.length).Always Published ops (Settings.freshRing (MockADT Ref)) :=
  (ports_distinct_in_range (Settings.ring_default (MockADT Ref)) _).mpr (by decide +kernel)

/-! ## Running out -/

/-- The invariants that hold of a small ring: every node is overloaded by its first key. -/
structure Small (stableHash : String → Nat) (s : Ring σ) : Prop extends Tracked stableHash s where
  distinct : DistinctHashes stableHash s
  occupied : s.Occupied
  capacity : s.args.capacity = 1
  minLoad : 0 ≤ s.nodeMinLoad
  maxLoad : s.nodeMaxLoad < 100

theorem Small.step (hs : Small stableHash s) (hf : FreshHash stableHash s op) (hk : KeepsNode stableHash s op)
    (h : Step stableHash s op o s') : Small stableHash s' where
  toTracked := hs.toTracked.step (cleanMerge op) h
  distinct := hs.distinct.step hs.toPlaced hf h
  occupied := hs.occupied.step hs.toTracked hs.distinct (by rw [hs.capacity]; decide) hs.minLoad hf hk h
  capacity := (congrArg NodeArgs.capacity (args_step h)).trans hs.capacity
  minLoad := (nodeMinLoad_step h).symm ▸ hs.minLoad
  maxLoad := (nodeMaxLoad_step h).symm ▸ hs.maxLoad

/-- No key is stored, so node zero is alone in the ring. -/
structure Idle (stableHash : String → Nat) (s : Ring σ) : Prop extends Small stableHash s where
  unused : ∀ k, s.lookup stableHash k = none

namespace Idle

theorem hasKey (hs : Idle stableHash s) (hr : r ∈ s.getNodes) (k : String) : (s.node r).hasKey k = false := by
  rw [Node.hasKey_eq_false, Option.eq_none_iff_forall_ne_some]
  intro t ht
  have hsome := hs.lookup_eq_some.mpr ⟨r, hr, ht⟩
  rw [hs.unused k] at hsome
  cases hsome

theorem alone (hs : Idle stableHash s) (hr : r ∈ s.getNodes) : r = s.nodeZero := by
  by_contra hz
  obtain ⟨k, hk⟩ := hs.occupied.occupied r hr hz
  rw [hs.hasKey hr k] at hk
  cases hk

theorem splits (hs : Idle stableHash s) (t : Target) (key u : String) :
    Splits stableHash s (.insert t (some key) u) := by
  obtain ⟨n, hn, hmem⟩ := hs.findNode (stableHash key)
  have hcap : (s.node n).capacity = 1 := (congrArg NodeArgs.capacity (hs.shared n hmem)).trans hs.capacity
  have hkey := hs.hasKey hmem key
  have hsize : 1 ≤ ((s.node n).insert key t).targets.size := Node.size_insert hkey ▸ Nat.le_add_left ..
  have hload : Percentage.percent 1 1 ≤ Percentage.percent ((s.node n).insert key t).targets.size 1 :=
    Percentage.percent_mono one_pos hsize
  have hfull : Percentage.percent 1 1 = 100 := by decide +kernel
  apply (splits_iff hn).mpr
  refine ⟨hkey, _, Node.load_eq (show (s.node n).capacity ≠ 0 by omega), ?_⟩
  change _ < Percentage.percent ((s.node n).insert key t).targets.size (s.node n).capacity
  rw [hcap]
  exact hs.maxLoad.trans_le (hfull ▸ hload)

theorem freshHash (hs : Idle stableHash s) (t : Target) (key u : String) :
    FreshHash stableHash s (.insert t (some key) u) := by
  intro r hr k hk
  rw [Dict.mem_keys] at hk
  exact absurd ((hs.hasKey hr k).symm.trans hk) Bool.false_ne_true

theorem keepsNode (hs : Idle stableHash s) (t : Target) {key : String} (hkey : stableHash key ≠ 0)
    (u : String) : KeepsNode stableHash s (.insert t (some key) u) := by
  intro n hup hashes _
  have hmem := Routing.owner_mem hs.valid (scaledUp_eq_some.mp hup).1
  rw [if_pos (hs.alone hmem)]
  intro hzero
  obtain ⟨k, hk, hz⟩ := Node.mem_hashes.mp hzero
  rcases Node.hasKey_insert.mp hk with rfl | hk
  · exact hkey hz
  · exact absurd ((hs.hasKey hmem k).symm.trans hk) Bool.false_ne_true

theorem length_getNodes (hs : Idle stableHash s) : s.getNodes.length ≤ 1 := by
  have hsub : s.getNodes ⊆ [s.nodeZero] := fun r hr => List.mem_singleton.mpr (hs.alone hr)
  exact (List.subperm_of_subset (Routing.nodup_list hs.valid) hsub).length_le

theorem length_inserted (hs : Idle stableHash s) (h : Step stableHash s op o s') : s'.getNodes.length ≤ 2 := by
  have hvalid := (hs.toPlaced.step h).valid
  have hsub : s'.getNodes ⊆ [s.nodeZero, s.heap.next] := by
    intro r hr
    rcases mem_step hs.toPlaced h hr with hr | rfl
    · simp [hs.alone hr]
    · simp
  exact (List.subperm_of_subset (Routing.nodup_list hvalid) hsub).length_le

/-- An insert and a delete of the key leave a ring like the one before, with a higher counter. -/
theorem again (hs : Idle stableHash s) (t : Target) {key u : String} (hkey : stableHash key ≠ 0) {s₁ s₂ : Ring σ}
    {o₁ o₂ : Outcome} (h₁ : Step stableHash s (.insert t (some key) u) o₁ s₁)
    (h₂ : Step stableHash s₁ (.delete key) o₂ s₂) :
    Idle stableHash s₂ ∧ s₂.nodeCount = s.nodeCount + 1 ∧ s₂.nodeBasePorts = s.nodeBasePorts := by
  have hs₁ := hs.toSmall.step (hs.freshHash t key u) (hs.keepsNode t hkey u) h₁
  have hf₂ : FreshHash stableHash s₁ (.delete key) := trivial
  refine ⟨{ toSmall := hs₁.step hf₂ trivial h₂, unused := ?_ }, ?_, ?_⟩
  · intro k
    by_cases hk : k = key
    · subst hk
      exact lookup_delete hs₁.toPlaced h₂
    · rw [lookup_step_of_ne hs₁.toPlaced (cleanMerge _) h₂ hk,
        lookup_step_of_ne hs.toPlaced (cleanMerge _) h₁ hk]
      exact hs.unused k
  · rw [nodeCount_step hs₁.toPlaced h₂, if_neg (show ¬ Splits stableHash s₁ (.delete key) from id),
      nodeCount_step hs.toPlaced h₁, if_pos (hs.splits t key u)]
  · exact (nodeBasePorts_step h₂).trans (nodeBasePorts_step h₁)

end Idle

theorem Idle.fresh {args : NodeArgs} (hcap : args.capacity = 1) (argsOk : args.check = .ok ())
    {nodeMinLoad nodeMaxLoad : Int} (hmin : 0 ≤ nodeMinLoad) (hmax : nodeMaxLoad < 100) (nodeBasePorts : Int) :
    Idle stableHash (Ring.fresh args argsOk nodeMinLoad nodeMaxLoad (empty : σ) nodeBasePorts) where
  toTracked := Tracked.fresh args argsOk nodeMinLoad nodeMaxLoad nodeBasePorts
  distinct := DistinctHashes.fresh args argsOk nodeMinLoad nodeMaxLoad nodeBasePorts
  occupied := Occupied.fresh args argsOk nodeMinLoad nodeMaxLoad nodeBasePorts
  capacity := hcap
  minLoad := hmin
  maxLoad := hmax
  unused _ := lookup_fresh args argsOk nodeMinLoad nodeMaxLoad nodeBasePorts

/-- A key is inserted and deleted, over and over. -/
def restarts (t : Target) (key : String) (n : Nat) : List Op :=
  (List.replicate n [Op.insert t (some key) "", Op.delete key]).flatten

theorem Idle.always_small (hs : Idle stableHash s) (t : Target) (hkey : stableHash key ≠ 0) (n : Nat) :
    (machine stableHash).Always (fun s => s.getNodes.length ≤ 2) (restarts t key n) s := by
  induction n generalizing s with
  | zero => exact hs.length_getNodes.trans one_le_two
  | succ n ih =>
      have h₁ := step_machine hs.toSound stableHash (.insert t (some key) "")
      have hs₁ := hs.toPlaced.step h₁
      have h₂ := step_machine hs₁.toSound stableHash (.delete key)
      exact ⟨hs.length_getNodes.trans one_le_two, hs.length_inserted h₁, ih (hs.again t hkey h₁ h₂).1⟩

theorem Idle.count_restarts (hs : Idle stableHash s) (t : Target) (hkey : stableHash key ≠ 0) (n : Nat) :
    (machine stableHash).count (Splits stableHash) (restarts t key n) s = n := by
  induction n generalizing s with
  | zero => rfl
  | succ n ih =>
      have h₁ := step_machine hs.toSound stableHash (.insert t (some key) "")
      have hs₁ := hs.toPlaced.step h₁
      have h₂ := step_machine hs₁.toSound stableHash (.delete key)
      have hrest := ih (hs.again t hkey h₁ h₂).1
      change (if Splits stableHash s (.insert t (some key) "") then 1 else 0) + ((if False then 1 else 0) +
        (machine stableHash).count (Splits stableHash) (restarts t key n) _) = n + 1
      rw [if_pos (hs.splits t key ""), hrest]
      simp [Nat.add_comm]

/-- A node that takes one target: after 46445 scale-ups and scale-downs the next node gets port 65536, though
there are never more than two. -/
theorem ports_run_out :
    let hash := tableHash [("a", 5)]
    let ops := restarts ⟨"a", "a", "host", 8000⟩ "a" 46446
    ∃ s₀, ({ nodeCapacity := 1 } : Settings).ring (MockADT Ref) = .ok s₀ ∧
      (machine hash).Always (fun s => s.getNodes.length < 1000) ops s₀ ∧
      ¬ (machine hash).Always Published ops s₀ := by
  intro hash ops
  have hok : ({ nodeCapacity := 1 } : Settings).nodeArgs.check = .ok () := by decide +kernel
  have hidle : Idle hash (Ring.fresh _ hok 25 75 (empty : MockADT Ref) 19090) :=
    Idle.fresh rfl hok (by decide) (by decide) 19090
  have hkey : hash "a" ≠ 0 := by decide
  refine ⟨_, init_eq_ok.mpr ⟨hok, rfl⟩, ?_, ?_⟩
  · exact (hidle.always_small ⟨"a", "a", "host", 8000⟩ hkey 46446).imp fun s hs => hs.trans_lt (by decide)
  · intro hall
    have hnumbered : Numbered hash (Ring.fresh _ hok 25 75 (empty : MockADT Ref) 19090) :=
      Numbered.fresh _ hok 25 75 19090
    rw [always_published hnumbered (show (1 : Int) ≤ 19090 by decide) (Published.fresh _ hok 25 75),
      portLeft_iff_count hnumbered.toPlaced _ (show (19090 + (1 : Nat) : Int) ≤ 65536 by decide),
      hidle.count_restarts ⟨"a", "a", "host", 8000⟩ hkey 46446] at hall
    exact absurd hall (show ¬ (19090 + (1 : Nat) + (46446 : Nat) : Int) ≤ 65536 by decide)

end PrometheusRing.Ring
