import PrometheusRing.Lib.Mean
import PrometheusRing.Ring.Lemmas.Steps

/-!
# Every key is where routing looks for it

`Placed` holds after every call, whatever the call did to the container.
-/

namespace PrometheusRing

open AbstractDataType

namespace Node

variable {stableHash : String → Nat} {n : Node} {key k : String} {t : Target} {m : Nat}

theorem hasKey_iff : n.hasKey key = true ↔ ∃ t, n.get key = some t := Dict.contains_iff

theorem hasKey_eq_false : n.hasKey key = false ↔ n.get key = none := by
  rw [hasKey, Dict.contains, Option.isSome_eq_false_iff, Option.isNone_iff_eq_none]; rfl

theorem get_insert : (n.insert key t).get k = if k = key then some t else n.get k := Dict.get?_set _ _ _ _

theorem get_without : (n.without key).get k = if k = key then none else n.get k := Dict.get?_erase _ _ _

theorem hasKey_insert : (n.insert key t).hasKey k = true ↔ k = key ∨ n.hasKey k = true := by
  simp [hasKey, Node.insert, Dict.contains_set]

theorem hasKey_without : (n.without key).hasKey k = true ↔ k ≠ key ∧ n.hasKey k = true := by
  simp [hasKey, without, mapTargets, Dict.contains_erase]

theorem get_keepBelow {b : Int} :
    (keepBelow stableHash b n).get k = if (stableHash k : Int) < b then n.get k else none := by
  rw [Node.get, keepBelow, mapTargets, Dict.get?_filter]
  simp only [decide_eq_true_eq]
  rfl

theorem hasKey_of_load [Percentage] {l : Int} (hcap : n.capacity ≠ 0) (hl : n.load = .ok l) (hpos : 0 < l) :
    ∃ k, n.hasKey k = true := by
  rw [load_eq hcap] at hl
  have hsize : n.targets.items ≠ [] := by
    intro he
    rw [Dict.size, he, List.length_nil, Percentage.percent_zero] at hl
    cases hl
    omega
  obtain ⟨e, he⟩ := List.exists_mem_of_ne_nil _ hsize
  exact ⟨e.1, hasKey_iff.mpr ⟨e.2, Dict.get?_eq_some.mpr he⟩⟩

/-- The hashes of the node's keys. -/
def hashes (stableHash : String → Nat) (n : Node) : List Nat := n.targets.keys.map stableHash

theorem mem_hashes {x : Nat} : x ∈ n.hashes stableHash ↔ ∃ k, n.hasKey k = true ∧ stableHash k = x := by
  simp only [hashes, List.mem_map, Dict.mem_keys]
  rfl

theorem calcMidHash_eq_ok :
    n.calcMidHash stableHash = .ok m ↔ n.hashes stableHash ≠ [] ∧ mean (n.hashes stableHash) = m := by
  have hlen : (n.hashes stableHash).length = n.targets.size := by simp [hashes, Dict.keys, Dict.size]
  rw [calcMidHash, mean, hlen, ← List.length_pos_iff, hlen, Nat.pos_iff_ne_zero]
  split
  case isTrue h =>
      constructor
      · intro he; cases he
      · exact fun hn => absurd h hn.1
  case isFalse h => exact ⟨fun he => ⟨h, Except.ok.inj he⟩, fun hm => congrArg Except.ok hm.2⟩

/-- The index of a new node lies between the hashes of two keys of the old one. -/
theorem calcMidHash_between (hm : n.calcMidHash stableHash = .ok m) :
    (∃ k, n.hasKey k = true ∧ stableHash k ≤ m) ∧ ∃ k, n.hasKey k = true ∧ m ≤ stableHash k := by
  obtain ⟨hne, rfl⟩ := calcMidHash_eq_ok.mp hm
  obtain ⟨a, ha, hle⟩ := Mean.exists_le_mean hne
  obtain ⟨b, hb, hge⟩ := Mean.exists_mean_le hne
  obtain ⟨k, hk, rfl⟩ := mem_hashes.mp ha
  obtain ⟨k', hk', rfl⟩ := mem_hashes.mp hb
  exact ⟨⟨k, hk, hle⟩, k', hk', hge⟩

end Node

namespace Ring

variable {σ : Type} [AbstractDataType σ Ref] {stableHash : String → Nat} {s s' : Ring σ}
  {n r d p : Ref} {i m : Nat} {key k : String} {t : Target} {f : Node → Node}

/-! ## What splitting and merging do to a node -/

theorem node_split (hn : n < s.heap.next) (hr : r < s.heap.next) :
    (s.split stableHash n m).node r = if r = n then Node.keepBelow stableHash m (s.node n) else s.node r := by
  have hrn : r ≠ s.heap.next := hr.ne
  by_cases h : r = n
  · subst h; simp [split, node, hrn]
  · simp [split, node, hrn, h]

theorem node_split_new (hn : n < s.heap.next) :
    (s.split stableHash n m).node s.heap.next =
      Node.mapTargets (·.setAll (Node.exported stableHash m (s.node n).targets.items))
        (Node.new s.args m (some (s.nodeBasePorts + s.nodeCount))) := by
  simp [split, node, hn.ne']

theorem get_split_new (hn : n < s.heap.next) :
    ((s.split stableHash n m).node s.heap.next).get k = if m ≤ stableHash k then (s.node n).get k else none := by
  have hex : Node.exported stableHash m (s.node n).targets.items =
      ((s.node n).targets.filter (fun k => (stableHash k : Int) ≥ m)).items := rfl
  rw [node_split_new hn, Node.get, Node.mapTargets, hex, Dict.get?_setAll, Dict.get?_filter]
  by_cases h : m ≤ stableHash k <;> simp [h, Node.get, Node.new]

theorem hasKey_split_new (hn : n < s.heap.next) :
    ((s.split stableHash n m).node s.heap.next).hasKey k = true ↔
      m ≤ stableHash k ∧ (s.node n).hasKey k = true := by
  have hempty : (Node.new s.args m (some (s.nodeBasePorts + s.nodeCount))).hasKey k = false := rfl
  have hexported := @Node.hasKey_withExported stableHash (s.node n)
    (Node.new s.args m (some (s.nodeBasePorts + s.nodeCount))) k m
  rw [node_split_new hn]
  simpa [hempty, Node.withExported] using hexported

/-- A split leaves no new node without a key. -/
theorem exists_hasKey_split_new (hn : n < s.heap.next) (hm : (s.node n).calcMidHash stableHash = .ok m) :
    ∃ k, ((s.split stableHash n m).node s.heap.next).hasKey k = true := by
  obtain ⟨-, k, hk, hle⟩ := Node.calcMidHash_between hm
  exact ⟨k, (hasKey_split_new hn).mpr ⟨hle, hk⟩⟩

theorem node_merged (hdp : d ≠ p) :
    (s.merged d p i).node r = if r = d then Node.mapTargets (fun _ => Dict.empty) (s.node d)
      else if r = p then Node.mapTargets (·.setAll (s.node d).targets.items) (s.node p) else s.node r := by
  by_cases hd : r = d
  · subst hd; simp [merged, node, hdp]
  · by_cases hp : r = p
    · subst hp; simp [merged, node, hd]
    · simp [merged, node, hd, hp]

theorem get_merged (hdp : d ≠ p) :
    ((s.merged d p i).node r).get k = if r = d then none
      else if r = p then ((s.node d).get k).or ((s.node p).get k) else (s.node r).get k := by
  rw [node_merged hdp]
  by_cases hd : r = d
  · simp [hd, Node.get, Node.mapTargets]
  · by_cases hp : r = p
    · subst hp; simp [hd, Node.get, Node.mapTargets, Dict.get?_setAll]
    · simp [hd, hp]

theorem hasKey_merged (hdp : d ≠ p) :
    ((s.merged d p i).node r).hasKey k = true ↔
      r ≠ d ∧ (r = p ∧ (s.node d).hasKey k = true ∨ (s.node r).hasKey k = true) := by
  rw [node_merged hdp]
  by_cases hd : r = d
  · simp [hd, Node.hasKey, Node.mapTargets, Dict.contains]
  · by_cases hp : r = p
    · subst hp; simp [hd, Node.hasKey, Node.mapTargets, Dict.contains_setAll]
    · simp [hd, hp]

/-! ## The placement invariant -/

/-- Every key of a node in the container is routed to that node. -/
structure Placed [Routing σ] (stableHash : String → Nat) (s : Ring σ) : Prop extends Sound s where
  routed : ∀ r ∈ s.getNodes, ∀ k, (s.node r).hasKey k = true → s.findNode (stableHash k) = some r

variable [Routing σ]

theorem mem_getNodes_fresh {args : NodeArgs} {argsOk : args.check = .ok ()}
    {nodeMinLoad nodeMaxLoad nodeBasePorts : Int} :
    r ∈ (Ring.fresh args argsOk nodeMinLoad nodeMaxLoad (empty : σ) nodeBasePorts).getNodes ↔ r = 0 := by
  change r ∈ list (insert (empty : σ) 0 0) ↔ r = 0
  simp [Routing.mem_list (Routing.valid_seed 0), Routing.entry_seed]

namespace Placed

theorem fresh (args : NodeArgs) (argsOk : args.check = .ok ()) (nodeMinLoad nodeMaxLoad : Int)
    (nodeBasePorts : Int) :
    Placed stableHash (Ring.fresh args argsOk nodeMinLoad nodeMaxLoad (empty : σ) nodeBasePorts) := by
  have hvalid : Routing.Valid (insert (empty : σ) 0 0) := Routing.valid_seed 0
  refine { valid := hvalid, allocated := ?_, settled := ?_, shared := ?_, routed := ?_ }
  · intro r hr; rw [mem_getNodes_fresh.mp hr]; exact Nat.zero_lt_one
  · intro r hr; rfl
  · intro r hr; rfl
  · intro r hr k hk; cases hk

theorem onNode (hs : Placed stableHash s) (hd : (f (s.node n)).keysToDelete = (s.node n).keysToDelete)
    (ha : (f (s.node n)).toNodeArgs = (s.node n).toNodeArgs)
    (hk : ∀ k, (f (s.node n)).hasKey k = true → (s.node n).hasKey k = true ∨
      s.findNode (stableHash k) = some n) : Placed stableHash (s.onNode n f) where
  toSound := hs.toSound.onNode hd ha
  routed r hr k hrk := by
    rw [node_onNode] at hrk
    split at hrk
    case isTrue he =>
        subst he
        rcases hk k hrk with h | h
        · exact hs.routed r hr k h
        · exact h
    case isFalse => exact hs.routed r hr k hrk

theorem of_hasKey (hs : Placed stableHash s) (hr : r ∈ s.getNodes) (hk : (s.node r).hasKey k = true) :
    s.findNode (stableHash k) = some r := hs.routed r hr k hk

theorem findNode_mid (hs : Placed stableHash s) (hn : n ∈ s.getNodes)
    (hm : (s.node n).calcMidHash stableHash = .ok m) : s.findNode m = some n := by
  obtain ⟨⟨k, hk, hle⟩, k', hk', hge⟩ := Node.calcMidHash_between hm
  exact Routing.owner_convex hs.valid (hs.of_hasKey hn hk) (hs.of_hasKey hn hk') hle hge

theorem new_notMem (hs : Placed stableHash s) : s.heap.next ∉ s.getNodes :=
  fun h => (hs.allocated _ h).ne rfl

theorem mem_of_mem_split (hs : Placed stableHash s) (hr : r ∈ (s.split stableHash n m).getNodes) :
    r = s.heap.next ∨ r ∈ s.getNodes := by
  obtain ⟨i, hi⟩ := (Routing.mem_list (Routing.valid_insert m hs.valid hs.new_notMem)).mp hr
  rcases Routing.entry_of_insert hs.valid hi with ⟨-, h⟩ | h
  · exact Or.inl h
  · exact Or.inr ((Routing.mem_list hs.valid).mpr ⟨i, h⟩)

/-- After a split, what the old node answered for from the new index on is answered by the new node. -/
theorem findNode_split (hs : Placed stableHash s) (hm : s.findNode m = some n) (x : Nat) :
    (s.split stableHash n m).findNode x =
      if m ≤ x ∧ s.findNode x = some n then some s.heap.next else s.findNode x := by
  by_cases h : m ≤ x ∧ s.findNode x = some n
  · rw [if_pos h]
    exact Routing.owner_insert_self hs.valid hs.new_notMem h.1 (h.2.trans hm.symm)
  · rw [if_neg h]
    exact Routing.owner_insert_of_not hs.valid hs.new_notMem fun hc => h ⟨hc.1, hc.2.trans hm⟩

theorem split (hs : Placed stableHash s) (hn : n ∈ s.getNodes) (hm : s.findNode m = some n) :
    Placed stableHash (s.split stableHash n m) := by
  have hlt := hs.allocated n hn
  refine { valid := Routing.valid_insert m hs.valid hs.new_notMem, allocated := ?_, settled := ?_, shared := ?_,
           routed := ?_ }
  · intro r hr
    change r < s.heap.next + 1
    rcases hs.mem_of_mem_split hr with rfl | hr
    · exact Nat.lt_succ_self _
    · exact Nat.lt_succ_of_lt (hs.allocated r hr)
  · intro r hr
    rcases hs.mem_of_mem_split hr with rfl | hr
    · rw [node_split_new hlt]; rfl
    · rw [node_split hlt (hs.allocated r hr)]
      split
      case isTrue => exact hs.settled n hn
      case isFalse => exact hs.settled r hr
  · intro r hr
    rcases hs.mem_of_mem_split hr with rfl | hr
    · rw [node_split_new hlt]; rfl
    · rw [node_split hlt (hs.allocated r hr)]
      split
      case isTrue => exact hs.shared n hn
      case isFalse => exact hs.shared r hr
  · intro r hr k hk
    rw [hs.findNode_split hm]
    rcases hs.mem_of_mem_split hr with rfl | hr
    · obtain ⟨hmk, hk⟩ := (hasKey_split_new hlt).mp hk
      rw [if_pos ⟨hmk, hs.of_hasKey hn hk⟩]
    · rw [node_split hlt (hs.allocated r hr)] at hk
      split at hk
      case isTrue he =>
          subst he
          obtain ⟨hkm, hk⟩ := Node.hasKey_keepBelow.mp hk
          rw [if_neg fun hc => by omega]
          exact hs.of_hasKey hn hk
      case isFalse he =>
          have hfind := hs.of_hasKey hr hk
          rw [if_neg fun hc => he (Option.some.inj (hfind.symm.trans hc.2))]
          exact hfind

theorem new_mem_split (hs : Placed stableHash s) (hn : n ∈ s.getNodes) (hm : s.findNode m = some n) :
    s.heap.next ∈ (s.split stableHash n m).getNodes :=
  (Routing.mem_list (hs.split hn hm).valid).mpr ⟨m, Routing.entry_insert_self m hs.valid⟩

theorem merged (hs : Placed stableHash s) (hd : search s.ring i = some d)
    (hp : findMaxSmallerThan s.ring i = some p) : Placed stableHash (s.merged d p i) := by
  have hdp : d ≠ p := (Routing.prior_ne hs.valid hd hp).symm
  have hmem : ∀ r ∈ (s.merged d p i).getNodes, r ∈ s.getNodes := fun r hr =>
    Routing.mem_list_of_remove hs.valid hd hp hr
  have hsame (r : Ref) : ((s.merged d p i).node r).keysToDelete = (s.node r).keysToDelete ∧
      ((s.merged d p i).node r).toNodeArgs = (s.node r).toNodeArgs := by
    rw [node_merged hdp]
    split
    case isTrue h => subst h; exact ⟨rfl, rfl⟩
    case isFalse h =>
        split
        case isTrue h' => subst h'; exact ⟨rfl, rfl⟩
        case isFalse => exact ⟨rfl, rfl⟩
  refine { valid := Routing.valid_remove hs.valid hd hp, allocated := fun r hr => hs.allocated r (hmem r hr),
           settled := fun r hr => (hsame r).1.trans (hs.settled r (hmem r hr)),
           shared := fun r hr => (hsame r).2.trans (hs.shared r (hmem r hr)), routed := ?_ }
  intro r hr k hk
  have hdmem : d ∈ s.getNodes := (Routing.mem_list hs.valid).mpr ⟨i, Routing.entry_of_search hs.valid hd⟩
  obtain ⟨hrd, ⟨rfl, hin⟩ | hin⟩ := (hasKey_merged hdp).mp hk
  · exact Routing.owner_remove_self hs.valid hd hp (hs.of_hasKey hdmem hin)
  · exact Routing.owner_remove_of_ne hs.valid hd hp (hs.of_hasKey (hmem r hr) hin) hrd hr

theorem stored (hs : Placed stableHash s) (hn : s.findNode (stableHash key) = some n) (t : Target) :
    Placed stableHash (s.onNode n (·.insert key t)) := by
  refine hs.onNode rfl rfl fun k hk => ?_
  rcases Node.hasKey_insert.mp hk with rfl | hk
  · exact Or.inr hn
  · exact Or.inl hk

theorem dropped (hs : Placed stableHash s) (n : Ref) (key : String) :
    Placed stableHash (s.onNode n (·.without key)) := by
  exact hs.onNode rfl rfl fun k hk => Or.inl (Node.hasKey_without.mp hk).2

theorem scaledUp [Percentage] (hs : Placed stableHash s) (hup : s.scaledUp stableHash key t = some n)
    (hm : ((s.node n).insert key t).calcMidHash stableHash = .ok m) :
    s.findNode (stableHash key) = some n ∧ n ∈ s.getNodes ∧ Placed stableHash (s.onNode n (·.insert key t)) ∧
      (s.onNode n (·.insert key t)).findNode m = some n := by
  obtain ⟨hn, -⟩ := scaledUp_eq_some.mp hup
  have hs' := hs.stored hn t
  have hmem := Routing.owner_mem hs.valid hn
  exact ⟨hn, hmem, hs', hs'.findNode_mid hmem (by rw [node_onNode_self]; exact hm)⟩

theorem step [Percentage] (hs : Placed stableHash s) {op : Op} {o : Outcome} (h : Step stableHash s op o s') :
    Placed stableHash s' := by
  cases h with
  | Ins_Exists | Upd_Missing | Del_Missing => exact hs
  | Ins_NoCapacity _ hn | Ins_Stored _ hn | Upd_Stored hn => exact hs.stored hn _
  | Ins_Split _ hup hm =>
      obtain ⟨-, hmem, hs', hmid⟩ := hs.scaledUp hup hm
      exact hs'.split hmem hmid
  | Del_NoCapacity | Del_Kept | Del_Untracked | Del_NoPrior => exact hs.dropped _ _
  | Del_Merged _ hd hp => exact (hs.dropped _ _).merged hd hp

theorem machine [Percentage] (hs : Placed stableHash s) (op : Op) : Placed stableHash (machine stableHash op s).2 :=
  hs.step (step_machine hs.toSound stableHash op)

end Placed

theorem run_placed [Percentage] {args : NodeArgs} {nodeMinLoad nodeMaxLoad nodeBasePorts : Int} {s₀ : Ring σ}
    (hinit : Ring.init args nodeMinLoad nodeMaxLoad empty nodeBasePorts = .ok s₀) (ops : List Op) :
    Placed stableHash ((machine stableHash).run ops s₀) := by
  obtain ⟨h, rfl⟩ := init_eq_ok.mp hinit
  exact Machine.run_invariant (Placed stableHash) (fun _ op hs => hs.machine op) ops
    (Placed.fresh args h nodeMinLoad nodeMaxLoad nodeBasePorts)

end Ring

end PrometheusRing
