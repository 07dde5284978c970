import PrometheusRing.Api.Theorems.Targets
import PrometheusRing.Ring.Theorems.Readers

/-!
# The list, while others write

`build_targets_json` asks the container for its nodes once and then reads one node after the other, without the
lock. Whatever writes fall between its reads, it lists no target that is not registered before or after the block in
progress, and a target that stays where it is once.
-/

namespace PrometheusRing.API

open AbstractDataType Effect PrometheusRing.Ring

variable {σ : Type} [AbstractDataType σ Ref] (stableHash : String → Nat)

/-- The loop over the nodes: each node with the state in which its items are read, after what other threads do in
the pause before. -/
def visits : List Ref → List (List Shared.Event) → Shared σ → List (Ref × Shared σ)
  | [], _, _ => []
  | r :: rs, pauses, u =>
      let v := (Shared.machine stableHash).run (pauses.headD []) u
      (r, v) :: visits rs pauses.tail v

/-- The list that the loop puts together. -/
def unlockedTargetsJson (reads : List (Ref × Shared σ)) : List TargetGroup :=
  reads.flatMap fun (r, u) => (u.ring.node r).listItems.map (targetGroup (u.ring.node r))

/-- The blocks that calls of the API run. -/
def OfApi : Shared.Event → Prop
  | .take (.insert target key _) => key = some target.id
  | .take (.update _ _) => False
  | .take (.delete _) | .write => True

instance : DecidablePred OfApi
  | .take (.insert _ _ _) => inferInstanceAs (Decidable (_ = _))
  | .take (.update _ _) => inferInstanceAs (Decidable False)
  | .take (.delete _) | .write => inferInstanceAs (Decidable True)

/-- The thread with the lock takes nothing out of the container but the node it merges, and runs a call of the
API. -/
def ApiTake [Routing σ] (u : Shared σ) (e : Shared.Event) : Prop := Shared.CleanTake stableHash u e ∧ OfApi e

/-! ## Targets and their ids -/

/-- The write stores no target but under its own id. -/
def WritesId : Write → Prop
  | .setTarget _ key target => target.id = key
  | .newNode object => object.targets = Dict.empty
  | _ => True

/-- Every node object has its targets under their ids. -/
def HasIds (s : Ring σ) : Prop := ∀ r k t, (s.node r).get k = some t → t.id = k

variable {stableHash} {s : Ring σ} {u : Shared σ} {r : Ref} {key : String} {t : Target}

namespace HasIds

theorem apply (hs : HasIds s) {w : Write} (hw : WritesId w) : HasIds (w.apply s) := by
  intro r k t ht
  have hsame (self : Ref) (f : Node → Node) (hf : ∀ n, (f n).targets = n.targets)
      (ht : ((s.onNode self f).node r).get k = some t) : t.id = k := by
    rw [node_onNode] at ht
    split at ht
    case isTrue =>
        rw [Node.get, hf] at ht
        exact hs r k t ht
    case isFalse => exact hs r k t ht
  cases w with
  | setTarget self key target =>
      change ((s.onNode self (·.insert key target)).node r).get k = some t at ht
      rw [node_onNode] at ht
      split at ht
      case isFalse => exact hs r k t ht
      case isTrue =>
          rw [Node.get_insert] at ht
          split at ht
          case isTrue hk => cases ht; exact hw.trans hk.symm
          case isFalse => exact hs r k t ht
  | popTarget self key =>
      change ((s.onNode self (·.without key)).node r).get k = some t at ht
      rw [node_onNode] at ht
      split at ht
      case isFalse => exact hs r k t ht
      case isTrue =>
          rw [Node.get_without] at ht
          split at ht
          case isTrue => cases ht
          case isFalse => exact hs r k t ht
  | recordKey self key =>
      exact hsame self (fun n => { n with keysToDelete := n.keysToDelete ++ [key] }) (fun _ => rfl) ht
  | resetKeys self => exact hsame self (fun n => { n with keysToDelete := [] }) (fun _ => rfl) ht
  | newNode object =>
      change ((s.heap.alloc object).read r).get k = some t at ht
      rw [Heap.read_alloc] at ht
      split at ht
      case isTrue =>
          rw [Node.get, hw] at ht
          cases ht
      case isFalse => exact hs r k t ht
  | ringInsert | ringRemove | countNode => exact hs r k t ht

omit [AbstractDataType σ Ref] in
theorem exportWrites {a b : Ref} {bound : Int} (hs : HasIds s) :
    ∀ w ∈ Ring.exportWrites stableHash a b bound (s.node a), WritesId w := by
  intro w hw
  rw [exportWrites_eq] at hw
  rcases List.mem_append.mp hw with hw | hw
  · rcases List.mem_append.mp hw with hw | hw
    · obtain ⟨e, he, hw⟩ := List.mem_flatMap.mp hw
      rcases List.mem_cons.mp hw with rfl | hw
      · exact hs a e.1 e.2 (Dict.get?_eq_some.mpr (List.mem_filter.mp he).1)
      · obtain rfl := List.mem_singleton.mp hw
        trivial
    · obtain ⟨k, -, rfl⟩ := List.mem_map.mp hw
      trivial
  · obtain rfl := List.mem_singleton.mp hw
    trivial

omit [AbstractDataType σ Ref] in
theorem splitWrites (hs : HasIds s) (n : Ref) : ∀ w ∈ Ring.splitWrites stableHash s n, WritesId w := by
  unfold Ring.splitWrites
  cases (s.node n).calcMidHash stableHash with
  | error e => simp
  | ok m =>
      have hexport : ∀ w ∈ Ring.exportWrites stableHash n s.heap.next m (s.node n), WritesId w := hs.exportWrites
      simp only [List.mem_append, List.mem_cons, List.not_mem_nil, or_false]
      rintro w ((hw | hw) | hw)
      · rcases hw with rfl | rfl
        · rfl
        · trivial
      · exact hexport w hw
      · obtain rfl := hw
        trivial

theorem deleteNodeWrites (hs : HasIds s) (i : Nat) : ∀ w ∈ Ring.deleteNodeWrites stableHash s i, WritesId w := by
  unfold Ring.deleteNodeWrites
  split
  case h_1 d p hd hp =>
      simp only [List.mem_append, List.mem_singleton]
      rintro w (hw | rfl)
      · exact hs.exportWrites w hw
      · trivial
  case h_2 => simp

/-- The writes of a call of the API store targets under their ids. -/
theorem writes (hs : HasIds s) {op : Ring.Op} (hop : OfApi (.take op)) :
    ∀ w ∈ Ring.writes stableHash s op, WritesId w := by
  cases op with
  | update key target => cases hop
  | insert target key uuid4 =>
      obtain rfl : key = some target.id := hop
      change ∀ w ∈ insertWrites stableHash s target target.id, WritesId w
      unfold insertWrites
      cases s.findNode (stableHash target.id) with
      | none => simp
      | some n =>
          have hset : WritesId (.setTarget n target.id target) := rfl
          refine List.forall_mem_cons.mpr ⟨hset, ?_⟩
          split
          case h_1 =>
              split
              case isTrue => exact (hs.apply hset).splitWrites n
              case isFalse => simp
          case h_2 => simp
  | delete key =>
      change ∀ w ∈ deleteWrites stableHash s key, WritesId w
      unfold deleteWrites
      cases s.findNode (stableHash key) with
      | none => simp
      | some n =>
          have hpop : WritesId (.popTarget n key) := trivial
          simp only
          split
          case isTrue => simp
          case isFalse =>
              refine List.forall_mem_cons.mpr ⟨hpop, ?_⟩
              split
              case h_1 =>
                  split
                  case isTrue => exact (hs.apply hpop).deleteNodeWrites _
                  case isFalse => simp
              case h_2 => simp

omit [AbstractDataType σ Ref] in
/-- The groups of one node with an id: one if the node has the id, else none. -/
theorem filter_groups (hs : HasIds s) (r : Ref) (id : String) :
    ((s.node r).listItems.map (targetGroup (s.node r))).filter (fun g => g.labels.get? "target_id" = some id) =
      ((s.node r).get id).toList.map (targetGroup (s.node r)) := by
  have hid : ∀ e ∈ (s.node r).targets.items, e.2.id = e.1 := fun e he =>
    hs r e.1 e.2 (Dict.get?_eq_some.mpr he)
  rw [Node.listItems, Dict.values, List.map_map, List.map_eq_flatMap, List.filter_flatMap]
  cases hget : (s.node r).get id with
  | none =>
      refine List.flatMap_eq_nil_iff.mpr fun e he => ?_
      have hne : e.1 ≠ id := by
        rintro rfl
        have hget' : (s.node r).get e.1 = some e.2 := Dict.get?_eq_some.mpr he
        rw [hget] at hget'
        cases hget'
      simp [get?_targetId, hid e he, hne]
  | some t =>
      have hmem : (id, t) ∈ (s.node r).targets.items := Dict.get?_eq_some.mp hget
      rw [Dict.flatMap_of_mem (s.node r).targets.nodup hmem fun e he hne => by simp [get?_targetId, hid e he, hne]]
      have ht : t.id = id := hid _ hmem
      simp [get?_targetId, ht]

end HasIds

/-- What the reads rely on: the states are consistent, and every target is and will be under its id. -/
structure Legible (stableHash : String → Nat) [Routing σ] (u : Shared σ) : Prop where
  consistent : Shared.Consistent stableHash u
  ids : HasIds u.ring
  pending : ∀ w ∈ u.pending, WritesId w

variable [Routing σ]

namespace Legible

theorem fresh (args : NodeArgs) (argsOk : args.check = .ok ()) (nodeMinLoad nodeMaxLoad nodeBasePorts : Int) :
    Legible stableHash
      { ring := Ring.fresh args argsOk nodeMinLoad nodeMaxLoad (empty : σ) nodeBasePorts } where
  consistent := Shared.Consistent.fresh args argsOk nodeMinLoad nodeMaxLoad nodeBasePorts
  ids r k t ht := by cases ht
  pending w hw := by cases hw

theorem machine (h : Legible stableHash u) {e : Shared.Event} (he : ApiTake stableHash u e) :
    Legible stableHash (Shared.machine stableHash e u).2 := by
  have hc := h.consistent.machine he.1
  cases e with
  | take op =>
      simp only [Shared.machine] at hc ⊢
      cases hp : u.pending with
      | nil =>
          simp only [hp] at hc
          exact ⟨hc, h.ids, h.ids.writes he.2⟩
      | cons w ws => exact h
  | write =>
      simp only [Shared.machine] at hc ⊢
      cases hp : u.pending with
      | nil => exact h
      | cons w ws =>
          have hw := h.pending
          rw [hp, List.forall_mem_cons] at hw
          cases ws with
          | nil =>
              simp only [hp] at hc
              exact ⟨hc, h.ids.apply hw.1, by simp⟩
          | cons w' ws =>
              simp only [hp] at hc
              exact ⟨hc, h.ids.apply hw.1, hw.2⟩

theorem run {es : List Shared.Event} (h : Legible stableHash u)
    (hguard : (Shared.machine stableHash).Guarded (ApiTake stableHash) es u) :
    Legible stableHash ((Shared.machine stableHash).run es u) :=
  hguard.invariant (Legible stableHash) (fun _ _ h he => h.machine he) h

/-- So does every state in which the loop reads. -/
theorem visits {rs : List Ref} {pauses : List (List Shared.Event)} (h : Legible stableHash u)
    (hguard : (Shared.machine stableHash).Guarded (ApiTake stableHash) pauses.flatten u) :
    ∀ v ∈ visits stableHash rs pauses u, Legible stableHash v.2 := by
  induction rs generalizing pauses u with
  | nil => simp [API.visits]
  | cons r rs ih =>
      cases pauses with
      | nil => exact List.forall_mem_cons.mpr ⟨h, ih h trivial⟩
      | cons es pauses =>
          rw [List.flatten_cons, Machine.Guarded.append_iff] at hguard
          have hnext := h.run hguard.1
          exact List.forall_mem_cons.mpr ⟨hnext, ih hnext hguard.2⟩

end Legible

/-! ## The list -/

omit [Routing σ] in
theorem fst_visits (rs : List Ref) (pauses : List (List Shared.Event)) (u : Shared σ) :
    (visits stableHash rs pauses u).map Prod.fst = rs := by
  induction rs generalizing pauses u with
  | nil => rfl
  | cons r rs ih => simp [visits, ih]

/-- What a listed target comes from. -/
theorem listed_fresh {reads : List (Ref × Shared σ)} (hreads : ∀ v ∈ reads, Legible stableHash v.2)
    {g : TargetGroup} (hg : g ∈ unlockedTargetsJson reads) :
    ∃ v ∈ reads, ∃ t, g = targetGroup (v.2.ring.node v.1) t ∧
      ((exec (Ring.get stableHash t.id) v.2.before).1 = .ok (some t) ∨
        (exec (Ring.get stableHash t.id) v.2.after).1 = .ok (some t)) := by
  simp only [unlockedTargetsJson, List.mem_flatMap, List.mem_map, Node.listItems, Dict.values] at hg
  obtain ⟨v, hv, t, ⟨e, he, rfl⟩, rfl⟩ := hg
  have hlegible := hreads v hv
  have hget : (v.2.ring.node v.1).get e.1 = some e.2 := Dict.get?_eq_some.mpr he
  refine ⟨v, hv, e.2, rfl, ?_⟩
  rw [hlegible.ids _ _ _ hget]
  rcases hlegible.consistent.between.value hget with hvalue | hvalue
  · left
    rw [exec_get_eq hlegible.consistent.placed_before, hvalue]
    rfl
  · right
    rw [exec_get_eq hlegible.consistent.placed_after, hvalue]
    rfl

/-- A target whose node stays the same is listed once, by that node. -/
theorem listed_once {rs : List Ref} {pauses : List (List Shared.Event)} {id : String} (hnodup : rs.Nodup)
    (hr : r ∈ rs) (hreads : ∀ v ∈ visits stableHash rs pauses u, Legible stableHash v.2)
    (hstay : ∀ v ∈ visits stableHash rs pauses u,
      (exec (getTargetNode stableHash id) v.2.before).1 = .ok r ∧
        (exec (getTargetNode stableHash id) v.2.after).1 = .ok r) :
    ∃ g, (unlockedTargetsJson (visits stableHash rs pauses u)).filter
      (fun g => g.labels.get? "target_id" = some id) = [g] := by
  obtain ⟨v, hv⟩ : ∃ v, (r, v) ∈ visits stableHash rs pauses u := by
    have hfst : (visits stableHash rs pauses u).map Prod.fst = rs := fst_visits _ _ _
    rw [← hfst] at hr
    obtain ⟨⟨r', v⟩, hv, rfl⟩ := List.mem_map.mp hr
    exact ⟨v, hv⟩
  have hother : ∀ w ∈ visits stableHash rs pauses u, w.1 ≠ r → (w.2.ring.node w.1).get id = none := by
    intro w hw hne
    obtain ⟨hbefore, hafter⟩ := hstay w hw
    have hc := (hreads w hw).consistent
    obtain ⟨hfind, -⟩ := Shared.findNode_getTargetNode hc.placed_before hbefore
    obtain ⟨hfind', -⟩ := Shared.findNode_getTargetNode hc.placed_after hafter
    refine Option.eq_none_iff_forall_not_mem.mpr fun t ht => hne ?_
    rcases hc.between.home ht with hw | hw
    · exact Option.some.inj (hw.symm.trans hfind)
    · exact Option.some.inj (hw.symm.trans hfind')
  have hkeys : ((visits stableHash rs pauses u).map Prod.fst).Nodup := by
    rwa [fst_visits]
  obtain ⟨-, t, ht⟩ := (hreads (r, v) hv).consistent.still (hstay _ hv).1 (hstay _ hv).2
  refine ⟨targetGroup (v.ring.node r) t, ?_⟩
  unfold unlockedTargetsJson
  rw [List.filter_flatMap, Dict.flatMap_of_mem hkeys hv]
  · simp only [(hreads (r, v) hv).ids.filter_groups, ht]
    rfl
  · intro w hw hne
    simp only [(hreads w hw).ids.filter_groups, hother w hw hne]
    rfl

variable {args : NodeArgs} {nodeMinLoad nodeMaxLoad nodeBasePorts : Int} {s₀ : Ring σ}

/-- What `build_targets_json` lists was there before the block in progress at the read of its node, or is there after
that block. A target that has one node before and after each of the blocks in progress is listed once. -/
theorem unlocked_targets_listed
    (hinit : Ring.init args nodeMinLoad nodeMaxLoad (empty : σ) nodeBasePorts = .ok s₀)
    (es : List Shared.Event) (pauses : List (List Shared.Event))
    (hguard : (Shared.machine stableHash).Guarded (ApiTake stableHash) (es ++ pauses.flatten) { ring := s₀ }) :
    let u := (Shared.machine stableHash).run es { ring := s₀ }
    let reads := visits stableHash u.ring.getNodes pauses u
    (∀ g ∈ unlockedTargetsJson reads, ∃ v ∈ reads, ∃ t, g = targetGroup (v.2.ring.node v.1) t ∧
      ((exec (Ring.get stableHash t.id) v.2.before).1 = .ok (some t) ∨
        (exec (Ring.get stableHash t.id) v.2.after).1 = .ok (some t))) ∧
    ∀ id r, (∀ v ∈ u :: reads.map Prod.snd, (exec (getTargetNode stableHash id) v.before).1 = .ok r ∧
        (exec (getTargetNode stableHash id) v.after).1 = .ok r) →
      ∃ g, (unlockedTargetsJson reads).filter (fun g => g.labels.get? "target_id" = some id) = [g] := by
  intro u reads
  obtain ⟨h, rfl⟩ := init_eq_ok.mp hinit
  rw [Machine.Guarded.append_iff] at hguard
  have hu : Legible stableHash u := (Legible.fresh args h nodeMinLoad nodeMaxLoad nodeBasePorts).run hguard.1
  have hreads : ∀ v ∈ reads, Legible stableHash v.2 := hu.visits hguard.2
  refine ⟨fun g hg => listed_fresh hreads hg, fun id r hstay => ?_⟩
  rw [List.forall_mem_cons] at hstay
  obtain ⟨hfind, -⟩ := hu.consistent.still hstay.1.1 hstay.1.2
  have hvalid : Routing.Valid u.ring.ring := by
    rcases hu.consistent.between.container with hring | hring
    · rw [hring]; exact hu.consistent.placed_before.valid
    · rw [hring]; exact hu.consistent.placed_after.valid
  exact listed_once (Routing.nodup_list hvalid) (Routing.owner_mem hvalid hfind) hreads
    fun v hv => hstay.2 v.2 (List.mem_map_of_mem hv)

instance (u : Shared (BinarySearchTree Nat Ref)) : DecidablePred (ApiTake stableHash u) := fun _ =>
  inferInstanceAs (Decidable (_ ∧ _))

/-- The list is read while the split that a registration caused is moving keys to a new node. -/
theorem unlocked_targets_listed_default :
    let hash := tableHash [("a", 0), ("b", 100)]
    let take (id : String) : Shared.Event := .take (.insert ⟨id, id, "host", 8000⟩ (some id) "")
    let u := (Shared.machine hash).run [take "a", .write, take "b", .write, .write, .write]
      { ring := (Settings.freshRing _ : Ring (BinarySearchTree Nat Ref)) }
    let reads := visits hash u.ring.getNodes [[], [.write, .write]] u
    ∃ g, (unlockedTargetsJson reads).filter (fun g => g.labels.get? "target_id" = some "a") = [g] :=
  (unlocked_targets_listed (Settings.ring_default _)
    [.take (.insert ⟨"a", "a", "host", 8000⟩ (some "a") ""), .write,
      .take (.insert ⟨"b", "b", "host", 8000⟩ (some "b") ""), .write, .write, .write] [[], [.write, .write]]
    (by decide +kernel)).2 "a" 0 (by decide +kernel)

/-- Here all of the split falls between the read of the nodes and the read of node zero: `b`, which is registered
before and after it, is not listed. -/
example :
    let hash := tableHash [("a", 0), ("b", 100)]
    let take (id : String) : Shared.Event := .take (.insert ⟨id, id, "host", 8000⟩ (some id) "")
    let u := (Shared.machine hash).run [take "b", .write, take "a", .write]
      { ring := (Settings.freshRing _ : Ring (BinarySearchTree Nat Ref)) }
    let reads := visits hash u.ring.getNodes [List.replicate 7 .write] u
    (unlockedTargetsJson reads).map (·.labels.get? "target_id") = [some "a"] := by
  decide +kernel

end PrometheusRing.API
