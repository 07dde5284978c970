import PrometheusRing.Api.Lemmas.Threads
import PrometheusRing.Api.Theorems.Lost
import PrometheusRing.Orquestrator.Lemmas.Faulty
import PrometheusRing.Ring.Lemmas.Locked

/-!
# Nodes and services on a faulty daemon

When calls of the Docker client fail, or calls of the API overtake each other, nodes are left without a service and
services without a node. In every interleaving they are accounted for: there are at most as many of them as calls that
have failed and calls that are about to create or remove a service.
-/

namespace PrometheusRing

open Effect

namespace Ring

variable {stableHash : String → Nat} {s s' : TreeRing} {n : Ref} {key : String} {t : Target}

/-- The indices of the nodes of the ring. -/
def indices (s : TreeRing) : Set Nat := {i | ∃ r ∈ s.getNodes, (s.node r).index = i}

theorem indices_frame (hnodes : s'.getNodes = s.getNodes)
    (hindex : ∀ r ∈ s.getNodes, (s'.node r).index = (s.node r).index) : s'.indices = s.indices := by
  ext i
  constructor
  · rintro ⟨r, hr, rfl⟩
    rw [hnodes] at hr
    exact ⟨r, hr, (hindex r hr).symm⟩
  · rintro ⟨r, hr, rfl⟩
    exact ⟨r, hnodes ▸ hr, hindex r hr⟩

theorem indices_stored (n : Ref) (key : String) (t : Target) : (s.onNode n (·.insert key t)).indices = s.indices :=
  indices_frame rfl fun _ _ => field_onNode Node.index fun _ => rfl

theorem indices_dropped (n : Ref) (key : String) : (s.onNode n (·.without key)).indices = s.indices :=
  indices_frame rfl fun _ _ => field_onNode Node.index fun _ => rfl

theorem indices_split (hs : Placed stableHash s) (hn : n ∈ s.getNodes) (m : Nat) :
    (s.split stableHash n m).indices = insert m s.indices := by
  have hnodes (r : Ref) : r ∈ (s.split stableHash n m).getNodes ↔ r ∈ s.getNodes ∨ r = s.heap.next :=
    mem_getNodes_split hs
  have hold (r : Ref) (hr : r ∈ s.getNodes) : ((s.split stableHash n m).node r).index = (s.node r).index :=
    field_split Node.index (fun _ _ => rfl) (hs.allocated n hn) (hs.allocated r hr)
  have hnew := @index_split_new _ _ stableHash s _ m (hs.allocated n hn)
  ext i
  constructor
  · rintro ⟨r, hr, rfl⟩
    rcases (hnodes r).mp hr with hr | rfl
    · exact Or.inr ⟨r, hr, (hold r hr).symm⟩
    · exact Or.inl hnew
  · rintro (rfl | ⟨r, hr, rfl⟩)
    · exact ⟨s.heap.next, (hnodes _).mpr (Or.inr rfl), hnew⟩
    · exact ⟨r, (hnodes r).mpr (Or.inl hr), hold r hr⟩

theorem indices_erase (hs : s.DistinctIndices) (hn : n ∈ s.getNodes)
    (hnodes : ∀ r, r ∈ s'.getNodes ↔ r ∈ s.getNodes ∧ r ≠ n)
    (hindex : ∀ r ∈ s.getNodes, (s'.node r).index = (s.node r).index) :
    s'.indices = s.indices \ {(s.node n).index} := by
  ext i
  constructor
  · rintro ⟨r, hr, rfl⟩
    obtain ⟨hr, hne⟩ := (hnodes r).mp hr
    rw [hindex r hr]
    exact ⟨⟨r, hr, rfl⟩, fun he => hne (hs r hr n hn he)⟩
  · rintro ⟨⟨r, hr, rfl⟩, hne⟩
    exact ⟨r, (hnodes r).mpr ⟨hr, by rintro rfl; exact hne rfl⟩, hindex r hr⟩

end Ring

namespace API

open SwarmOrquestrator (Task serviceIndices)
open Threads (Block Balanced)
open Ledger

variable {δ : Type} {stableHash : String → Nat} {docker : Docker δ} {dump : Yaml → String} {live : δ → Set Service}
  {a : API (BinarySearchTree Nat Ref) δ} {op : Op}

/-- The indices that have a node and no service, or a service and no node. -/
def drift (live : δ → Set Service) (a : API (BinarySearchTree Nat Ref) δ) : Set Nat :=
  symmDiff a.ring.indices (serviceIndices live a.orquestrator)

/-- The call ends with an internal server error. -/
def failed : Except Exn Unit → Bool
  | .ok _ | .error (.keyAlreadyExistsError _) => false
  | .error _ => true

namespace Thread

/-- A split brings in an index that the ring has not, and a scale-down takes out no other node. -/
def Regular (stableHash : String → Nat) (a : API (BinarySearchTree Nat Ref) δ) : Thread → Prop
  | .insert target => Ring.FreshSplit stableHash a.ring target target.id
  | .delete targetId => Ring.CleanScaleDown stableHash a.ring (.delete targetId)
  | .task _ => True

instance (a : API (BinarySearchTree Nat Ref) δ) : DecidablePred (Regular stableHash a)
  | .insert target => inferInstanceAs (Decidable (Ring.FreshSplit stableHash a.ring target target.id))
  | .delete targetId => inferInstanceAs (Decidable (Ring.CleanScaleDown stableHash a.ring (.delete targetId)))
  | .task _ => inferInstanceAs (Decidable True)

def Named : Thread → Prop
  | .task t => t.Named
  | _ => True

def debt : Thread → Option (Nat × ℤ)
  | .task t => t.debt
  | _ => none

end Thread

/-- What every block keeps. -/
structure Booked (live : δ → Set Service) (stableHash : String → Nat) (a : API (BinarySearchTree Nat Ref) δ) :
    Prop where
  tracked : Ring.Tracked stableHash a.ring
  distinct : a.ring.DistinctIndices
  named : SwarmOrquestrator.Named live a.orquestrator

/-- A block keeps the account of the nodes and their services. -/
abbrev Pays (live : δ → Set Service) (stableHash : String → Nat) :=
  Block (fun a : API (BinarySearchTree Nat Ref) δ => a.ring.indices) (fun a => serviceIndices live a.orquestrator)
    (Booked live stableHash) Thread.Named failed Thread.debt

/-! ## One block -/

namespace Booked

theorem enter (h : Booked live stableHash a) (op : Op) :
    Pays live stableHash none a (exec (enter stableHash op) a).1 (exec (enter stableHash op) a).2 := by
  rw [exec_enter h.tracked.toPlaced]
  cases op with
  | registerTarget target =>
      dsimp only
      cases a.ring.lookup stableHash target.id with
      | some t => exact .kept h (fun t ht => by cases ht) rfl rfl
      | none => exact .kept h (fun t ht => by cases ht; trivial) rfl rfl
  | unregisterTarget targetId =>
      dsimp only
      cases a.ring.lookup stableHash targetId with
      | some t => exact .kept h (fun t ht => by cases ht; trivial) rfl rfl
      | none => exact .kept h (fun t ht => by cases ht) rfl rfl

theorem task (h : Booked live stableHash a) (hd : docker.Faulty live) (t : Task) (ht : t.Named) :
    Pays live stableHash t.debt a (exec (Thread.next stableHash docker dump (.task t)) a).1
      (exec (Thread.next stableHash docker dump (.task t)) a).2 := by
  have hfailed (e : Exn) (he : (∃ d, e = .docker d) ∨ e = .attributeError "remove") : failed (.error e) = true := by
    rcases he with ⟨d, rfl⟩ | rfl <;> rfl
  obtain ⟨hstate, hthread, lost, hlen, hsum⟩ :=
    @SwarmOrquestrator.block_task δ docker dump live a.orquestrator hd failed hfailed a.ring.indices h.named t ht
  rw [exec_next_task]
  refine ⟨⟨h.tracked, h.distinct, hstate⟩, ?_, lost, ?_, ?_⟩
  · intro t' ht'
    rw [Threads.rest_map] at ht'
    obtain ⟨u, hu, rfl⟩ := Option.map_eq_some_iff.mp ht'
    exact hthread u hu
  · rw [Threads.ended_map]
    exact hlen
  · rw [Threads.rest_map, Option.bind_map]
    exact hsum

theorem insert (h : Booked live stableHash a) (target : Target) (hg : Thread.Regular stableHash a (.insert target)) :
    Pays live stableHash none a (exec (Thread.next stableHash docker dump (.insert target)) a).1
      (exec (Thread.next stableHash docker dump (.insert target)) a).2 := by
  have hs := h.tracked.toPlaced
  have hstored := @Ring.stored_insertLocked _ _ stableHash a.ring _ hs.toSound target target.id
  rw [exec_next_insert Prod.mk.eta.symm]
  generalize (exec (Ring.insertLocked stableHash target target.id) a.ring).1 = o at hstored ⊢
  generalize (exec (Ring.insertLocked stableHash target target.id) a.ring).2 = s' at hstored ⊢
  have hstate : Booked live stableHash ⟨s', a.orquestrator⟩ :=
    ⟨hstored.tracked h.tracked, hstored.distinct hs h.distinct hg, h.named⟩
  cases hstored with
  | @NoCapacity n | @Kept n =>
      exact .kept hstate (fun t ht => by cases ht) (congrArg (surplus · _) (Ring.indices_stored n target.id target)) rfl
  | @Split n l m hn hl hlt hm =>
      obtain ⟨hmem, hs', -⟩ := hs.mid_stored hn hm
      have hnew := @Ring.index_split_new _ _ stableHash _ n m (hs'.allocated n hmem)
      have hgrow := (Ring.indices_split hs' hmem m).trans
        (congrArg₂ Insert.insert hnew.symm (Ring.indices_stored n target.id target))
      refine .opened hstate (fun t ht => by cases ht; trivial) ?_ rfl
      refine (congrArg (surplus · _) hgrow).trans (surplus_insert_left ?_)
      rintro ⟨r, hr, hrm⟩
      exact hg n hn l (hl ▸ rfl) hlt m (hm ▸ rfl) r hr (hrm.trans hnew)

theorem delete (h : Booked live stableHash a) (targetId : String)
    (hg : Thread.Regular stableHash a (.delete targetId)) :
    Pays live stableHash none a (exec (Thread.next stableHash docker dump (.delete targetId)) a).1
      (exec (Thread.next stableHash docker dump (.delete targetId)) a).2 := by
  have hs := h.tracked.toPlaced
  have hclean : Ring.CleanScaleDown stableHash a.ring (.delete targetId) := hg
  have hstep := Ring.step_machine hs.toSound stableHash (.delete targetId)
  rw [exec_next_delete Prod.mk.eta.symm]
  generalize (Ring.machine stableHash (.delete targetId) a.ring).1 = o at hstep ⊢
  generalize (Ring.machine stableHash (.delete targetId) a.ring).2 = s' at hstep ⊢
  have hstate : Booked live stableHash ⟨s', a.orquestrator⟩ :=
    ⟨h.tracked.step hclean.cleanMerge hstep, h.distinct.step hs hstep fun he => (by cases he), h.named⟩
  have hindex : ∀ r ∈ a.ring.getNodes, (s'.node r).index = (a.ring.node r).index := fun r hr =>
    Ring.index_step hs hstep (hs.allocated r hr)
  cases hstep with
  | Del_Missing => exact .kept hstate (fun t ht => by cases ht) rfl rfl
  | @Del_NoCapacity _ n | @Del_Kept _ n | @Del_Untracked _ n | @Del_NoPrior _ n =>
      exact .kept hstate (fun t ht => by cases ht) (congrArg (surplus · _) (Ring.indices_dropped n targetId)) rfl
  | @Del_Merged _ n d p hdown hsearch hp =>
      have hmem := Routing.owner_mem hs.valid (Ring.scaledDown_eq_some.mp hdown).1
      have hentry := Routing.entry_of_search hs.valid hsearch
      obtain rfl : d = n := h.distinct d (h.tracked.mem hentry) n hmem (h.tracked.indexed _ d hentry)
      have hshrink := Ring.indices_erase h.distinct hmem
        (fun r => Routing.mem_list_remove hs.valid (hclean.cleanMerge _ _ rfl hdown) hsearch hp) hindex
      have hi := hindex d hmem
      refine .opened hstate (fun t ht => by cases ht; trivial) ?_ rfl
      refine (congrArg (surplus · _) hshrink).trans ?_
      rw [← hi]
      exact surplus_erase_left ⟨d, hmem, hi.symm⟩

theorem next (h : Booked live stableHash a) (hd : docker.Faulty live) (t : Thread) (ht : t.Named)
    (hg : t.Regular stableHash a) : Pays live stableHash t.debt a (exec (t.next stableHash docker dump) a).1
      (exec (t.next stableHash docker dump) a).2 := by
  cases t with
  | insert target => exact h.insert target hg
  | delete targetId => exact h.delete targetId hg
  | task t => exact h.task hd t ht

end Booked

/-! ## Runs -/

/-- The nodes and services that differ are those that running calls have still to create or to remove, and those that
at most `n` failed calls have left behind. -/
abbrev Accounted (live : δ → Set Service) (stableHash : String → Nat) :=
  Balanced (fun a : API (BinarySearchTree Nat Ref) δ => a.ring.indices) (fun a => serviceIndices live a.orquestrator)
    (Booked live stableHash) Thread.Named Thread.debt

variable {p : Pool (BinarySearchTree Nat Ref) δ} {n : Nat} {events : List (Threads.Event Op)}

theorem Accounted.run (h : Accounted live stableHash n p) (hd : docker.Faulty live)
    (hg : (threads stableHash docker dump).Guarded (Threads.Each (Thread.Regular stableHash)) events p) :
    Accounted live stableHash (n + ((threads stableHash docker dump).history events p).countP failed)
      ((threads stableHash docker dump).run events p) :=
  Balanced.run (fun op _ ha => ha.enter op) (fun t _ ha ht hg => ha.next hd t ht hg) hg h

/-- Node zero is in the ring, and its service is to be created. -/
theorem Accounted.start (hd : docker.Faulty live) {s₀ : Ring.TreeRing} {o₀ : SwarmOrquestrator δ}
    (ht : Ring.Tracked stableHash s₀) (hi : s₀.DistinctIndices) (hnodes : ∀ r, r ∈ s₀.getNodes ↔ r = s₀.nodeZero)
    (hfree : ∀ x ∈ live o₀.client, ∀ i, x.name ≠ serviceName i) (hempty : o₀.services = Dict.empty)
    (hok : (exec (createFirstNode docker dump) ⟨s₀, o₀⟩).1 = .ok ()) :
    Accounted live stableHash 0 ⟨(exec (createFirstNode docker dump) ⟨s₀, o₀⟩).2, []⟩ := by
  have hindices : s₀.indices = insert (s₀.node s₀.nodeZero).index ∅ := by
    ext i
    constructor
    · rintro ⟨r, hr, rfl⟩
      rw [(hnodes r).mp hr]
      exact Or.inl rfl
    · rintro (rfl | ⟨⟨⟩⟩)
      exact ⟨s₀.nodeZero, (hnodes _).mpr rfl, rfl⟩
  have hservices : serviceIndices live o₀ = ∅ := Set.eq_empty_of_forall_notMem fun i ⟨x, hx, hname⟩ => hfree x hx i hname
  have hnamed : SwarmOrquestrator.Named live o₀ := by
    refine ⟨fun i x hx => ?_, fun x hx _ _ i hname _ => absurd hname (hfree x hx i)⟩
    rw [hempty] at hx
    cases hx
  have hbegin : Accounted live stableHash 0 ⟨⟨s₀, o₀⟩, [.task (.create (s₀.node s₀.nodeZero))]⟩ := by
    refine ⟨⟨ht, hi, hnamed⟩, fun t ht => ?_, [], le_rfl, ?_⟩
    · rw [List.mem_singleton.mp ht]
      trivial
    · change surplus s₀.indices (serviceIndices live o₀) = balance [((s₀.node s₀.nodeZero).index, 1)] + 0
      rw [hindices, hservices, surplus_insert_left (Set.notMem_empty _), surplus_self, zero_add, add_zero]
  have halone : Threads.Alone (Thread.next stableHash docker dump) (Thread.Regular stableHash) _ ⟨s₀, o₀⟩ _ _ :=
    alone_task (fun _ _ => trivial) (SwarmOrquestrator.runs_create (s₀.node s₀.nodeZero) o₀) s₀
  obtain ⟨k, hg, hout, hrun⟩ := halone.run (enter stableHash) [] []
  rw [List.nil_append] at hg hout hrun
  have hend := hbegin.run hd hg
  unfold threads at hend
  rw [hout, hrun] at hend
  have hcreate : (exec (SwarmOrquestrator.createNode docker dump (s₀.node s₀.nodeZero)) o₀).1 = .ok () := hok
  rw [hcreate] at hend
  exact hend

/-! ## Calls one after the other -/

/-- What is asked of a call is asked of its block. -/
theorem Regular.thread (hop : Regular stableHash a op) (ht : Ring.Tracked stableHash a.ring) {t : Thread}
    (henter : (exec (enter stableHash op) a).1 = .ok (some t)) : t.Regular stableHash a := by
  rw [exec_enter ht.toPlaced] at henter
  cases op with
  | registerTarget target =>
      cases hlookup : a.ring.lookup stableHash target.id with
      | some _ => simp [hlookup] at henter
      | none =>
          simp only [hlookup, Except.ok.injEq, Option.some.injEq] at henter
          subst henter
          refine Ring.freshSplit_of fun n l m hn hl hlt hm => ?_
          have hkey : (a.ring.node n).hasKey target.id = false := by
            rw [Ring.hasKey_of_lookup hn, hlookup]
            rfl
          exact hop.2.index_ne ht (Ring.scaledUp_eq_some.mpr ⟨hn, hkey, l, hl, hlt⟩) hm
  | unregisterTarget targetId =>
      cases hlookup : a.ring.lookup stableHash targetId with
      | none => simp [hlookup] at henter
      | some _ =>
          simp only [hlookup, Except.ok.injEq, Option.some.injEq] at henter
          subst henter
          exact hop.1

/-- A sequence of calls is an interleaving in which no call interrupts another. -/
theorem run_alone {ops : List Op} (ht : Ring.Tracked stableHash a.ring) (hi : a.ring.DistinctIndices)
    (hguard : (machine stableHash docker dump).Guarded (Regular stableHash) ops a) :
    ∃ events, (threads stableHash docker dump).Guarded (Threads.Each (Thread.Regular stableHash)) events ⟨a, []⟩ ∧
      (threads stableHash docker dump).history events ⟨a, []⟩ =
        ((machine stableHash docker dump).trace ops a).map Prod.snd ∧
      (threads stableHash docker dump).run events ⟨a, []⟩ = ⟨(machine stableHash docker dump).run ops a, []⟩ := by
  induction ops generalizing a with
  | nil => exact ⟨[], trivial, rfl, rfl⟩
  | cons op ops ih =>
      obtain ⟨es, hg, hout, hrun⟩ := @call_alone _ _ _ stableHash docker dump a _ (Thread.Regular stableHash) ht.toPlaced op
        (fun _ _ => trivial) (fun t henter => hguard.1.thread ht henter) []
      obtain ⟨ht', hi'⟩ := hguard.1.ring ht hi
      obtain ⟨es', hg', hout', hrun'⟩ := ih ht' hi' hguard.2
      refine ⟨(.call op :: es) ++ es', Machine.Guarded.append_iff.mpr ⟨hg, ?_⟩, ?_, ?_⟩
      · rw [hrun]
        exact hg'
      · rw [Machine.history_append, hrun, hout, hout']
        rfl
      · rw [Machine.run_append, hrun, hrun']
        rfl

variable {args : NodeArgs} {nodeMinLoad nodeMaxLoad nodeBasePorts : Int} {s₀ : Ring.TreeRing}

/-- In every interleaving of calls, the indices with a node and no service, or a service and no node, are at most as
many as calls have failed and calls have still to create or to remove a service, whatever the daemon makes of each of
its requests. -/
theorem drift_between_threads (hd : docker.Faulty live)
    (hinit : Ring.init args nodeMinLoad nodeMaxLoad AbstractDataType.empty nodeBasePorts = .ok s₀)
    {o₀ : SwarmOrquestrator δ} (hfree : ∀ x ∈ live o₀.client, ∀ i, x.name ≠ serviceName i)
    (hempty : o₀.services = Dict.empty) (hok : (exec (createFirstNode docker dump) ⟨s₀, o₀⟩).1 = .ok ())
    (events : List (Threads.Event Op))
    (hguard : (threads stableHash docker dump).Guarded (Threads.Each (Thread.Regular stableHash)) events
      ⟨(exec (createFirstNode docker dump) ⟨s₀, o₀⟩).2, []⟩) :
    let p₀ : Pool (BinarySearchTree Nat Ref) δ := ⟨(exec (createFirstNode docker dump) ⟨s₀, o₀⟩).2, []⟩
    let p := (threads stableHash docker dump).run events p₀
    (drift live p.shared).encard ≤
      (p.running.filterMap Thread.debt).length + ((threads stableHash docker dump).history events p₀).countP failed := by
  intro p₀ p
  obtain ⟨h, rfl⟩ := Ring.init_eq_ok.mp hinit
  have hstart : Accounted live stableHash 0 p₀ :=
    Accounted.start hd (Ring.Tracked.fresh args h nodeMinLoad nodeMaxLoad nodeBasePorts)
      (Ring.DistinctIndices.fresh args h nodeMinLoad nodeMaxLoad nodeBasePorts)
      (fun _ => Ring.mem_getNodes_fresh) hfree hempty hok
  have hend := (hstart.run hd hguard).encard_le
  rwa [Nat.zero_add] at hend

/-- `b` is registered and unregistered while its node waits for its service: the removal finds no service and raises,
and the service that is created then belongs to no node. -/
theorem drift_between_threads_default :
    let hash := tableHash [("a", 0), ("b", 100)]
    let register (id : String) : Threads.Event Op := .call (.registerTarget ⟨id, id, "host", 8000⟩)
    let threads := threads hash Swarm.docker fun _ => ""
    let events := [register "a", .step 0, register "b", .step 0, .call (.unregisterTarget "b"), .step 1, .step 1] ++
      List.replicate 6 (.step 0)
    let p₀ : Pool (BinarySearchTree Nat Ref) Swarm := ⟨(exec (createFirstNode Swarm.docker fun _ => "")
      ⟨Settings.freshRing (BinarySearchTree Nat Ref), { client := {} }⟩).2, []⟩
    let a := (threads.run events p₀).shared
    a.ring.getNodes.map (fun r => (a.ring.node r).index) = [0] ∧
      a.orquestrator.client.running.map Service.name = ["prometheus-50", "prometheus-0"] ∧
      (drift Swarm.live a).encard ≤ 1 := by
  intro hash register threads events p₀ a
  refine ⟨by decide +kernel, by decide +kernel, ?_⟩
  refine (drift_between_threads Swarm.docker_faulty (Settings.ring_default _)
    (fun x hx => absurd hx List.not_mem_nil) rfl (by decide +kernel) events (by decide +kernel)).trans ?_
  have hcount : ((threads.run events p₀).running.filterMap Thread.debt).length +
      (threads.history events p₀).countP failed = 1 := by decide +kernel
  exact (congrArg (fun n : Nat => (n : ℕ∞)) hcount).le

/-- At most as many indices have a node without a service or a service without a node as calls have failed, when calls
are made one after the other. -/
theorem drift_within_failures (hd : docker.Faulty live)
    (hinit : Ring.init args nodeMinLoad nodeMaxLoad AbstractDataType.empty nodeBasePorts = .ok s₀)
    {o₀ : SwarmOrquestrator δ} (hfree : ∀ x ∈ live o₀.client, ∀ i, x.name ≠ serviceName i)
    (hempty : o₀.services = Dict.empty) (hok : (exec (createFirstNode docker dump) ⟨s₀, o₀⟩).1 = .ok ())
    (ops : List Op)
    (hguard : (machine stableHash docker dump).Guarded (Regular stableHash) ops
      (exec (createFirstNode docker dump) ⟨s₀, o₀⟩).2) :
    let a₀ := (exec (createFirstNode docker dump) ⟨s₀, o₀⟩).2
    (drift live ((machine stableHash docker dump).run ops a₀)).encard ≤
      ((machine stableHash docker dump).trace ops a₀).countP fun e => failed e.2 := by
  intro a₀
  obtain ⟨h, rfl⟩ := Ring.init_eq_ok.mp hinit
  have hstart : Accounted live stableHash 0 ⟨a₀, []⟩ :=
    Accounted.start hd (Ring.Tracked.fresh args h nodeMinLoad nodeMaxLoad nodeBasePorts)
      (Ring.DistinctIndices.fresh args h nodeMinLoad nodeMaxLoad nodeBasePorts)
      (fun _ => Ring.mem_getNodes_fresh) hfree hempty hok
  obtain ⟨events, hg, hout, hrun⟩ := run_alone hstart.state.tracked hstart.state.distinct hguard
  have hend := (hstart.run hd hg).encard_le
  rw [hrun, hout, List.countP_map, Nat.zero_add] at hend
  exact hend.trans_eq (zero_add _)

/-- The sixth request to Docker, which should create the service of node 50, fails. -/
theorem drift_within_failures_default :
    let hash := tableHash [("a", 0), ("b", 100)]
    let register (id : String) : Op := .registerTarget ⟨id, id, "host", 8000⟩
    let docker := Faulting.docker Swarm.docker
    let a := (exec (createFirstNode docker fun _ => "") ⟨Settings.freshRing (BinarySearchTree Nat Ref),
      { client := ⟨{}, [.none, .none, .none, .none, .none, .before]⟩ }⟩).2
    (drift (fun f => f.daemon.live) ((machine hash docker fun _ => "").run [register "a", register "b"] a)).encard ≤
      1 := by
  intro hash register docker a
  refine (drift_within_failures (Faulting.docker_faulty Swarm.docker_faulty) (Settings.ring_default _)
    (fun x hx => absurd hx List.not_mem_nil) rfl (by decide +kernel) [register "a", register "b"]
    (by decide +kernel)).trans ?_
  have hcount : ((machine hash docker fun _ => "").trace [register "a", register "b"] a).countP
      (fun e => failed e.2) = 1 := by decide +kernel
  exact (congrArg (fun n : Nat => (n : ℕ∞)) hcount).le

end API

end PrometheusRing
