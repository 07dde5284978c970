import PrometheusRing.Api.Lemmas.Calls
import PrometheusRing.Orquestrator.Swarm
import PrometheusRing.Ring.Theorems.Tree

/-!
# When the orchestrator raises

The ring is not put back: it stays as its own call has left it, and the same request cannot be repeated.
-/

namespace PrometheusRing.API

open AbstractDataType Effect

variable {σ δ : Type} [AbstractDataType σ Ref] [Routing σ] {stableHash : String → Nat} {docker : Docker δ}
  {dump : Yaml → String} {s s' : Ring σ} {o : SwarmOrquestrator δ} {target : Target}
  {targetId : String} {r : Ref}

theorem inserted (hs : Ring.Placed stableHash s)
    (h : Ring.machine stableHash (.insert target (some target.id) "") s = (.ok (some r), s')) :
    r ∈ s'.getNodes ∧ r ∉ s.getNodes ∧ s'.lookup stableHash target.id = some target ∧
      Ring.machine stableHash (.insert target (some target.id) "") s' =
        (.error (.keyAlreadyExistsError s!"Key {target.id} already exists"), s') := by
  have hstep := Ring.step_machine hs.toSound stableHash (.insert target (some target.id) "")
  rw [h] at hstep
  have hlookup : s'.lookup stableHash target.id = some target := by
    have hclean : Ring.CleanMerge stableHash s (.insert target (some target.id) "") := by
      intro key n he; cases he
    rw [Ring.lookup_step_ok hs hclean hstep target.id]
    exact if_pos rfl
  have hs' := hs.step hstep
  have hretry := Ring.step_machine hs'.toSound stableHash (.insert target (some target.id) "")
  obtain ⟨h₁, h₂⟩ := Ring.insert_existing (by rw [Option.getD_some, hlookup]; rfl) hretry
  have hmem : r ∈ s'.getNodes ∧ r ∉ s.getNodes := by
    cases hstep with
    | Ins_Split =>
        exact ⟨(Routing.mem_list hs'.valid).mpr ⟨_, Routing.entry_insert_self _ hs.valid⟩, hs.new_notMem⟩
  exact ⟨hmem.1, hmem.2, hlookup, Prod.ext h₁ h₂⟩

theorem deleted (hs : Ring.Placed stableHash s)
    (h : Ring.machine stableHash (.delete targetId) s = (.ok (some r), s')) :
    s.lookup stableHash targetId ≠ none ∧ s'.lookup stableHash targetId = none ∧
      Ring.machine stableHash (.delete targetId) s' =
        (.error (.keyNotFoundError s!"Key {targetId} not found"), s') := by
  have hstep := Ring.step_machine hs.toSound stableHash (.delete targetId)
  rw [h] at hstep
  have hbefore : s.lookup stableHash targetId ≠ none := by
    intro hnone
    cases (Ring.delete_missing hnone hstep).1
  have hafter := Ring.lookup_delete hs hstep
  have hretry := Ring.step_machine (hs.step hstep).toSound stableHash (.delete targetId)
  obtain ⟨h₁, h₂⟩ := Ring.delete_missing hafter hretry
  exact ⟨hbefore, hafter, Prod.ext h₁ h₂⟩

/-- When the orchestrator raises for the node that the ring returned, the call raises the same, the ring stays
as its own call has left it, and a second request changes nothing. -/
theorem failed_orchestration_stays {args : NodeArgs} {nodeMinLoad nodeMaxLoad nodeBasePorts : Int}
    {s₀ : Ring σ}
    (hinit : Ring.init args nodeMinLoad nodeMaxLoad empty nodeBasePorts = .ok s₀) (ops : List Ring.Op)
    (o : SwarmOrquestrator δ) :
    let s := (Ring.machine stableHash).run ops s₀
    (∀ target newNode s' e,
      Ring.machine stableHash (.insert target (some target.id) "") s = (.ok (some newNode), s') →
      (exec (SwarmOrquestrator.createNode docker dump (s'.node newNode)) o).1 = .error e →
      let a := machine stableHash docker dump (.registerTarget target) ⟨s, o⟩
      a.1 = .error e ∧ a.2.ring = s' ∧ newNode ∈ s'.getNodes ∧ newNode ∉ s.getNodes ∧
        (exec (Ring.get stableHash target.id) s').1 = .ok (some target) ∧
        machine stableHash docker dump (.registerTarget target) a.2 =
          (.error (.keyAlreadyExistsError s!"Key {target.id} already exists"), a.2)) ∧
    ∀ targetId oldNode s' e, Ring.machine stableHash (.delete targetId) s = (.ok (some oldNode), s') →
      (exec (SwarmOrquestrator.deleteNode docker (s'.node oldNode)) o).1 = .error e →
      let a := machine stableHash docker dump (.unregisterTarget targetId) ⟨s, o⟩
      a.1 = .error e ∧ a.2.ring = s' ∧ (∃ t, (exec (Ring.get stableHash targetId) s).1 = .ok (some t)) ∧
        (exec (Ring.get stableHash targetId) s').1 = .error (.keyNotFoundError s!"Key {targetId} not found") ∧
        machine stableHash docker dump (.unregisterTarget targetId) a.2 = (.ok (), a.2) := by
  intro s
  have hs : Ring.Placed stableHash s := Ring.run_placed hinit ops
  constructor
  · intro target newNode s' e hring hraise a
    obtain ⟨hnew, hold, hlookup, hretry⟩ := inserted hs hring
    have ha : a =
        (.error e, ⟨s', (exec (SwarmOrquestrator.createNode docker dump (s'.node newNode)) o).2⟩) := by
      rw [← hraise]
      exact exec_call hs (.registerTarget target) hring
    have hs' : Ring.Placed stableHash s' := by
      have hmachine := hs.machine (.insert target (some target.id) "")
      rwa [hring] at hmachine
    rw [ha]
    refine ⟨rfl, rfl, hnew, hold, ?_, exec_call hs' (.registerTarget target) hretry⟩
    rw [Ring.exec_get_eq hs', hlookup]
    rfl
  · intro targetId oldNode s' e hring hraise a
    obtain ⟨hbefore, hafter, hretry⟩ := deleted hs hring
    have ha : a =
        (.error e, ⟨s', (exec (SwarmOrquestrator.deleteNode docker (s'.node oldNode)) o).2⟩) := by
      rw [← hraise]
      exact exec_call hs (.unregisterTarget targetId) hring
    have hs' : Ring.Placed stableHash s' := by
      have hmachine := hs.machine (.delete targetId)
      rwa [hring] at hmachine
    rw [ha]
    refine ⟨rfl, rfl, ?_, ?_, exec_call hs' (.unregisterTarget targetId) hretry⟩
    · obtain ⟨t, ht⟩ := Option.ne_none_iff_exists'.mp hbefore
      rw [Ring.exec_get_eq hs, ht]
      exact ⟨t, rfl⟩
    · rw [Ring.exec_get_eq hs', hafter]
      rfl

/-- A daemon that raises on every call. -/
def downDocker : Docker Unit where
  create _ := throw (.apiError "500 Server Error")
  get _ := throw (.apiError "500 Server Error")
  scale _ _ := throw (.apiError "500 Server Error")
  remove _ := throw (.apiError "500 Server Error")

theorem failed_orchestration_stays_default :
    let hash := tableHash [("a", 0), ("b", 100)]
    let a : Target := ⟨"a", "a", "host", 8000⟩
    let b : Target := ⟨"b", "b", "host", 8000⟩
    let s₁ := (Ring.machine hash).run [.insert a (some "a") ""] (Settings.freshRing (BinarySearchTree Nat Ref))
    let s₂ := (Ring.machine hash).run [.insert a (some "a") "", .insert b (some "b") ""]
      (Settings.freshRing (BinarySearchTree Nat Ref))
    let o : SwarmOrquestrator Unit :=
      { client := (), services := Dict.empty.set 50 ⟨"service-50", "prometheus-50"⟩ }
    let a₁ := machine hash downDocker (fun _ => "") (.registerTarget b) ⟨s₁, o⟩
    let a₂ := machine hash downDocker (fun _ => "") (.unregisterTarget "b") ⟨s₂, o⟩
    machine hash downDocker (fun _ => "") (.registerTarget b) a₁.2 =
        (.error (.keyAlreadyExistsError "Key b already exists"), a₁.2) ∧
      machine hash downDocker (fun _ => "") (.unregisterTarget "b") a₂.2 = (.ok (), a₂.2) := by
  refine ⟨?_, ?_⟩
  · exact ((failed_orchestration_stays (Settings.ring_default _)
      [.insert ⟨"a", "a", "host", 8000⟩ (some "a") ""] _).1 ⟨"b", "b", "host", 8000⟩ 1 _
      (.docker (.apiError "500 Server Error")) (Prod.ext (by decide +kernel) rfl) (by decide +kernel)).2.2.2.2.2
  · exact ((failed_orchestration_stays (Settings.ring_default _)
      [.insert ⟨"a", "a", "host", 8000⟩ (some "a") "", .insert ⟨"b", "b", "host", 8000⟩ (some "b") ""] _).2 "b" 1
      _ (.docker (.apiError "500 Server Error")) (Prod.ext (by decide +kernel) rfl) (by decide +kernel)).2.2.2.2

/-- The node that a failed call has added stays in the ring, and the one that it has removed stays away. -/
theorem failed_orchestration_changes_ring :
    let hash := tableHash [("a", 0), ("b", 100)]
    let target (id : String) : Target := ⟨id, id, "host", 8000⟩
    let insert (id : String) : Ring.Op := .insert (target id) (some id) ""
    let run (ops : List Ring.Op) := (Ring.machine hash).run ops (Settings.freshRing (BinarySearchTree Nat Ref))
    let services : Dict Nat Service := Dict.empty.set 50 ⟨"service-50", "prometheus-50"⟩
    let s₁ := run [insert "a"]
    let a₁ := machine hash downDocker (fun _ => "") (.registerTarget (target "b")) ⟨s₁, { client := () }⟩
    let s₂ := run [insert "a", insert "b"]
    let a₂ := machine hash downDocker (fun _ => "") (.unregisterTarget "b") ⟨s₂, { client := (), services }⟩
    (a₁.1 = .error (.docker (.apiError "500 Server Error")) ∧ s₁.getNodes = [0] ∧
        a₁.2.ring.getNodes = [0, 1]) ∧
      a₂.1 = .error (.docker (.apiError "500 Server Error")) ∧ s₂.getNodes = [0, 1] ∧
        a₂.2.ring.getNodes = [0] := by
  decide +kernel

end PrometheusRing.API
