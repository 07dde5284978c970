import PrometheusRing.Adt.Lemmas.MapRouting
import PrometheusRing.Adt.Lemmas.TreeRouting
import PrometheusRing.Adt.MockADT
import PrometheusRing.Ring.Concurrent
import PrometheusRing.Ring.Lemmas.Indices
import PrometheusRing.Settings

/-!
# Registrations from several threads

As long as an insert that gets the lock finds its key free, calls from several threads do what they would do one
after the other, in the order in which they end. Two inserts of one key that have both passed their duplicate
check do not: the second overwrites the first.
-/

namespace PrometheusRing

open AbstractDataType Effect

namespace Ring

variable {σ : Type} [AbstractDataType σ Ref] (stableHash : String → Nat)

/-! ## Calls that have ended -/

/-- An insert that returned has stored the target under the key. -/
def Inserted (key : String) (target : Target) : Op × Outcome → Prop
  | (.insert t k uuid4, .ok _) => k.getD uuid4 = key ∧ t = target
  | _ => False

/-- An update of the key that returned. -/
def Updated (key : String) : Op × Outcome → Prop
  | (.update k _, .ok _) => k = key
  | _ => False

/-- A delete of the key that returned. -/
def Deleted (key : String) : Op × Outcome → Prop
  | (.delete k, .ok _) => k = key
  | _ => False

/-- Between two inserts of a key that return, a delete of the key returns. -/
def OneInsert (ended : List (Op × Outcome)) : Prop :=
  ∀ key t t' pre mid post a b, ended = pre ++ a :: (mid ++ b :: post) → Inserted key t a → Inserted key t' b →
    ∃ d ∈ mid, Deleted key d

/-- The target of an insert that returned is still found, unless an update or a delete of its key has returned
since. -/
def Kept (ended : List (Op × Outcome)) (s : Ring σ) : Prop :=
  ∀ key t pre post a, ended = pre ++ a :: post → Inserted key t a →
    (∀ e ∈ post, ¬ Updated key e ∧ ¬ Deleted key e) → (exec (Ring.get stableHash key) s).1 = .ok (some t)

variable {stableHash} [Routing σ] {s s' : Ring σ} {key : String} {t : Target} {op : Op} {o : Outcome}

/-! ## One call at a time -/

theorem inserted_step (hs : Placed stableHash s) (h : Step stableHash s op o s') (hi : Inserted key t (op, o)) :
    s.lookup stableHash key = none ∧ s'.lookup stableHash key = some t ∧ s.args.capacity ≠ 0 := by
  match op, o, hi with
  | .insert t' k u, .ok x, hi =>
      obtain ⟨rfl, rfl⟩ := hi
      have hclean : CleanMerge stableHash s (.insert t' k u) := fun _ _ he => Op.noConfusion he
      refine ⟨?_, (lookup_step_ok hs hclean h _).trans (if_pos rfl), ?_⟩
      · rw [← Option.not_isSome_iff_eq_none]
        intro hsome
        obtain ⟨he, -⟩ := insert_existing hsome h
        cases he
      · have hshared : ∀ {n x}, s.findNode x = some n → (s.node n).capacity = s.args.capacity := fun hn =>
          congrArg NodeArgs.capacity (hs.shared _ (Routing.owner_mem hs.valid hn))
        cases h with
        | Ins_Stored _ hn _ hl =>
            rw [← hshared hn]
            exact fun hz => Node.capacity_ne_of_load hl hz
        | Ins_Split _ hup =>
            obtain ⟨hn, -, l, hl, -⟩ := scaledUp_eq_some.mp hup
            rw [← hshared hn]
            exact fun hz => Node.capacity_ne_of_load hl hz

theorem registered_step (hs : Tracked stableHash s) (hcap : s.args.capacity ≠ 0)
    (hsafe : SafeMerge stableHash s op) (h : Step stableHash s op o s')
    (hreg : (s.lookup stableHash key).isSome) (hd : ¬ Deleted key (op, o)) :
    (s'.lookup stableHash key).isSome := by
  rw [lookup_step hs hcap hsafe h]
  cases o with
  | error e => cases op <;> exact hreg
  | ok x =>
      cases op with
      | insert t k u =>
          simp only [register, Function.update_apply]
          split
          case isTrue => rfl
          case isFalse => exact hreg
      | update k t =>
          simp only [register, Function.update_apply]
          split
          case isTrue => rfl
          case isFalse => exact hreg
      | delete k =>
          have hk : key ≠ k := fun he => hd he.symm
          simp only [register, Function.update_apply, if_neg hk]
          exact hreg

theorem kept_step (hs : Tracked stableHash s) (hcap : s.args.capacity ≠ 0)
    (hsafe : SafeMerge stableHash s op) (h : Step stableHash s op o s')
    (ht : s.lookup stableHash key = some t) (hu : ¬ Updated key (op, o)) (hd : ¬ Deleted key (op, o)) :
    s'.lookup stableHash key = some t := by
  rw [lookup_step hs hcap hsafe h]
  cases o with
  | error e => cases op <;> exact ht
  | ok x =>
      cases op with
      | insert t' k u =>
          have hk : key ≠ k.getD u := by
            rintro rfl
            obtain ⟨he, -⟩ := insert_existing (Option.isSome_of_eq_some ht) h
            cases he
          simp only [register, Function.update_apply, if_neg hk]
          exact ht
      | update k t' =>
          have hk : key ≠ k := fun he => hu he.symm
          simp only [register, Function.update_apply, if_neg hk]
          exact ht
      | delete k =>
          have hk : key ≠ k := fun he => hd he.symm
          simp only [register, Function.update_apply, if_neg hk]
          exact ht

theorem registered_run (hs : Tracked stableHash s) (hcap : s.args.capacity ≠ 0) {ops : List Op}
    (hsafe : (machine stableHash).Guarded (SafeMerge stableHash) ops s)
    (hreg : (s.lookup stableHash key).isSome) (hd : ∀ e ∈ (machine stableHash).trace ops s, ¬ Deleted key e) :
    (((machine stableHash).run ops s).lookup stableHash key).isSome := by
  refine (hsafe.until (fun s => Tracked stableHash s ∧ s.args.capacity ≠ 0 ∧ (s.lookup stableHash key).isSome)
    ?_ ⟨hs, hcap, hreg⟩ hd).2.2
  intro s op ⟨hs, hcap, hreg⟩ hop hd
  have hstep := step_machine hs.toSound stableHash op
  exact ⟨hs.step hop.1 hstep, (args_step hstep).symm ▸ hcap, registered_step hs hcap hop hstep hreg hd⟩

theorem kept_run (hs : Tracked stableHash s) (hcap : s.args.capacity ≠ 0) {ops : List Op}
    (hsafe : (machine stableHash).Guarded (SafeMerge stableHash) ops s)
    (ht : s.lookup stableHash key = some t)
    (hkeep : ∀ e ∈ (machine stableHash).trace ops s, ¬ (Updated key e ∨ Deleted key e)) :
    ((machine stableHash).run ops s).lookup stableHash key = some t := by
  refine (hsafe.until (fun s => Tracked stableHash s ∧ s.args.capacity ≠ 0 ∧ s.lookup stableHash key = some t)
    ?_ ⟨hs, hcap, ht⟩ hkeep).2.2
  intro s op ⟨hs, hcap, ht⟩ hop hkeep
  have hstep := step_machine hs.toSound stableHash op
  obtain ⟨hu, hd⟩ := not_or.mp hkeep
  exact ⟨hs.step hop.1 hstep, (args_step hstep).symm ▸ hcap, kept_step hs hcap hop hstep ht hu hd⟩

/-- Where a run of calls, one after the other, has stored a target. -/
theorem inserted_run (hs : Tracked stableHash s) {ops : List Op} {pre post : List (Op × Outcome)}
    {a : Op × Outcome} (hsafe : (machine stableHash).Guarded (SafeMerge stableHash) ops s)
    (htrace : (machine stableHash).trace ops s = pre ++ a :: post) (ha : Inserted key t a) :
    ∃ s₁ ops₁, Tracked stableHash s₁ ∧ s₁.args.capacity ≠ 0 ∧ s₁.lookup stableHash key = some t ∧
      (machine stableHash).Guarded (SafeMerge stableHash) ops₁ s₁ ∧ (machine stableHash).trace ops₁ s₁ = post ∧
      (machine stableHash).run ops s = (machine stableHash).run ops₁ s₁ := by
  obtain ⟨ops₀, ops₁, hg₀, -, hop, hout, hg₁, ht₁, hrun⟩ := hsafe.cut htrace
  have hs₀ := hg₀.invariant (Tracked stableHash) (fun s op hs hop => hs.machine hop.1) hs
  have hstep := step_machine hs₀.toSound stableHash a.1
  rw [← hout] at hstep
  obtain ⟨-, hstored, hcap⟩ := inserted_step hs₀.toPlaced hstep ha
  exact ⟨_, ops₁, hs₀.step hop.1 hstep, (args_step hstep).symm ▸ hcap, hstored, hg₁, ht₁, hrun⟩

theorem oneInsert_run (hs : Tracked stableHash s) {ops : List Op}
    (hsafe : (machine stableHash).Guarded (SafeMerge stableHash) ops s) :
    OneInsert ((machine stableHash).trace ops s) := by
  intro key t t' pre mid post a b htrace ha hb
  obtain ⟨s₁, ops₁, hs₁, hcap, hstored, hg₁, ht₁, -⟩ := inserted_run hs hsafe htrace ha
  obtain ⟨ops₂, ops₃, hg₂, ht₂, -, hout, -⟩ := hg₁.cut ht₁
  by_contra hnone
  -- the key stays registered, so the second insert cannot have returned
  have hs₂ := hg₂.invariant (Tracked stableHash) (fun s op hs hop => hs.machine hop.1) hs₁
  have hreg := registered_run hs₁ hcap hg₂ (Option.isSome_of_eq_some hstored) fun e he hd =>
    hnone ⟨e, ht₂ ▸ he, hd⟩
  have hstep := step_machine hs₂.toSound stableHash b.1
  rw [← hout] at hstep
  rw [(inserted_step hs₂.toPlaced hstep hb).1] at hreg
  cases hreg

theorem kept_of_run (hs : Tracked stableHash s) {ops : List Op}
    (hsafe : (machine stableHash).Guarded (SafeMerge stableHash) ops s) :
    Kept stableHash ((machine stableHash).trace ops s) ((machine stableHash).run ops s) := by
  intro key t pre post a htrace ha hkeep
  obtain ⟨s₁, ops₁, hs₁, hcap, hstored, hg₁, ht₁, hrun⟩ := inserted_run hs hsafe htrace ha
  have hend := hg₁.invariant (Tracked stableHash) (fun s op hs hop => hs.machine hop.1) hs₁
  have hfound := kept_run hs₁ hcap hg₁ hstored fun e he => not_or.mpr (hkeep e (ht₁ ▸ he))
  rw [hrun, exec_get_eq hend.toPlaced, hfound]
  rfl

end Ring

namespace Concurrent

variable {σ : Type} [AbstractDataType σ Ref] (stableHash : String → Nat) [Routing σ]

/-- An insert that gets the lock finds its key free, and a scale-down has a node below the one it removes and
takes nothing else out of the container. -/
def SafeStep (s : Concurrent σ) : Event → Prop
  | .locked i => ∀ c ∈ s.waiting[i]?, s.ring.lookup stableHash c.storedKey = none
  | .delete key => Ring.SafeMerge stableHash s.ring (.delete key)
  | _ => True

variable {stableHash} {s : Concurrent σ}

theorem safeMerge_insert (c : InsertCall) : Ring.SafeMerge stableHash s.ring c.call := by
  constructor
  · intro key n he; cases he
  · intro key n he; cases he

omit [Routing σ] in
theorem exec_insertCheck {r : Ring σ} {n : Ref} {key : String} (hn : r.findNode (stableHash key) = some n) :
    exec (Ring.insertCheck stableHash key) r =
      (if (r.lookup stableHash key).isSome then .error (.keyAlreadyExistsError s!"Key {key} already exists")
        else .ok (), r) := by
  simp only [Ring.insertCheck, exec_bind, exec_get, hn, notNone, exec_ofExcept, ← Ring.hasKey_of_lookup hn]
  cases (r.node n).hasKey key <;> rfl

omit [Routing σ] in
theorem exec_insert (c : InsertCall) (r : Ring σ) :
    exec (Ring.call stableHash c.call) r =
      match exec (Ring.insertCheck stableHash c.storedKey) r with
      | (.ok _, r') => exec (Ring.insertLocked stableHash c.target c.storedKey) r'
      | (.error e, r') => (.error e, r') := by
  change exec (Ring.insertCheck stableHash c.storedKey >>= fun _ =>
    Ring.insertLocked stableHash c.target c.storedKey) r = _
  rw [exec_bind]
  rcases exec (Ring.insertCheck stableHash c.storedKey) r with ⟨_ | _, _⟩ <;> rfl

/-- An event ends no call and leaves the ring, or does what one call does. -/
theorem machine_cases (hs : s.ring.Sound) {e : Event} (hsafe : SafeStep stableHash s e) :
    (machine stableHash e s).1 = none ∧ (machine stableHash e s).2.ring = s.ring ∨
      ∃ op, Ring.SafeMerge stableHash s.ring op ∧
        (machine stableHash e s).1 = some (op, (Ring.machine stableHash op s.ring).1) ∧
        (machine stableHash e s).2.ring = (Ring.machine stableHash op s.ring).2 := by
  cases e with
  | check c =>
      obtain ⟨n, hn, -⟩ := hs.findNode (stableHash c.storedKey)
      have hcheck := exec_insertCheck hn
      cases hkey : s.ring.lookup stableHash c.storedKey with
      | none =>
          rw [hkey] at hcheck
          simp only [machine, hcheck]
          exact Or.inl ⟨rfl, rfl⟩
      | some t =>
          rw [hkey] at hcheck
          refine Or.inr ⟨c.call, safeMerge_insert c, ?_⟩
          simp only [machine, Ring.machine, exec_insert, hcheck]
          exact ⟨rfl, rfl⟩
  | locked i =>
      simp only [machine]
      cases hc : s.waiting[i]? with
      | none => exact Or.inl ⟨rfl, rfl⟩
      | some c =>
          obtain ⟨n, hn, -⟩ := hs.findNode (stableHash c.storedKey)
          have hcheck := exec_insertCheck hn
          rw [hsafe c hc] at hcheck
          refine Or.inr ⟨c.call, safeMerge_insert c, ?_⟩
          simp only [Ring.machine, exec_insert, hcheck]
          exact ⟨rfl, rfl⟩
  | update key t =>
      refine Or.inr ⟨.update key t, ⟨?_, ?_⟩, rfl, rfl⟩
      · intro key n he; cases he
      · intro key n he; cases he
  | delete key => exact Or.inr ⟨.delete key, hsafe, rfl, rfl⟩

theorem tracked_machine (hs : Ring.Tracked stableHash s.ring) {e : Event} (hsafe : SafeStep stableHash s e) :
    Ring.Tracked stableHash (machine stableHash e s).2.ring := by
  rcases machine_cases hs.toSound hsafe with ⟨-, hring⟩ | ⟨op, hop, -, hring⟩
  · rwa [hring]
  · rw [hring]
    exact hs.machine hop.1

/-- The calls have the outcomes they have when they are made one after the other, in the order in which they
end, and they leave the same ring. -/
theorem linearized (hs : Ring.Tracked stableHash s.ring) {events : List Event}
    (hsafe : (machine stableHash).Guarded (SafeStep stableHash) events s) :
    ∃ ops, (Ring.machine stableHash).Guarded (Ring.SafeMerge stableHash) ops s.ring ∧
      (Ring.machine stableHash).trace ops s.ring = (machine stableHash).history events s ∧
      (Ring.machine stableHash).run ops s.ring = ((machine stableHash).run events s).ring :=
  hsafe.follows Concurrent.ring (fun s => Ring.Tracked stableHash s.ring)
    (fun _ _ hs hsafe => tracked_machine hs hsafe) (fun _ _ hs hsafe => machine_cases hs.toSound hsafe) hs

/-- In any interleaving in which an insert that gets the lock finds its key free, a key is inserted once between
two deletes, and its target is found until it is updated or deleted. -/
theorem registrations_exclusive {args : NodeArgs} {nodeMinLoad nodeMaxLoad nodeBasePorts : Int} {r₀ : Ring σ}
    (hinit : Ring.init args nodeMinLoad nodeMaxLoad (empty : σ) nodeBasePorts = .ok r₀) (events : List Event)
    (hsafe : (machine stableHash).Guarded (SafeStep stableHash) events { ring := r₀ }) :
    let ended := (machine stableHash).history events { ring := r₀ }
    Ring.OneInsert ended ∧ Ring.Kept stableHash ended ((machine stableHash).run events { ring := r₀ }).ring := by
  obtain ⟨h, rfl⟩ := Ring.init_eq_ok.mp hinit
  have hs : Ring.Tracked stableHash (Ring.fresh args h nodeMinLoad nodeMaxLoad (empty : σ) nodeBasePorts) :=
    Ring.Tracked.fresh args h nodeMinLoad nodeMaxLoad nodeBasePorts
  obtain ⟨ops, hg, htrace, hrun⟩ := linearized hs hsafe
  dsimp only
  rw [← htrace, ← hrun]
  exact ⟨Ring.oneInsert_run hs hg, Ring.kept_of_run hs hg⟩

instance [∀ (a : σ) i, Decidable (Routing.Clean a i)] : DecidablePred (SafeStep stableHash s)
  | .check _ => inferInstanceAs (Decidable True)
  | .locked _ => inferInstanceAs (Decidable (∀ c ∈ _, _))
  | .update _ _ => inferInstanceAs (Decidable True)
  | .delete key => inferInstanceAs (Decidable (Ring.SafeMerge stableHash s.ring (.delete key)))

instance (a : MockADT Ref) (i : Nat) : Decidable (Routing.Clean a i) := inferInstanceAs (Decidable True)

/-- Two inserts and a delete that overlap: the target that was inserted first is found. -/
theorem registrations_exclusive_default :
    let a : InsertCall := ⟨⟨"a", "a", "host", 8000⟩, some "a", ""⟩
    let b : InsertCall := ⟨⟨"b", "b", "host", 8000⟩, some "b", ""⟩
    let events := [Event.check a, .check b, .locked 1, .check a, .locked 0, .delete "b"]
    let s₀ : Concurrent (MockADT Ref) := { ring := Settings.freshRing _ }
    let ended := (machine String.length).history events s₀
    Ring.OneInsert ended ∧ Ring.Kept String.length ended ((machine String.length).run events s₀).ring :=
  registrations_exclusive (Settings.ring_default _) _ (by decide +kernel)

deriving instance DecidableEq for Ring.Op

/-- Two inserts of one key that have both made their duplicate check: both return, and the second target
replaces the first. -/
theorem second_insert_overwrites :
    let first : InsertCall := ⟨⟨"a", "first", "host", 8000⟩, some "a", ""⟩
    let second : InsertCall := ⟨⟨"a", "second", "host", 8000⟩, some "a", ""⟩
    let events := [Event.check first, .check second, .locked 0, .locked 0]
    let s₀ : Concurrent (BinarySearchTree Nat Ref) := { ring := Settings.freshRing _ }
    let ended := (machine String.length).history events s₀
    ¬ Ring.OneInsert ended ∧ ¬ Ring.Kept String.length ended ((machine String.length).run events s₀).ring := by
  intro first second events s₀ ended
  have hended : ended = [(first.call, .ok none), (second.call, .ok none)] := by decide +kernel
  rw [hended]
  constructor
  · intro h
    obtain ⟨d, hd, -⟩ := h "a" first.target second.target [] [] [] _ _ rfl ⟨rfl, rfl⟩ ⟨rfl, rfl⟩
    cases hd
  · intro h
    have hkeep : ∀ e ∈ [(second.call, Except.ok none)], ¬ Ring.Updated "a" e ∧ ¬ Ring.Deleted "a" e := by
      intro e he
      rw [List.mem_singleton.mp he]
      exact ⟨id, id⟩
    have hfirst := h "a" first.target [] _ _ rfl ⟨rfl, rfl⟩ hkeep
    have hsecond : (exec (Ring.get String.length "a") ((machine String.length).run events s₀).ring).1 =
        .ok (some second.target) := by decide +kernel
    rw [hsecond] at hfirst
    exact absurd hfirst (by decide)

end Concurrent

end PrometheusRing
