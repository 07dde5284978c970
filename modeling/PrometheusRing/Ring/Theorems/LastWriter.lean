import PrometheusRing.Ring.Lemmas.Locked
import PrometheusRing.Ring.Theorems.Concurrent

/-!
# The last writer wins

Two inserts of one key can both pass the duplicate check and both get the lock. In every interleaving, the target
found under a key is then the one stored last, and no key sits on two nodes.
-/

namespace PrometheusRing.Concurrent

open AbstractDataType Effect

variable {σ : Type} [AbstractDataType σ Ref] [Routing σ] (stableHash : String → Nat)

/-- A scale-down has a node below the one it removes, and takes nothing else out of the container. Nothing is asked
of the inserts. -/
def SafeDelete (s : Concurrent σ) : Event → Prop
  | .delete key => Ring.SafeMerge stableHash s.ring (.delete key)
  | _ => True

instance [∀ (a : σ) i, Decidable (Routing.Clean a i)] (s : Concurrent σ) : DecidablePred (SafeDelete stableHash s)
  | .check _ => inferInstanceAs (Decidable True)
  | .locked _ => inferInstanceAs (Decidable True)
  | .update _ _ => inferInstanceAs (Decidable True)
  | .delete key => inferInstanceAs (Decidable (Ring.SafeMerge stableHash s.ring (.delete key)))

variable {stableHash} {s : Concurrent σ} {e : Event}

/-- An event runs no block and ends no call but one that fails, or it runs the block of the call that it ends. -/
theorem machine_block (hs : s.ring.Sound) (hsafe : SafeDelete stableHash s e) :
    ((machine stableHash e s).2.ring = s.ring ∧ ∀ op o, (machine stableHash e s).1 = some (op, o) →
        ∃ x, o = .error x) ∨
      ∃ op o, Ring.SafeMerge stableHash s.ring op ∧ (machine stableHash e s).1 = some (op, o) ∧
        Ring.LockedStep stableHash s.ring op o (machine stableHash e s).2.ring := by
  have hstep := fun op => Ring.step_locked hs stableHash op
  cases e with
  | check c =>
      refine Or.inl ?_
      obtain ⟨n, hn, -⟩ := hs.findNode (stableHash c.storedKey)
      have hcheck := exec_insertCheck hn
      split at hcheck
      case isTrue =>
          simp only [machine, hcheck]
          exact ⟨trivial, by rintro op o ⟨⟩; exact ⟨_, rfl⟩⟩
      case isFalse =>
          simp only [machine, hcheck]
          exact ⟨trivial, by rintro op o ⟨⟩⟩
  | locked i =>
      simp only [machine]
      cases hc : s.waiting[i]? with
      | none => exact Or.inl ⟨rfl, by rintro op o ⟨⟩⟩
      | some c => exact Or.inr ⟨c.call, _, safeMerge_insert c, rfl, hstep c.call⟩
  | update key t =>
      have hsafe' : Ring.SafeMerge stableHash s.ring (.update key t) := by
        constructor
        · intro key n he; cases he
        · intro key n he; cases he
      exact Or.inr ⟨.update key t, _, hsafe', rfl, hstep (.update key t)⟩
  | delete key => exact Or.inr ⟨.delete key, _, hsafe, rfl, hstep (.delete key)⟩

theorem register_error (registry : String → Option Target) (op : Ring.Op) (x : Exn) :
    Ring.register registry (op, .error x) = registry := by cases op <;> rfl

/-- What an event does to the invariants and to what routing finds. -/
theorem machine_register (hs : Ring.Tracked stableHash s.ring) (hcap : s.ring.args.capacity ≠ 0)
    (hsafe : SafeDelete stableHash s e) :
    Ring.Tracked stableHash (machine stableHash e s).2.ring ∧
      (machine stableHash e s).2.ring.args = s.ring.args ∧
      (machine stableHash e s).2.ring.lookup stableHash =
        (((machine stableHash e s).1.map (Ring.register (s.ring.lookup stableHash))).getD
          (s.ring.lookup stableHash)) := by
  rcases machine_block hs.toSound hsafe with ⟨hring, hfail⟩ | ⟨op, o, hmerge, hout, hstep⟩
  · rw [hring]
    refine ⟨hs, rfl, ?_⟩
    cases hout : (machine stableHash e s).1 with
    | none => rfl
    | some c =>
        obtain ⟨x, hx⟩ := hfail c.1 c.2 hout
        have hc : c = (c.1, .error x) := Prod.ext rfl hx
        rw [Option.map_some, Option.getD_some, hc, register_error]
  · rw [hout]
    exact ⟨hstep.tracked hs hmerge.1, hstep.args, hstep.lookup_eq hs hcap hmerge⟩

/-- In any interleaving, whatever the duplicate checks have found, reading a key gives the target that the calls
have last stored under it, in the order in which they end, and one node at most has the key. -/
theorem last_writer_wins {args : NodeArgs} {nodeMinLoad nodeMaxLoad nodeBasePorts : Int} {r₀ : Ring σ}
    (hinit : Ring.init args nodeMinLoad nodeMaxLoad (empty : σ) nodeBasePorts = .ok r₀) (hcap : args.capacity ≠ 0)
    (events : List Event) (hsafe : (machine stableHash).Guarded (SafeDelete stableHash) events { ring := r₀ })
    (key : String) :
    let ended := (machine stableHash).history events { ring := r₀ }
    let r := ((machine stableHash).run events { ring := r₀ }).ring
    (exec (Ring.get stableHash key) r).1 = Ring.answer key (ended.foldl Ring.register (fun _ => none) key) ∧
      ∀ n ∈ r.getNodes, ∀ n' ∈ r.getNodes, (r.node n).hasKey key = true → (r.node n').hasKey key = true →
        n = n' := by
  intro ended r
  obtain ⟨h, rfl⟩ := Ring.init_eq_ok.mp hinit
  have hfresh : Ring.Tracked stableHash (Ring.fresh args h nodeMinLoad nodeMaxLoad (empty : σ) nodeBasePorts) :=
    Ring.Tracked.fresh args h nodeMinLoad nodeMaxLoad nodeBasePorts
  obtain ⟨hs, -, hlookup⟩ := hsafe.refines
    (fun (s : Concurrent σ) registry => Ring.Tracked stableHash s.ring ∧ s.ring.args = args ∧
      s.ring.lookup stableHash = registry)
    (f := fun registry e => (e.2.map (Ring.register registry)).getD registry)
    (fun s registry e hs he => by
      obtain ⟨hs, rfl, rfl⟩ := hs
      exact machine_register hs hcap he)
    ⟨hfresh, rfl, funext fun k => Ring.lookup_fresh args h nodeMinLoad nodeMaxLoad nodeBasePorts⟩
  rw [Machine.observe_history] at hlookup
  constructor
  · rw [Ring.exec_get_eq hs.toPlaced, hlookup]
  · intro n hn n' hn' hkey hkey'
    have hfind := hs.of_hasKey hn hkey
    exact Option.some.inj (hfind.symm.trans (hs.of_hasKey hn' hkey'))

/-- Both inserts of `a` pass the check. The one that gets the lock last is the one that counts. -/
theorem last_writer_wins_default :
    let call (id address : String) : InsertCall := ⟨⟨id, id, address, 8000⟩, some id, ""⟩
    let events : List Event := [.check (call "a" "host1"), .check (call "a" "host2"), .locked 1, .locked 0]
    (exec (Ring.get String.length "a") ((machine String.length).run events
      { ring := (Settings.freshRing (MockADT Ref)) }).ring).1 = .ok (some ⟨"a", "a", "host1", 8000⟩) := by
  intro call events
  have hsafe : (machine String.length).Guarded (SafeDelete String.length) events
      { ring := Settings.freshRing (MockADT Ref) } := by decide +kernel
  rw [(last_writer_wins (Settings.ring_default _) (by decide) events hsafe "a").1]
  decide +kernel

end PrometheusRing.Concurrent
