import PrometheusRing.Adt.Lemmas.TreeRouting
import PrometheusRing.Ring.Lemmas.Between
import PrometheusRing.Settings

/-!
# Readers that do not take the lock

Whatever writes of other threads go between its reads, `get` returns no target that was not there before the block
in progress and is not there after it. A key that no block moves is found; one that a split is moving may be
missed.
-/

namespace PrometheusRing.Ring

open AbstractDataType Effect

variable {σ : Type} [AbstractDataType σ Ref] [Routing σ] (stableHash : String → Nat)

namespace Shared

/-- A scale-down takes nothing out of the container but the node it merges. -/
def CleanTake (u : Shared σ) : Event → Prop
  | .take (.delete key) => u.pending = [] →
      ∀ n ∈ u.ring.scaledDown stableHash key, Routing.Clean u.ring.ring (u.ring.node n).index
  | _ => True

instance [∀ (a : σ) i, Decidable (Routing.Clean a i)] (u : Shared σ) : DecidablePred (CleanTake stableHash u)
  | .take (.insert _ _ _) => inferInstanceAs (Decidable True)
  | .take (.update _ _) => inferInstanceAs (Decidable True)
  | .take (.delete _) => inferInstanceAs (Decidable (_ = [] → ∀ n ∈ _, _))
  | .write => inferInstanceAs (Decidable True)

/-- The blocks so far have kept the invariants, and so does every state that the block in progress goes through. -/
structure Consistent (u : Shared σ) : Prop where
  placed_before : Placed stableHash u.before
  swept_before : Swept stableHash u.before
  placed_after : Placed stableHash u.after
  swept_after : Swept stableHash u.after
  always : writer.Always (Between stableHash u.before u.after) u.pending u.ring

variable {stableHash} {u : Shared σ} {op : Op}

theorem CleanTake.cleanMerge (h : CleanTake stableHash u (.take op)) (hp : u.pending = []) :
    CleanMerge stableHash u.ring op := by
  rintro key n rfl hn
  exact h hp n hn

namespace Consistent

theorem fresh (args : NodeArgs) (argsOk : args.check = .ok ()) (nodeMinLoad nodeMaxLoad nodeBasePorts : Int) :
    Consistent stableHash
      { ring := Ring.fresh args argsOk nodeMinLoad nodeMaxLoad (empty : σ) nodeBasePorts } := by
  generalize hr : Ring.fresh args argsOk nodeMinLoad nodeMaxLoad (empty : σ) nodeBasePorts = r
  have hp : Placed stableHash r := hr ▸ Placed.fresh args argsOk nodeMinLoad nodeMaxLoad nodeBasePorts
  have hs : Swept stableHash r := hr ▸ Swept.fresh args argsOk nodeMinLoad nodeMaxLoad nodeBasePorts empty
  exact ⟨hp, hs, hp, hs, Between.left hs _⟩

theorem between (h : Consistent stableHash u) : Between stableHash u.before u.after u.ring := h.always.head

theorem taken (h : Consistent stableHash u) (hidle : u.pending = []) (hc : CleanMerge stableHash u.ring op) :
    Consistent stableHash { u with pending := writes stableHash u.ring op, before := u.ring } := by
  have hafter : u.after = u.ring := by rw [after, hidle, writeAll_nil]
  have hp : Placed stableHash u.ring := hafter ▸ h.placed_after
  have hs : Swept stableHash u.ring := hafter ▸ h.swept_after
  have hstep := step_locked hp.toSound stableHash op
  have hdone : writeAll u.ring (writes stableHash u.ring op) = _ := writeAll_writes hp.toSound op
  refine ⟨hp, hs, ?_, ?_, ?_⟩
  · rw [after, hdone]; exact hstep.placed hp
  · rw [after, hdone]; exact hs.step hp hc hstep
  · rw [after, hdone]; exact always_writes hs hp hc

theorem written {w : Write} {ws : List Write} (h : Consistent stableHash u) (hnext : u.pending = w :: ws) :
    Consistent stableHash { u with ring := w.apply u.ring, pending := ws } := by
  have hafter : Shared.after { u with ring := w.apply u.ring, pending := ws } = u.after := by
    rw [after, after, hnext, writeAll_cons]
  have halways := h.always
  rw [hnext] at halways
  refine ⟨h.placed_before, h.swept_before, ?_, ?_, ?_⟩
  · rw [hafter]; exact h.placed_after
  · rw [hafter]; exact h.swept_after
  · rw [hafter]; exact halways.2

theorem released (h : Consistent stableHash u) : Consistent stableHash { ring := u.after } where
  placed_before := h.placed_after
  swept_before := h.swept_after
  placed_after := h.placed_after
  swept_after := h.swept_after
  always := Between.left h.swept_after _

theorem machine (h : Consistent stableHash u) {e : Event} (he : CleanTake stableHash u e) :
    Consistent stableHash (machine stableHash e u).2 := by
  cases e with
  | take op =>
      simp only [Shared.machine]
      cases hp : u.pending with
      | nil => exact h.taken hp (he.cleanMerge hp)
      | cons w ws => exact h
  | write =>
      simp only [Shared.machine]
      cases hp : u.pending with
      | nil => exact h
      | cons w ws =>
          have hnext := h.written hp
          cases ws with
          | nil => exact hnext.released
          | cons w' ws => exact hnext

theorem run {es : List Event} (h : Consistent stableHash u)
    (hguard : (Shared.machine stableHash).Guarded (CleanTake stableHash) es u) :
    Consistent stableHash ((Shared.machine stableHash).run es u) :=
  hguard.invariant (Consistent stableHash) (fun _ _ h he => h.machine he) h

end Consistent

theorem findNode_getTargetNode {s : Ring σ} {r : Ref} {key : String} (hs : Placed stableHash s)
    (h : (exec (getTargetNode stableHash key) s).1 = .ok r) :
    s.findNode (stableHash key) = some r ∧ (s.lookup stableHash key).isSome := by
  obtain ⟨n, hn, -⟩ := hs.findNode (stableHash key)
  rw [exec_getTargetNode hn] at h
  split at h
  case isFalse => cases h
  case isTrue hkey =>
      obtain rfl := Except.ok.inj h
      exact ⟨hn, (hasKey_of_lookup hn).symm.trans hkey⟩

/-- A key that the block in progress neither moves nor removes has its node throughout. -/
theorem Consistent.still {r : Ref} {key : String} (h : Consistent stableHash u)
    (hbefore : (exec (getTargetNode stableHash key) u.before).1 = .ok r)
    (hafter : (exec (getTargetNode stableHash key) u.after).1 = .ok r) :
    u.ring.findNode (stableHash key) = some r ∧ ∃ t, (u.ring.node r).get key = some t := by
  obtain ⟨hfind, hsome⟩ := findNode_getTargetNode h.placed_before hbefore
  obtain ⟨hfind', hsome'⟩ := findNode_getTargetNode h.placed_after hafter
  constructor
  · rcases h.between.route (stableHash key) with hr | hr
    · exact hr.trans hfind
    · exact hr.trans hfind'
  · rcases h.between.still hfind hfind' with hg | hg
    · rw [hg]; exact Option.isSome_iff_exists.mp hsome
    · rw [hg]; exact Option.isSome_iff_exists.mp hsome'

end Shared

variable {stableHash} {args : NodeArgs} {nodeMinLoad nodeMaxLoad nodeBasePorts : Int} {s₀ : Ring σ}

theorem Shared.consistent_reads
    (hinit : Ring.init args nodeMinLoad nodeMaxLoad (empty : σ) nodeBasePorts = .ok s₀)
    (es₁ es₂ es₃ es₄ : List Shared.Event)
    (hguard : (Shared.machine stableHash).Guarded (Shared.CleanTake stableHash) (es₁ ++ es₂ ++ es₃ ++ es₄)
      { ring := s₀ }) :
    let run := (Shared.machine stableHash).run
    let u₁ := run es₁ { ring := s₀ }
    ∀ u ∈ [u₁, run es₂ u₁, run es₃ (run es₂ u₁), run es₄ (run es₃ (run es₂ u₁))],
      Shared.Consistent stableHash u := by
  intro run u₁
  obtain ⟨h, rfl⟩ := init_eq_ok.mp hinit
  simp only [Machine.Guarded.append_iff, Machine.run_append] at hguard
  obtain ⟨⟨⟨hg₁, hg₂⟩, hg₃⟩, hg₄⟩ := hguard
  have h₁ := (Shared.Consistent.fresh args h nodeMinLoad nodeMaxLoad nodeBasePorts).run hg₁
  have h₂ := h₁.run hg₂
  have h₃ := h₂.run hg₃
  intro u hu
  simp only [List.mem_cons, List.not_mem_nil, or_false] at hu
  rcases hu with rfl | rfl | rfl | rfl
  · exact h₁
  · exact h₂
  · exact h₃
  · exact h₃.run hg₄

/-- A target that `get` returns, with any writes of other threads before and between its reads, is the one that
a `get` alone would return before the block in progress at its last read, or after that block. -/
theorem unlocked_get_fresh
    (hinit : Ring.init args nodeMinLoad nodeMaxLoad (empty : σ) nodeBasePorts = .ok s₀)
    (es₁ es₂ es₃ es₄ : List Shared.Event) (key : String)
    (hguard : (Shared.machine stableHash).Guarded (Shared.CleanTake stableHash) (es₁ ++ es₂ ++ es₃ ++ es₄)
      { ring := s₀ }) :
    let run := (Shared.machine stableHash).run
    let u₁ := run es₁ { ring := s₀ }
    let u₂ := run es₂ u₁
    let u₃ := run es₃ u₂
    let u₄ := run es₄ u₃
    let answer := unlockedGet stableHash key u₁.ring u₂.ring u₃.ring u₄.ring
    answer ≠ .attributeError ∧ ∀ t, answer = .target t →
      (exec (Ring.get stableHash key) u₄.before).1 = .ok (some t) ∨
        (exec (Ring.get stableHash key) u₄.after).1 = .ok (some t) := by
  intro run u₁ u₂ u₃ u₄ answer
  have hall := Shared.consistent_reads hinit es₁ es₂ es₃ es₄ hguard
  have h₁ : Shared.Consistent stableHash u₁ := hall u₁ (by simp [u₁, run])
  have h₄ : Shared.Consistent stableHash u₄ := hall u₄ (by simp [u₁, u₂, u₃, u₄, run])
  obtain ⟨n, hn⟩ : ∃ n, u₁.ring.findNode (stableHash key) = some n := by
    rcases h₁.between.route (stableHash key) with hr | hr
    · rw [hr]; exact (h₁.placed_before.findNode _).imp fun n hn => hn.1
    · rw [hr]; exact (h₁.placed_after.findNode _).imp fun n hn => hn.1
  have hanswer : answer = unlockedGet stableHash key u₁.ring u₂.ring u₃.ring u₄.ring := rfl
  simp only [unlockedGet, hn] at hanswer
  rw [hanswer]
  split
  case isTrue => exact ⟨by simp, by simp⟩
  case isFalse =>
      split
      case isTrue => exact ⟨by simp, by simp⟩
      case isFalse =>
          cases ht : (u₄.ring.node n).targets.get? key with
          | none => exact ⟨by simp, by simp⟩
          | some t =>
              refine ⟨by simp, ?_⟩
              rintro t' ⟨⟩
              rcases h₄.between.value ht with hv | hv
              · exact Or.inl (by rw [exec_get_eq h₄.placed_before, hv]; rfl)
              · exact Or.inr (by rw [exec_get_eq h₄.placed_after, hv]; rfl)

instance (a : BinarySearchTree Nat Ref) (i : Nat) : Decidable (Routing.Clean a i) :=
  inferInstanceAs (Decidable (a.HasTwoChildren i = false))

/-- The key is read while the split that its own registration caused moves it to the new node. -/
theorem unlocked_get_fresh_default :
    let hash := tableHash [("a", 0), ("b", 100)]
    let target (id : String) : Target := ⟨id, id, "host", 8000⟩
    let take (id : String) : Shared.Event := .take (.insert (target id) (some id) "")
    let run := (Shared.machine hash).run
    let u := run [take "a", .write, take "b", .write, .write, .write, .write, .write]
      { ring := (Settings.freshRing _ : Ring (BinarySearchTree Nat Ref)) }
    (exec (Ring.get hash "b") u.before).1 = .ok (some (target "b")) ∨
      (exec (Ring.get hash "b") u.after).1 = .ok (some (target "b")) :=
  (unlocked_get_fresh (Settings.ring_default _)
    [.take (.insert ⟨"a", "a", "host", 8000⟩ (some "a") ""), .write,
      .take (.insert ⟨"b", "b", "host", 8000⟩ (some "b") ""), .write] [.write] [.write] [.write, .write] "b"
    (by decide +kernel)).2 ⟨"b", "b", "host", 8000⟩ (by decide +kernel)

/-- A key that has one node before and after each of the blocks in progress at the four reads is found. -/
theorem unlocked_get_finds
    (hinit : Ring.init args nodeMinLoad nodeMaxLoad (empty : σ) nodeBasePorts = .ok s₀)
    (es₁ es₂ es₃ es₄ : List Shared.Event) (key : String)
    (hguard : (Shared.machine stableHash).Guarded (Shared.CleanTake stableHash) (es₁ ++ es₂ ++ es₃ ++ es₄)
      { ring := s₀ }) :
    let run := (Shared.machine stableHash).run
    let u₁ := run es₁ { ring := s₀ }
    let u₂ := run es₂ u₁
    let u₃ := run es₃ u₂
    let u₄ := run es₄ u₃
    ∀ r, (∀ u ∈ [u₁, u₂, u₃, u₄], (exec (getTargetNode stableHash key) u.before).1 = .ok r ∧
        (exec (getTargetNode stableHash key) u.after).1 = .ok r) →
      ∃ t, unlockedGet stableHash key u₁.ring u₂.ring u₃.ring u₄.ring = .target t := by
  intro run u₁ u₂ u₃ u₄ r hstay
  have hall := Shared.consistent_reads hinit es₁ es₂ es₃ es₄ hguard
  have hread : ∀ u ∈ [u₁, u₂, u₃, u₄],
      u.ring.findNode (stableHash key) = some r ∧ ∃ t, (u.ring.node r).get key = some t := fun u hu =>
    (hall u hu).still (hstay u hu).1 (hstay u hu).2
  obtain ⟨hfind, -⟩ := hread u₁ (by simp)
  obtain ⟨-, t₂, ht₂⟩ := hread u₂ (by simp)
  obtain ⟨-, t₃, ht₃⟩ := hread u₃ (by simp)
  obtain ⟨-, t₄, ht₄⟩ := hread u₄ (by simp)
  have hkey₂ : (u₂.ring.node r).hasKey key = true := Node.hasKey_iff.mpr ⟨t₂, ht₂⟩
  have hkey₃ : (u₃.ring.node r).hasKey key = true := Node.hasKey_iff.mpr ⟨t₃, ht₃⟩
  have hget₄ : (u₄.ring.node r).targets.get? key = some t₄ := ht₄
  exact ⟨t₄, by simp [unlockedGet, hfind, hkey₂, hkey₃, hget₄]⟩

theorem unlocked_get_finds_default :
    let hash := tableHash [("a", 0), ("b", 100)]
    let take (id : String) : Shared.Event := .take (.insert ⟨id, id, "host", 8000⟩ (some id) "")
    let run := (Shared.machine hash).run
    let u₁ := run [take "a", .write] { ring := (Settings.freshRing _ : Ring (BinarySearchTree Nat Ref)) }
    let u₂ := run [take "b", .write, .write] u₁
    let u₃ := run [.write, .write] u₂
    let u₄ := run [.write, .write, .write] u₃
    ∃ t, unlockedGet hash "a" u₁.ring u₂.ring u₃.ring u₄.ring = .target t :=
  unlocked_get_finds (Settings.ring_default _)
    [.take (.insert ⟨"a", "a", "host", 8000⟩ (some "a") ""), .write]
    [.take (.insert ⟨"b", "b", "host", 8000⟩ (some "b") ""), .write, .write] [.write, .write]
    [.write, .write, .write] "a" (by decide +kernel) 0 (by decide +kernel)

/-- A split that moves `b` has put the new node into the container and copied nothing yet: `b` is missed, although
it is registered before the block and after it. -/
example :
    let hash := tableHash [("a", 0), ("b", 100)]
    let take (id : String) : Shared.Event := .take (.insert ⟨id, id, "host", 8000⟩ (some id) "")
    let u := (Shared.machine hash).run [take "b", .write, take "a", .write, .write, .write]
      { ring := (Settings.freshRing _ : Ring (BinarySearchTree Nat Ref)) }
    unlockedGet hash "b" u.ring u.ring u.ring u.ring = .keyNotFoundError ∧
      (exec (Ring.get hash "b") u.before).1 = .ok (some ⟨"b", "b", "host", 8000⟩) ∧
      (exec (Ring.get hash "b") u.after).1 = .ok (some ⟨"b", "b", "host", 8000⟩) := by
  decide +kernel

end PrometheusRing.Ring
