import PrometheusRing.Lib.Effect

/-!
# Bounded retries

A loop that makes a call up to a number of times: it ends with the first attempt that returns, goes on after the
errors it retries, and lets every other error out.
-/

namespace PrometheusRing

variable {ε σ α : Type} (retried : ε → Bool) (x : Effect ε σ α)

/-- Whether one of the attempts went through. -/
def retry : Nat → Effect ε σ Bool
  | 0 => return false
  | attempts + 1 => Effect.except (do
      discard x
      return true) fun e => if retried e then retry attempts else throw e

namespace Retry

open Effect

/-- That many attempts in a row raise errors that are retried. -/
inductive Fails : Nat → σ → σ → Prop where
  | zero {s} : Fails 0 s s
  | succ {k s s₁ s₂ e} : exec x s = (.error e, s₁) → retried e = true → Fails k s₁ s₂ → Fails (k + 1) s s₂

/-- One of the attempts returns, and those before it raise errors that are retried. -/
def Succeeds (attempts : Nat) (s s' : σ) : Prop :=
  ∃ k < attempts, ∃ s₁ a, Fails retried x k s s₁ ∧ exec x s₁ = (.ok a, s')

/-- One of the attempts raises the error, which is not retried, and those before it raise errors that are. -/
def Raises (attempts : Nat) (e : ε) (s s' : σ) : Prop :=
  ∃ k < attempts, ∃ s₁, Fails retried x k s s₁ ∧ exec x s₁ = (.error e, s') ∧ retried e = false

variable {retried x} {n : Nat} {s s₁ s' : σ} {e e' : ε} {a : α}

/-! ## The first attempt -/

theorem fails_succ_iff (h : exec x s = (.error e, s₁)) :
    Fails retried x (n + 1) s s' ↔ retried e = true ∧ Fails retried x n s₁ s' := by
  constructor
  · intro hf
    cases hf with
    | succ h' he hf =>
        rw [h] at h'
        obtain ⟨hee, rfl⟩ := Prod.mk.inj h'
        obtain rfl := Except.error.inj hee
        exact ⟨he, hf⟩
  · exact fun ⟨he, hf⟩ => .succ h he hf

theorem not_fails_of_ok (h : exec x s = (.ok a, s₁)) : ¬ Fails retried x (n + 1) s s' := by
  intro hf
  cases hf with
  | succ h' => rw [h] at h'; cases h'

theorem succeeds_ok_iff (h : exec x s = (.ok a, s₁)) : Succeeds retried x (n + 1) s s' ↔ s₁ = s' := by
  constructor
  · rintro ⟨k, -, s₂, b, hf, hb⟩
    cases k with
    | zero => cases hf; rw [h] at hb; exact (Prod.mk.inj hb).2
    | succ k => exact absurd hf (not_fails_of_ok h)
  · rintro rfl
    exact ⟨0, Nat.succ_pos n, s, a, .zero, h⟩

theorem succeeds_error_iff (h : exec x s = (.error e, s₁)) :
    Succeeds retried x (n + 1) s s' ↔ retried e = true ∧ Succeeds retried x n s₁ s' := by
  constructor
  · rintro ⟨k, hk, s₂, b, hf, hb⟩
    cases k with
    | zero => cases hf; rw [h] at hb; cases hb
    | succ k =>
        obtain ⟨he, hf⟩ := (fails_succ_iff h).mp hf
        exact ⟨he, k, Nat.lt_of_succ_lt_succ hk, s₂, b, hf, hb⟩
  · rintro ⟨he, k, hk, s₂, b, hf, hb⟩
    exact ⟨k + 1, Nat.succ_lt_succ hk, s₂, b, .succ h he hf, hb⟩

theorem not_raises_of_ok (h : exec x s = (.ok a, s₁)) : ¬ Raises retried x n e' s s' := by
  rintro ⟨k, -, s₂, hf, hb, -⟩
  cases k with
  | zero => cases hf; rw [h] at hb; cases hb
  | succ k => exact not_fails_of_ok h hf

theorem raises_error_iff (h : exec x s = (.error e, s₁)) : Raises retried x (n + 1) e' s s' ↔
    retried e = false ∧ e = e' ∧ s₁ = s' ∨ retried e = true ∧ Raises retried x n e' s₁ s' := by
  constructor
  · rintro ⟨k, hk, s₂, hf, hb, he⟩
    cases k with
    | zero =>
        cases hf
        rw [h] at hb
        obtain ⟨hee, rfl⟩ := Prod.mk.inj hb
        obtain rfl := Except.error.inj hee
        exact Or.inl ⟨he, rfl, rfl⟩
    | succ k =>
        obtain ⟨he', hf⟩ := (fails_succ_iff h).mp hf
        exact Or.inr ⟨he', k, Nat.lt_of_succ_lt_succ hk, s₂, hf, hb, he⟩
  · rintro (⟨he, rfl, rfl⟩ | ⟨he', k, hk, s₂, hf, hb, he⟩)
    · exact ⟨0, Nat.succ_pos n, s, .zero, h, he⟩
    · exact ⟨k + 1, Nat.succ_lt_succ hk, s₂, .succ h he' hf, hb, he⟩

/-! ## The loop -/

theorem exec_retry_succ (n : Nat) (s : σ) : exec (retry retried x (n + 1)) s = match exec x s with
    | (.ok _, s₁) => (.ok true, s₁)
    | (.error e, s₁) => if retried e then exec (retry retried x n) s₁ else (.error e, s₁) := by
  rw [retry, exec_except, exec_bind, exec_discard]
  rcases exec x s with ⟨e | a, s₁⟩
  · cases he : retried e with
    | true => simp [Except.map, he]
    | false => simp only [Except.map, he]; rfl
  · rfl

theorem exec_retry_true_iff : exec (retry retried x n) s = (.ok true, s') ↔ Succeeds retried x n s s' := by
  induction n generalizing s with
  | zero =>
      constructor
      · intro h; cases h
      · rintro ⟨k, hk, -⟩; exact absurd hk (Nat.not_lt_zero k)
  | succ n ih =>
      rw [exec_retry_succ]
      cases hx : exec x s with
      | mk r s₁ =>
          cases r with
          | ok a => rw [succeeds_ok_iff hx]; simp
          | error e =>
              rw [succeeds_error_iff hx]
              cases he : retried e <;> simp [he, ih]

theorem exec_retry_false_iff : exec (retry retried x n) s = (.ok false, s') ↔ Fails retried x n s s' := by
  induction n generalizing s with
  | zero =>
      constructor
      · rintro ⟨⟩; exact .zero
      · intro h; cases h; rfl
  | succ n ih =>
      rw [exec_retry_succ]
      cases hx : exec x s with
      | mk r s₁ =>
          cases r with
          | ok a => simp [not_fails_of_ok hx]
          | error e =>
              rw [fails_succ_iff hx]
              cases he : retried e <;> simp [he, ih]

theorem exec_retry_error_iff : exec (retry retried x n) s = (.error e, s') ↔ Raises retried x n e s s' := by
  induction n generalizing s with
  | zero =>
      constructor
      · intro h; cases h
      · rintro ⟨k, hk, -⟩; exact absurd hk (Nat.not_lt_zero k)
  | succ n ih =>
      rw [exec_retry_succ]
      cases hx : exec x s with
      | mk r s₁ =>
          cases r with
          | ok a => simp [not_raises_of_ok hx]
          | error e' =>
              rw [raises_error_iff hx]
              cases he : retried e' <;> simp [he, ih]

/-- What every attempt preserves, the loop preserves. -/
theorem invariant (I : σ → Prop) (h : ∀ s, I s → I (exec x s).2) (n : Nat) (hs : I s) :
    I (exec (retry retried x n) s).2 := by
  induction n generalizing s with
  | zero => exact hs
  | succ n ih =>
      have hnext := h s hs
      rw [exec_retry_succ]
      cases hx : exec x s with
      | mk r s₁ =>
          rw [hx] at hnext
          cases r with
          | ok a => exact hnext
          | error e =>
              cases he : retried e with
              | true => simpa [he] using ih hnext
              | false => simpa [he] using hnext

end Retry

end PrometheusRing
