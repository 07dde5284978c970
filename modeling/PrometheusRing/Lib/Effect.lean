import Mathlib.Tactic.Common

/-!
# Calls that change a state and may raise

A call reads and writes a state and either returns or raises. Unlike a transaction, a call that raises
keeps everything it wrote before.
-/

namespace PrometheusRing

/-- A call on a state `σ` that returns an `α` or raises an `ε`. What it wrote before raising stays written. -/
abbrev Effect (ε σ α : Type) := ExceptT ε (StateM σ) α

namespace Effect

variable {ε ε' σ τ α β : Type}

/-- The outcome of a call started in `s`, and the state it leaves behind. -/
def exec (x : Effect ε σ α) (s : σ) : Except ε α × σ := x.run s

/-- A call on a part of a larger state. -/
def zoom (part : τ → σ) (put : σ → τ → τ) (x : Effect ε σ α) : Effect ε τ α :=
  ExceptT.mk fun t => ((exec x (part t)).1, put (exec x (part t)).2 t)

/-- `try: x except: handler`, where the handler gets the state the raising call left behind. -/
def except (x : Effect ε σ α) (handler : ε → Effect ε σ α) : Effect ε σ α := tryCatch x handler

/-- The same call with another type of exceptions. -/
def mapError (f : ε → ε') (x : Effect ε σ α) : Effect ε' σ α :=
  ExceptT.mk fun s => ((exec x s).1.mapError f, (exec x s).2)

/-! ## What a call does, step by step -/

@[simp] theorem exec_pure (a : α) (s : σ) : exec (pure a : Effect ε σ α) s = (.ok a, s) := rfl

@[simp] theorem exec_get (s : σ) : exec (get : Effect ε σ σ) s = (.ok s, s) := rfl

@[simp] theorem exec_modify (f : σ → σ) (s : σ) :
    exec (modify f : Effect ε σ PUnit) s = (.ok ⟨⟩, f s) := rfl

@[simp] theorem exec_ofExcept (x : Except ε α) (s : σ) :
    exec (MonadExcept.ofExcept x : Effect ε σ α) s = (x, s) := by
  cases x <;> rfl

@[simp] theorem exec_zoom (part : τ → σ) (put : σ → τ → τ) (x : Effect ε σ α) (t : τ) :
    exec (zoom part put x) t = ((exec x (part t)).1, put (exec x (part t)).2 t) := rfl

@[simp] theorem exec_mapError (f : ε → ε') (x : Effect ε σ α) (s : σ) :
    exec (mapError f x) s = ((exec x s).1.mapError f, (exec x s).2) := rfl

theorem exec_bind (x : Effect ε σ α) (f : α → Effect ε σ β) (s : σ) :
    exec (x >>= f) s = match exec x s with
      | (.ok a, s') => exec (f a) s'
      | (.error e, s') => (.error e, s') := by
  change (ExceptT.bindCont f (exec x s).1) (exec x s).2 = _
  rcases exec x s with ⟨_ | a, s'⟩ <;> rfl

theorem exec_bind_ok_iff {x : Effect ε σ α} {f : α → Effect ε σ β} {b : β} {s s' : σ} :
    exec (x >>= f) s = (.ok b, s') ↔ ∃ a s₁, exec x s = (.ok a, s₁) ∧ exec (f a) s₁ = (.ok b, s') := by
  rw [exec_bind]
  rcases exec x s with ⟨_ | a, s₁⟩ <;> simp

theorem exec_bind_error_iff {x : Effect ε σ α} {f : α → Effect ε σ β} {e : ε} {s s' : σ} :
    exec (x >>= f) s = (.error e, s') ↔ exec x s = (.error e, s') ∨
      ∃ a s₁, exec x s = (.ok a, s₁) ∧ exec (f a) s₁ = (.error e, s') := by
  rw [exec_bind]
  rcases exec x s with ⟨_ | a, s₁⟩ <;> simp

theorem exec_map (f : α → β) (x : Effect ε σ α) (s : σ) :
    exec (f <$> x) s = ((exec x s).1.map f, (exec x s).2) := by
  change exec (x >>= fun a => pure (f a)) s = _
  rw [exec_bind]
  rcases exec x s with ⟨_ | a, s'⟩ <;> rfl

@[simp] theorem exec_discard (x : Effect ε σ α) (s : σ) :
    exec (discard x) s = ((exec x s).1.map fun _ => ⟨⟩, (exec x s).2) := exec_map (fun _ => PUnit.unit) x s

theorem exec_except (x : Effect ε σ α) (handler : ε → Effect ε σ α) (s : σ) :
    exec (except x handler) s = match exec x s with
      | (.ok a, s') => (.ok a, s')
      | (.error e, s') => exec (handler e) s' := by
  change ((fun r => match r with
    | Except.ok a => (pure (Except.ok a) : StateM σ _)
    | .error e => (handler e).run) (exec x s).1) (exec x s).2 = _
  rcases exec x s with ⟨_ | a, s'⟩ <;> rfl

theorem exec_forM_cons (a : α) (as : List α) (f : α → Effect ε σ PUnit) (s : σ) :
    exec (forM (a :: as) f) s = match exec (f a) s with
      | (.ok _, s') => exec (forM as f) s'
      | (.error e, s') => (.error e, s') := by
  rw [List.forM_cons, exec_bind]
  rcases exec (f a) s with ⟨_ | _, s'⟩ <;> rfl

@[simp] theorem exec_forM_nil (f : α → Effect ε σ PUnit) (s : σ) :
    exec (forM ([] : List α) f) s = (.ok ⟨⟩, s) := rfl

end Effect

end PrometheusRing
