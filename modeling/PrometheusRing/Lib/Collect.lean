import Mathlib.Data.Finset.Basic

/-!
# Loops that collect results

A loop over a finite map visits the keys in some order, a loop over indices visits them from the first on. Both
collect what the body gives and stop where it fails. Neither the result nor whether there is one depends on the
order; only which failure is met first does.
-/

namespace PrometheusRing

/-- A finite map: its keys, and a value for each of them. -/
structure FiniteMap (κ α : Type) where
  keys : Finset κ
  value : {k // k ∈ keys} → α

/-- An order in which the members of a finite set are visited, each once. -/
structure Enumeration {κ : Type} (s : Finset κ) where
  items : List {k // k ∈ s}
  nodup : items.Nodup
  complete : ∀ k, k ∈ items

namespace FiniteMap

variable {κ α : Type} [DecidableEq κ]

def empty : FiniteMap κ α := ⟨∅, fun k => absurd k.2 (Finset.notMem_empty k.1)⟩

/-- `m[k] = a` -/
def set (m : FiniteMap κ α) (k : κ) (a : α) : FiniteMap κ α where
  keys := insert k m.keys
  value x := if h : x.1 = k then a else m.value ⟨x, Finset.mem_of_mem_insert_of_ne x.2 h⟩

def get? (m : FiniteMap κ α) (k : κ) : Option α := if h : k ∈ m.keys then some (m.value ⟨k, h⟩) else none

theorem get?_mk {s : Finset κ} {g : {k // k ∈ s} → α} {k : κ} :
    (mk s g).get? k = if h : k ∈ s then some (g ⟨k, h⟩) else none := rfl

@[simp] theorem get?_empty (k : κ) : (empty : FiniteMap κ α).get? k = none := dif_neg (Finset.notMem_empty k)

theorem isSome_get? {m : FiniteMap κ α} {k : κ} : (m.get? k).isSome ↔ k ∈ m.keys := by
  by_cases h : k ∈ m.keys <;> simp [get?, h]

/-- Maps with the same entries are equal. -/
theorem ext {m m' : FiniteMap κ α} (h : ∀ k, m.get? k = m'.get? k) : m = m' := by
  obtain ⟨s, g⟩ := m
  obtain ⟨s', g'⟩ := m'
  obtain rfl : s = s' := by
    ext k
    have hsome := isSome_get? (m := ⟨s, g⟩) (k := k)
    rw [h k, isSome_get?] at hsome
    exact hsome.symm
  congr 1
  funext ⟨k, hk⟩
  have hget := h k
  simpa [get?_mk, hk] using hget

theorem get?_set (m : FiniteMap κ α) (k x : κ) (a : α) :
    (m.set k a).get? x = if x = k then some a else m.get? x := by
  by_cases hx : x = k
  · subst hx; simp [get?, set]
  · by_cases hm : x ∈ m.keys <;> simp [get?, set, hx, hm]

end FiniteMap

namespace Collect

variable {ε α : Type}

theorem bind_error_iff {β : Type} (x : Except ε α) (f : α → β) :
    (∃ e, (do let a ← x; return f a) = .error e) ↔ ∃ e, x = .error e := by
  cases x with
  | error e => exact ⟨fun _ => ⟨e, rfl⟩, fun _ => ⟨e, rfl⟩⟩
  | ok a => exact ⟨fun ⟨e, he⟩ => (nomatch he), fun ⟨e, he⟩ => (nomatch he)⟩

/-- When it depends on the member alone whether the body of a loop fails, the loop fails exactly if it meets a
member for which the body does. -/
theorem foldlM_error_iff {β ι : Type} {f : β → ι → Except ε β} {P : ι → Prop}
    (h : ∀ b i, (∃ e, f b i = .error e) ↔ P i) (is : List ι) (b : β) :
    (∃ e, is.foldlM f b = .error e) ↔ ∃ i ∈ is, P i := by
  induction is generalizing b with
  | nil =>
      constructor
      · rintro ⟨e, he⟩; cases he
      · rintro ⟨i, hi, -⟩; cases hi
  | cons i is ih =>
      rw [List.foldlM_cons, List.exists_mem_cons_iff, ← h b i]
      cases hi : f b i with
      | error e => exact ⟨fun _ => Or.inl ⟨e, rfl⟩, fun _ => ⟨e, rfl⟩⟩
      | ok b' =>
          constructor
          · exact fun he => Or.inr ((ih b').mp he)
          · rintro (⟨e, he⟩ | he)
            · cases he
            · exact (ih b').mpr he

/-! ## Over the keys of a map -/

section Keys

variable {κ : Type} [DecidableEq κ] {s : Finset κ}

/-- The body of the loop: what `f` gives for the key goes into the new map. -/
def visit (f : {k // k ∈ s} → Except ε α) (m : FiniteMap κ α) (k : {k // k ∈ s}) :
    Except ε (FiniteMap κ α) := do
  let a ← f k
  return m.set k a

def overKeys (order : Enumeration s) (f : {k // k ∈ s} → Except ε α) : Except ε (FiniteMap κ α) :=
  order.items.foldlM (visit f) FiniteMap.empty

variable {f : {k // k ∈ s} → Except ε α} {g : {k // k ∈ s} → α}

/-- When the body fails for none of the keys, it sets them all. -/
theorem foldlM_visit (h : ∀ k, f k = .ok (g k)) (ks : List {k // k ∈ s}) (m : FiniteMap κ α) :
    ∃ m', ks.foldlM (visit f) m = .ok m' ∧ ∀ x, m'.get? x =
      if h : ∃ hx : x ∈ s, ⟨x, hx⟩ ∈ ks then some (g ⟨x, h.1⟩) else m.get? x := by
  induction ks generalizing m with
  | nil => exact ⟨m, rfl, fun x => by simp⟩
  | cons k ks ih =>
      obtain ⟨m', hfold, hget⟩ := ih (m.set k (g k))
      refine ⟨m', ?_, fun x => ?_⟩
      · rw [List.foldlM_cons, visit, h k]
        exact hfold
      rw [hget, FiniteMap.get?_set]
      by_cases hlater : ∃ hx : x ∈ s, ⟨x, hx⟩ ∈ ks
      · have hmem : ∃ hx : x ∈ s, ⟨x, hx⟩ ∈ k :: ks := ⟨hlater.1, List.mem_cons_of_mem k hlater.2⟩
        rw [dif_pos hlater, dif_pos hmem]
      · rw [dif_neg hlater]
        by_cases hk : x = k
        · subst hk
          rw [if_pos rfl, dif_pos ⟨k.2, List.mem_cons_self⟩]
        · rw [if_neg hk, dif_neg]
          rintro ⟨hx, hmem⟩
          rcases List.mem_cons.mp hmem with rfl | hmem
          · exact hk rfl
          · exact hlater ⟨hx, hmem⟩

/-- When the body fails for no key, the new map has the same keys, with the results as values. -/
theorem overKeys_ok (order : Enumeration s) (h : ∀ k, f k = .ok (g k)) : overKeys order f = .ok ⟨s, g⟩ := by
  obtain ⟨m, hfold, hget⟩ := foldlM_visit h order.items FiniteMap.empty
  rw [overKeys, hfold]
  congr 1
  refine FiniteMap.ext fun x => ?_
  rw [hget]
  by_cases hx : x ∈ s
  · rw [dif_pos ⟨hx, order.complete _⟩, FiniteMap.get?_mk, dif_pos hx]
  · rw [dif_neg fun h => hx h.1, FiniteMap.get?_empty, FiniteMap.get?_mk, dif_neg hx]

theorem visit_error_iff (m : FiniteMap κ α) (k : {k // k ∈ s}) :
    (∃ e, visit f m k = .error e) ↔ ∃ e, f k = .error e := bind_error_iff (f k) (m.set k)

/-- In every order the loop fails exactly if the body fails for some key. -/
theorem overKeys_error_iff (order : Enumeration s) :
    (∃ e, overKeys order f = .error e) ↔ ∃ k e, f k = .error e := by
  rw [overKeys, foldlM_error_iff visit_error_iff]
  exact ⟨fun ⟨k, _, he⟩ => ⟨k, he⟩, fun ⟨k, he⟩ => ⟨k, order.complete k, he⟩⟩

end Keys

/-! ## Over indices -/

def overIndices : (n : Nat) → (Fin n → Except ε α) → Except ε (Fin n → α)
  | 0, _ => .ok fun i => i.elim0
  | n + 1, f => do
      let a ← f 0
      let rest ← overIndices n fun i => f i.succ
      return Fin.cases a rest

theorem overIndices_ok {n : Nat} {f : Fin n → Except ε α} {g : Fin n → α} (h : ∀ i, f i = .ok (g i)) :
    overIndices n f = .ok g := by
  induction n with
  | zero =>
      rw [overIndices, Subsingleton.elim g]
  | succ n ih =>
      rw [overIndices, h 0, ih fun i => h i.succ]
      change Except.ok _ = Except.ok g
      congr 1
      funext i
      cases i using Fin.cases <;> rfl

theorem overIndices_error_iff {n : Nat} {f : Fin n → Except ε α} :
    (∃ e, overIndices n f = .error e) ↔ ∃ i e, f i = .error e := by
  induction n with
  | zero => exact ⟨fun ⟨e, he⟩ => (nomatch he), fun ⟨i, _⟩ => i.elim0⟩
  | succ n ih =>
      rw [overIndices, Fin.exists_fin_succ, ← ih]
      cases f 0 with
      | error e => exact ⟨fun _ => Or.inl ⟨e, rfl⟩, fun _ => ⟨e, rfl⟩⟩
      | ok a =>
          have hok : ¬ ∃ e, Except.ok a = (Except.error e : Except ε α) := fun ⟨e, he⟩ => (nomatch he)
          rw [or_iff_right hok]
          exact bind_error_iff _ _

end Collect

end PrometheusRing
