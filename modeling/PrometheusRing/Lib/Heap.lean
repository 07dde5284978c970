import Mathlib.Tactic.Common

/-!
# Objects behind references

Objects that are shared and changed in place: a reference names an object, and two references name the
same object exactly when they are equal.
-/

namespace PrometheusRing

/-- A reference to an object. Equality of references is the identity of the objects. -/
abbrev Ref := Nat

/-- The objects allocated so far. References from `next` on name no object yet. -/
structure Heap (α : Type) where
  next : Ref
  read : Ref → α

namespace Heap

variable {α : Type}

/-- A heap with one object, under reference 0. -/
def singleton (a : α) : Heap α := ⟨1, fun _ => a⟩

def write (h : Heap α) (r : Ref) (a : α) : Heap α :=
  { h with read := fun x => if x = r then a else h.read x }

/-- Change an object in place. -/
def update (h : Heap α) (r : Ref) (f : α → α) : Heap α := h.write r (f (h.read r))

/-- Allocate an object. Its reference is `h.next`. -/
def alloc (h : Heap α) (a : α) : Heap α := { h.write h.next a with next := h.next + 1 }

@[simp] theorem read_write (h : Heap α) (r x : Ref) (a : α) :
    (h.write r a).read x = if x = r then a else h.read x := rfl

@[simp] theorem next_write (h : Heap α) (r : Ref) (a : α) : (h.write r a).next = h.next := rfl

@[simp] theorem read_update (h : Heap α) (r x : Ref) (f : α → α) :
    (h.update r f).read x = if x = r then f (h.read r) else h.read x := rfl

@[simp] theorem next_update (h : Heap α) (r : Ref) (f : α → α) : (h.update r f).next = h.next := rfl

@[simp] theorem read_alloc (h : Heap α) (x : Ref) (a : α) :
    (h.alloc a).read x = if x = h.next then a else h.read x := rfl

@[simp] theorem next_alloc (h : Heap α) (a : α) : (h.alloc a).next = h.next + 1 := rfl

@[ext] theorem ext {h h' : Heap α} (hn : h.next = h'.next) (hr : ∀ x, h.read x = h'.read x) : h = h' := by
  cases h; cases h'
  simp only [mk.injEq] at hn ⊢
  exact ⟨hn, funext hr⟩

/-! ## Changing an object more than once -/

theorem update_congr {h : Heap α} {r : Ref} {f g : α → α} (hfg : f (h.read r) = g (h.read r)) :
    h.update r f = h.update r g := by
  rw [update, update, hfg]

theorem update_update (h : Heap α) (r : Ref) (f g : α → α) :
    (h.update r f).update r g = h.update r (fun a => g (f a)) := by
  ext x
  · rfl
  · by_cases hx : x = r <;> simp [hx]

theorem update_comm (h : Heap α) {r s : Ref} (hrs : r ≠ s) (f g : α → α) :
    (h.update r f).update s g = (h.update s g).update r f := by
  ext x
  · rfl
  · by_cases hr : x = r
    · subst hr; simp [hrs]
    · by_cases hs : x = s
      · subst hs; simp [hr]
      · simp [hr, hs]

theorem update_self {h : Heap α} {r : Ref} {f : α → α} (hf : f (h.read r) = h.read r) :
    h.update r f = h := by
  ext x
  · rfl
  · by_cases hx : x = r
    · subst hx; simpa using hf
    · simp [hx]

end Heap

end PrometheusRing
