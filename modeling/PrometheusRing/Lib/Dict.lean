import Mathlib.Data.List.Nodup

/-!
# Insertion-ordered dictionaries

A dictionary lists its entries in the order in which their keys were first set; setting a key that is
there already changes the value in place. That no key occurs twice is part of the type.
-/

namespace PrometheusRing

/-- A dictionary: its items in order, and no key twice. -/
structure Dict (κ ν : Type) where
  items : List (κ × ν)
  nodup : (items.map Prod.fst).Nodup

namespace Dict

variable {κ ν : Type}

@[ext] theorem ext {d e : Dict κ ν} (h : d.items = e.items) : d = e := by
  cases d; cases e; cases h; rfl

def empty : Dict κ ν := ⟨[], List.nodup_nil⟩

def keys (d : Dict κ ν) : List κ := d.items.map Prod.fst

def values (d : Dict κ ν) : List ν := d.items.map Prod.snd

def size (d : Dict κ ν) : Nat := d.items.length

/-- The entries whose key passes a test. -/
def filter (d : Dict κ ν) (p : κ → Bool) : Dict κ ν where
  items := d.items.filter (fun e => p e.1)
  nodup := d.nodup.sublist (List.filter_sublist.map _)

variable [DecidableEq κ]

def get? (d : Dict κ ν) (k : κ) : Option ν := (d.items.find? (fun e => e.1 = k)).map Prod.snd

def contains (d : Dict κ ν) (k : κ) : Bool := (d.get? k).isSome

/-- The items after `d[k] = v`: in place if the key is there, else at the end. -/
def setItems (k : κ) (v : ν) : List (κ × ν) → List (κ × ν)
  | [] => [(k, v)]
  | e :: es => if e.1 = k then (k, v) :: es else e :: setItems k v es

theorem mem_keys_setItems {k x : κ} {v : ν} {es : List (κ × ν)} :
    x ∈ (setItems k v es).map Prod.fst ↔ x = k ∨ x ∈ es.map Prod.fst := by
  induction es with
  | nil => simp [setItems]
  | cons e es ih =>
      by_cases he : e.1 = k
      · simp [setItems, he]
      · simp only [setItems, he, ↓reduceIte, List.map_cons, List.mem_cons, ih]
        tauto

theorem nodup_setItems {k : κ} {v : ν} {es : List (κ × ν)} (h : (es.map Prod.fst).Nodup) :
    ((setItems k v es).map Prod.fst).Nodup := by
  induction es with
  | nil => simp [setItems]
  | cons e es ih =>
      rw [List.map_cons, List.nodup_cons] at h
      by_cases he : e.1 = k
      · simp only [setItems, he, ↓reduceIte, List.map_cons, List.nodup_cons]
        exact ⟨he ▸ h.1, h.2⟩
      · simp only [setItems, he, ↓reduceIte, List.map_cons, List.nodup_cons]
        exact ⟨fun hx => (mem_keys_setItems.mp hx).elim he h.1, ih h.2⟩

/-- `d[k] = v` -/
def set (d : Dict κ ν) (k : κ) (v : ν) : Dict κ ν := ⟨setItems k v d.items, nodup_setItems d.nodup⟩

/-- `d.pop(k)`, without the value. -/
def erase (d : Dict κ ν) (k : κ) : Dict κ ν := d.filter (fun x => x ≠ k)

/-- `for k, v in es: d[k] = v` -/
def setAll (d : Dict κ ν) (es : List (κ × ν)) : Dict κ ν := es.foldl (fun d e => d.set e.1 e.2) d

/-! ## Reading -/

private theorem find_of_mem {k : κ} {v : ν} {es : List (κ × ν)} (h : (es.map Prod.fst).Nodup)
    (hm : (k, v) ∈ es) : es.find? (fun e => e.1 = k) = some (k, v) := by
  induction es with
  | nil => cases hm
  | cons e es ih =>
      rw [List.map_cons, List.nodup_cons] at h
      rcases List.mem_cons.mp hm with rfl | hm
      · simp
      · have hne : e.1 ≠ k := fun he => h.1 (he ▸ List.mem_map_of_mem hm)
        simpa [hne] using ih h.2 hm

omit [DecidableEq κ] in
/-- Where no key occurs twice, what is collected for one key comes from one entry. -/
theorem flatMap_of_mem {α : Type} {k : κ} {v : ν} {es : List (κ × ν)} {f : κ × ν → List α}
    (h : (es.map Prod.fst).Nodup) (hm : (k, v) ∈ es) (hf : ∀ e ∈ es, e.1 ≠ k → f e = []) :
    es.flatMap f = f (k, v) := by
  induction es with
  | nil => cases hm
  | cons e es ih =>
      rw [List.map_cons, List.nodup_cons] at h
      rw [List.flatMap_cons]
      rcases List.mem_cons.mp hm with rfl | hm
      · have hrest : es.flatMap f = [] := by
          refine List.flatMap_eq_nil_iff.mpr fun e he => hf e (List.mem_cons_of_mem _ he) fun hk => ?_
          exact h.1 (List.mem_map.mpr ⟨e, he, hk⟩)
        rw [hrest, List.append_nil]
      · have hne : e.1 ≠ k := fun he => h.1 (he ▸ List.mem_map_of_mem hm)
        rw [hf e List.mem_cons_self hne, List.nil_append]
        exact ih h.2 hm fun e he => hf e (List.mem_cons_of_mem _ he)

theorem get?_eq_some {d : Dict κ ν} {k : κ} {v : ν} : d.get? k = some v ↔ (k, v) ∈ d.items := by
  refine ⟨fun h => ?_, fun h => ?_⟩
  · obtain ⟨⟨k', v'⟩, hf, rfl⟩ := Option.map_eq_some_iff.mp h
    have hk : k' = k := by simpa using List.find?_some hf
    exact hk ▸ List.mem_of_find?_eq_some hf
  · rw [get?, find_of_mem d.nodup h]
    rfl

theorem contains_iff {d : Dict κ ν} {k : κ} : d.contains k = true ↔ ∃ v, d.get? k = some v :=
  Option.isSome_iff_exists

theorem mem_keys {d : Dict κ ν} {k : κ} : k ∈ d.keys ↔ d.contains k = true := by
  simp only [keys, List.mem_map, contains_iff, get?_eq_some]
  exact ⟨fun ⟨e, he, hk⟩ => ⟨e.2, hk ▸ he⟩, fun ⟨v, hv⟩ => ⟨_, hv, rfl⟩⟩

@[simp] theorem get?_empty (k : κ) : (empty : Dict κ ν).get? k = none := rfl

theorem get?_set (d : Dict κ ν) (k x : κ) (v : ν) :
    (d.set k v).get? x = if x = k then some v else d.get? x := by
  obtain ⟨es, h⟩ := d
  simp only [set, get?]
  clear h
  induction es with
  | nil => by_cases hx : x = k <;> simp [setItems, hx, eq_comm]
  | cons e es ih =>
      by_cases he : e.1 = k
      · by_cases hx : x = k
        · simp [setItems, he, hx]
        · simp [setItems, he, hx, Ne.symm hx]
      · by_cases hx : x = k
        · subst hx; simpa [setItems, he] using ih
        · by_cases hex : e.1 = x
          · simp [setItems, hex, hx]
          · simpa [setItems, he, hex, hx] using ih

@[simp] theorem get?_set_self (d : Dict κ ν) (k : κ) (v : ν) : (d.set k v).get? k = some v := by
  rw [get?_set, if_pos rfl]

/-- Setting a key twice leaves the second value, in the place of the first. -/
theorem set_set (d : Dict κ ν) (k : κ) (v w : ν) : (d.set k v).set k w = d.set k w := by
  obtain ⟨es, h⟩ := d
  ext1
  simp only [set]
  clear h
  induction es with
  | nil => simp [setItems]
  | cons e es ih => by_cases he : e.1 = k <;> simp [setItems, he, ih]

theorem get?_filter (d : Dict κ ν) (p : κ → Bool) (x : κ) :
    (d.filter p).get? x = if p x then d.get? x else none := by
  apply Option.ext
  intro v
  rw [get?_eq_some, filter, List.mem_filter, ← get?_eq_some]
  by_cases hp : p x <;> simp [hp]

theorem get?_erase (d : Dict κ ν) (k x : κ) :
    (d.erase k).get? x = if x = k then none else d.get? x := by
  rw [erase, get?_filter]
  by_cases hx : x = k <;> simp [hx]

theorem contains_filter (d : Dict κ ν) (p : κ → Bool) (x : κ) :
    (d.filter p).contains x = (p x && d.contains x) := by
  by_cases hp : p x <;> simp [contains, get?_filter, hp]

theorem contains_erase (d : Dict κ ν) (k x : κ) :
    (d.erase k).contains x = (decide (x ≠ k) && d.contains x) := contains_filter d _ x

theorem contains_set (d : Dict κ ν) (k x : κ) (v : ν) :
    (d.set k v).contains x = (decide (x = k) || d.contains x) := by
  by_cases hx : x = k <;> simp [contains, get?_set, hx]

/-! ## Size -/

/-- A dictionary whose keys are among those of another one is no larger. -/
theorem size_le {d e : Dict κ ν} (h : ∀ k, d.contains k = true → e.contains k = true) : d.size ≤ e.size := by
  have hsub : d.keys ⊆ e.keys := fun k hk => mem_keys.mpr (h k (mem_keys.mp hk))
  simpa [keys, size] using List.Nodup.length_le_of_subset d.nodup hsub

/-- Dictionaries with the same keys, in whatever order, have the same size. -/
theorem size_eq {d e : Dict κ ν} (h : ∀ k, d.get? k = e.get? k) : d.size = e.size := by
  have hsame (k : κ) : d.contains k = e.contains k := congrArg Option.isSome (h k)
  exact Nat.le_antisymm (size_le fun k hk => hsame k ▸ hk) (size_le fun k hk => (hsame k).symm ▸ hk)

theorem ne_of_mem {d : Dict κ ν} {k : κ} (hk : d.contains k = false) : ∀ e ∈ d.items, e.1 ≠ k := by
  rintro e he rfl
  rw [← Bool.not_eq_true, ← mem_keys] at hk
  exact hk (List.mem_map_of_mem he)

/-- A key that is not there yet goes to the end. -/
theorem items_set {d : Dict κ ν} {k : κ} (hk : d.contains k = false) (v : ν) :
    (d.set k v).items = d.items ++ [(k, v)] := by
  have hnot := ne_of_mem hk
  change setItems k v d.items = d.items ++ [(k, v)]
  generalize d.items = es at hnot
  induction es with
  | nil => rfl
  | cons e es ih =>
      rw [setItems, if_neg (hnot e List.mem_cons_self), ih fun f hf => hnot f (List.mem_cons_of_mem _ hf)]
      rfl

/-- Taking a new key out again gives the dictionary back. -/
theorem erase_set {d : Dict κ ν} {k : κ} (hk : d.contains k = false) (v : ν) : (d.set k v).erase k = d := by
  ext1
  change (d.set k v).items.filter (fun e => e.1 ≠ k) = d.items
  rw [items_set hk, List.filter_append, List.filter_eq_self.mpr (by simpa using ne_of_mem hk)]
  simp

theorem keys_set {d : Dict κ ν} {k : κ} (hk : d.contains k = false) (v : ν) :
    (d.set k v).keys = d.keys ++ [k] := by
  rw [keys, items_set hk, List.map_append]
  rfl

/-! ## Copying one dictionary into another -/

@[simp] theorem setAll_nil (d : Dict κ ν) : d.setAll [] = d := rfl

@[simp] theorem setAll_cons (d : Dict κ ν) (e : κ × ν) (es : List (κ × ν)) :
    d.setAll (e :: es) = (d.set e.1 e.2).setAll es := rfl

private theorem get?_mk_cons (a : κ × ν) (es : List (κ × ν)) (h : ((a :: es).map Prod.fst).Nodup) (x : κ) :
    (Dict.mk (a :: es) h).get? x = if x = a.1 then some a.2 else (Dict.mk es h.of_cons).get? x := by
  by_cases hx : x = a.1
  · subst hx; simp [get?]
  · simp [get?, hx, Ne.symm hx]

theorem get?_setAll (d e : Dict κ ν) (x : κ) :
    (d.setAll e.items).get? x = (e.get? x).or (d.get? x) := by
  obtain ⟨es, h⟩ := e
  induction es generalizing d with
  | nil => rfl
  | cons a es ih =>
      rw [setAll_cons, ih _ h.of_cons, get?_set, get?_mk_cons]
      by_cases hx : x = a.1
      · subst hx
        have hn : (Dict.mk es h.of_cons).get? a.1 = none := by
          apply Option.eq_none_iff_forall_ne_some.mpr
          intro v hv
          exact (List.nodup_cons.mp h).1 (List.mem_map.mpr ⟨_, get?_eq_some.mp hv, rfl⟩)
        rw [hn, if_pos rfl, if_pos rfl, Option.none_or, Option.some_or]
      · rw [if_neg hx, if_neg hx]

theorem contains_setAll (d e : Dict κ ν) (x : κ) :
    (d.setAll e.items).contains x = (e.contains x || d.contains x) := by
  rw [contains, get?_setAll, Option.isSome_or]
  rfl

/-- Entries with new keys go to the end. -/
theorem items_setAll {d : Dict κ ν} {es : List (κ × ν)} (hnd : (es.map Prod.fst).Nodup)
    (hnew : ∀ k ∈ es.map Prod.fst, d.contains k = false) : (d.setAll es).items = d.items ++ es := by
  induction es generalizing d with
  | nil => simp
  | cons e es ih =>
      obtain ⟨hne, hnd⟩ := List.nodup_cons.mp hnd
      have hlater : ∀ k ∈ es.map Prod.fst, (d.set e.1 e.2).contains k = false := by
        intro k hk
        have hke : k ≠ e.1 := fun he => hne (he ▸ hk)
        simp [contains_set, hke, hnew k (List.mem_cons_of_mem _ hk)]
      rw [setAll_cons, ih hnd hlater, items_set (hnew e.1 List.mem_cons_self), List.append_assoc]
      rfl

end Dict

end PrometheusRing
