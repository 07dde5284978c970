import PrometheusRing.Adt.BinarySearchTree
import PrometheusRing.Lib.Entries

/-!
# The search tree as a list of entries

Each method of the tree does to the inorder list what its name says, with one exception: `remove` of a node
with two children takes out that node's key but its successor's value.
-/

namespace PrometheusRing.BinarySearchTree

open Entries

variable {κ ν : Type} [LinearOrder κ]

/-- Keys on the left are strictly smaller, keys on the right greater or equal. -/
def Ordered : BinarySearchTree κ ν → Prop
  | nil => True
  | node l k _ r => (∀ e ∈ l.inorder, e.1 < k) ∧ (∀ e ∈ r.inorder, k ≤ e.1) ∧ Ordered l ∧ Ordered r

/-- The root is the node to remove and has at most one child. -/
def RootStays : BinarySearchTree κ ν → κ → Bool
  | nil, _ => false
  | node l k _ r, key => k = key && (l.isNil || r.isNil)

/-- The node that `search` finds for the key has two children. -/
def HasTwoChildren : BinarySearchTree κ ν → κ → Bool
  | nil, _ => false
  | node l k _ r, key =>
      if k = key then !l.isNil && !r.isNil
      else if key < k then HasTwoChildren l key else HasTwoChildren r key

theorem Ordered.sorted {t : BinarySearchTree κ ν} (h : t.Ordered) : Sorted t.inorder := by
  induction t with
  | nil => exact List.Pairwise.nil
  | node l k v r ihl ihr =>
      obtain ⟨hl, hr, hol, hor⟩ := h
      rw [inorder, sorted_append, sorted_cons]
      refine ⟨ihl hol, ⟨hr, ihr hor⟩, ?_⟩
      intro a ha b hb
      rcases List.mem_cons.mp hb with rfl | hb
      · exact (hl a ha).le
      · exact (hl a ha).le.trans (hr b hb)

/-! ## Queries -/

theorem searchNode_eq {t : BinarySearchTree κ ν} (h : t.Ordered) (key : κ) :
    t.searchNode key = t.inorder.find? (fun e => e.1 = key) := by
  induction t with
  | nil => rfl
  | node l k v r ihl ihr =>
      obtain ⟨hl, hr, hol, hor⟩ := h
      rw [searchNode, inorder, List.find?_append]
      rcases lt_trichotomy key k with hlt | rfl | hgt
      · have hright : ((k, v) :: r.inorder).find? (fun e => e.1 = key) = none := by
          simp only [List.find?_eq_none, List.mem_cons, decide_eq_true_eq]
          rintro e (rfl | he)
          · exact hlt.ne'
          · exact (hlt.trans_le (hr e he)).ne'
        rw [if_neg hlt.ne', if_pos hlt, ihl hol, hright, Option.or_none]
      · have hleft : l.inorder.find? (fun e => e.1 = key) = none := by
          simp only [List.find?_eq_none, decide_eq_true_eq]
          exact fun e he => (hl e he).ne
        simp [hleft]
      · have hleft : l.inorder.find? (fun e => e.1 = key) = none := by
          simp only [List.find?_eq_none, decide_eq_true_eq]
          exact fun e he => ((hl e he).trans hgt).ne
        simp [hleft, hgt.ne, hgt.not_gt, ihr hor]

theorem search_eq {t : BinarySearchTree κ ν} (h : t.Ordered) (key : κ) :
    t.search key = first? (· = key) t.inorder := by
  rw [search, searchNode_eq h, first?]

theorem findMaxSmallerThanNode_eq {t : BinarySearchTree κ ν} (h : t.Ordered) (key : κ)
    (maxNode : Option (κ × ν)) :
    t.findMaxSmallerThanNode key maxNode =
      (t.inorder.filter (fun e => e.1 < key)).getLast?.or maxNode := by
  induction t generalizing maxNode with
  | nil => rfl
  | node l k v r ihl ihr =>
      obtain ⟨hl, hr, hol, hor⟩ := h
      rw [findMaxSmallerThanNode, inorder, List.filter_append]
      by_cases hk : k < key
      · simp only [hk, ↓reduceIte, ihr hor, decide_true, List.filter_cons_of_pos, List.getLast?_append,
          List.getLast?_cons]
        cases (r.inorder.filter (fun e => e.1 < key)).getLast? <;> rfl
      · have hright : ((k, v) :: r.inorder).filter (fun e => e.1 < key) = [] := by
          rw [List.filter_eq_nil_iff]
          intro e he
          rcases List.mem_cons.mp he with rfl | he
          · simpa using hk
          · simpa using (not_lt.mp hk).trans (hr e he)
        rw [if_neg hk, ihl hol, hright, List.append_nil]

theorem findMaxSmallerThan_eq {t : BinarySearchTree κ ν} (h : t.Ordered) (key : κ) :
    t.findMaxSmallerThan key = last? (· < key) t.inorder := by
  rw [findMaxSmallerThan, findMaxSmallerThanNode_eq h, Option.or_none, last?]

theorem findMinGreaterThanNode_eq {t : BinarySearchTree κ ν} (h : t.Ordered) (key : κ)
    (maxNode : Option (κ × ν)) :
    t.findMinGreaterThanNode key maxNode = (t.inorder.find? (fun e => key < e.1)).or maxNode := by
  induction t generalizing maxNode with
  | nil => rfl
  | node l k v r ihl ihr =>
      obtain ⟨hl, hr, hol, hor⟩ := h
      rw [findMinGreaterThanNode, inorder, List.find?_append]
      by_cases hk : key < k
      · rw [if_pos hk, ihl hol, List.find?_cons_of_pos (by simpa using hk)]
        cases l.inorder.find? (fun e => key < e.1) <;> rfl
      · have hleft : l.inorder.find? (fun e => key < e.1) = none := by
          simp only [List.find?_eq_none, decide_eq_true_eq]
          exact fun e he => not_lt.mpr ((hl e he).le.trans (not_lt.mp hk))
        rw [if_neg hk, ihr hor, hleft, Option.none_or, List.find?_cons_of_neg (by simpa using hk)]

theorem findMinGreaterThan_eq {t : BinarySearchTree κ ν} (h : t.Ordered) (key : κ) :
    t.findMinGreaterThan key = first? (key < ·) t.inorder := by
  rw [findMinGreaterThan, findMinGreaterThanNode_eq h, Option.or_none, first?]

/-! ## Update -/

theorem update_fst {t : BinarySearchTree κ ν} (h : t.Ordered) (key : κ) (newValue : ν) :
    (t.update key newValue).1 = first? (· = key) t.inorder := by
  rw [← search_eq h, search]
  clear h
  induction t with
  | nil => rfl
  | node l k v r ihl ihr =>
      rw [update, searchNode]
      rcases lt_trichotomy key k with hlt | rfl | hgt
      · rw [if_neg hlt.ne', if_neg hlt.ne', if_neg hlt.not_gt, if_pos hlt, ihl]
      · simp
      · rw [if_neg hgt.ne, if_neg hgt.ne, if_pos hgt, if_neg hgt.not_gt, ihr]

theorem inorder_update {t : BinarySearchTree κ ν} (h : t.Ordered) (key : κ) (newValue : ν) :
    (t.update key newValue).2.inorder = updateFirst key newValue t.inorder := by
  induction t with
  | nil => rfl
  | node l k v r ihl ihr =>
      obtain ⟨hl, hr, hol, hor⟩ := h
      rw [update]
      rcases lt_trichotomy key k with hlt | rfl | hgt
      · have hright : ∀ e ∈ (k, v) :: r.inorder, e.1 ≠ key := by
          intro e he
          rcases List.mem_cons.mp he with rfl | he
          · exact hlt.ne'
          · exact (hlt.trans_le (hr e he)).ne'
        rw [if_neg hlt.ne', if_neg hlt.not_gt, inorder, inorder, ihl hol, updateFirst_append_left hright]
      · have hleft : ∀ e ∈ l.inorder, e.1 ≠ key := fun e he => (hl e he).ne
        rw [if_pos rfl, inorder, inorder, updateFirst_append_right hleft, updateFirst, if_pos rfl]
      · have hleft : ∀ e ∈ l.inorder, e.1 ≠ key := fun e he => ((hl e he).trans hgt).ne
        rw [if_neg hgt.ne, if_pos hgt, inorder, inorder, ihr hor, updateFirst_append_right hleft, updateFirst,
          if_neg hgt.ne]

theorem Ordered.update {t : BinarySearchTree κ ν} (h : t.Ordered) (key : κ) (newValue : ν) :
    (t.update key newValue).2.Ordered := by
  induction t with
  | nil => trivial
  | node l k v r ihl ihr =>
      obtain ⟨hl, hr, hol, hor⟩ := h
      rw [BinarySearchTree.update]
      split
      · exact ⟨hl, hr, hol, hor⟩
      · split
        · refine ⟨hl, ?_, hol, ihr hor⟩
          intro e he
          rw [inorder_update hor] at he
          obtain ⟨f, hf, hfe⟩ := key_mem_of_mem_updateFirst he
          exact hfe ▸ hr f hf
        · refine ⟨?_, hr, ihl hol, hor⟩
          intro e he
          rw [inorder_update hol] at he
          obtain ⟨f, hf, hfe⟩ := key_mem_of_mem_updateFirst he
          exact hfe ▸ hl f hf

/-! ## Insertion -/

theorem inorder_insert {t : BinarySearchTree κ ν} (h : t.Ordered) (key : κ) (value : ν) :
    (t.insert key value).inorder = insertEntry key value t.inorder := by
  induction t with
  | nil => rfl
  | node l k v r ihl ihr =>
      obtain ⟨hl, hr, hol, hor⟩ := h
      rw [insert]
      by_cases hk : key < k
      · have hle : r.inorder.filter (fun e => e.1 ≤ key) = [] :=
          List.filter_eq_nil_iff.mpr fun e he => by simpa using hk.trans_le (hr e he)
        have hgt : r.inorder.filter (fun e => key < e.1) = r.inorder :=
          List.filter_eq_self.mpr fun e he => by simpa using hk.trans_le (hr e he)
        simp [hk, inorder, ihl hol, insertEntry, hle, hgt, not_le.mpr hk]
      · have hlk : ∀ e ∈ l.inorder, e.1 ≤ key := fun e he => (hl e he).le.trans (not_lt.mp hk)
        have hle : l.inorder.filter (fun e => e.1 ≤ key) = l.inorder :=
          List.filter_eq_self.mpr fun e he => by simpa using hlk e he
        have hgt : l.inorder.filter (fun e => key < e.1) = [] :=
          List.filter_eq_nil_iff.mpr fun e he => by simpa using hlk e he
        simp [hk, inorder, ihr hor, insertEntry, hle, hgt, not_lt.mp hk]

theorem Ordered.insert {t : BinarySearchTree κ ν} (h : t.Ordered) (key : κ) (value : ν) :
    (t.insert key value).Ordered := by
  induction t with
  | nil => simp [BinarySearchTree.insert, Ordered, inorder]
  | node l k v r ihl ihr =>
      obtain ⟨hl, hr, hol, hor⟩ := h
      rw [BinarySearchTree.insert]
      split
      · rename_i hk
        refine ⟨?_, hr, ihl hol, hor⟩
        intro e he
        rw [inorder_insert hol] at he
        rcases List.mem_cons.mp ((perm_insertEntry hol.sorted key value).mem_iff.mp he) with rfl | he
        · exact hk
        · exact hl e he
      · rename_i hk
        refine ⟨hl, ?_, hol, ihr hor⟩
        intro e he
        rw [inorder_insert hor] at he
        rcases List.mem_cons.mp ((perm_insertEntry hor.sorted key value).mem_iff.mp he) with rfl | he
        · exact not_lt.mp hk
        · exact hr e he

/-! ## Removal -/

omit [LinearOrder κ] in
theorem minKeyNode_eq (t : BinarySearchTree κ ν) : t.minKeyNode = t.inorder.head? := by
  induction t with
  | nil => rfl
  | node l k v r ihl _ =>
      cases l with
      | nil => rfl
      | node _ _ _ _ => rw [minKeyNode, if_neg (by simp [isNil]), ihl]; simp [inorder]

theorem inorder_removeNode_min {t : BinarySearchTree κ ν} (h : t.Ordered) {temp : κ × ν}
    (hm : t.minKeyNode = some temp) : (t.removeNode temp.1).2.inorder = t.inorder.tail := by
  induction t with
  | nil => cases hm
  | node l k v r ihl _ =>
      obtain ⟨hl, _, hol, _⟩ := h
      cases l with
      | nil =>
          obtain rfl : (k, v) = temp := by simpa [minKeyNode, isNil] using hm
          simp [removeNode, isNil, inorder]
      | node ll lk lv lr =>
          rw [minKeyNode, if_neg (by simp [isNil])] at hm
          have hne : (node ll lk lv lr).inorder ≠ [] := by simp [inorder]
          have hmem : temp ∈ (node ll lk lv lr).inorder := by
            rw [minKeyNode_eq] at hm
            exact List.mem_of_head? hm
          rw [removeNode, if_pos (hl temp hmem)]
          simp only [inorder] at ihl hne ⊢
          rw [ihl hol hm, List.tail_append_of_ne_nil hne]

/-- A removed node with two children passes its value on to its successor's key. -/
theorem inorder_removeNode_of_hasTwoChildren {t : BinarySearchTree κ ν} (h : t.Ordered) {key : κ}
    (hc : t.HasTwoChildren key) :
    ∃ a v s b, t.inorder = a ++ (key, v) :: s :: b ∧ (∀ e ∈ a, e.1 < key) ∧
      (t.removeNode key).2.inorder = a ++ (s.1, v) :: b := by
  induction t with
  | nil => cases hc
  | node l k v r ihl ihr =>
      obtain ⟨hl, hr, hol, hor⟩ := h
      rw [HasTwoChildren] at hc
      rcases lt_trichotomy key k with hlt | rfl | hgt
      · rw [if_neg hlt.ne', if_pos hlt] at hc
        obtain ⟨a, u, s, b, hin, ha, hrm⟩ := ihl hol hc
        refine ⟨a, u, s, b ++ (k, v) :: r.inorder, by simp [inorder, hin], ha, ?_⟩
        simp [removeNode, hlt, inorder, hrm]
      · simp only [↓reduceIte, Bool.and_eq_true, Bool.not_eq_eq_eq_not, Bool.not_true] at hc
        cases hm : r.minKeyNode with
        | none =>
            have hrn : r = nil := by
              rw [minKeyNode_eq, List.head?_eq_none_iff] at hm
              cases r with
              | nil => rfl
              | node _ _ _ _ => simp [inorder] at hm
            simp [hrn, isNil] at hc
        | some s =>
            have hin : r.inorder = s :: r.inorder.tail := by
              rw [minKeyNode_eq] at hm
              exact (List.cons_head?_tail hm).symm
            refine ⟨l.inorder, v, s, r.inorder.tail, by rw [inorder, ← hin], hl, ?_⟩
            simp [removeNode, hc.1, hm, inorder, inorder_removeNode_min hor hm]
      · rw [if_neg hgt.ne, if_neg hgt.not_gt] at hc
        obtain ⟨a, u, s, b, hin, ha, hrm⟩ := ihr hor hc
        refine ⟨l.inorder ++ (k, v) :: a, u, s, b, by simp [inorder, hin], ?_, ?_⟩
        · intro e he
          rcases List.mem_append.mp he with he | he
          · exact (hl e he).trans hgt
          · rcases List.mem_cons.mp he with rfl | he
            · exact hgt
            · exact ha e he
        · simp [removeNode, hgt, hgt.not_gt, inorder, hrm]

theorem inorder_removeNode_of_not_hasTwoChildren {t : BinarySearchTree κ ν} (h : t.Ordered) {key : κ}
    (hc : t.HasTwoChildren key = false) :
    (t.removeNode key).2.inorder = eraseFirst key t.inorder := by
  induction t with
  | nil => rfl
  | node l k v r ihl ihr =>
      obtain ⟨hl, hr, hol, hor⟩ := h
      rw [HasTwoChildren] at hc
      rcases lt_trichotomy key k with hlt | rfl | hgt
      · rw [if_neg hlt.ne', if_pos hlt] at hc
        have hright : ∀ e ∈ (k, v) :: r.inorder, e.1 ≠ key := by
          intro e he
          rcases List.mem_cons.mp he with rfl | he
          · exact hlt.ne'
          · exact (hlt.trans_le (hr e he)).ne'
        rw [removeNode, if_pos hlt, inorder, inorder, ihl hol hc, eraseFirst, eraseFirst]
        by_cases hex : ∃ e ∈ l.inorder, e.1 = key
        · obtain ⟨e, he, hek⟩ := hex
          exact (List.eraseP_append_left (by simpa using hek) _ he).symm
        · push Not at hex
          rw [List.eraseP_of_forall_not (by simpa using fun a b => hex (a, b)), List.eraseP_of_forall_not]
          intro e he
          rcases List.mem_append.mp he with he | he
          · simpa using hex e he
          · simpa using hright e he
      · have hleft : ∀ e ∈ l.inorder, ¬ decide (e.1 = key) = true := fun e he => by simpa using (hl e he).ne
        rw [inorder, eraseFirst, List.eraseP_append_right _ hleft]
        by_cases hln : l.isNil
        · obtain rfl : l = nil := by cases l <;> simp_all [isNil]
          simp [removeNode, isNil, inorder]
        · obtain rfl : r = nil := by cases r <;> simp_all [isNil]
          simp [removeNode, hln, minKeyNode, inorder]
      · rw [if_neg hgt.ne, if_neg hgt.not_gt] at hc
        have hleft : ∀ e ∈ l.inorder, ¬ decide (e.1 = key) = true :=
          fun e he => by simpa using ((hl e he).trans hgt).ne
        rw [removeNode, if_neg hgt.not_gt, if_pos hgt, inorder, inorder, ihr hor hc, eraseFirst, eraseFirst,
          List.eraseP_append_right _ hleft]
        simp [hgt.ne]

theorem key_mem_of_mem_removeNode {t : BinarySearchTree κ ν} (h : t.Ordered) {key : κ} {e : κ × ν}
    (he : e ∈ (t.removeNode key).2.inorder) : ∃ f ∈ t.inorder, f.1 = e.1 := by
  cases hc : t.HasTwoChildren key with
  | true =>
      obtain ⟨a, v, s, b, hin, _, hrm⟩ := inorder_removeNode_of_hasTwoChildren h hc
      rw [hrm, List.mem_append, List.mem_cons] at he
      rcases he with he | rfl | he
      · exact ⟨e, by simp [hin, he], rfl⟩
      · exact ⟨s, by simp [hin], rfl⟩
      · exact ⟨e, by simp [hin, he], rfl⟩
  | false =>
      rw [inorder_removeNode_of_not_hasTwoChildren h hc] at he
      exact ⟨e, List.mem_of_mem_eraseP he, rfl⟩

theorem Ordered.removeNode {t : BinarySearchTree κ ν} (h : t.Ordered) (key : κ) :
    (t.removeNode key).2.Ordered := by
  induction t generalizing key with
  | nil => trivial
  | node l k v r ihl ihr =>
      obtain ⟨hl, hr, hol, hor⟩ := h
      rw [BinarySearchTree.removeNode]
      split
      · refine ⟨?_, hr, ihl hol key, hor⟩
        intro e he
        obtain ⟨f, hf, hfe⟩ := key_mem_of_mem_removeNode hol he
        exact hfe ▸ hl f hf
      · split
        · refine ⟨hl, ?_, hol, ihr hor key⟩
          intro e he
          obtain ⟨f, hf, hfe⟩ := key_mem_of_mem_removeNode hor he
          exact hfe ▸ hr f hf
        · split
          · exact hor
          · split
            · exact hol
            · rename_i temp hm
              have hmin := hm
              rw [minKeyNode_eq] at hmin
              have hk : k ≤ temp.1 := hr temp (List.mem_of_head? hmin)
              refine ⟨fun e he => (hl e he).trans_le hk, ?_, hol, ihr hor temp.1⟩
              have hs := hor.sorted
              rw [← List.cons_head?_tail hmin, sorted_cons] at hs
              rw [inorder_removeNode_min hor hm]
              exact hs.1

/-- A root with at most one child stays where it is; everything else is what `_remove` returns. -/
theorem remove_eq (t : BinarySearchTree κ ν) (key : κ) :
    t.remove key = if t.RootStays key then t else (t.removeNode key).2 := by
  cases t with
  | nil => rfl
  | node l k v r =>
      rw [remove, removeNode, RootStays]
      rcases lt_trichotomy key k with hlt | rfl | hgt
      · simp [hlt, hlt.ne']
      · cases r with
        | nil => cases hl : l.isNil <;> simp [isNil, minKeyNode]
        | node rl rk rv rr =>
            obtain ⟨temp, hm⟩ : ∃ temp, (node rl rk rv rr).minKeyNode = some temp := by
              rw [minKeyNode_eq]
              exact Option.ne_none_iff_exists'.mp (by simp [inorder])
            cases hl : l.isNil <;> simp [isNil, hm]
      · simp [hgt, hgt.not_gt, hgt.ne]

theorem Ordered.remove {t : BinarySearchTree κ ν} (h : t.Ordered) (key : κ) : (t.remove key).Ordered := by
  rw [remove_eq]
  split
  · exact h
  · exact h.removeNode key

/-! ## The new node is a leaf -/

variable {t : BinarySearchTree κ ν} {key : κ} {value : ν}

theorem removeNode_insert (h : ∀ e ∈ t.inorder, e.1 ≠ key) : ((t.insert key value).removeNode key).2 = t := by
  induction t with
  | nil => simp [insert, removeNode, isNil]
  | node l k v r ihl ihr =>
      simp only [inorder, List.mem_append, List.mem_cons] at h
      have hk : k ≠ key := h (k, v) (Or.inr (Or.inl rfl))
      rcases lt_or_gt_of_ne hk with hlt | hlt
      · have hr := ihr fun e he => h e (Or.inr (Or.inr he))
        simp [insert, removeNode, not_lt_of_gt hlt, hlt, hr]
      · have hl := ihl fun e he => h e (Or.inl he)
        simp [insert, removeNode, hlt, hl]

/-- Unless the tree was empty, removing a new key restores it. -/
theorem remove_insert (hne : t ≠ nil) (h : ∀ e ∈ t.inorder, e.1 ≠ key) : (t.insert key value).remove key = t := by
  cases t with
  | nil => exact absurd rfl hne
  | node l k v r =>
      have hstays : (((node l k v r).insert key value).removeNode key).2 = node l k v r := removeNode_insert h
      simp only [inorder, List.mem_append, List.mem_cons] at h
      have hk : k ≠ key := h (k, v) (Or.inr (Or.inl rfl))
      rcases lt_or_gt_of_ne hk with hlt | hlt
      · simpa [remove, insert, removeNode, not_lt_of_gt hlt, hlt] using hstays
      · simpa [remove, insert, removeNode, hlt] using hstays

end PrometheusRing.BinarySearchTree
