import PrometheusRing.Adt.Lemmas.BinarySearchTree

/-!
# The search tree over runs of calls

Whatever is called, the tree stays ordered, so every query answers as a scan of the inorder list does.
`remove` falls short of its name twice: it cannot take out a root with at most one child, and a node with two
children keeps its value under the key of its successor.
-/

namespace PrometheusRing.BinarySearchTree

open Entries

variable {κ ν : Type} [LinearOrder κ]

theorem Ordered.call {t : BinarySearchTree κ ν} (h : t.Ordered) (op : Op κ ν) : (call op t).2.Ordered := by
  cases op with
  | insert key value => exact h.insert key value
  | update key newValue => exact h.update key newValue
  | remove key => exact h.remove key

theorem run_ordered (ops : List (Op κ ν)) : (machine.run ops nil).Ordered :=
  Machine.run_invariant Ordered (fun _ op h => h.call op) ops trivial

/-! ## Queries and a linear scan -/

theorem queries_agree_with_scan (ops : List (Op κ ν)) (key : κ) (value : ν) :
    let t : BinarySearchTree κ ν := machine.run ops nil
    Sorted t.inorder ∧
      t.search key = first? (· = key) t.inorder ∧
      t.findMaxSmallerThan key = last? (· < key) t.inorder ∧
      t.findMinGreaterThan key = first? (key < ·) t.inorder ∧
      (t.insert key value).inorder = insertEntry key value t.inorder ∧
      (t.update key value).1 = first? (· = key) t.inorder ∧
      (t.update key value).2.inorder = updateFirst key value t.inorder := by
  intro t
  have h : t.Ordered := run_ordered ops
  exact ⟨h.sorted, search_eq h key, findMaxSmallerThan_eq h key, findMinGreaterThan_eq h key,
    inorder_insert h key value, update_fst h key value, inorder_update h key value⟩

/-! ## The keys that a removal leaves -/

/-- The keys in inorder. -/
def keys (t : BinarySearchTree κ ν) : List κ := t.inorder.map Prod.fst

theorem Ordered.keys_removeNode {t : BinarySearchTree κ ν} (h : t.Ordered) (key : κ) :
    (t.removeNode key).2.keys = t.keys.erase key := by
  cases hc : t.HasTwoChildren key with
  | true =>
      obtain ⟨a, v, s, b, hin, ha, hrm⟩ := inorder_removeNode_of_hasTwoChildren h hc
      have hnot : key ∉ a.map Prod.fst := by
        intro hm
        obtain ⟨e, he, hek⟩ := List.mem_map.mp hm
        exact (ha e he).ne hek
      rw [keys, keys, hin, hrm, List.map_append, List.map_append, List.erase_append_right _ hnot]
      simp
  | false => rw [keys, keys, inorder_removeNode_of_not_hasTwoChildren h hc, map_fst_eraseFirst]

omit [LinearOrder κ] in
theorem mem_keys_root (l r : BinarySearchTree κ ν) (k : κ) (v : ν) : k ∈ (node l k v r).keys := by
  simp [keys, inorder]

theorem mem_keys_of_rootStays {t : BinarySearchTree κ ν} {key : κ} (hr : t.RootStays key) : key ∈ t.keys := by
  cases t with
  | nil => cases hr
  | node l k v r =>
      simp only [RootStays, Bool.and_eq_true, decide_eq_true_eq] at hr
      exact hr.1 ▸ mem_keys_root l r k v

theorem Ordered.search_eq_none {t : BinarySearchTree κ ν} (h : t.Ordered) {key : κ} (hk : key ∉ t.keys) :
    t.search key = none := by
  rw [search_eq h, first?, Option.map_eq_none_iff, List.find?_eq_none]
  intro e he hek
  exact hk (List.mem_map.mpr ⟨e, he, by simpa using hek⟩)

/-- In every reachable tree `remove` takes one occurrence of the key out exactly if the key is not that of a
root with at most one child. -/
theorem remove_erases_key (ops : List (Op κ ν)) (key : κ) :
    let t : BinarySearchTree κ ν := machine.run ops nil
    ((t.remove key).keys = t.keys.erase key ∧ (t.keys.Nodup → (t.remove key).search key = none)) ↔
      t.RootStays key = false := by
  intro t
  have h : t.Ordered := run_ordered ops
  constructor
  · intro hrm
    by_contra hr
    rw [Bool.not_eq_false] at hr
    have hlen := congrArg List.length hrm.1
    rw [remove_eq, if_pos hr, List.length_erase_of_mem (mem_keys_of_rootStays hr)] at hlen
    have hpos := List.length_pos_of_mem (mem_keys_of_rootStays hr)
    omega
  · intro hr
    have heq : t.remove key = (t.removeNode key).2 := by rw [remove_eq, hr]; rfl
    have hkeys : (t.remove key).keys = t.keys.erase key := by rw [heq, h.keys_removeNode]
    refine ⟨hkeys, fun hnd => (h.remove key).search_eq_none ?_⟩
    rw [hkeys]
    exact hnd.not_mem_erase

/-- A tree with one node keeps it. -/
theorem single_node_not_removed :
    ¬ ∀ (ops : List (Op Nat String)) (key : Nat),
        let t : BinarySearchTree Nat String := machine.run ops nil
        (t.remove key).keys = t.keys.erase key ∧ (t.keys.Nodup → (t.remove key).search key = none) := by
  intro h
  have hrm := (h [.insert 5 "five"] 5).1
  revert hrm
  decide

/-! ## The entries that a removal leaves -/

/-- Removing the key puts its value under another key: its node has two children, and the next greater key
holds a different value. -/
def Displaces (t : BinarySearchTree κ ν) (key : κ) : Prop :=
  t.HasTwoChildren key ∧ t.findMinGreaterThan key ≠ t.search key

instance [DecidableEq ν] (t : BinarySearchTree κ ν) (key : κ) : Decidable (t.Displaces key) :=
  inferInstanceAs (Decidable (_ ∧ _))

/-- Keys are inserted only while they are absent. -/
def Fresh (t : BinarySearchTree κ ν) : Op κ ν → Prop
  | .insert key _ => t.search key = none
  | .update _ _ | .remove _ => True

/-- Keys are inserted only while they are absent, and no removal displaces a value. -/
def Undisplaced (t : BinarySearchTree κ ν) : Op κ ν → Prop
  | .insert key _ => t.search key = none
  | .update _ _ => True
  | .remove key => ¬ t.Displaces key

instance [DecidableEq ν] (t : BinarySearchTree κ ν) : DecidablePred t.Fresh
  | .insert key _ => inferInstanceAs (Decidable (t.search key = none))
  | .update _ _ => inferInstanceAs (Decidable True)
  | .remove _ => inferInstanceAs (Decidable True)

instance [DecidableEq ν] (t : BinarySearchTree κ ν) : DecidablePred t.Undisplaced
  | .insert key _ => inferInstanceAs (Decidable (t.search key = none))
  | .update _ _ => inferInstanceAs (Decidable True)
  | .remove key => inferInstanceAs (Decidable (¬ t.Displaces key))

/-- The entries that were inserted, or updated while the key was there. -/
def written (es : Entries κ ν) : Op κ ν × Outcome κ ν → Entries κ ν
  | (.insert key value, _) => (key, value) :: es
  | (.update key newValue, .value (some _)) => (key, newValue) :: es
  | _ => es

theorem Ordered.search_eq_some {t : BinarySearchTree κ ν} (h : t.Ordered) (hnd : t.keys.Nodup) {key : κ}
    {v : ν} : t.search key = some v ↔ (key, v) ∈ t.inorder := by
  rw [search_eq h, first?, Option.map_eq_some_iff]
  constructor
  · rintro ⟨e, he, rfl⟩
    obtain rfl : e.1 = key := by simpa using List.find?_some he
    exact List.mem_of_find?_eq_some he
  · intro hm
    have hs : (t.inorder.find? (fun e => e.1 = key)).isSome := List.find?_isSome.mpr ⟨_, hm, by simp⟩
    obtain ⟨e, he⟩ := Option.isSome_iff_exists.mp hs
    have hek : e.1 = key := by simpa using List.find?_some he
    have hev : e = (key, v) := List.inj_on_of_nodup_map hnd (List.mem_of_find?_eq_some he) hm hek
    exact ⟨e, he, by rw [hev]⟩

theorem Ordered.nodup_call {t : BinarySearchTree κ ν} (h : t.Ordered) (hnd : t.keys.Nodup) (op : Op κ ν)
    (hop : t.Fresh op) : (machine op t).2.keys.Nodup := by
  cases op with
  | insert key value =>
      change (t.insert key value).keys.Nodup
      rw [keys, inorder_insert h, ((perm_insertEntry h.sorted key value).map Prod.fst).nodup_iff, List.map_cons,
        List.nodup_cons]
      refine ⟨fun hm => ?_, hnd⟩
      obtain ⟨e, he, rfl⟩ := List.mem_map.mp hm
      have hsome : t.search e.1 = some e.2 := (h.search_eq_some hnd).mpr he
      exact absurd hop (by simp [Fresh, hsome])
  | update key newValue =>
      change (t.update key newValue).2.keys.Nodup
      rw [keys, inorder_update h, map_fst_updateFirst]
      exact hnd
  | remove key =>
      change (t.remove key).keys.Nodup
      rw [remove_eq]
      split
      · exact hnd
      · rw [h.keys_removeNode]
        exact hnd.erase key

theorem rootStays_not_hasTwoChildren {t : BinarySearchTree κ ν} {key : κ} (hr : t.RootStays key) :
    t.HasTwoChildren key = false := by
  cases t with
  | nil => rfl
  | node l k v r =>
      simp only [RootStays, Bool.and_eq_true, decide_eq_true_eq, Bool.or_eq_true] at hr
      obtain ⟨rfl, hc⟩ := hr
      rcases hc with hc | hc <;> simp [HasTwoChildren, hc]

/-- With two children and different keys, the successor is the next greater key and takes the value over. -/
theorem Ordered.remove_of_hasTwoChildren {t : BinarySearchTree κ ν} (h : t.Ordered) (hnd : t.keys.Nodup)
    {key : κ} (hc : t.HasTwoChildren key) :
    ∃ a v s b, t.inorder = a ++ (key, v) :: s :: b ∧ (t.remove key).inorder = a ++ (s.1, v) :: b ∧
      t.search key = some v ∧ t.findMinGreaterThan key = some s.2 ∧ s.1 ≠ key := by
  have hr : t.RootStays key = false := by
    by_contra hr
    rw [rootStays_not_hasTwoChildren (by simpa using hr)] at hc
    cases hc
  obtain ⟨a, v, s, b, hin, ha, hrm⟩ := inorder_removeNode_of_hasTwoChildren h hc
  have hs : s.1 ≠ key := by
    rw [keys, hin] at hnd
    simp only [List.map_append, List.map_cons, List.nodup_append, List.nodup_cons, List.mem_cons] at hnd
    exact fun hs => hnd.2.1.1 (Or.inl hs.symm)
  have hlt : key < s.1 := by
    have hsorted := h.sorted
    rw [hin, sorted_append, sorted_cons] at hsorted
    exact lt_of_le_of_ne (hsorted.2.1.1 s List.mem_cons_self) hs.symm
  refine ⟨a, v, s, b, hin, by rw [remove_eq, hr]; exact hrm, ?_, ?_, hs⟩
  · exact (h.search_eq_some hnd).mpr (by simp [hin])
  · have hleft : a.find? (fun e => key < e.1) = none := by
      simp only [List.find?_eq_none, decide_eq_true_eq]
      exact fun e he => not_lt.mpr (ha e he).le
    rw [findMinGreaterThan_eq h, first?, hin, List.find?_append, hleft, Option.none_or,
      List.find?_cons_of_neg (by simp), List.find?_cons_of_pos (by simpa using hlt)]
    rfl

/-- A removal that displaces nothing leaves the other entries of the tree, and no new ones. -/
theorem Ordered.remove_of_not_displaces {t : BinarySearchTree κ ν} (h : t.Ordered) (hnd : t.keys.Nodup)
    {key : κ} (hd : ¬ t.Displaces key) :
    (t.remove key).inorder = t.inorder ∨ (t.remove key).inorder = eraseFirst key t.inorder := by
  cases hc : t.HasTwoChildren key with
  | true =>
      obtain ⟨a, v, s, b, hin, hrm, hv, hs, -⟩ := h.remove_of_hasTwoChildren hnd hc
      have hsv : s.2 = v := by
        by_contra hne
        exact hd ⟨hc, by rw [hv, hs]; simpa using hne⟩
      right
      have hnot : ∀ e ∈ a, ¬ decide (e.1 = key) = true := by
        intro e he hek
        rw [keys, hin, List.map_append, List.nodup_append] at hnd
        exact hnd.2.2 e.1 (List.mem_map_of_mem he) key (by simp) (by simpa using hek)
      rw [hrm, hin, eraseFirst, List.eraseP_append_right _ hnot, List.eraseP_cons_of_pos (by simp), ← hsv]
  | false =>
      rw [remove_eq]
      split
      · exact Or.inl rfl
      · exact Or.inr (inorder_removeNode_of_not_hasTwoChildren h hc)

theorem Ordered.search_remove_iff {t : BinarySearchTree κ ν} (h : t.Ordered) (hnd : t.keys.Nodup) (key : κ) :
    (∀ k, k ≠ key → (t.remove key).search k = t.search k) ↔ ¬ t.Displaces key := by
  constructor
  · intro hframe hd
    obtain ⟨a, v, s, b, hin, hrm, hv, hs, hne⟩ := h.remove_of_hasTwoChildren hnd hd.1
    have hnd' : (t.remove key).keys.Nodup := h.nodup_call hnd (.remove key) trivial
    have hafter : (t.remove key).search s.1 = some v :=
      ((h.remove key).search_eq_some hnd').mpr (by simp [hrm])
    have hbefore : t.search s.1 = some s.2 := (h.search_eq_some hnd).mpr (by simp [hin])
    rw [hframe s.1 hne, hbefore] at hafter
    exact hd.2 (by rw [hs, hv, hafter])
  · intro hd k hk
    rw [search_eq (h.remove key), search_eq h]
    rcases h.remove_of_not_displaces hnd hd with heq | heq
    · rw [heq]
    · rw [heq, first?_eraseFirst_of_ne hk]

theorem Undisplaced.fresh {t : BinarySearchTree κ ν} {op : Op κ ν} (h : t.Undisplaced op) : t.Fresh op := by
  cases op with
  | insert key value => exact h
  | update key newValue => trivial
  | remove key => trivial

/-- An ordered tree with different keys, all of whose entries are among `es`. -/
structure Accounted (t : BinarySearchTree κ ν) (es : Entries κ ν) : Prop where
  ordered : t.Ordered
  nodup : t.keys.Nodup
  mem : ∀ e ∈ t.inorder, e ∈ es

theorem Accounted.step {t : BinarySearchTree κ ν} {es : Entries κ ν} (h : t.Accounted es) {op : Op κ ν}
    (hop : t.Undisplaced op) : (machine op t).2.Accounted (written es (op, (machine op t).1)) where
  ordered := h.ordered.call op
  nodup := h.ordered.nodup_call h.nodup op hop.fresh
  mem := by
    intro e he
    cases op with
    | insert key value =>
        change e ∈ (t.insert key value).inorder at he
        change e ∈ (key, value) :: es
        rw [inorder_insert h.ordered, (perm_insertEntry h.ordered.sorted key value).mem_iff] at he
        rcases List.mem_cons.mp he with rfl | he
        · exact List.mem_cons_self
        · exact List.mem_cons_of_mem _ (h.mem e he)
    | update key newValue =>
        change e ∈ (t.update key newValue).2.inorder at he
        change e ∈ written es (.update key newValue, .value (t.update key newValue).1)
        rw [inorder_update h.ordered] at he
        rw [update_fst h.ordered]
        rcases mem_updateFirst he with he | ⟨rfl, hs⟩
        · cases first? (· = key) t.inorder with
          | none => exact h.mem e he
          | some old => exact List.mem_cons_of_mem _ (h.mem e he)
        · obtain ⟨old, hold⟩ := Option.isSome_iff_exists.mp hs
          rw [hold]
          exact List.mem_cons_self
    | remove key =>
        change e ∈ (t.remove key).inorder at he
        rcases h.ordered.remove_of_not_displaces h.nodup hop with heq | heq
        · exact h.mem e (heq ▸ he)
        · exact h.mem e (List.mem_of_mem_eraseP (heq ▸ he))

theorem run_nodup {ops : List (Op κ ν)} (hg : machine.Guarded Fresh ops (nil : BinarySearchTree κ ν)) :
    (machine.run ops (nil : BinarySearchTree κ ν)).keys.Nodup :=
  (hg.invariant (fun t => t.Ordered ∧ t.keys.Nodup)
    (fun _ op h hop => ⟨h.1.call op, h.1.nodup_call h.2 op hop⟩) ⟨trivial, List.nodup_nil⟩).2

theorem run_accounted {ops : List (Op κ ν)}
    (hg : machine.Guarded Undisplaced ops (nil : BinarySearchTree κ ν)) :
    (machine.run ops (nil : BinarySearchTree κ ν)).Accounted
      (Machine.observe written [] (machine.trace ops (nil : BinarySearchTree κ ν))) :=
  hg.refines Accounted (fun _ _ _ h hop => h.step hop) ⟨trivial, List.nodup_nil, by simp [inorder]⟩

/-- Where keys are inserted only while absent, a removal leaves every other entry as it is exactly if it
displaces no value; and as long as none does, every value stands under a key it was written under. -/
theorem remove_leaves_others (ops : List (Op κ ν)) (key : κ)
    (hg : machine.Guarded Fresh ops (nil : BinarySearchTree κ ν)) :
    let t : BinarySearchTree κ ν := machine.run ops nil
    (((∀ k, k ≠ key → (t.remove key).search k = t.search k) ∧
        ∀ e ∈ t.inorder, e.1 ≠ key → e ∈ (t.remove key).inorder) ↔ ¬ t.Displaces key) ∧
      (machine.Guarded Undisplaced ops (nil : BinarySearchTree κ ν) → ¬ t.Displaces key →
        ∀ k v, (t.remove key).search k = some v →
          (k, v) ∈ Machine.observe written [] (machine.trace ops (nil : BinarySearchTree κ ν))) := by
  intro t
  have h : t.Ordered := run_ordered ops
  have hnd : t.keys.Nodup := run_nodup hg
  have hnd' : (t.remove key).keys.Nodup := h.nodup_call hnd (.remove key) trivial
  refine ⟨⟨fun hframe => (h.search_remove_iff hnd key).mp hframe.1, fun hd => ?_⟩, ?_⟩
  · have hframe := (h.search_remove_iff hnd key).mpr hd
    refine ⟨hframe, ?_⟩
    intro e he hne
    rw [← Prod.eta e, ← (h.remove key).search_eq_some hnd', hframe e.1 hne]
    exact (h.search_eq_some hnd).mpr he
  · intro hundisplaced hd k v hv
    have hremove : t.Undisplaced (.remove key) := hd
    have hafter := (run_accounted hundisplaced).step hremove
    exact hafter.mem _ ((hafter.ordered.search_eq_some hafter.nodup).mp hv)

/-- Two children, removed from below its root and left with every value under its own key. -/
theorem remove_leaves_others_leaf :
    let ops : List (Op Nat String) := [.insert 10 "value10", .insert 5 "value5", .insert 15 "value15"]
    let t := machine.run ops nil
    machine.Guarded Undisplaced ops (nil : BinarySearchTree Nat String) ∧ ¬ t.Displaces 5 ∧
      (∀ k, k ≠ 5 → (t.remove 5).search k = t.search k) :=
  ⟨by decide, by decide,
    ((remove_leaves_others [.insert 10 "value10", .insert 5 "value5", .insert 15 "value15"] 5
      (by decide)).1.mpr (by decide)).1⟩

/-- The tree of the repository's own removal test: 15 now answers with the value of 10. -/
theorem remove_root_displaces :
    ¬ ∀ (ops : List (Op Nat String)) (key : Nat),
        machine.Guarded Fresh ops (nil : BinarySearchTree Nat String) →
        let t := machine.run ops nil
        (∀ k, k ≠ key → (t.remove key).search k = t.search k) ∧
          ∀ e ∈ t.inorder, e.1 ≠ key → e ∈ (t.remove key).inorder := by
  intro h
  have hrm := (h [.insert 10 "value10", .insert 5 "value5", .insert 15 "value15"] 10 (by decide)).1 15
    (by decide)
  revert hrm
  decide

end PrometheusRing.BinarySearchTree
