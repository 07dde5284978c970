import PrometheusRing.Adt.Lemmas.BinarySearchTree
import PrometheusRing.Adt.Routing

/-!
# The search tree meets the ring's needs

`remove` ignores a changed root and moves values between keys. Neither harms the answers for hashes as long
as the root has key 0 and values are distinct.
-/

namespace PrometheusRing.BinarySearchTree

open Entries AbstractDataType

variable {ν : Type}

/-- An ordered tree with distinct values whose root has key 0. -/
structure Seeded (t : BinarySearchTree Nat ν) : Prop where
  ordered : t.Ordered
  nodup : (t.inorder.map Prod.snd).Nodup
  root : ∃ l v r, t = node l 0 v r

namespace Seeded

variable {t : BinarySearchTree Nat ν} {i j h m : Nat} {d p v w : ν}

theorem sorted (ht : t.Seeded) : Sorted t.inorder := ht.ordered.sorted

theorem owner_eq (ht : t.Seeded) (h : Nat) : owner t h = last? (· ≤ h) t.inorder := by
  rw [show owner t h = t.findMaxSmallerThan (h + 1) from rfl, findMaxSmallerThan_eq ht.ordered]
  exact last?_congr fun e _ => Nat.lt_succ_iff

theorem antitone_le (h : Nat) : Antitone (· ≤ h) := fun _ _ hxy hy => le_trans hxy hy

/-! ## Reading -/

theorem search_mem (ht : t.Seeded) (hd : t.search i = some d) : (i, d) ∈ t.inorder := by
  rw [search_eq ht.ordered] at hd
  obtain ⟨a, b, hab, -⟩ := ht.sorted.first_split hd
  simp [hab]

theorem search_of_mem (ht : t.Seeded) (hi : (i, v) ∈ t.inorder) : ∃ w, t.search i = some w := by
  rw [search_eq ht.ordered, first?]
  have hs : (t.inorder.find? (fun e => e.1 = i)).isSome := List.find?_isSome.mpr ⟨_, hi, by simp⟩
  obtain ⟨e, he⟩ := Option.isSome_iff_exists.mp hs
  exact ⟨e.2, by rw [he]; rfl⟩

theorem key_unique (ht : t.Seeded) (hi : (i, v) ∈ t.inorder) (hj : (j, v) ∈ t.inorder) : i = j :=
  congrArg Prod.fst (List.inj_on_of_nodup_map ht.nodup hi hj rfl)

theorem prior_mem (ht : t.Seeded) (hp : t.findMaxSmallerThan i = some p) :
    ∃ k, (k, p) ∈ t.inorder ∧ k < i := by
  rw [findMaxSmallerThan_eq ht.ordered] at hp
  obtain ⟨k, hk, hki, -⟩ := ht.sorted.mem_of_last? hp
  exact ⟨k, hk, hki⟩

theorem owner_total (ht : t.Seeded) (h : Nat) : ∃ v, owner t h = some v := by
  rw [ht.owner_eq]
  refine Option.ne_none_iff_exists'.mp fun hn => ?_
  obtain ⟨l, v, r, rfl⟩ := ht.root
  exact last?_eq_none.mp hn (0, v) (by simp [inorder]) (Nat.zero_le h)

theorem owner_convex (ht : t.Seeded) {x y z : Nat} (hx : owner t x = some v) (hz : owner t z = some v)
    (hxy : x ≤ y) (hyz : y ≤ z) : owner t y = some v := by
  rw [ht.owner_eq] at hx hz ⊢
  have hgap := (ht.sorted.last?_filter_eq_none ht.nodup (antitone_le z) (hxy.trans hyz)).mpr (hz.trans hx.symm)
  rw [last?_eq_none] at hgap
  rw [ht.sorted.last?_eq_or (antitone_le y) hxy, last?_eq_none.mpr fun e he hey => hgap e he (hey.trans hyz),
    Option.none_or, hx]

/-! ## Adding a value -/

theorem inorder_insert (ht : t.Seeded) (m : Nat) (v : ν) :
    (t.insert m v).inorder = insertEntry m v t.inorder := BinarySearchTree.inorder_insert ht.ordered m v

theorem mem_insert (ht : t.Seeded) (e : Nat × ν) :
    e ∈ (t.insert m v).inorder ↔ e = (m, v) ∨ e ∈ t.inorder := by
  rw [ht.inorder_insert, (perm_insertEntry ht.sorted m v).mem_iff, List.mem_cons]

theorem insert (ht : t.Seeded) (m : Nat) (hv : v ∉ t.list) : (t.insert m v).Seeded where
  ordered := ht.ordered.insert m v
  nodup := by
    rw [ht.inorder_insert, ((perm_insertEntry ht.sorted m v).map Prod.snd).nodup_iff]
    exact List.nodup_cons.mpr ⟨hv, ht.nodup⟩
  root := by
    obtain ⟨l, u, r, rfl⟩ := ht.root
    exact ⟨l, u, r.insert m v, by simp [BinarySearchTree.insert]⟩

theorem nodup_keys_insert (ht : t.Seeded) (hkeys : (t.inorder.map Prod.fst).Nodup)
    (hm : ∀ w, (m, w) ∉ t.inorder) (v : ν) : ((t.insert m v).inorder.map Prod.fst).Nodup := by
  rw [ht.inorder_insert, ((perm_insertEntry ht.sorted m v).map Prod.fst).nodup_iff, List.map_cons,
    List.nodup_cons]
  refine ⟨fun hmem => ?_, hkeys⟩
  obtain ⟨⟨_, w⟩, he, rfl⟩ := List.mem_map.mp hmem
  exact hm w he

theorem owner_insert_self (ht : t.Seeded) (hv : v ∉ t.list) (hm : m ≤ h) (ho : owner t h = owner t m) :
    owner (t.insert m v) h = some v := by
  rw [ht.owner_eq, ht.owner_eq] at ho
  rw [(ht.insert m hv).owner_eq, ht.inorder_insert, last?_insertEntry (· ≤ h) hm,
    (ht.sorted.last?_filter_eq_none ht.nodup (antitone_le h) hm).mpr ho, Option.none_or]

theorem owner_insert_of_not (ht : t.Seeded) (hv : v ∉ t.list) (hn : ¬ (m ≤ h ∧ owner t h = owner t m)) :
    owner (t.insert m v) h = owner t h := by
  rw [ht.owner_eq, ht.owner_eq] at hn
  rw [(ht.insert m hv).owner_eq, ht.inorder_insert, ht.owner_eq]
  by_cases hm : m ≤ h
  · have hne : last? (· ≤ h) (t.inorder.filter (fun e => m < e.1)) ≠ none := fun hc =>
      hn ⟨hm, (ht.sorted.last?_filter_eq_none ht.nodup (antitone_le h) hm).mp hc⟩
    obtain ⟨u, hu⟩ := Option.ne_none_iff_exists'.mp hne
    rw [last?_insertEntry (· ≤ h) hm, ht.sorted.last?_eq_or (antitone_le h) hm, hu]
    rfl
  · exact ht.sorted.last?_insertEntry_of_not (· ≤ h) hm v

/-! ## Removing an index with a value below it -/

/-- The two things `remove` can do to the entries: take out the first entry of the key, or take out its key
and the value of the entry after it. -/
theorem remove_split (ht : t.Seeded) (hd : t.search i = some d) (hp : t.findMaxSmallerThan i = some p) :
    ∃ a b, t.inorder = a ++ (i, d) :: b ∧ (∀ e ∈ a, e.1 < i) ∧ (∀ e ∈ b, i ≤ e.1) ∧
      (t.remove i).Ordered ∧ (∃ l v r, t.remove i = node l 0 v r) ∧
      ((t.HasTwoChildren i = false ∧ (t.remove i).inorder = a ++ b) ∨
        t.HasTwoChildren i ∧ ∃ s b', b = s :: b' ∧ (t.remove i).inorder = a ++ (s.1, d) :: b') := by
  rw [search_eq ht.ordered] at hd
  rw [findMaxSmallerThan_eq ht.ordered] at hp
  obtain ⟨a, b, hab, ha, hb, her⟩ := ht.sorted.first_split hd
  -- the entry below `i` makes `i` positive, so the root is not the removed node
  obtain ⟨k, -, hk, -⟩ := ht.sorted.mem_of_last? hp
  have hrm : t.remove i = (t.removeNode i).2 ∧ ∃ l v r, (t.removeNode i).2 = node l 0 v r := by
    obtain ⟨l, v, r, rfl⟩ := ht.root
    simp [remove, removeNode, show 0 < i by omega]
  refine ⟨a, b, hab, ha, hb, hrm.1 ▸ ht.ordered.removeNode i, hrm.1 ▸ hrm.2, ?_⟩
  rw [hrm.1]
  cases hc : t.HasTwoChildren i with
  | false => exact Or.inl ⟨rfl, by rw [inorder_removeNode_of_not_hasTwoChildren ht.ordered hc, her]⟩
  | true =>
      obtain ⟨a', d', s, b', hab', ha', hrm'⟩ := inorder_removeNode_of_hasTwoChildren ht.ordered hc
      -- both splits stop at the first entry with key `i`
      have heq : a = a' ∧ (i, d) = (i, d') ∧ b = s :: b' := by
        have h := hab.symm.trans hab'
        rw [List.append_eq_append_iff] at h
        rcases h with ⟨c, hc, hc'⟩ | ⟨c, hc, hc'⟩
        · cases c with
          | nil => simpa [hc] using hc'
          | cons f c =>
              obtain ⟨rfl, -⟩ := List.cons.inj hc'
              exact absurd (ha' (i, d) (by simp [hc])) (lt_irrefl i)
        · cases c with
          | nil => simpa [hc, eq_comm] using hc'
          | cons f c =>
              obtain ⟨rfl, -⟩ := List.cons.inj hc'
              exact absurd (ha (i, d') (by simp [hc])) (lt_irrefl i)
      obtain ⟨rfl, hd', rfl⟩ := heq
      exact Or.inr ⟨rfl, s, b', rfl, by rw [hrm', (Prod.mk.inj hd').2]⟩

theorem remove (ht : t.Seeded) (hd : t.search i = some d) (hp : t.findMaxSmallerThan i = some p) :
    (t.remove i).Seeded := by
  obtain ⟨a, b, hab, -, -, hord, hroot, hcase⟩ := ht.remove_split hd hp
  refine ⟨hord, ?_, hroot⟩
  have hnd := ht.nodup
  rw [hab] at hnd
  rcases hcase with ⟨-, hin⟩ | ⟨-, s, b', rfl, hin⟩
  · rw [hin]
    exact hnd.sublist (((List.sublist_cons_self _ _).append_left a).map _)
  · rw [hin]
    simp only [List.map_append, List.map_cons] at hnd ⊢
    exact hnd.sublist (((List.sublist_cons_self _ _).cons_cons _).append_left _)

theorem mem_of_mem_remove (ht : t.Seeded) (hd : t.search i = some d) (hp : t.findMaxSmallerThan i = some p)
    (hw : w ∈ (t.remove i).list) : w ∈ t.list := by
  obtain ⟨a, b, hab, -, -, -, -, hcase⟩ := ht.remove_split hd hp
  rw [list, hab]
  rcases hcase with ⟨-, hin⟩ | ⟨-, s, b', rfl, hin⟩
  · rw [list, hin] at hw
    simp only [List.map_append, List.map_cons, List.mem_append, List.mem_cons] at hw ⊢
    tauto
  · rw [list, hin] at hw
    simp only [List.map_append, List.map_cons, List.mem_append, List.mem_cons] at hw ⊢
    tauto

/-- A value can only move to a greater key. -/
theorem entry_of_remove (ht : t.Seeded) (hd : t.search i = some d) (hp : t.findMaxSmallerThan i = some p)
    (he : (j, w) ∈ (t.remove i).inorder) : ∃ k, k ≤ j ∧ (k, w) ∈ t.inorder := by
  obtain ⟨a, b, hab, -, hb, -, -, hcase⟩ := ht.remove_split hd hp
  rcases hcase with ⟨-, hin⟩ | ⟨-, s, b', rfl, hin⟩
  · refine ⟨j, le_rfl, ?_⟩
    rw [hin, List.mem_append] at he
    rw [hab, List.mem_append, List.mem_cons]
    exact he.imp_right Or.inr
  · rw [hin, List.mem_append, List.mem_cons] at he
    rw [hab]
    rcases he with he | he | he
    · exact ⟨j, le_rfl, by simp [he]⟩
    · obtain ⟨rfl, rfl⟩ := Prod.mk.inj he
      exact ⟨i, hb s List.mem_cons_self, by simp⟩
    · exact ⟨j, le_rfl, by simp [he]⟩

theorem nodup_keys_remove (ht : t.Seeded) (hd : t.search i = some d) (hp : t.findMaxSmallerThan i = some p)
    (hkeys : (t.inorder.map Prod.fst).Nodup) : ((t.remove i).inorder.map Prod.fst).Nodup := by
  obtain ⟨a, b, hab, -, -, -, -, hcase⟩ := ht.remove_split hd hp
  rw [hab, List.map_append, List.map_cons] at hkeys
  rcases hcase with ⟨-, hin⟩ | ⟨-, s, b', rfl, hin⟩
  · rw [hin, List.map_append]
    exact hkeys.sublist ((List.sublist_cons_self _ _).append_left _)
  · rw [hin, List.map_append, List.map_cons]
    exact hkeys.sublist ((List.sublist_cons_self _ _).append_left _)

theorem mem_remove (ht : t.Seeded) (hc : t.HasTwoChildren i = false) (hd : t.search i = some d)
    (hp : t.findMaxSmallerThan i = some p) :
    (j, w) ∈ (t.remove i).inorder ↔ (j, w) ∈ t.inorder ∧ w ≠ d := by
  obtain ⟨a, b, hab, -, -, -, -, hcase⟩ := ht.remove_split hd hp
  have hnd := ht.nodup
  rcases hcase with ⟨-, hin⟩ | ⟨h2, s, b', rfl, hin⟩
  · rw [hab, List.map_append, List.map_cons, List.nodup_append, List.nodup_cons] at hnd
    rw [hin, hab]
    simp only [List.mem_append, List.mem_cons, Prod.mk.injEq]
    constructor
    · rintro (hm | hm)
      · exact ⟨Or.inl hm, hnd.2.2 w (List.mem_map_of_mem hm) d (by simp)⟩
      · exact ⟨Or.inr (Or.inr hm), fun h => hnd.2.1.1 (List.mem_map.mpr ⟨_, hm, h⟩)⟩
    · rintro ⟨hm | ⟨-, rfl⟩ | hm, hw⟩
      · exact Or.inl hm
      · exact absurd rfl hw
      · exact Or.inr hm
  · rw [hc] at h2; cases h2

theorem owner_remove_self (ht : t.Seeded) (hd : t.search i = some d) (hp : t.findMaxSmallerThan i = some p)
    (ho : owner t h = some d) : owner (t.remove i) h = some p := by
  obtain ⟨a, b, hab, ha, hb, -, -, hcase⟩ := ht.remove_split hd hp
  have hnd := ht.nodup
  rw [(ht.remove hd hp).owner_eq]
  rw [ht.owner_eq] at ho
  rw [findMaxSmallerThan_eq ht.ordered] at hp
  rw [hab] at hnd ho hp
  rcases hcase with ⟨-, hin⟩ | ⟨-, s, b', rfl, hin⟩
  · rw [hin, last?_erase_self hnd (antitone_le h) ha hb ho, hp]
  · rw [hin, last?_shift_self hnd (antitone_le h) ha hb ho, hp]

theorem owner_remove_of_ne (ht : t.Seeded) (hd : t.search i = some d)
    (hp : t.findMaxSmallerThan i = some p) (ho : owner t h = some w) (hw : w ≠ d)
    (hm : w ∈ (t.remove i).list) : owner (t.remove i) h = some w := by
  obtain ⟨a, b, hab, -, -, -, -, hcase⟩ := ht.remove_split hd hp
  have hnd := ht.nodup
  rw [(ht.remove hd hp).owner_eq]
  rw [ht.owner_eq] at ho
  rw [hab] at hnd ho
  rcases hcase with ⟨-, hin⟩ | ⟨-, s, b', rfl, hin⟩
  · rw [hin, last?_erase_of_ne hnd (by simpa [ho] using hw), ho]
  · rw [list, hin] at hm
    rw [hin, last?_shift_of_ne hnd ho hw hm]

end Seeded

/-! ## The instance -/

instance : Routing (BinarySearchTree Nat ν) where
  Valid := Seeded
  Entry t i v := (i, v) ∈ t.inorder
  Clean t i := t.HasTwoChildren i = false
  valid_seed v := ⟨by simp [Ordered, inorder, AbstractDataType.insert, AbstractDataType.empty, insert],
    by simp [inorder, AbstractDataType.insert, AbstractDataType.empty, insert], ⟨.nil, v, .nil, rfl⟩⟩
  entry_seed := by simp [inorder, AbstractDataType.insert, AbstractDataType.empty, insert]
  mem_list _ := by simp [AbstractDataType.list, list]
  nodup_list ht := ht.nodup
  entry_index_unique ht hi hj := ht.key_unique hi hj
  entry_of_search ht hd := ht.search_mem hd
  search_of_entry ht hi := ht.search_of_mem hi
  owner_total h ht := ht.owner_total h
  owner_greatest ht ho := by
    rw [ht.owner_eq] at ho
    obtain ⟨k, hk, hkh, hmax⟩ := ht.sorted.mem_of_last? ho
    exact ⟨k, hk, hkh, fun j w hj hjh => hmax (j, w) hj hjh⟩
  owner_convex ht hx hz hxy hyz := ht.owner_convex hx hz hxy hyz
  findMaxSmallerThan_zero ht :=
    (findMaxSmallerThan_eq ht.ordered 0).trans (last?_eq_none.mpr fun _ _ => Nat.not_lt_zero _)
  valid_insert m _ ht hv := ht.insert m hv
  entry_insert_self m _ ht := (ht.mem_insert _).mpr (Or.inl rfl)
  entry_insert_of_ne _ _ ht _ hi := (ht.mem_insert _).mpr (Or.inr hi)
  entry_of_insert ht hi := by simpa using (ht.mem_insert _).mp hi
  owner_insert_self ht hv hm ho := ht.owner_insert_self hv hm ho
  owner_insert_of_not ht hv hn := ht.owner_insert_of_not hv hn
  prior_ne ht hd hp := by
    rintro rfl
    obtain ⟨k, hk, hki⟩ := ht.prior_mem hp
    exact hki.ne (ht.key_unique hk (ht.search_mem hd))
  valid_remove ht hd hp := ht.remove hd hp
  mem_list_of_remove ht hd hp hw := ht.mem_of_mem_remove hd hp hw
  owner_remove_self ht hd hp ho := ht.owner_remove_self hd hp ho
  owner_remove_of_ne ht hd hp ho hw hm := ht.owner_remove_of_ne hd hp ho hw hm
  entry_remove ht hc hd hp := ht.mem_remove hc hd hp

end PrometheusRing.BinarySearchTree
