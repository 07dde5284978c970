import Mathlib.Order.Lattice
import Mathlib.Order.Monotone.Basic
import Mathlib.Data.List.Nodup

/-!
# Entries in key order

What an ordered container holds, as a list of key and value pairs in key order. A key may occur more than
once; the entries of one key stand next to each other, the oldest first.
-/

namespace PrometheusRing

/-- Key and value pairs, in the order in which a container lists them. -/
abbrev Entries (κ ν : Type) := List (κ × ν)

namespace Entries

variable {κ ν : Type} [LinearOrder κ]

/-- The keys never decrease. -/
def Sorted (l : Entries κ ν) : Prop := l.Pairwise (fun a b => a.1 ≤ b.1)

/-- The value of the first entry whose key passes the test. -/
def first? (p : κ → Prop) [DecidablePred p] (l : Entries κ ν) : Option ν :=
  (l.find? (fun e => p e.1)).map Prod.snd

/-- The value of the last entry whose key passes the test. -/
def last? (p : κ → Prop) [DecidablePred p] (l : Entries κ ν) : Option ν :=
  (l.filter (fun e => p e.1)).getLast?.map Prod.snd

/-- Put an entry right after the entries with a key at most its own. -/
def insertEntry (k : κ) (v : ν) (l : Entries κ ν) : Entries κ ν :=
  l.filter (fun e => e.1 ≤ k) ++ (k, v) :: l.filter (fun e => k < e.1)

/-- Take out the first entry with the key. -/
def eraseFirst (k : κ) (l : Entries κ ν) : Entries κ ν := l.eraseP (fun e => e.1 = k)

/-- Give the first entry with the key a new value. -/
def updateFirst (k : κ) (v : ν) : Entries κ ν → Entries κ ν
  | [] => []
  | e :: l => if e.1 = k then (k, v) :: l else e :: updateFirst k v l

/-! ## Sorted lists -/

theorem sorted_append {l r : Entries κ ν} :
    Sorted (l ++ r) ↔ Sorted l ∧ Sorted r ∧ ∀ a ∈ l, ∀ b ∈ r, a.1 ≤ b.1 := List.pairwise_append

theorem sorted_cons {e : κ × ν} {l : Entries κ ν} :
    Sorted (e :: l) ↔ (∀ b ∈ l, e.1 ≤ b.1) ∧ Sorted l := List.pairwise_cons

theorem Sorted.split {l : Entries κ ν} (h : Sorted l) (k : κ) :
    l = l.filter (fun e => e.1 ≤ k) ++ l.filter (fun e => k < e.1) := by
  induction l with
  | nil => rfl
  | cons e l ih =>
      obtain ⟨he, hl⟩ := sorted_cons.mp h
      rcases le_or_gt e.1 k with hk | hk
      · simpa [hk, not_lt.mpr hk] using ih hl
      · have hle : l.filter (fun e => e.1 ≤ k) = [] :=
          List.filter_eq_nil_iff.mpr fun b hb => by simpa using hk.trans_le (he b hb)
        have hlt : l.filter (fun e => k < e.1) = l :=
          List.filter_eq_self.mpr fun b hb => by simpa using hk.trans_le (he b hb)
        simp [hle, hlt, hk, not_le.mpr hk]

theorem perm_insertEntry {l : Entries κ ν} (h : Sorted l) (k : κ) (v : ν) :
    (insertEntry k v l).Perm ((k, v) :: l) := by
  have hp : (insertEntry k v l).Perm
      ((k, v) :: (l.filter (fun e => e.1 ≤ k) ++ l.filter (fun e => k < e.1))) := List.perm_middle
  rwa [← h.split k] at hp

theorem Sorted.first_split {l : Entries κ ν} (h : Sorted l) {k : κ} {v : ν} (hv : first? (· = k) l = some v) :
    ∃ a b, l = a ++ (k, v) :: b ∧ (∀ e ∈ a, e.1 < k) ∧ (∀ e ∈ b, k ≤ e.1) ∧
      eraseFirst k l = a ++ b := by
  induction l with
  | nil => cases hv
  | cons e l ih =>
      obtain ⟨he, hl⟩ := sorted_cons.mp h
      obtain ⟨x, u⟩ := e
      by_cases hx : x = k
      · subst hx
        obtain rfl : u = v := by simpa [first?] using hv
        exact ⟨[], l, rfl, by simp, he, by simp [eraseFirst]⟩
      · obtain ⟨a, b, rfl, ha, hb, her⟩ := ih hl (by simpa [first?, hx] using hv)
        have hxk : x < k := lt_of_le_of_ne (he (k, v) (by simp)) hx
        refine ⟨(x, u) :: a, b, rfl, ?_, hb, by simpa [eraseFirst, hx] using her⟩
        intro e hm
        rcases List.mem_cons.mp hm with rfl | hm
        · exact hxk
        · exact ha e hm

/-! ## One key taken out or rewritten -/

theorem map_fst_eraseFirst (k : κ) (l : Entries κ ν) :
    (eraseFirst k l).map Prod.fst = (l.map Prod.fst).erase k := by
  induction l with
  | nil => rfl
  | cons e l ih =>
      rw [eraseFirst, List.eraseP_cons, List.map_cons, List.erase_cons]
      by_cases he : e.1 = k
      · simp [he]
      · simp only [he, decide_false, cond_false, List.map_cons, beq_iff_eq, ↓reduceIte]
        rw [← ih, eraseFirst]

theorem find?_eraseFirst_of_ne {k j : κ} (hj : j ≠ k) (l : Entries κ ν) :
    (eraseFirst k l).find? (fun e => e.1 = j) = l.find? (fun e => e.1 = j) := by
  induction l with
  | nil => rfl
  | cons e l ih =>
      rw [eraseFirst, List.eraseP_cons]
      by_cases he : e.1 = k
      · simp [he, hj.symm]
      · simp only [he, decide_false, cond_false, List.find?_cons]
        rw [← ih, eraseFirst]

theorem first?_eraseFirst_of_ne {k j : κ} (hj : j ≠ k) (l : Entries κ ν) :
    first? (· = j) (eraseFirst k l) = first? (· = j) l := by
  rw [first?, find?_eraseFirst_of_ne hj, first?]

theorem updateFirst_append_left {k : κ} {v : ν} {l r : Entries κ ν} (hr : ∀ e ∈ r, e.1 ≠ k) :
    updateFirst k v (l ++ r) = updateFirst k v l ++ r := by
  induction l with
  | nil =>
      induction r with
      | nil => rfl
      | cons e r ih =>
          have ihr := ih fun f hf => hr f (List.mem_cons_of_mem _ hf)
          simp only [List.nil_append, updateFirst] at ihr ⊢
          rw [if_neg (hr e List.mem_cons_self), ihr]
  | cons e l ih =>
      simp only [List.cons_append, updateFirst]
      split
      · rfl
      · rw [ih, List.cons_append]

theorem updateFirst_append_right {k : κ} {v : ν} {l r : Entries κ ν} (hl : ∀ e ∈ l, e.1 ≠ k) :
    updateFirst k v (l ++ r) = l ++ updateFirst k v r := by
  induction l with
  | nil => rfl
  | cons e l ih =>
      rw [List.cons_append, updateFirst, if_neg (hl e List.mem_cons_self),
        ih fun f hf => hl f (List.mem_cons_of_mem _ hf), List.cons_append]

theorem map_fst_updateFirst (k : κ) (v : ν) (l : Entries κ ν) :
    (updateFirst k v l).map Prod.fst = l.map Prod.fst := by
  induction l with
  | nil => rfl
  | cons e l ih =>
      rw [updateFirst]
      split
      · rename_i he
        rw [List.map_cons, List.map_cons, he]
      · rw [List.map_cons, List.map_cons, ih]

theorem key_mem_of_mem_updateFirst {k : κ} {v : ν} {l : Entries κ ν} {e : κ × ν}
    (he : e ∈ updateFirst k v l) : ∃ f ∈ l, f.1 = e.1 := by
  have hk : e.1 ∈ (updateFirst k v l).map Prod.fst := List.mem_map.mpr ⟨e, he, rfl⟩
  rw [map_fst_updateFirst] at hk
  exact List.mem_map.mp hk

/-- Only the first entry with the key is rewritten, and only if there is one. -/
theorem mem_updateFirst {k : κ} {v : ν} {l : Entries κ ν} {e : κ × ν} (he : e ∈ updateFirst k v l) :
    e ∈ l ∨ e = (k, v) ∧ (first? (· = k) l).isSome := by
  induction l with
  | nil => cases he
  | cons f l ih =>
      rw [updateFirst] at he
      split at he
      · rename_i hf
        rcases List.mem_cons.mp he with rfl | he
        · exact Or.inr ⟨rfl, by simp [first?, hf]⟩
        · exact Or.inl (List.mem_cons_of_mem _ he)
      · rename_i hf
        rcases List.mem_cons.mp he with rfl | he
        · exact Or.inl List.mem_cons_self
        · refine (ih he).imp (List.mem_cons_of_mem _) (And.imp_right fun hs => ?_)
          simpa [first?, hf] using hs

/-! ## The last entry that passes a test -/

section

variable {p q : κ → Prop} [DecidablePred p] [DecidablePred q]

omit [LinearOrder κ] in
theorem last?_append (l r : Entries κ ν) : last? p (l ++ r) = (last? p r).or (last? p l) := by
  simp only [last?, List.filter_append, List.getLast?_append]
  cases (r.filter (fun e => p e.1)).getLast? <;> rfl

omit [LinearOrder κ] in
theorem last?_cons (e : κ × ν) (l : Entries κ ν) :
    last? p (e :: l) = (last? p l).or (if p e.1 then some e.2 else none) := by
  rw [← List.singleton_append, last?_append]
  by_cases he : p e.1 <;> simp [last?, he]

omit [LinearOrder κ] in
theorem last?_eq_none {l : Entries κ ν} : last? p l = none ↔ ∀ e ∈ l, ¬ p e.1 := by
  simp [last?]

omit [LinearOrder κ] in
theorem last?_congr {l : Entries κ ν} (h : ∀ e ∈ l, p e.1 ↔ q e.1) : last? p l = last? q l := by
  rw [last?, last?, List.filter_congr fun e he => decide_eq_decide.mpr (h e he)]

theorem Sorted.mem_of_last? {l : Entries κ ν} (hl : Sorted l) {v : ν} (h : last? p l = some v) :
    ∃ k, (k, v) ∈ l ∧ p k ∧ ∀ e ∈ l, p e.1 → e.1 ≤ k := by
  induction l with
  | nil => cases h
  | cons e l ih =>
      obtain ⟨he, hl⟩ := sorted_cons.mp hl
      rw [last?_cons] at h
      cases hr : last? p l with
      | none =>
          rw [hr, Option.none_or] at h
          obtain ⟨hp, hv⟩ : p e.1 ∧ e.2 = v := by simpa using h
          refine ⟨e.1, by simp [← hv], hp, ?_⟩
          intro f hf hpf
          rcases List.mem_cons.mp hf with rfl | hf
          · exact le_rfl
          · exact absurd hpf (last?_eq_none.mp hr f hf)
      | some w =>
          rw [hr, Option.some_or, Option.some.injEq] at h
          obtain ⟨k, hk, hpk, hmax⟩ := ih hl (by rw [hr, h])
          refine ⟨k, List.mem_cons_of_mem _ hk, hpk, ?_⟩
          intro f hf hpf
          rcases List.mem_cons.mp hf with rfl | hf
          · exact he _ hk
          · exact hmax f hf hpf

omit [LinearOrder κ] in
theorem mem_values_of_last? {l : Entries κ ν} {v : ν} (h : last? p l = some v) : v ∈ l.map Prod.snd := by
  obtain ⟨e, he, rfl⟩ := Option.map_eq_some_iff.mp h
  exact List.mem_map_of_mem (List.mem_of_mem_filter (List.mem_of_getLast? he))

/-! ## Insertion and the last entry -/

/-- The entries beyond `m` decide whether a bound above `m` finds anything later than `m` does. -/
theorem Sorted.last?_eq_or {l : Entries κ ν} (hl : Sorted l) (hp : Antitone p) {m : κ} (hm : p m) :
    last? p l = (last? p (l.filter (fun e => m < e.1))).or (last? (· ≤ m) l) := by
  have hbeyond : last? (· ≤ m) (l.filter (fun e => m < e.1)) = none :=
    last?_eq_none.mpr fun e he => not_le.mpr (by simpa using (List.mem_filter.mp he).2)
  have hupTo : last? p (l.filter (fun e => e.1 ≤ m)) = last? (· ≤ m) (l.filter (fun e => e.1 ≤ m)) := by
    refine last?_congr fun e he => ?_
    have hem : e.1 ≤ m := by simpa using (List.mem_filter.mp he).2
    exact ⟨fun _ => hem, fun _ => hp hem hm⟩
  conv_lhs => rw [hl.split m, last?_append, hupTo]
  conv_rhs => rw [hl.split m, last?_append, hbeyond, Option.none_or]
  rw [← hl.split m]

theorem Sorted.last?_insertEntry_of_not {l : Entries κ ν} (hl : Sorted l) (p : κ → Prop) [DecidablePred p]
    {m : κ} (hm : ¬ p m) (v : ν) : last? p (insertEntry m v l) = last? p l := by
  conv_rhs => rw [hl.split m]
  rw [insertEntry, last?_append, last?_append, last?_cons, if_neg hm, Option.or_none]

theorem last?_insertEntry {l : Entries κ ν} (p : κ → Prop) [DecidablePred p] {m : κ} (hm : p m) (v : ν) :
    last? p (insertEntry m v l) = (last? p (l.filter (fun e => m < e.1))).or (some v) := by
  rw [insertEntry, last?_append, last?_cons, if_pos hm]
  cases last? p (l.filter (fun e => m < e.1)) <;> rfl

/-- Where values are distinct, nothing lies between `m` and a bound exactly if the bound finds what `m`
finds. -/
theorem Sorted.last?_filter_eq_none {l : Entries κ ν} (hl : Sorted l) (hnd : (l.map Prod.snd).Nodup)
    (hp : Antitone p) {m : κ} (hm : p m) :
    last? p (l.filter (fun e => m < e.1)) = none ↔ last? p l = last? (· ≤ m) l := by
  rw [hl.last?_eq_or hp hm]
  cases hB : last? p (l.filter (fun e => m < e.1)) with
  | none => simp
  | some w =>
      simp only [reduceCtorEq, Option.some_or, false_iff]
      intro h
      obtain ⟨k, hk, hkm, _⟩ := hl.mem_of_last? h.symm
      obtain ⟨f, hf, hfw⟩ := List.mem_map.mp (mem_values_of_last? hB)
      obtain ⟨hf, hfm⟩ := List.mem_filter.mp hf
      -- the two entries hold the same value, so they are the same entry
      have hef : (k, w) = f := List.inj_on_of_nodup_map hnd hk hf hfw.symm
      subst hef
      exact absurd hkm (not_le.mpr (by simpa using hfm))

/-! ## Removal and the last entry -/

section removal

variable {a b : Entries κ ν} {i : κ} {d : ν}

omit [LinearOrder κ] in
theorem last?_eq_entry (hnd : ((a ++ (i, d) :: b).map Prod.snd).Nodup) :
    last? p (a ++ (i, d) :: b) = some d ↔ p i ∧ last? p b = none := by
  simp only [List.map_append, List.map_cons, List.nodup_append, List.nodup_cons] at hnd
  obtain ⟨-, ⟨hdb, -⟩, hab⟩ := hnd
  rw [last?_append, last?_cons]
  cases hb : last? p b with
  | some w =>
      have hwd : w ≠ d := fun h => hdb (h ▸ mem_values_of_last? hb)
      simp [hwd]
  | none =>
      by_cases hi : p i
      · simp [hi]
      · simp only [hi, ↓reduceIte, Option.none_or, false_and, iff_false]
        exact fun ha => hab d (mem_values_of_last? ha) d (by simp) rfl

theorem prior_eq (hb : ∀ e ∈ b, i ≤ e.1) : last? (· < i) (a ++ (i, d) :: b) = last? (· < i) a := by
  have hn : last? (· < i) b = none := last?_eq_none.mpr fun e he => not_lt.mpr (hb e he)
  rw [last?_append, last?_cons, hn, if_neg (lt_irrefl i), Option.or_none, Option.none_or]

theorem last?_eq_prior (hp : Antitone p) (ha : ∀ e ∈ a, e.1 < i) (hi : p i) :
    last? p a = last? (· < i) a :=
  last?_congr fun e he => ⟨fun _ => ha e he, fun hlt => hp hlt.le hi⟩

theorem last?_erase_self (hnd : ((a ++ (i, d) :: b).map Prod.snd).Nodup) (hp : Antitone p)
    (ha : ∀ e ∈ a, e.1 < i) (hb : ∀ e ∈ b, i ≤ e.1) (h : last? p (a ++ (i, d) :: b) = some d) :
    last? p (a ++ b) = last? (· < i) (a ++ (i, d) :: b) := by
  obtain ⟨hi, hbn⟩ := (last?_eq_entry hnd).mp h
  rw [last?_append, hbn, Option.none_or, last?_eq_prior hp ha hi, prior_eq hb]

omit [LinearOrder κ] in
theorem last?_erase_of_ne (hnd : ((a ++ (i, d) :: b).map Prod.snd).Nodup)
    (h : last? p (a ++ (i, d) :: b) ≠ some d) : last? p (a ++ b) = last? p (a ++ (i, d) :: b) := by
  rw [Ne, last?_eq_entry hnd, not_and] at h
  rw [last?_append, last?_append, last?_cons]
  cases hb : last? p b with
  | some w => simp
  | none => simp [show ¬ p i from fun hi => h hi hb]

/-- The same, when the removed value stays behind under the key of the entry after it. -/
theorem last?_shift_self {s : κ × ν} (hnd : ((a ++ (i, d) :: s :: b).map Prod.snd).Nodup) (hp : Antitone p)
    (ha : ∀ e ∈ a, e.1 < i) (hb : ∀ e ∈ s :: b, i ≤ e.1) (h : last? p (a ++ (i, d) :: s :: b) = some d) :
    last? p (a ++ (s.1, d) :: b) = last? (· < i) (a ++ (i, d) :: s :: b) := by
  obtain ⟨hi, hbn⟩ := (last?_eq_entry hnd).mp h
  rw [last?_eq_none] at hbn
  have hb' : last? p b = none := last?_eq_none.mpr fun e he => hbn e (List.mem_cons_of_mem _ he)
  rw [last?_append, last?_cons, hb', if_neg (hbn s List.mem_cons_self), Option.none_or, Option.none_or,
    last?_eq_prior hp ha hi, prior_eq hb]

omit [LinearOrder κ] in
theorem last?_shift_of_ne {s : κ × ν} (hnd : ((a ++ (i, d) :: s :: b).map Prod.snd).Nodup) {w : ν}
    (h : last? p (a ++ (i, d) :: s :: b) = some w) (hwd : w ≠ d)
    (hw : w ∈ (a ++ (s.1, d) :: b).map Prod.snd) : last? p (a ++ (s.1, d) :: b) = some w := by
  simp only [List.map_append, List.map_cons, List.nodup_append, List.nodup_cons, List.mem_append,
    List.mem_cons] at hnd hw
  have hws : w ≠ s.2 := by
    rintro rfl
    rcases hw with hw | hw | hw
    · exact hnd.2.2 _ hw s.2 (by simp) rfl
    · exact hwd hw
    · exact hnd.2.1.2.1 hw
  rw [last?_append, last?_cons, last?_cons] at h
  rw [last?_append, last?_cons]
  cases hb : last? p b with
  | some u => simpa [hb] using h
  | none =>
      rw [hb, Option.none_or] at h
      by_cases hps : p s.1
      · simp [hps, Ne.symm hws] at h
      · by_cases hpi : p i
        · simp [hps, hpi, Ne.symm hwd] at h
        · simpa [hps, hpi] using h

end removal

end

end Entries

end PrometheusRing
