import PrometheusRing.Adt.PrintTree
import Mathlib.Data.List.Basic

/-!
# Reading the picture of a tree

A picture is a rectangle, and no two trees have the same one: the first line of a box shows the root's text and how
wide the boxes of the subtrees are, and the lines below are theirs.
-/

namespace PrometheusRing.BinarySearchTree

@[simp] theorem length_times (c : Char) (n : Int) : (times c n).length = n.toNat := List.length_replicate

theorem times_add (c : Char) (m n : Nat) : times c (m + n : Nat) = times c m ++ times c n := by
  unfold times
  rw [Int.toNat_natCast, Int.toNat_natCast, Int.toNat_natCast, List.replicate_append_replicate]

theorem eq_of_mem_times {c d : Char} {n : Int} (h : d ∈ times c n) : d = c := List.eq_of_mem_replicate h

namespace Box

/-- The lines have the box's width, the text of the root lies within it, and only the empty tree has no width. -/
structure Fits (b : Box) : Prop where
  rows : ∀ line ∈ b.lines, line.length = b.width
  root : 0 < b.width → 0 ≤ b.rootStart ∧ b.rootStart ≤ b.rootEnd ∧ b.rootEnd < b.width
  empty : b.width = 0 ↔ b.lines = []

/-- How much of the root's lines goes to a sub-box. -/
def edge (b : Box) : Nat := if b.width > 0 then b.width + 1 else 0

variable {b b' l r : Box}

theorem eq_of_edge (h : b.edge = b'.edge) : b.width = b'.width := by
  unfold edge at h
  split at h <;> split at h <;> omega

namespace Fits

theorem length_line (h : b.Fits) (i : Nat) : (b.line i).length = b.width := by
  unfold line
  cases hi : b.lines[i]? with
  | none => simp
  | some line => exact h.rows line (List.mem_of_getElem? hi)

theorem length_leftBranch (h : b.Fits) :
    b.leftBranch.1.length = b.edge ∧ b.leftBranch.2.length = b.edge := by
  unfold leftBranch edge
  split
  case isTrue hpos =>
      have hroot := h.root hpos
      simp only [List.length_append, length_times, List.length_singleton]
      omega
  case isFalse => exact ⟨rfl, rfl⟩

theorem length_rightBranch (h : b.Fits) :
    b.rightBranch.1.length = b.edge ∧ b.rightBranch.2.length = b.edge := by
  unfold rightBranch edge
  split
  case isTrue hpos =>
      have hroot := h.root hpos
      simp only [List.length_append, length_times, List.length_singleton]
      omega
  case isFalse => exact ⟨rfl, rfl⟩

end Fits

/-- The line of the root has nothing but blanks and underscores to the left and to the right of its text. -/
theorem drawn_leftBranch (b : Box) : ∀ c ∈ b.leftBranch.1, c = ' ' ∨ c = '_' := by
  unfold leftBranch
  split
  case isTrue =>
      intro c hc
      exact (List.mem_append.mp hc).imp eq_of_mem_times eq_of_mem_times
  case isFalse => simp

theorem drawn_rightBranch (b : Box) : ∀ c ∈ b.rightBranch.1, c = ' ' ∨ c = '_' := by
  unfold rightBranch
  split
  case isTrue =>
      intro c hc
      exact (List.mem_append.mp hc).symm.imp eq_of_mem_times eq_of_mem_times
  case isFalse => simp

theorem line_of_length_le {i : Nat} (h : b.lines.length ≤ i) : b.line i = times ' ' b.width := by
  rw [line, List.getElem?_eq_none h]
  rfl

end Box

/-! ## One box -/

variable {κ ν : Type} [ToString κ] {includeIndex : Bool} {delimiter : String}

/-- The texts can be told from the drawing, and the keys from the texts. -/
structure Readable (κ : Type) [ToString κ] (includeIndex : Bool) (delimiter : String) : Prop where
  ne_nil : ∀ i (k : κ), nodeRepr i includeIndex delimiter k ≠ []
  plain : ∀ i (k : κ), ∀ c ∈ nodeRepr i includeIndex delimiter k, c ≠ ' ' ∧ c ≠ '_'
  inj : ∀ i (k k' : κ), nodeRepr i includeIndex delimiter k = nodeRepr i includeIndex delimiter k' → k = k'

theorem fits_buildTreeString (hr : Readable κ includeIndex delimiter) (t : BinarySearchTree κ ν) (i : Nat) :
    (t.buildTreeString includeIndex delimiter i).Fits := by
  induction t generalizing i with
  | nil => exact ⟨by simp [buildTreeString], by simp [buildTreeString], by simp [buildTreeString]⟩
  | node l k v r ihl ihr =>
      have hl := ihl (2 * i + 1)
      have hr' := ihr (2 * i + 2)
      have hne := List.length_pos_iff.mpr (hr.ne_nil i k)
      obtain ⟨hl₁, hl₂⟩ := hl.length_leftBranch
      obtain ⟨hr₁, hr₂⟩ := hr'.length_rightBranch
      unfold Box.edge at hl₁ hl₂ hr₁ hr₂
      refine ⟨?_, ?_, ?_⟩
      · simp only [buildTreeString, Box.beside, List.forall_mem_cons, List.forall_mem_map, List.length_append, length_times,
          hl.length_line, hr'.length_line, hl₁, hl₂, hr₁, hr₂]
        refine ⟨trivial, ?_, fun j _ => ?_⟩
        · omega
        · split <;> split <;> omega
      · simp only [buildTreeString, List.length_append, hl₁, hr₁]
        intro _
        split <;> split <;> omega
      · simp only [buildTreeString, List.length_append]
        refine iff_of_false ?_ (List.cons_ne_nil _ _)
        omega

variable {l r l' r' : BinarySearchTree κ ν} {k k' : κ} {v v' : ν} {i : Nat}

theorem width_node (hr : Readable κ includeIndex delimiter) :
    ((node l k v r).buildTreeString includeIndex delimiter i).width =
      (l.buildTreeString includeIndex delimiter (2 * i + 1)).edge + (nodeRepr i includeIndex delimiter k).length +
        (r.buildTreeString includeIndex delimiter (2 * i + 2)).edge := by
  obtain ⟨hl, -⟩ := (fits_buildTreeString hr l (2 * i + 1)).length_leftBranch
  obtain ⟨hr', -⟩ := (fits_buildTreeString hr r (2 * i + 2)).length_rightBranch
  simp only [buildTreeString, List.length_append, hl, hr']

/-- Below the root's two lines, each line is one of the left box and one of the right box. -/
theorem line_node (hr : Readable κ includeIndex delimiter) : ∃ gap, ∀ j,
    ((node l k v r).buildTreeString includeIndex delimiter i).line (j + 2) =
      (l.buildTreeString includeIndex delimiter (2 * i + 1)).line j ++ gap ++
        (r.buildTreeString includeIndex delimiter (2 * i + 2)).line j := by
  have hwidth := width_node (l := l) (k := k) (v := v) (r := r) (i := i) hr
  unfold Box.edge at hwidth
  generalize hb : (node l k v r).buildTreeString includeIndex delimiter i = b at hwidth ⊢
  rw [buildTreeString] at hb
  generalize l.buildTreeString includeIndex delimiter (2 * i + 1) = lBox at hb hwidth ⊢
  generalize r.buildTreeString includeIndex delimiter (2 * i + 2) = rBox at hb hwidth ⊢
  generalize hg : (nodeRepr i includeIndex delimiter k).length + (if lBox.width > 0 then 1 else 0) +
    (if rBox.width > 0 then 1 else 0) = gapSize at hb
  refine ⟨times ' ' gapSize, fun j => ?_⟩
  have hlines : b.lines[j + 2]? = (lBox.beside rBox (times ' ' gapSize))[j]? := by
    rw [← hb, List.getElem?_cons_succ, List.getElem?_cons_succ]
  rw [Box.line, hlines, Box.beside, List.getElem?_map]
  by_cases hj : j < max lBox.lines.length rBox.lines.length
  · rw [List.getElem?_range hj]
    rfl
  · -- both sub-boxes have ended
    have hblank := Box.line_of_length_le (b := lBox) ((le_max_left _ _).trans (not_lt.mp hj))
    have hblank' := Box.line_of_length_le (b := rBox) ((le_max_right _ _).trans (not_lt.mp hj))
    rw [List.getElem?_eq_none (by simpa using hj), Option.map_none, Option.getD_none, hblank, hblank', hwidth,
      ← times_add, ← times_add]
    congr 2
    rw [← hg]
    split <;> split <;> omega

theorem line_zero (hr : Readable κ includeIndex delimiter) :
    ∃ d d', ((node l k v r).buildTreeString includeIndex delimiter i).line 0 =
        d ++ (nodeRepr i includeIndex delimiter k ++ d') ∧
      (∀ c ∈ d, c = ' ' ∨ c = '_') ∧ (∀ c ∈ d', c = ' ' ∨ c = '_') ∧
      d.length = (l.buildTreeString includeIndex delimiter (2 * i + 1)).edge ∧
      d'.length = (r.buildTreeString includeIndex delimiter (2 * i + 2)).edge :=
  ⟨_, _, List.append_assoc _ _ _, Box.drawn_leftBranch _, Box.drawn_rightBranch _,
    (fits_buildTreeString hr l (2 * i + 1)).length_leftBranch.1,
    (fits_buildTreeString hr r (2 * i + 2)).length_rightBranch.1⟩

/-- Where the one part of a line ends and the other begins is seen from the characters. -/
theorem append_inj_of_head {α : Type} {p : α → Prop} {x x' y y' : List α} (hx : ∀ c ∈ x, p c)
    (hx' : ∀ c ∈ x', p c) (hy : ∀ c ∈ y.head?, ¬ p c) (hy' : ∀ c ∈ y'.head?, ¬ p c) (h : x ++ y = x' ++ y') :
    x = x' ∧ y = y' := by
  induction x generalizing x' with
  | nil =>
      cases x' with
      | nil => exact ⟨rfl, h⟩
      | cons c x' =>
          rw [List.nil_append] at h
          exact absurd (hx' c List.mem_cons_self) (hy c (by rw [h]; rfl))
  | cons c x ih =>
      cases x' with
      | nil =>
          rw [List.nil_append] at h
          exact absurd (hx c List.mem_cons_self) (hy' c (by rw [← h]; rfl))
      | cons c' x' =>
          obtain ⟨rfl, htail⟩ := List.cons.inj h
          obtain ⟨rfl, hrest⟩ := ih (fun c hc => hx c (List.mem_cons_of_mem _ hc))
            (fun c hc => hx' c (List.mem_cons_of_mem _ hc)) htail
          exact ⟨rfl, hrest⟩

/-- A text between drawings can be cut out. -/
theorem cut_label {d e x y d' e' : List Char} (hd : ∀ c ∈ d, c = ' ' ∨ c = '_') (he : ∀ c ∈ e, c = ' ' ∨ c = '_')
    (hd' : ∀ c ∈ d', c = ' ' ∨ c = '_') (he' : ∀ c ∈ e', c = ' ' ∨ c = '_')
    (hx : ∀ c ∈ x, c ≠ ' ' ∧ c ≠ '_') (hy : ∀ c ∈ y, c ≠ ' ' ∧ c ≠ '_') (hx₀ : x ≠ []) (hy₀ : y ≠ [])
    (h : d ++ (x ++ d') = e ++ (y ++ e')) : d = e ∧ x = y ∧ d' = e' := by
  have hhead {z : List Char} (w : List Char) (hz : ∀ c ∈ z, c ≠ ' ' ∧ c ≠ '_') (hz₀ : z ≠ []) :
      ∀ c ∈ (z ++ w).head?, ¬ (c = ' ' ∨ c = '_') := by
    rw [List.head?_append_of_ne_nil _ hz₀]
    exact fun c hc => not_or.mpr (hz c (List.mem_of_mem_head? hc))
  obtain ⟨rfl, hrest⟩ := append_inj_of_head hd he (hhead d' hx hx₀) (hhead e' hy hy₀) h
  have hdrawn {z : List Char} (hz : ∀ c ∈ z, c = ' ' ∨ c = '_') : ∀ c ∈ z.head?, ¬ (c ≠ ' ' ∧ c ≠ '_') :=
    fun c hc hne => (hz c (List.mem_of_mem_head? hc)).elim hne.1 hne.2
  exact ⟨rfl, append_inj_of_head hx hy (hdrawn hd') (hdrawn he') hrest⟩

/-- The tree without its values. -/
def forget : BinarySearchTree κ ν → BinarySearchTree κ Unit
  | nil => nil
  | node l k _ r => node l.forget k () r.forget

/-- Trees whose pictures have the same width and the same lines, blank ones below included, are the same. -/
theorem forget_eq_of_lines (hr : Readable κ includeIndex delimiter) (t t' : BinarySearchTree κ ν) (i : Nat)
    (hwidth : (t.buildTreeString includeIndex delimiter i).width =
      (t'.buildTreeString includeIndex delimiter i).width)
    (hlines : ∀ j, (t.buildTreeString includeIndex delimiter i).line j =
      (t'.buildTreeString includeIndex delimiter i).line j) : t.forget = t'.forget := by
  induction t generalizing t' i with
  | nil =>
      cases t' with
      | nil => rfl
      | node l' k' v' r' =>
          have hne := List.length_pos_iff.mpr (hr.ne_nil i k')
          rw [width_node hr] at hwidth
          simp only [buildTreeString] at hwidth
          omega
  | node l k v r ihl ihr =>
      cases t' with
      | nil =>
          have hne := List.length_pos_iff.mpr (hr.ne_nil i k)
          rw [width_node hr] at hwidth
          simp only [buildTreeString] at hwidth
          omega
      | node l' k' v' r' =>
          obtain ⟨d, d', hline, hd, hd', hlen, hlen'⟩ := line_zero (l := l) (k := k) (v := v) (r := r) (i := i) hr
          obtain ⟨e, e', hline', he, he', hlen₂, hlen₂'⟩ :=
            line_zero (l := l') (k := k') (v := v') (r := r') (i := i) hr
          have hfirst := hlines 0
          rw [hline, hline'] at hfirst
          obtain ⟨rfl, hkey, rfl⟩ := cut_label hd he hd' he' (hr.plain i k) (hr.plain i k') (hr.ne_nil i k)
            (hr.ne_nil i k') hfirst
          obtain rfl := hr.inj i k k' hkey
          have hwl := Box.eq_of_edge (hlen.symm.trans hlen₂)
          have hwr := Box.eq_of_edge (hlen'.symm.trans hlen₂')
          obtain ⟨gap, hgap⟩ := line_node (l := l) (k := k) (v := v) (r := r) (i := i) hr
          obtain ⟨gap', hgap'⟩ := line_node (l := l') (k := k) (v := v') (r := r') (i := i) hr
          have hbelow : ∀ j, (l.buildTreeString includeIndex delimiter (2 * i + 1)).line j =
                (l'.buildTreeString includeIndex delimiter (2 * i + 1)).line j ∧
              (r.buildTreeString includeIndex delimiter (2 * i + 2)).line j =
                (r'.buildTreeString includeIndex delimiter (2 * i + 2)).line j := by
            intro j
            have hj := hlines (j + 2)
            rw [hgap, hgap'] at hj
            obtain ⟨hleft, hright⟩ := List.append_inj' hj (by
              rw [(fits_buildTreeString hr r _).length_line, (fits_buildTreeString hr r' _).length_line, hwr])
            refine ⟨(List.append_inj hleft ?_).1, hright⟩
            rw [(fits_buildTreeString hr l _).length_line, (fits_buildTreeString hr l' _).length_line, hwl]
          rw [forget, forget, ihl l' (2 * i + 1) hwl fun j => (hbelow j).1,
            ihr r' (2 * i + 2) hwr fun j => (hbelow j).2]

theorem buildTreeString_forget (t : BinarySearchTree κ ν) (i : Nat) :
    t.forget.buildTreeString includeIndex delimiter i = t.buildTreeString includeIndex delimiter i := by
  induction t generalizing i with
  | nil => rfl
  | node l k v r ihl ihr => simp only [forget, buildTreeString, ihl, ihr]

theorem Box.Fits.width_eq {b b' : Box} (h : b.Fits) (h' : b'.Fits) (hlines : b.lines = b'.lines) :
    b.width = b'.width := by
  cases hb : b.lines with
  | nil => rw [h.empty.mpr hb, h'.empty.mpr (hlines ▸ hb)]
  | cons line lines =>
      have hmem : line ∈ b.lines := hb ▸ List.mem_cons_self
      rw [← h.rows line hmem, h'.rows line (hlines ▸ hmem)]

/-- The decimal texts of the keys. -/
theorem readable_int : Readable Int false "-" where
  ne_nil i k := by
    cases k <;> simp [nodeRepr, Int.repr]
  plain i k c hc := by
    have hdigit : ∀ n, c ∈ Nat.toDigits 10 n → c ≠ ' ' ∧ c ≠ '_' := by
      intro n hn
      have hc := Nat.isDigit_of_mem_toDigits (by decide) (by decide) hn
      constructor <;> (rintro rfl; cases hc)
    cases k with
    | ofNat n => exact hdigit n (by simpa [nodeRepr, Int.repr] using hc)
    | negSucc n =>
        have hc' : c = '-' ∨ c ∈ Nat.toDigits 10 (n + 1) := by simpa [nodeRepr, Int.repr] using hc
        rcases hc' with rfl | hc'
        · decide
        · exact hdigit _ hc'
  inj i k k' h := by
    have hinj : ∀ m n, Nat.toDigits 10 m = Nat.toDigits 10 n → m = n := by
      intro m n hmn
      have hvalue := congrArg (Nat.ofDigitChars 10 · 0) hmn
      simpa [Nat.ofDigitChars_toDigits] using hvalue
    have hminus : ∀ m n, Nat.toDigits 10 m ≠ '-' :: Nat.toDigits 10 n := by
      intro m n hmn
      have hdigit := Nat.isDigit_of_mem_toDigits (by decide) (by decide) (hmn ▸ List.mem_cons_self)
      cases hdigit
    cases k with
    | ofNat m =>
        cases k' with
        | ofNat n =>
            rw [hinj m n (by simpa [nodeRepr, Int.repr] using h)]
        | negSucc n => exact absurd (by simpa [nodeRepr, Int.repr] using h) (hminus m (n + 1))
    | negSucc m =>
        cases k' with
        | ofNat n => exact absurd (by simpa [nodeRepr, Int.repr] using h.symm) (hminus n (m + 1))
        | negSucc n =>
            have hsucc := hinj (m + 1) (n + 1) (by simpa [nodeRepr, Int.repr] using h)
            rw [Nat.succ.inj hsucc]

/-- `print_tree` prints lines of one length, and what it prints is the same for two trees exactly if the trees are,
up to the values. -/
theorem picture_shows_tree (t t' : BinarySearchTree Int ν) :
    (∃ width, ∀ line ∈ t.printTree, line.length = width) ∧ (t.printTree = t'.printTree ↔ t.forget = t'.forget) := by
  have hfits := fits_buildTreeString readable_int t 0
  have hfits' := fits_buildTreeString readable_int t' 0
  refine ⟨⟨(t.buildTreeString false "-" 0).width, fun line hline => ?_⟩, fun h => ?_, fun h => ?_⟩
  · obtain ⟨cs, hcs, rfl⟩ := List.mem_map.mp hline
    rw [String.length_ofList]
    exact hfits.rows cs hcs
  · have hlines := List.map_injective_iff.mpr (fun _ _ => String.ofList_injective) h
    have hwidth := hfits.width_eq hfits' hlines
    refine forget_eq_of_lines readable_int t t' 0 hwidth fun j => ?_
    rw [Box.line, Box.line, hlines, hwidth]
  · rw [printTree, printTree, ← buildTreeString_forget t, ← buildTreeString_forget t', h]

/-- The picture of a tree of four keys. -/
example : (((((nil : BinarySearchTree Int Unit).insert 5 ()).insert (-2) ()).insert 3 ()).insert 8 ()).printTree =
    ["  ___5  ", " /    \\ ", "-2     8", "  \\     ", "   3    ", "        "] := by
  decide

end PrometheusRing.BinarySearchTree
