import Mathlib.Data.List.TakeWhile
import PrometheusRing.NodeImage.EnvToYml

/-!
# Placeholders are replaced in one pass

The matches are found in the original string, but each is replaced wherever its text stands in the string that the
replacements before it have left. That makes no difference exactly as long as no value forms the text of a match
anew, alone or with what stands around it.
-/

namespace PrometheusRing.EnvToYml

/-! ## One pass -/

/-- What a piece becomes when matches are replaced by `f`. -/
def Piece.text (f : String → String) : Piece → List Char
  | .char c => [c]
  | .placeHolder name => (f name).toList

/-- The string with each match replaced by the text that `f` gives for its name, and everything else as it is. -/
def render (f : String → String) (v : String) : String :=
  String.ofList ((pieces 0 v.toList).flatMap (Piece.text f))

/-- Only the matches with these names are replaced. -/
def only (names : List String) (value : String → String) (name : String) : String :=
  if name ∈ names then value name else matchText name

/-- How often the text of the match stands in the string. -/
def occurrences (name s : String) : Nat := Replace.occurrences (matchText name).toList s.toList

/-- When a match is up for replacement, its text stands at the matches of its name that are not replaced yet and
nowhere else, or it is its own value. -/
def NothingFormed (value : String → String) (v : String) : Prop :=
  ∀ i, (h : i < (placeHolders v).length) →
    let name := (placeHolders v).get ⟨i, h⟩
    let done := (placeHolders v).take i
    value name = matchText name ∨
      occurrences name (render (only done value) v) = if name ∈ done then 0 else (placeHolders v).count name

instance (value : String → String) : DecidablePred (NothingFormed value) := fun v =>
  inferInstanceAs (Decidable (∀ i, (h : i < (placeHolders v).length) → _))

variable {f : String → String} {value : String → String} {name v : String} {done : List String}

/-! ## Matches and pieces -/

theorem matchName_eq_some {s name : List Char} (h : matchName s = some name) :
    ∃ rest, s = '{' :: (name ++ '}' :: rest) ∧ '{' ∉ name := by
  cases s with
  | nil => cases h
  | cons c s =>
      simp only [matchName] at h
      obtain ⟨⟨rfl, -, hclose⟩, hname⟩ := Option.ite_none_right_eq_some.mp h
      obtain rfl := Option.some.inj hname
      obtain ⟨rest, hrest⟩ := List.head?_eq_some_iff.mp hclose
      have hparts : s.takeWhile isWordChar ++ s.drop (s.takeWhile isWordChar).length = s :=
        List.prefix_iff_eq_append.mp (List.takeWhile_prefix isWordChar)
      rw [hrest] at hparts
      refine ⟨rest, congrArg _ hparts.symm, fun hopen => ?_⟩
      exact absurd (List.mem_takeWhile_imp hopen) (by decide)

/-- The matches and what stands between them make up the string. -/
theorem flatMap_pieces (skip : Nat) (s : List Char) :
    (pieces skip s).flatMap (Piece.text matchText) = s.drop skip := by
  induction s generalizing skip with
  | nil => simp [pieces]
  | cons c s ih =>
      cases skip with
      | succ skip => exact ih skip
      | zero =>
          rw [pieces]
          cases hmatch : matchName (c :: s) with
          | none => rw [List.flatMap_cons, ih]; rfl
          | some name =>
              obtain ⟨rest, hs, -⟩ := matchName_eq_some hmatch
              obtain ⟨rfl, rfl⟩ := List.cons.inj hs
              rw [List.flatMap_cons, ih]
              simp [Piece.text, matchText]

theorem render_matchText (v : String) : render matchText v = v := by
  rw [render, flatMap_pieces, List.drop_zero, String.ofList_toList]

theorem open_notMem_of_piece {skip : Nat} {s : List Char} (h : .placeHolder name ∈ pieces skip s) :
    '{' ∉ name.toList := by
  induction s generalizing skip with
  | nil => simp [pieces] at h
  | cons c s ih =>
      cases skip with
      | succ skip => exact ih h
      | zero =>
          rw [pieces] at h
          cases hmatch : matchName (c :: s) with
          | none =>
              rw [hmatch] at h
              exact ih (List.mem_of_ne_of_mem Piece.noConfusion h)
          | some found =>
              rw [hmatch] at h
              rcases List.mem_cons.mp h with he | h
              · obtain ⟨-, -, hopen⟩ := matchName_eq_some hmatch
                obtain rfl := Piece.placeHolder.inj he
                rwa [String.toList_ofList]
              · exact ih h

theorem open_notMem (h : name ∈ placeHolders v) : '{' ∉ name.toList := by
  obtain ⟨p, hp, hname⟩ := List.mem_filterMap.mp h
  cases p with
  | char c => cases hname
  | placeHolder n =>
      obtain rfl := Option.some.inj hname
      exact open_notMem_of_piece hp

theorem toList_matchText (name : String) : (matchText name).toList = '{' :: (name.toList ++ ['}']) := by
  simp [matchText]

theorem open_notMem_tail (h : name ∈ placeHolders v) : '{' ∉ name.toList ++ ['}'] := by
  simpa using open_notMem h

/-! ## Cutting a string at the matches of a name -/

/-- What stands between the matches of the name when the other matches are replaced by `f`. -/
def cut (f : String → String) (name : String) : List Piece → List (List Char)
  | [] => [[]]
  | p :: ps => if p = .placeHolder name then [] :: cut f name ps else (cut f name ps).modifyHead (p.text f ++ ·)

theorem cut_ne_nil (ps : List Piece) : cut f name ps ≠ [] := by
  cases ps with
  | nil => exact List.cons_ne_nil _ _
  | cons p ps =>
      rw [cut]
      split
      case isTrue => exact List.cons_ne_nil _ _
      case isFalse => simpa using cut_ne_nil ps

theorem length_cut (ps : List Piece) : (cut f name ps).length = (ps.filterMap Piece.name?).count name + 1 := by
  induction ps with
  | nil => rfl
  | cons p ps ih =>
      rw [cut]
      split
      case isTrue h =>
          subst h
          simp [Piece.name?, ih]
      case isFalse h =>
          rw [List.length_modifyHead, ih]
          cases p with
          | char c => rfl
          | placeHolder n =>
              have hne : n ≠ name := fun he => h (congrArg _ he)
              simp [Piece.name?, hne]

theorem intercalate_cut (x : String) (ps : List Piece) :
    x.toList.intercalate (cut f name ps) = ps.flatMap (Piece.text (Function.update f name x)) := by
  induction ps with
  | nil => simp [cut]
  | cons p ps ih =>
      rw [cut, List.flatMap_cons, ← ih]
      split
      case isTrue h =>
          subst h
          rw [List.intercalate_cons_of_ne_nil (cut_ne_nil ps)]
          simp [Piece.text]
      case isFalse h =>
          have htext : p.text (Function.update f name x) = p.text f := by
            cases p with
            | char c => rfl
            | placeHolder n =>
                have hne : n ≠ name := fun he => h (congrArg _ he)
                simp [Piece.text, hne]
          rw [Replace.intercalate_modifyHead (cut_ne_nil ps), htext]

/-! ## One match -/

theorem only_of_notMem (h : name ∉ done) :
    only done value = Function.update (only done value) name (matchText name) := by
  rw [eq_comm, Function.update_eq_self_iff]
  exact (if_neg h).symm

theorem only_append_of_mem (h : name ∈ done) : only (done ++ [name]) value = only done value := by
  funext n
  by_cases hn : n = name
  · subst hn; simp [only, h]
  · simp [only, hn]

theorem only_append (done : List String) :
    only (done ++ [name]) value = Function.update (only done value) name (value name) := by
  funext n
  by_cases hn : n = name
  · subst hn; simp [only]
  · simp [only, hn]

/-- The string before and after one more replacement, as the same parts with other texts between them. -/
theorem exists_parts (value : String → String) (done : List String) (name v : String) :
    ∃ gs ≠ [], (render (only done value) v).toList = (matchText name).toList.intercalate gs ∧
      (render (only (done ++ [name]) value) v).toList = (value name).toList.intercalate gs ∧
        gs.length - 1 = if name ∈ done then 0 else (placeHolders v).count name := by
  by_cases hdone : name ∈ done
  · refine ⟨[(render (only done value) v).toList], List.cons_ne_nil _ _, ?_, ?_, (if_pos hdone).symm⟩
    · rw [List.intercalate_singleton]
    · rw [List.intercalate_singleton, only_append_of_mem hdone]
  · refine ⟨cut (only done value) name (pieces 0 v.toList), cut_ne_nil _, ?_, ?_, ?_⟩
    · rw [intercalate_cut, ← only_of_notMem hdone, render, String.toList_ofList]
    · rw [intercalate_cut, ← only_append, render, String.toList_ofList]
    · rw [length_cut, if_neg hdone]
      rfl

/-- Replacing one more match does what it should exactly if its text stands nowhere else, or is its own value. -/
theorem replaceAll_only_iff (hname : name ∈ placeHolders v) :
    replaceAll (render (only done value) v) (matchText name) (value name) =
        render (only (done ++ [name]) value) v ↔
      value name = matchText name ∨ occurrences name (render (only done value) v) =
        if name ∈ done then 0 else (placeHolders v).count name := by
  obtain ⟨gs, hne, hbefore, hafter, hcount⟩ := exists_parts value done name v
  have hiff := @Replace.replaceAll_intercalate_iff _ _ (value name).toList gs _ _ (open_notMem_tail hname) hne
  rw [← toList_matchText] at hiff
  rw [← String.toList_inj, replaceAll, String.toList_ofList, hbefore, hafter, hiff, String.toList_inj, hcount,
    occurrences, hbefore]

/-! ## All matches -/

variable {env : Environment}

theorem replaceMatch_eq (hvalue : treatPlaceHolder env name = .ok (value name)) (s : String) :
    replaceMatch env s name = .ok (replaceAll s (matchText name) (value name)) := by
  rw [replaceMatch, hvalue]

/-- The string after the first `i` matches have been replaced. -/
def after (env : Environment) (v : String) (i : Nat) : Except String String :=
  ((placeHolders v).take i).foldlM (replaceMatch env) v

theorem after_succ {i : Nat} (h : i < (placeHolders v).length) :
    after env v (i + 1) = (after env v i).bind fun s => replaceMatch env s ((placeHolders v).get ⟨i, h⟩) := by
  rw [after, List.take_succ_eq_append_getElem h, List.foldlM_append]
  simp only [List.foldlM_cons, List.foldlM_nil, bind_pure]
  rfl

theorem after_of_length_le {i : Nat} (h : (placeHolders v).length ≤ i) : after env v i = replaceString env v := by
  rw [after, List.take_of_length_le h, replaceString]

theorem render_only_nil (v : String) : render (only [] value) v = v := by
  have honly : only [] value = matchText := funext fun _ => if_neg List.not_mem_nil
  rw [honly, render_matchText]

theorem render_only_all (value : String → String) (v : String) :
    render (only (placeHolders v) value) v = render value v := by
  rw [render, render]
  congr 1
  apply List.flatMap_congr
  intro p hp
  cases p with
  | char c => rfl
  | placeHolder n =>
      have hn : n ∈ placeHolders v := List.mem_filterMap.mpr ⟨_, hp, rfl⟩
      rw [Piece.text, only, if_pos hn, Piece.text]

/-- One more match takes the string from one partial replacement to the next exactly if nothing was formed. -/
theorem after_succ_iff (hvalue : ∀ name ∈ placeHolders v, treatPlaceHolder env name = .ok (value name)) {i : Nat}
    (h : i < (placeHolders v).length)
    (hafter : after env v i = .ok (render (only ((placeHolders v).take i) value) v)) :
    let name := (placeHolders v).get ⟨i, h⟩
    let done := (placeHolders v).take i
    after env v (i + 1) = .ok (render (only ((placeHolders v).take (i + 1)) value) v) ↔
      value name = matchText name ∨ occurrences name (render (only done value) v) =
        if name ∈ done then 0 else (placeHolders v).count name := by
  have hmem := List.get_mem (placeHolders v) ⟨i, h⟩
  dsimp only
  rw [after_succ h, hafter, ← replaceAll_only_iff hmem, List.take_succ_eq_append_getElem h]
  change replaceMatch env _ _ = _ ↔ _
  rw [replaceMatch_eq (hvalue _ hmem), Except.ok.injEq]
  rfl

/-- The matches are replaced in one pass: after each of them, those handled so far stand replaced by their own
values and everything else stands as it was. That is so exactly as long as no value forms the text of a match
anew. -/
theorem one_pass (env : Environment) (v : String) (value : String → String)
    (hvalue : ∀ name ∈ placeHolders v, treatPlaceHolder env name = .ok (value name)) :
    (replaceString env v = .ok (render value v) ∧
        ∀ i, after env v i = .ok (render (only ((placeHolders v).take i) value) v)) ↔
      NothingFormed value v := by
  constructor
  · rintro ⟨-, hafter⟩ i h
    exact (after_succ_iff hvalue h (hafter i)).mp (hafter (i + 1))
  · intro hnothing
    have hafter : ∀ i, after env v i = .ok (render (only ((placeHolders v).take i) value) v) := by
      intro i
      induction i with
      | zero => rw [List.take_zero, render_only_nil]; rfl
      | succ i ih =>
          by_cases h : i < (placeHolders v).length
          · exact (after_succ_iff hvalue h ih).mpr (hnothing i h)
          · have hle := not_lt.mp h
            rw [after_of_length_le (Nat.le_succ_of_le hle), ← after_of_length_le hle, ih,
              List.take_of_length_le hle, List.take_of_length_le (Nat.le_succ_of_le hle)]
    refine ⟨?_, hafter⟩
    have hall := hafter (placeHolders v).length
    rwa [after_of_length_le le_rfl, List.take_length, render_only_all] at hall

theorem one_pass_host_and_port :
    let env : Environment :=
      ⟨fun name => if name = "HOST" then "super-host" else if name = "PORT" then "9988" else "", .ok "node"⟩
    replaceString env "\x7bHOST\x7d:\x7bPORT\x7d" = .ok "super-host:9988" := by
  intro env
  have hpass := one_pass env "\x7bHOST\x7d:\x7bPORT\x7d" env.getenv (by decide +kernel)
  rw [(hpass.mpr (by decide +kernel)).1]
  decide +kernel

/-- The value of one placeholder is the text of a later one, and is replaced with it. -/
theorem value_expanded_again :
    let env : Environment :=
      ⟨fun name => if name = "A" then "\x7bB\x7d" else if name = "B" then "x" else "", .ok "node"⟩
    let v := "\x7bA\x7d\x7bB\x7d"
    (∀ name ∈ placeHolders v, treatPlaceHolder env name = .ok (env.getenv name)) ∧
      replaceString env v = .ok "xx" ∧ render env.getenv v = "\x7bB\x7dx" ∧
      replaceString env v ≠ .ok (render env.getenv v) := by
  decide +kernel

end PrometheusRing.EnvToYml
