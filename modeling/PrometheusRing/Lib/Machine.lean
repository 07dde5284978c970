import Mathlib.Tactic.Common

/-!
# Machines and their runs

A machine takes one operation at a time and goes to a next state with an output. What one step preserves,
a whole run preserves; and an observer that sees only operations and outputs can be kept in step with the
state.
-/

namespace PrometheusRing

/-- One step of a machine: an operation and a state give an output and the next state. -/
abbrev Machine (ι ω σ : Type) := ι → σ → ω × σ

namespace Machine

variable {ι ω σ τ : Type} (m : Machine ι ω σ)

/-- The state after a sequence of operations. -/
def run : List ι → σ → σ
  | [], s => s
  | i :: is, s => run is (m i s).2

/-- What an outsider sees of a run: each operation with its output, in order. -/
def trace : List ι → σ → List (ι × ω)
  | [], _ => []
  | i :: is, s => (i, (m i s).1) :: trace is (m i s).2

/-- Every operation of the run meets `guard` in the state it is taken in. -/
def Guarded (guard : σ → ι → Prop) : List ι → σ → Prop
  | [], _ => True
  | i :: is, s => guard s i ∧ Guarded guard is (m i s).2

/-- `I` holds in every state of the run, from the first to the last. -/
def Always (I : σ → Prop) : List ι → σ → Prop
  | [], s => I s
  | i :: is, s => I s ∧ Always I is (m i s).2

/-- How many operations of the run meet `p` in the state they are taken in. -/
def count (p : σ → ι → Prop) [∀ s, DecidablePred (p s)] : List ι → σ → Nat
  | [], _ => 0
  | i :: is, s => (if p s i then 1 else 0) + count p is (m i s).2

variable {m}

instance Guarded.decidable (guard : σ → ι → Prop) [∀ s, DecidablePred (guard s)] :
    (is : List ι) → (s : σ) → Decidable (m.Guarded guard is s)
  | [], _ => inferInstanceAs (Decidable True)
  | i :: is, s =>
      have := Guarded.decidable guard is (m i s).2
      inferInstanceAs (Decidable (guard s i ∧ m.Guarded guard is (m i s).2))

@[simp] theorem run_nil (s : σ) : m.run [] s = s := rfl

@[simp] theorem run_cons (i : ι) (is : List ι) (s : σ) : m.run (i :: is) s = m.run is (m i s).2 := rfl

theorem run_append (is is' : List ι) (s : σ) : m.run (is ++ is') s = m.run is' (m.run is s) := by
  induction is generalizing s with
  | nil => rfl
  | cons i is ih => exact ih _

/-! ## Invariants of runs -/

/-- What every guarded step preserves holds after every guarded run. -/
theorem Guarded.invariant (I : σ → Prop) {guard : σ → ι → Prop}
    (hstep : ∀ s i, I s → guard s i → I (m i s).2) {is : List ι} {s : σ}
    (hg : m.Guarded guard is s) (hs : I s) : I (m.run is s) := by
  induction is generalizing s with
  | nil => exact hs
  | cons i is ih => exact ih hg.2 (hstep s i hs hg.1)

theorem Guarded.of_forall {guard : σ → ι → Prop} (h : ∀ s i, guard s i) (is : List ι) (s : σ) :
    m.Guarded guard is s := by
  induction is generalizing s with
  | nil => trivial
  | cons i is ih => exact ⟨h s i, ih _⟩

theorem Guarded.append_iff {guard : σ → ι → Prop} {is is' : List ι} {s : σ} :
    m.Guarded guard (is ++ is') s ↔ m.Guarded guard is s ∧ m.Guarded guard is' (m.run is s) := by
  induction is generalizing s with
  | nil => simp [Guarded]
  | cons i is ih => simp only [List.cons_append, Guarded, ih, run_cons, and_assoc]

/-- What every step preserves holds after every run. -/
theorem run_invariant (I : σ → Prop) (hstep : ∀ s i, I s → I (m i s).2) (is : List ι) {s : σ}
    (hs : I s) : I (m.run is s) := by
  induction is generalizing s with
  | nil => exact hs
  | cons i is ih => exact ih (hstep s i hs)

/-- What every guarded step preserves whose output is not a `stop` holds until there is one. -/
theorem Guarded.until (I : σ → Prop) {guard : σ → ι → Prop} {stop : ι × ω → Prop}
    (hstep : ∀ s i, I s → guard s i → ¬ stop (i, (m i s).1) → I (m i s).2) {is : List ι} {s : σ}
    (hg : m.Guarded guard is s) (hs : I s) (hstop : ∀ e ∈ m.trace is s, ¬ stop e) : I (m.run is s) := by
  induction is generalizing s with
  | nil => exact hs
  | cons i is ih =>
      have hfirst := hstop _ List.mem_cons_self
      exact ih hg.2 (hstep s i hs hg.1 hfirst) fun e he => hstop e (List.mem_cons_of_mem _ he)

/-- A guarded run can be cut at any of its steps. -/
theorem Guarded.cut {guard : σ → ι → Prop} {is : List ι} {s : σ} {pre post : List (ι × ω)} {e : ι × ω}
    (hg : m.Guarded guard is s) (ht : m.trace is s = pre ++ e :: post) :
    ∃ is₁ is₂, m.Guarded guard is₁ s ∧ m.trace is₁ s = pre ∧ guard (m.run is₁ s) e.1 ∧
      e.2 = (m e.1 (m.run is₁ s)).1 ∧ m.Guarded guard is₂ (m e.1 (m.run is₁ s)).2 ∧
      m.trace is₂ (m e.1 (m.run is₁ s)).2 = post ∧ m.run is s = m.run is₂ (m e.1 (m.run is₁ s)).2 := by
  induction is generalizing pre s with
  | nil => exact absurd ht (by simp [trace])
  | cons i is ih =>
      cases pre with
      | nil =>
          obtain ⟨rfl, rfl⟩ := List.cons.inj ht
          exact ⟨[], is, trivial, rfl, hg.1, rfl, hg.2, rfl, rfl⟩
      | cons x pre =>
          obtain ⟨rfl, htail⟩ := List.cons.inj ht
          obtain ⟨is₁, is₂, hg₁, ht₁, hrest⟩ := ih hg.2 htail
          exact ⟨i :: is₁, is₂, ⟨hg.1, hg₁⟩, congrArg _ ht₁, hrest⟩

theorem Always.head {I : σ → Prop} {is : List ι} {s : σ} (h : m.Always I is s) : I s := by
  cases is with
  | nil => exact h
  | cons i is => exact h.1

theorem Always.imp {I I' : σ → Prop} (h : ∀ s, I s → I' s) {is : List ι} {s : σ} (hs : m.Always I is s) :
    m.Always I' is s := by
  induction is generalizing s with
  | nil => exact h s hs
  | cons i is ih => exact ⟨h s hs.1, ih hs.2⟩

theorem Always.concat {I : σ → Prop} {is : List ι} {i : ι} {s : σ} (h : m.Always I is s)
    (hlast : I (m.run (is ++ [i]) s)) : m.Always I (is ++ [i]) s := by
  induction is generalizing s with
  | nil => exact ⟨h, hlast⟩
  | cons j is ih => exact ⟨h.1, ih h.2 hlast⟩

/-- What every operation of a run preserves holds in all its states. -/
theorem Always.of_mem {I : σ → Prop} {is : List ι} {s : σ} (hstep : ∀ i ∈ is, ∀ s, I s → I (m i s).2)
    (hs : I s) : m.Always I is s := by
  induction is generalizing s with
  | nil => exact hs
  | cons i is ih =>
      exact ⟨hs, ih (fun j hj => hstep j (List.mem_cons_of_mem i hj)) (hstep i List.mem_cons_self s hs)⟩

/-- Where a step of the run keeps `I` exactly if it meets `guard`, so does the run. -/
theorem Guarded.always_iff (J I : σ → Prop) {free guard : σ → ι → Prop}
    (hJ : ∀ s i, J s → free s i → J (m i s).2)
    (hI : ∀ s i, J s → free s i → I s → (I (m i s).2 ↔ guard s i)) {is : List ι} {s : σ}
    (hf : m.Guarded free is s) (hs : J s) (hIs : I s) : m.Always I is s ↔ m.Guarded guard is s := by
  induction is generalizing s with
  | nil => exact ⟨fun _ => trivial, fun _ => hIs⟩
  | cons i is ih =>
      have hstep := hI s i hs hf.1 hIs
      have hnext := hJ s i hs hf.1
      constructor
      · intro h
        have hhead := h.2.head
        exact ⟨hstep.mp hhead, (ih hf.2 hnext hhead).mp h.2⟩
      · intro h
        exact ⟨hIs, (ih hf.2 hnext (hstep.mpr h.1)).mpr h.2⟩

/-- A run that may take a counted step only below a bound is one with no more of them than there is room for. -/
theorem Guarded.iff_count (J : σ → Prop) (c : σ → Int) {p guard : σ → ι → Prop} [∀ s, DecidablePred (p s)]
    {bound : Int} (hJ : ∀ s i, J s → J (m i s).2)
    (hc : ∀ s i, J s → c (m i s).2 = if p s i then c s + 1 else c s)
    (hguard : ∀ s i, guard s i ↔ (p s i → c s < bound)) {is : List ι} {s : σ} (hs : J s) (hle : c s ≤ bound) :
    m.Guarded guard is s ↔ c s + m.count p is s ≤ bound := by
  induction is generalizing s with
  | nil => simpa [Guarded, count] using hle
  | cons i is ih =>
      have hnext := hc s i hs
      have hrest := ih (hJ s i hs)
      rw [hnext] at hrest
      rw [Guarded, hguard, count]
      by_cases hp : p s i
      · rw [if_pos hp] at hrest ⊢
        constructor
        · rintro ⟨hlt, htail⟩
          have htotal := (hrest (hlt hp)).mp htail
          omega
        · intro htotal
          have hlt : c s < bound := by omega
          exact ⟨fun _ => hlt, (hrest hlt).mpr (by omega)⟩
      · rw [if_neg hp] at hrest ⊢
        rw [hrest hle, Nat.zero_add]
        exact and_iff_right fun h => absurd h hp

/-! ## Observers -/

/-- What an observer that starts in `t` has recorded after the events `es`. -/
def observe (f : τ → ι × ω → τ) (t : τ) (es : List (ι × ω)) : τ := es.foldl f t

/-- If one guarded step keeps the state and the observer's record related, a guarded run does. -/
theorem Guarded.refines (R : σ → τ → Prop) {f : τ → ι × ω → τ} {guard : σ → ι → Prop}
    (hstep : ∀ s t i, R s t → guard s i → R (m i s).2 (f t (i, (m i s).1)))
    {is : List ι} {s : σ} {t : τ} (hg : m.Guarded guard is s) (h : R s t) :
    R (m.run is s) (observe f t (m.trace is s)) := by
  induction is generalizing s t with
  | nil => exact h
  | cons i is ih => exact ih hg.2 (hstep s t i h hg.1)

/-- If one step keeps the state and the observer's record related, a run does. -/
theorem run_refines (R : σ → τ → Prop) {f : τ → ι × ω → τ}
    (hstep : ∀ s t i, R s t → R (m i s).2 (f t (i, (m i s).1)))
    (is : List ι) {s : σ} {t : τ} (h : R s t) : R (m.run is s) (observe f t (m.trace is s)) := by
  induction is generalizing s t with
  | nil => exact h
  | cons i is ih => exact ih (hstep s t i h)

/-! ## Two machines side by side -/

/-- Two machines that give the same output to every guarded operation and stay related give the same trace. -/
theorem Guarded.lockstep {σ' : Type} {m : Machine ι ω σ} {m' : Machine ι ω σ'} (R : σ → σ' → Prop)
    {guard : σ → ι → Prop}
    (hstep : ∀ s s' i, R s s' → guard s i → (m' i s').1 = (m i s).1 ∧ R (m i s).2 (m' i s').2)
    {is : List ι} {s : σ} {s' : σ'} (hg : m.Guarded guard is s) (h : R s s') :
    m'.trace is s' = m.trace is s ∧ R (m.run is s) (m'.run is s') := by
  induction is generalizing s s' with
  | nil => exact ⟨rfl, h⟩
  | cons i is ih =>
      obtain ⟨hout, hnext⟩ := hstep s s' i h hg.1
      obtain ⟨htrace, hrun⟩ := ih hg.2 hnext
      exact ⟨by rw [trace, trace, hout, htrace], hrun⟩

/-! ## Silent steps -/

/-- The outputs of a run that are seen outside, in order. -/
def history {ε : Type} (m : Machine ι (Option ε) σ) (is : List ι) (s : σ) : List ε :=
  (m.trace is s).filterMap Prod.snd

theorem history_cons {ε : Type} (m : Machine ι (Option ε) σ) (i : ι) (is : List ι) (s : σ) :
    m.history (i :: is) s = (m i s).1.toList ++ m.history is (m i s).2 := by
  rw [history, trace, List.filterMap_cons]
  cases (m i s).1 <;> rfl

theorem history_append {ε : Type} (m : Machine ι (Option ε) σ) (is is' : List ι) (s : σ) :
    m.history (is ++ is') s = m.history is s ++ m.history is' (m.run is s) := by
  induction is generalizing s with
  | nil => rfl
  | cons i is ih => rw [List.cons_append, history_cons, history_cons, ih, List.append_assoc, run_cons]

/-- An observer of all the outputs has recorded what an observer of those seen outside has. -/
theorem observe_history {ε : Type} (m : Machine ι (Option ε) σ) (f : τ → ε → τ) (is : List ι) (s : σ) (t : τ) :
    observe (fun t e => (e.2.map (f t)).getD t) t (m.trace is s) = (m.history is s).foldl f t := by
  induction is generalizing s t with
  | nil => rfl
  | cons i is ih =>
      rw [history_cons, List.foldl_append, trace]
      change observe _ _ (m.trace is (m i s).2) = _
      rw [ih]
      cases (m i s).1 <;> rfl

/-- If every guarded step is either silent or a step of another machine, a run follows a run of the other one. -/
theorem Guarded.follows {ι' ω' σ' : Type} {m : Machine ι (Option (ι' × ω')) σ} {m' : Machine ι' ω' σ'}
    (part : σ → σ') (J : σ → Prop) {guard : σ → ι → Prop} {guard' : σ' → ι' → Prop}
    (hJ : ∀ s i, J s → guard s i → J (m i s).2)
    (hstep : ∀ s i, J s → guard s i → (m i s).1 = none ∧ part (m i s).2 = part s ∨
      ∃ i', guard' (part s) i' ∧ (m i s).1 = some (i', (m' i' (part s)).1) ∧
        part (m i s).2 = (m' i' (part s)).2)
    {is : List ι} {s : σ} (hg : m.Guarded guard is s) (hs : J s) :
    ∃ is', m'.Guarded guard' is' (part s) ∧ m'.trace is' (part s) = m.history is s ∧
      m'.run is' (part s) = part (m.run is s) := by
  induction is generalizing s with
  | nil => exact ⟨[], trivial, rfl, rfl⟩
  | cons i is ih =>
      obtain ⟨is', hg', ht', hr'⟩ := ih hg.2 (hJ s i hs hg.1)
      rcases hstep s i hs hg.1 with ⟨hsilent, hsame⟩ | ⟨i', hguard, hout, hnext⟩
      · rw [hsame] at hg' ht' hr'
        exact ⟨is', hg', by rw [ht', history_cons, hsilent]; rfl, hr'⟩
      · rw [hnext] at hg' ht' hr'
        refine ⟨i' :: is', ⟨hguard, hg'⟩, ?_, hr'⟩
        rw [trace, ht', history_cons, hout]
        rfl

end Machine

end PrometheusRing
