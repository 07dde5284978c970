import Mathlib.Algebra.Order.BigOperators.Group.List
import PrometheusRing.Lib.Effect
import PrometheusRing.Lib.Ledger
import PrometheusRing.Lib.Machine

/-!
# Threads on a shared state

Every call runs in a thread of its own, one block after the other. Between two blocks of a thread the others can run.
A call that is left alone does what its blocks do one after the other, the blocks of a call are paid from the credit it
begins with, and elements that threads add to or take out of two sets are accounted for by the calls that still run and
those that have failed.
-/

namespace PrometheusRing

/-- A shared state, and for each call that has begun and not ended the block that it runs next. -/
structure Threads (φ σ : Type) where
  shared : σ
  running : List φ := []

namespace Threads

open Effect

variable {ε φ ι σ : Type}

inductive Event (ι : Type) where
  | call (op : ι)
  /-- One of the running calls goes on with its next block. -/
  | step (k : Nat)

/-- How the call ends with a block, if it does. -/
def ended : Except ε (Option φ) → Option (Except ε Unit)
  | .ok (some _) => none
  | .ok none => some (.ok ())
  | .error e => some (.error e)

/-- The block that follows. -/
def rest : Except ε (Option φ) → Option φ
  | .ok t => t
  | .error _ => none

variable (enter : ι → Effect ε σ (Option φ)) (next : φ → Effect ε σ (Option φ))

/-- A call begins with a block that gives the one to run next, and so on. -/
def machine : Machine (Event ι) (Option (Except ε Unit)) (Threads φ σ)
  | .call op, p =>
      let (r, shared) := exec (enter op) p.shared
      (ended r, { shared, running := p.running ++ (rest r).toList })
  | .step k, p =>
      match p.running[k]? with
      | none => (none, p)
      | some t =>
          let (r, shared) := exec (next t) p.shared
          (ended r, { shared, running := p.running.take k ++ (rest r).toList ++ p.running.drop (k + 1) })

/-- What is asked of a block when it is run. -/
def Each (guard : σ → φ → Prop) (p : Threads φ σ) : Event ι → Prop
  | .call _ => True
  | .step k => ∀ t ∈ p.running[k]?, guard p.shared t

instance (guard : σ → φ → Prop) [∀ s, DecidablePred (guard s)] (p : Threads φ σ) :
    DecidablePred (Each (ι := ι) guard p)
  | .call _ => inferInstanceAs (Decidable True)
  | .step _ => inferInstanceAs (Decidable (∀ t ∈ _, _))

/-! ## A call that is left alone -/

/-- A block and those that follow it, with nothing between them: how the call ends, and the state then. -/
inductive Alone (guard : σ → φ → Prop) : φ → σ → Except ε Unit → σ → Prop where
  | last {t s r s' o} : guard s t → exec (next t) s = (r, s') → ended r = some o → Alone guard t s o s'
  | more {t t' s s₁ s' o} : guard s t → exec (next t) s = (.ok (some t'), s₁) → Alone guard t' s₁ o s' →
      Alone guard t s o s'

/-- The same once a block is done: what it gives decides how the call goes on. -/
def Continues (guard : σ → φ → Prop) (s : σ) (o : Except ε Unit) (s' : σ) : Except ε (Option φ) → Prop
  | .ok (some t) => Alone next guard t s o s'
  | .ok none => o = .ok () ∧ s' = s
  | .error e => o = .error e ∧ s' = s

variable {enter next} {guard : σ → φ → Prop} {t t' : φ} {s s' : σ} {o : Except ε Unit} {p : Threads φ σ}
  {l₁ l₂ : List φ} {k : Nat}

theorem Alone.block {r : Except ε (Option φ)} {s₁ : σ} (hg : guard s t) (hnext : exec (next t) s = (r, s₁))
    (h : Continues next guard s₁ o s' r) : Alone next guard t s o s' := by
  cases r with
  | error e =>
      obtain ⟨rfl, rfl⟩ := h
      exact .last hg hnext rfl
  | ok t' =>
      cases t' with
      | none =>
          obtain ⟨rfl, rfl⟩ := h
          exact .last hg hnext rfl
      | some t' => exact .more hg hnext h

@[simp] theorem ended_map {ψ : Type} (f : φ → ψ) (r : Except ε (Option φ)) : ended (r.map (Option.map f)) = ended r := by
  rcases r with e | _ | t <;> rfl

@[simp] theorem rest_map {ψ : Type} (f : φ → ψ) (r : Except ε (Option φ)) :
    rest (r.map (Option.map f)) = (rest r).map f := by
  rcases r with e | _ | t <;> rfl

theorem rest_of_ended {r : Except ε (Option φ)} (h : ended r = some o) : rest r = none := by
  cases r with
  | error e => rfl
  | ok t =>
      cases t with
      | none => rfl
      | some t => cases h

variable (enter) in
theorem step_eq {r : Except ε (Option φ)} (h : exec (next t) s = (r, s')) (l₁ l₂ : List φ) :
    machine enter next (.step l₁.length) ⟨s, l₁ ++ t :: l₂⟩ = (ended r, ⟨s', l₁ ++ (rest r).toList ++ l₂⟩) := by
  have ht : (l₁ ++ t :: l₂)[l₁.length]? = some t := by simp
  have hdrop : (l₁ ++ t :: l₂).drop (l₁.length + 1) = l₂ := by simp
  simp only [machine, ht, h, List.take_left, hdrop]

/-- A step is that of one of the running calls, or does nothing. -/
theorem step_cases (hg : Each (ι := ι) guard p (.step k)) : machine enter next (.step k) p = (none, p) ∨
    ∃ l₁ t l₂, p.running = l₁ ++ t :: l₂ ∧ guard p.shared t ∧ machine enter next (.step k) p =
      (ended (exec (next t) p.shared).1,
        ⟨(exec (next t) p.shared).2, l₁ ++ (rest (exec (next t) p.shared).1).toList ++ l₂⟩) := by
  cases ht : p.running[k]? with
  | none => exact Or.inl (by simp only [machine, ht])
  | some t =>
      refine Or.inr ⟨p.running.take k, t, p.running.drop (k + 1), ?_, hg t ht, by simp only [machine, ht]⟩
      obtain ⟨hlt, rfl⟩ := List.getElem?_eq_some_iff.mp ht
      rw [List.getElem_cons_drop, List.take_append_drop]

variable (enter) in
/-- The steps of a thread that runs alone. -/
theorem Alone.run (h : Alone next guard t s o s') (l₁ l₂ : List φ) : ∃ n,
    (machine enter next).Guarded (Each guard) (List.replicate n (.step l₁.length)) ⟨s, l₁ ++ t :: l₂⟩ ∧
      (machine enter next).history (List.replicate n (.step l₁.length)) ⟨s, l₁ ++ t :: l₂⟩ = [o] ∧
      (machine enter next).run (List.replicate n (.step l₁.length)) ⟨s, l₁ ++ t :: l₂⟩ = ⟨s', l₁ ++ l₂⟩ := by
  have hthread (t : φ) : (l₁ ++ t :: l₂)[l₁.length]? = some t := by simp
  induction h with
  | @last t s r s' o hg hnext hend =>
      have hstep := step_eq enter hnext l₁ l₂
      rw [hend, rest_of_ended hend] at hstep
      refine ⟨1, ⟨fun u hu => ?_, trivial⟩, ?_, ?_⟩
      · obtain rfl := Option.some.inj ((hthread t).symm.trans hu)
        exact hg
      · rw [List.replicate_one, Machine.history_cons, hstep]
        rfl
      · rw [List.replicate_one, Machine.run_cons, hstep]
        simp
  | @more t t' s s₁ s' o hg hnext _ ih =>
      have hstep := step_eq enter hnext l₁ l₂
      rw [rest, Option.toList_some, List.append_assoc, List.singleton_append] at hstep
      obtain ⟨n, hguard, hout, hrun⟩ := ih
      refine ⟨n + 1, ⟨fun u hu => ?_, ?_⟩, ?_, ?_⟩
      · obtain rfl := Option.some.inj ((hthread t).symm.trans hu)
        exact hg
      · rw [hstep]
        exact hguard
      · rw [List.replicate_succ, Machine.history_cons, hstep]
        exact hout
      · rw [List.replicate_succ, Machine.run_cons, hstep]
        exact hrun

/-- A call that is left alone ends as its blocks have it, and the other threads are where they were. -/
theorem Continues.run {op : ι} {r : Except ε (Option φ)} {s₁ : σ} (hbegin : exec (enter op) s = (r, s₁))
    (h : Continues next guard s₁ o s' r) (running : List φ) : ∃ es : List (Event ι),
    (machine enter next).Guarded (Each guard) (.call op :: es) ⟨s, running⟩ ∧
      (machine enter next).history (.call op :: es) ⟨s, running⟩ = [o] ∧
      (machine enter next).run (.call op :: es) ⟨s, running⟩ = ⟨s', running⟩ := by
  have hcall : machine enter next (.call op) ⟨s, running⟩ = (ended r, ⟨s₁, running ++ (rest r).toList⟩) := by
    simp only [machine, hbegin]
  have hend (o : Except ε Unit) (h : ended r = some o) : (machine enter next).Guarded (Each guard) [.call op] ⟨s, running⟩ ∧
      (machine enter next).history [.call op] ⟨s, running⟩ = [o] ∧
      (machine enter next).run [.call op] ⟨s, running⟩ = ⟨s₁, running⟩ := by
    rw [Machine.history_cons, Machine.run_cons, hcall, h, rest_of_ended h]
    exact ⟨⟨trivial, trivial⟩, rfl, by simp⟩
  cases r with
  | error e =>
      obtain ⟨rfl, rfl⟩ := h
      exact ⟨[], hend _ rfl⟩
  | ok t =>
      cases t with
      | none =>
          obtain ⟨rfl, rfl⟩ := h
          exact ⟨[], hend _ rfl⟩
      | some t =>
          obtain ⟨n, hguard, hout, hrun⟩ := Alone.run enter h running []
          rw [List.append_nil] at hrun
          exists List.replicate n (.step running.length)
          rw [Machine.history_cons, Machine.run_cons, hcall]
          refine ⟨⟨trivial, ?_⟩, hout, hrun⟩
          rw [hcall]
          exact hguard

/-! ## Invariants -/

/-- What every block keeps of the state, and of the threads, holds in every interleaving. -/
theorem invariant (I : σ → Prop) (Sound : φ → Prop)
    (henter : ∀ op s, I s → I (exec (enter op) s).2 ∧ ∀ t ∈ rest (exec (enter op) s).1, Sound t)
    (hnext : ∀ t s, I s → Sound t → guard s t →
      I (exec (next t) s).2 ∧ ∀ u ∈ rest (exec (next t) s).1, Sound u)
    {es : List (Event ι)} (hg : (machine enter next).Guarded (Each guard) es p) (hs : I p.shared)
    (hp : ∀ t ∈ p.running, Sound t) :
    I ((machine enter next).run es p).shared ∧ ∀ t ∈ ((machine enter next).run es p).running, Sound t := by
  refine hg.invariant (fun p => I p.shared ∧ ∀ t ∈ p.running, Sound t) (fun p e hp he => ?_) ⟨hs, hp⟩
  cases e with
  | call op =>
      obtain ⟨hstate, hthread⟩ := henter op p.shared hp.1
      refine ⟨hstate, fun t ht => ?_⟩
      rcases List.mem_append.mp ht with ht | ht
      · exact hp.2 t ht
      · exact hthread t (Option.mem_toList.mp ht)
  | step k =>
      rcases step_cases he with hidle | ⟨l₁, t, l₂, hrunning, hguard, hstep⟩
      · rw [hidle]
        exact hp
      · obtain ⟨hstate, hthread⟩ := hnext t p.shared hp.1 (hp.2 t (by rw [hrunning]; simp)) hguard
        rw [hstep]
        refine ⟨hstate, fun u hu => ?_⟩
        simp only [List.mem_append, Option.mem_toList] at hu
        rcases hu with (hu | hu) | hu
        · exact hp.2 u (by rw [hrunning]; exact List.mem_append_left _ hu)
        · exact hthread u hu
        · exact hp.2 u (by rw [hrunning]; exact List.mem_append_right _ (List.mem_cons_of_mem t hu))

/-! ## What blocks cost -/

section Costs

variable (enter next) in
/-- The blocks that a run goes on with, in order. -/
def blocks : List (Event ι) → Threads φ σ → List φ
  | [], _ => []
  | .call op :: es, p => blocks es (machine enter next (.call op) p).2
  | .step k :: es, p => p.running[k]?.toList ++ blocks es (machine enter next (.step k) p).2

/-- What the blocks `l` cost. -/
def total (cost : φ → Nat) (l : List φ) : Nat := (l.map cost).sum

variable {cost credit : φ → Nat} {budget : σ → Nat} {l l' : List φ}

@[simp] theorem total_nil : total cost [] = 0 := rfl

@[simp] theorem total_cons : total cost (t :: l) = cost t + total cost l := List.sum_cons

@[simp] theorem total_append : total cost (l ++ l') = total cost l + total cost l' := by
  simp [total]

theorem total_toList (t : Option φ) : total cost t.toList = (t.map cost).getD 0 := by
  cases t <;> simp

theorem le_total (h : t ∈ l) : cost t ≤ total cost l := List.le_sum_of_mem (List.mem_map_of_mem h)

theorem total_one : total (fun _ => 1) l = l.length := by
  simp [total]

theorem total_ite (p : φ → Bool) : total (fun t => if p t then 1 else 0) l = l.countP p := by
  induction l with
  | nil => rfl
  | cons t l ih => rw [total_cons, ih, List.countP_cons, Nat.add_comm]

theorem total_step (k : Nat)
    (hnext : ∀ t s, cost t + total credit (rest (exec (next t) s).1).toList + budget (exec (next t) s).2 ≤
      credit t + budget s) :
    total cost p.running[k]?.toList + total credit (machine enter next (.step k) p).2.running +
      budget (machine enter next (.step k) p).2.shared ≤ total credit p.running + budget p.shared := by
  cases ht : p.running[k]? with
  | none => simp [machine, ht]
  | some t =>
      obtain ⟨hlt, rfl⟩ := List.getElem?_eq_some_iff.mp ht
      have hsplit : p.running = p.running.take k ++ p.running[k] :: p.running.drop (k + 1) := by
        rw [List.getElem_cons_drop, List.take_append_drop]
      have htotal := congrArg (total credit) hsplit
      have hblock := hnext p.running[k] p.shared
      simp only [total_append, total_cons] at htotal
      simp only [machine, ht, total_append, Option.toList_some, total_cons, total_nil]
      omega

/-- If each block is paid from the credit of its call and the budget, so is a run, and what is left of both still pays
for the blocks to come. -/
theorem total_blocks_le
    (henter : ∀ op s, total credit (rest (exec (enter op) s).1).toList + budget (exec (enter op) s).2 ≤ budget s)
    (hnext : ∀ t s, cost t + total credit (rest (exec (next t) s).1).toList + budget (exec (next t) s).2 ≤
      credit t + budget s) (es : List (Event ι)) (p : Threads φ σ) :
    total cost (blocks enter next es p) + total credit ((machine enter next).run es p).running +
      budget ((machine enter next).run es p).shared ≤ total credit p.running + budget p.shared := by
  induction es generalizing p with
  | nil => simp [blocks]
  | cons e es ih =>
      have hes := ih (machine enter next e p).2
      rw [Machine.run_cons]
      cases e with
      | call op =>
          have hcall := henter op p.shared
          refine hes.trans ?_
          simp only [machine, total_append]
          omega
      | step k =>
          have hstep := @total_step _ _ _ _ enter next p _ _ _ k hnext
          rw [blocks, total_append]
          omega

end Costs

/-! ## One call among the others -/

section Numbered

variable (enter next)

/-- A call carries the number of calls that began before it, which is kept beside the state. -/
def numberedEnter (op : ι) : Effect ε (σ × Nat) (Option (Nat × φ)) :=
  ExceptT.mk fun s => ((exec (enter op) s.1).1.map (Option.map (Prod.mk s.2)), (exec (enter op) s.1).2, s.2 + 1)

def numberedNext : Nat × φ → Effect ε (σ × Nat) (Option (Nat × φ))
  | (i, t) => ExceptT.mk fun s => ((exec (next t) s.1).1.map (Option.map (Prod.mk i)), (exec (next t) s.1).2, s.2)

/-- The machine in which each call has its number. -/
def numbered : Machine (Event ι) (Option (Except ε Unit)) (Threads (Nat × φ) (σ × Nat)) :=
  machine (numberedEnter enter) (numberedNext next)

/-- The blocks that are those of the call with the number `i`. -/
def ofCall (i : Nat) (l : List (Nat × φ)) : List φ := (l.filter (·.1 = i)).map Prod.snd

/-- The blocks that this call goes on with in a run from `s`. -/
def blocksOf (i : Nat) (es : List (Event ι)) (s : σ) : List φ :=
  ofCall i (blocks (numberedEnter enter) (numberedNext next) es ⟨(s, 0), []⟩)

variable {enter next}

/-- The threads without the numbers. -/
def forget (p : Threads (Nat × φ) (σ × Nat)) : Threads φ σ := ⟨p.shared.1, p.running.map Prod.snd⟩

@[simp] theorem map_snd_numbered (i : Nat) (t : Option φ) : (t.map (Prod.mk i)).toList.map Prod.snd = t.toList := by
  cases t <;> rfl

theorem forget_step (e : Event ι) (p : Threads (Nat × φ) (σ × Nat)) :
    machine enter next e (forget p) = ((numbered enter next e p).1, forget (numbered enter next e p).2) := by
  cases e with
  | call op => simp [machine, numbered, numberedEnter, forget, exec]
  | step k =>
      cases ht : p.running[k]? with
      | none => simp [machine, numbered, forget, ht]
      | some t => simp [machine, numbered, numberedNext, forget, exec, ht]

/-- Numbers change nothing about a run. -/
theorem forget_run (es : List (Event ι)) (p : Threads (Nat × φ) (σ × Nat)) :
    (machine enter next).run es (forget p) = forget ((numbered enter next).run es p) := by
  induction es generalizing p with
  | nil => rfl
  | cons e es ih => rw [Machine.run_cons, Machine.run_cons, forget_step, ih]

variable {cost credit : φ → Nat} {i n : Nat}

theorem mem_ofCall {l : List (Nat × φ)} : t ∈ ofCall i l ↔ (i, t) ∈ l := by
  simp [ofCall]

theorem total_ofCall (l : List (Nat × φ)) :
    total cost (ofCall i l) = total (fun b => if b.1 = i then cost b.2 else 0) l := by
  induction l with
  | nil => rfl
  | cons b l ih =>
      rw [total_cons, ← ih, ofCall, ofCall, List.filter_cons]
      by_cases h : b.1 = i
      · simp [h]
      · simp [h]

/-- If a call begins with a credit of at most `n`, and each of its blocks is paid from it, its blocks cost at most `n`
in any run, and what it has left still pays for its blocks to come. -/
theorem total_blocksOf_le (henter : ∀ op s, total credit (rest (exec (enter op) s).1).toList ≤ n)
    (hnext : ∀ t s, cost t + total credit (rest (exec (next t) s).1).toList ≤ credit t) (i : Nat)
    (es : List (Event ι)) (s : σ) : total cost (blocksOf enter next i es s) +
      total credit (ofCall i ((numbered enter next).run es ⟨(s, 0), []⟩).running) ≤ n := by
  have hnumber (c : φ → Nat) (j : Nat) (t : Option φ) :
      total (fun b : Nat × φ => if b.1 = i then c b.2 else 0) (t.map (Prod.mk j)).toList =
        if j = i then total c t.toList else 0 := by
    cases t <;> simp
  rw [blocksOf, total_ofCall, total_ofCall]
  -- until the call begins, the whole credit is in the budget
  have hrun := @total_blocks_le _ _ _ _ (numberedEnter enter) (numberedNext next)
    (fun b => if b.1 = i then cost b.2 else 0) (fun b => if b.1 = i then credit b.2 else 0)
    (fun s => if s.2 ≤ i then n else 0) ?_ ?_ es ⟨(s, 0), []⟩
  · simp only [total_nil, Nat.zero_le, if_true, Nat.zero_add] at hrun
    exact (Nat.le_add_right _ _).trans hrun
  · rintro op ⟨s, j⟩
    change total _ (rest ((exec (enter op) s).1.map (Option.map (Prod.mk j)))).toList +
      (if j + 1 ≤ i then n else 0) ≤ if j ≤ i then n else 0
    rw [rest_map, hnumber]
    rcases lt_trichotomy j i with h | rfl | h
    · rw [if_neg h.ne, if_pos (show j + 1 ≤ i from h), if_pos h.le, Nat.zero_add]
    · rw [if_pos rfl, if_neg (Nat.not_succ_le_self j), if_pos (Nat.le_refl j)]
      exact henter op s
    · rw [if_neg h.ne', if_neg (by omega), if_neg (by omega)]
  · rintro ⟨j, t⟩ ⟨s, m⟩
    refine Nat.add_le_add_right ?_ _
    change (if j = i then cost t else 0) + total _ (rest ((exec (next t) s).1.map (Option.map (Prod.mk j)))).toList ≤
      if j = i then credit t else 0
    rw [rest_map, hnumber]
    split
    · exact hnext t s
    · exact Nat.le_refl 0

end Numbered

/-! ## Accounts -/

section Accounts

open Ledger

variable {α : Type} [DecidableEq α] (A B : σ → Set α) (I : σ → Prop) (Sound : φ → Prop)
  (failed : Except ε Unit → Bool) (debt : φ → Option (α × ℤ))

/-- A block keeps the invariants, and the surplus changes by what the thread owes before and after it, but for what a
call that fails may leave behind. -/
structure Block (before : Option (α × ℤ)) (s : σ) (r : Except ε (Option φ)) (s' : σ) : Prop where
  state : I s'
  thread : ∀ t ∈ rest r, Sound t
  accounts : ∃ lost : List (α × ℤ), lost.length ≤ (ended r).toList.countP failed ∧
    surplus (A s') (B s') + balance before.toList =
      surplus (A s) (B s) + balance ((rest r).bind debt).toList + balance lost

/-- The surplus is what the running calls owe, and what at most `n` failed ones have left behind. -/
structure Balanced (n : Nat) (p : Threads φ σ) : Prop where
  state : I p.shared
  threads : ∀ t ∈ p.running, Sound t
  accounts : ∃ lost : List (α × ℤ), lost.length ≤ n ∧
    surplus (A p.shared) (B p.shared) = balance (p.running.filterMap debt) + balance lost

variable {A B I Sound failed debt} {n : Nat} {r : Except ε (Option φ)}

namespace Block

variable {before : Option (α × ℤ)}

/-- The thread owes what it owed before, and the surplus is what it was. -/
theorem kept (hstate : I s') (hthread : ∀ t ∈ rest r, Sound t)
    (hsurplus : surplus (A s') (B s') = surplus (A s) (B s)) (hdebt : (rest r).bind debt = before) :
    Block A B I Sound failed debt before s r s' where
  state := hstate
  thread := hthread
  accounts := ⟨[], Nat.zero_le _, by rw [hsurplus, hdebt, balance_nil, add_zero]⟩

/-- The thread has come to owe what the surplus has grown by. -/
theorem opened {d : α × ℤ} (hstate : I s') (hthread : ∀ t ∈ rest r, Sound t)
    (hsurplus : surplus (A s') (B s') = surplus (A s) (B s) + balance [d]) (hdebt : (rest r).bind debt = some d) :
    Block A B I Sound failed debt none s r s' where
  state := hstate
  thread := hthread
  accounts := ⟨[], Nat.zero_le _, by simp [hsurplus, hdebt]⟩

/-- The thread has settled what it owed. -/
theorem settled {d : α × ℤ} (hstate : I s') (hthread : ∀ t ∈ rest r, Sound t)
    (hsurplus : surplus (A s') (B s') + balance [d] = surplus (A s) (B s)) (hdebt : (rest r).bind debt = none) :
    Block A B I Sound failed debt (some d) s r s' where
  state := hstate
  thread := hthread
  accounts := ⟨[], Nat.zero_le _, by rw [Option.toList_some, hsurplus, hdebt]; simp⟩

/-- The call fails and leaves behind what it owed. -/
theorem raised {e : ε} (hstate : I s') (hsurplus : surplus (A s') (B s') = surplus (A s) (B s))
    (hfailed : failed (.error e) = true) : Block A B I Sound failed debt before s (.error e) s' where
  state := hstate
  thread _ ht := by cases ht
  accounts := by
    have hcount : (ended (.error e : Except ε (Option φ))).toList.countP failed = 1 := by simp [ended, hfailed]
    refine ⟨before.toList, ?_, ?_⟩
    · rw [hcount]
      cases before <;> simp
    · rw [hsurplus]
      simp [rest]

end Block

omit [DecidableEq α] in
theorem filterMap_toList (t : Option φ) : t.toList.filterMap debt = (t.bind debt).toList := by
  cases t with
  | none => rfl
  | some t => cases h : debt t <;> simp [h]

namespace Balanced

theorem called (h : Balanced A B I Sound debt n p) (hb : Block A B I Sound failed debt none p.shared r s') :
    Balanced A B I Sound debt (n + (ended r).toList.countP failed) ⟨s', p.running ++ (rest r).toList⟩ where
  state := hb.state
  threads t ht := by
    rcases List.mem_append.mp ht with ht | ht
    · exact h.threads t ht
    · exact hb.thread t (Option.mem_toList.mp ht)
  accounts := by
    obtain ⟨lost, hlen, hsum⟩ := h.accounts
    obtain ⟨lost', hlen', hsum'⟩ := hb.accounts
    refine ⟨lost ++ lost', by rw [List.length_append]; exact Nat.add_le_add hlen hlen', ?_⟩
    rw [Option.toList_none, balance_nil, add_zero, hsum] at hsum'
    rw [hsum', List.filterMap_append, filterMap_toList, balance_append, balance_append]
    abel

theorem stepped (h : Balanced A B I Sound debt n p) (hp : p.running = l₁ ++ t :: l₂)
    (hb : Block A B I Sound failed debt (debt t) p.shared r s') :
    Balanced A B I Sound debt (n + (ended r).toList.countP failed) ⟨s', l₁ ++ (rest r).toList ++ l₂⟩ where
  state := hb.state
  threads u hu := by
    rcases List.mem_append.mp hu with hu | hu
    · rcases List.mem_append.mp hu with hu | hu
      · exact h.threads u (hp ▸ List.mem_append_left _ hu)
      · exact hb.thread u (Option.mem_toList.mp hu)
    · exact h.threads u (hp ▸ List.mem_append_right _ (List.mem_cons_of_mem t hu))
  accounts := by
    obtain ⟨lost, hlen, hsum⟩ := h.accounts
    obtain ⟨lost', hlen', hsum'⟩ := hb.accounts
    refine ⟨lost ++ lost', by rw [List.length_append]; exact Nat.add_le_add hlen hlen', ?_⟩
    have hold : balance (p.running.filterMap debt) =
        balance (l₁.filterMap debt) + balance (debt t).toList + balance (l₂.filterMap debt) := by
      have hcons : t :: l₂ = (some t).toList ++ l₂ := rfl
      rw [hp, hcons, List.filterMap_append, List.filterMap_append, filterMap_toList, balance_append, balance_append]
      simp only [Option.bind_some]
      abel
    rw [hsum, hold] at hsum'
    rw [List.filterMap_append, List.filterMap_append, filterMap_toList, balance_append, balance_append, balance_append]
    refine add_right_cancel (hsum'.trans ?_)
    abel

/-- In every interleaving, what the two sets owe each other is accounted for. -/
theorem run (henter : ∀ op s, I s → Block A B I Sound failed debt none s (exec (enter op) s).1 (exec (enter op) s).2)
    (hnext : ∀ t s, I s → Sound t → guard s t →
      Block A B I Sound failed debt (debt t) s (exec (next t) s).1 (exec (next t) s).2)
    {es : List (Event ι)} (hg : (machine enter next).Guarded (Each guard) es p) (h : Balanced A B I Sound debt n p) :
    Balanced A B I Sound debt (n + ((machine enter next).history es p).countP failed) ((machine enter next).run es p) := by
  induction es generalizing n p with
  | nil => exact h
  | cons e es ih =>
      have hstep : Balanced A B I Sound debt (n + (machine enter next e p).1.toList.countP failed)
          (machine enter next e p).2 := by
        cases e with
        | call op => exact h.called (henter op p.shared h.state)
        | step k =>
            rcases step_cases hg.1 with hidle | ⟨l₁, t, l₂, hp, hguard, hrun⟩
            · rw [hidle]
              exact h
            · rw [hrun]
              exact h.stepped hp (hnext t p.shared h.state (h.threads t (hp ▸ by simp)) hguard)
      rw [Machine.history_cons, List.countP_append, ← Nat.add_assoc, Machine.run_cons]
      exact ih hg.2 hstep

/-- The sets differ at no more elements than calls owe something or have failed. -/
theorem encard_le (h : Balanced A B I Sound debt n p) :
    (symmDiff (A p.shared) (B p.shared)).encard ≤ (p.running.filterMap debt).length + n := by
  obtain ⟨lost, hlen, hsum⟩ := h.accounts
  rw [← balance_append] at hsum
  refine (encard_symmDiff_le hsum).trans ?_
  rw [List.length_append]
  exact_mod_cast Nat.add_le_add_left hlen _

end Balanced

end Accounts

end Threads

end PrometheusRing
