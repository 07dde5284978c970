import PrometheusRing.Adt.Lemmas.SameEntries
import PrometheusRing.Ring.Lemmas.Indices

/-!
# One ring in two containers

Two rings with the same node objects, in containers with the same entries, take the same steps: no call can
tell the containers apart as long as no index is used twice and every merge is clean.
-/

namespace PrometheusRing.Ring

open AbstractDataType

variable {σ τ : Type} [AbstractDataType σ Ref] [AbstractDataType τ Ref] {stableHash : String → Nat}

/-! ## A call goes one way only -/

section Unique

variable {s s₁ s₂ : Ring σ} {op : Op} {o₁ o₂ : Outcome} {t : Target} {k : Option String} {u key : String}

theorem Step.insert_unique (h₁ : Step stableHash s (.insert t k u) o₁ s₁)
    (h₂ : Step stableHash s (.insert t k u) o₂ s₂) : o₁ = o₂ ∧ s₁ = s₂ := by
  have hcap : ∀ {n : Node} {l}, (n.insert (k.getD u) t).load = .ok l → n.capacity ≠ 0 :=
    fun hl hc => Node.capacity_ne_of_load hl hc
  cases hup : s.scaledUp stableHash (k.getD u) t with
  | some n =>
      obtain ⟨m, hm, rfl, rfl⟩ := split_of_scaledUp h₁ hup
      obtain ⟨m', hm', rfl, rfl⟩ := split_of_scaledUp h₂ hup
      obtain rfl := Except.ok.inj (hm.symm.trans hm')
      exact ⟨rfl, rfl⟩
  | none => cases h₁ <;> cases h₂ <;> grind

theorem Step.update_unique (h₁ : Step stableHash s (.update key t) o₁ s₁)
    (h₂ : Step stableHash s (.update key t) o₂ s₂) : o₁ = o₂ ∧ s₁ = s₂ := by
  cases h₁ <;> cases h₂ <;> grind

theorem Step.delete_unique (h₁ : Step stableHash s (.delete key) o₁ s₁)
    (h₂ : Step stableHash s (.delete key) o₂ s₂) : o₁ = o₂ ∧ s₁ = s₂ := by
  have hcap : ∀ {n : Node} {l}, (n.without key).load = .ok l → n.capacity ≠ 0 :=
    fun hl hc => Node.capacity_ne_of_load hl hc
  cases hdown : s.scaledDown stableHash key with
  | some n =>
      obtain ⟨hn, hkey, hz, l, hl, hle⟩ := scaledDown_eq_some.mp hdown
      cases h₁ <;> cases h₂ <;> grind
  | none => cases h₁ <;> cases h₂ <;> grind

theorem Step.unique (h₁ : Step stableHash s op o₁ s₁) (h₂ : Step stableHash s op o₂ s₂) :
    o₁ = o₂ ∧ s₁ = s₂ := by
  cases op with
  | insert => exact h₁.insert_unique h₂
  | update => exact h₁.update_unique h₂
  | delete => exact h₁.delete_unique h₂

end Unique

/-! ## Changing the container -/

/-- The ring in another container. -/
def withRing (s : Ring σ) (b : τ) : Ring τ := { s with ring := b }

variable {s s' : Ring σ} {b : τ} {n d p : Ref} {i m : Nat} {key : String} {t : Target} {f : Node → Node}
  {op : Op} {o : Outcome}

omit [AbstractDataType σ Ref] [AbstractDataType τ Ref] in
@[simp] theorem onNode_withRing : (s.withRing b).onNode n f = (s.onNode n f).withRing b := rfl

theorem split_withRing : (s.withRing b).split stableHash n m =
    (s.split stableHash n m).withRing (insert b m s.heap.next) := rfl

theorem merged_withRing : (s.withRing b).merged d p i = (s.merged d p i).withRing (remove b i) := rfl

variable [Routing σ] [Routing τ]

/-- The second ring is the first one in a container with the same entries. -/
def Alike (s : Ring σ) (s' : Ring τ) : Prop := ∃ b : τ, s' = s.withRing b ∧ SameEntries s.ring b

theorem Alike.fresh (args : NodeArgs) (argsOk : args.check = .ok ())
    (nodeMinLoad nodeMaxLoad nodeBasePorts : Int) :
    Alike (Ring.fresh args argsOk nodeMinLoad nodeMaxLoad (empty : σ) nodeBasePorts)
      (Ring.fresh args argsOk nodeMinLoad nodeMaxLoad (empty : τ) nodeBasePorts) :=
  ⟨insert empty 0 0, rfl, SameEntries.seed 0⟩

section SameEntries

variable (h : SameEntries s.ring b)
include h

theorem findNode_withRing (x : Nat) : (s.withRing b).findNode x = s.findNode x := (h.owner_eq x).symm

theorem scaledUp_withRing : (s.withRing b).scaledUp stableHash key t = s.scaledUp stableHash key t := by
  rw [scaledUp, scaledUp, findNode_withRing h]; rfl

theorem scaledDown_withRing (stableHash : String → Nat) (key : String) :
    (s.withRing b).scaledDown stableHash key = s.scaledDown stableHash key := by
  rw [scaledDown, scaledDown, findNode_withRing h]; rfl

theorem Sound.withRing (hs : s.Sound) : (s.withRing b).Sound where
  valid := h.right
  allocated r hr := hs.allocated r (h.mem_list.mpr hr)
  settled r hr := hs.settled r (h.mem_list.mpr hr)
  shared r hr := hs.shared r (h.mem_list.mpr hr)

theorem Placed.withRing (hs : Placed stableHash s) : Placed stableHash (s.withRing b) where
  toSound := hs.toSound.withRing h
  routed r hr k hk := (findNode_withRing h _).trans (hs.routed r (h.mem_list.mpr hr) k hk)

/-- A step of a ring is a step of the same ring in the other container. -/
theorem Step.withRing (hs : Placed stableHash s) (hc : CleanMerge stableHash s op)
    (hc' : CleanMerge stableHash (s.withRing b) op)
    (hnew : ∀ {t k u n m}, op = .insert t k u → s.scaledUp stableHash (k.getD u) t = some n →
      ((s.node n).insert (k.getD u) t).calcMidHash stableHash = .ok m → ∀ r, ¬ Routing.Entry s.ring m r)
    (hstep : Step stableHash s op o s') :
    ∃ b' : τ, Step stableHash (s.withRing b) op o (s'.withRing b') ∧ SameEntries s'.ring b' := by
  have hfind := findNode_withRing h
  cases hstep with
  | Ins_Exists hk hn hkey => exact ⟨b, .Ins_Exists hk ((hfind _).trans hn) hkey, h⟩
  | Ins_NoCapacity hk hn hkey hz => exact ⟨b, .Ins_NoCapacity hk ((hfind _).trans hn) hkey hz, h⟩
  | Ins_Stored hk hn hkey hl hle => exact ⟨b, .Ins_Stored hk ((hfind _).trans hn) hkey hl hle, h⟩
  | @Ins_Split t k u key n m hk hup hm =>
      subst hk
      have hstep' := Step.Ins_Split (u := u) rfl ((scaledUp_withRing h).trans hup) hm
      rw [onNode_withRing, split_withRing] at hstep'
      exact ⟨_, hstep', h.insert hs.new_notMem (hnew rfl hup hm)⟩
  | Upd_Missing hn hkey => exact ⟨b, .Upd_Missing ((hfind _).trans hn) hkey, h⟩
  | Upd_Stored hn hkey => exact ⟨b, .Upd_Stored ((hfind _).trans hn) hkey, h⟩
  | Del_Missing hn hkey => exact ⟨b, .Del_Missing ((hfind _).trans hn) hkey, h⟩
  | Del_NoCapacity hn hkey hz => exact ⟨b, .Del_NoCapacity ((hfind _).trans hn) hkey hz, h⟩
  | Del_Kept hn hkey hl hle => exact ⟨b, .Del_Kept ((hfind _).trans hn) hkey hl hle, h⟩
  | @Del_Untracked key n hdown hd =>
      have hdown' := (scaledDown_withRing h stableHash key).trans hdown
      exact ⟨b, .Del_Untracked hdown' ((h.search_eq _).symm.trans hd), h⟩
  | @Del_NoPrior key n d hdown hd hp =>
      have hdown' := (scaledDown_withRing h stableHash key).trans hdown
      exact ⟨b, .Del_NoPrior hdown' ((h.search_eq _).symm.trans hd) ((h.findMaxSmallerThan_eq _).symm.trans hp), h⟩
  | @Del_Merged key n d p hdown hd hp =>
      have hdown' := (scaledDown_withRing h stableHash key).trans hdown
      have hstep' := Step.Del_Merged hdown' ((h.search_eq _).symm.trans hd)
        ((h.findMaxSmallerThan_eq _).symm.trans hp)
      rw [onNode_withRing, merged_withRing] at hstep'
      exact ⟨_, hstep', h.remove (hc key n rfl hdown) (hc' key n rfl hdown') hd hp⟩

end SameEntries

/-- Alike rings answer a call alike and stay alike. -/
theorem Alike.machine_eq {s' : Ring τ} (h : Alike s s') (hs : Placed stableHash s)
    (hc : CleanMerge stableHash s op) (hc' : CleanMerge stableHash s' op)
    (hnew : ∀ {t k u n m}, op = .insert t k u → s.scaledUp stableHash (k.getD u) t = some n →
      ((s.node n).insert (k.getD u) t).calcMidHash stableHash = .ok m → ∀ r, ¬ Routing.Entry s.ring m r) :
    (Ring.machine stableHash op s').1 = (Ring.machine stableHash op s).1 ∧
      Alike (Ring.machine stableHash op s).2 (Ring.machine stableHash op s').2 := by
  obtain ⟨b, rfl, hb⟩ := h
  obtain ⟨b', hstep, hb'⟩ := (step_machine hs.toSound stableHash op).withRing hb hs hc hc' hnew
  obtain ⟨ho, hnext⟩ := (step_machine (hs.toSound.withRing hb) stableHash op).unique hstep
  exact ⟨ho, b', hnext, hb'⟩

end PrometheusRing.Ring
