import PrometheusRing.Ring.Lemmas.Placement

/-!
# What routing finds

`lookup` is what a reader of the ring sees. Splits leave it unchanged, and so do merges that take nothing but
the merged node out of the container.
-/

namespace PrometheusRing.Ring

open AbstractDataType Effect

variable {σ : Type} [AbstractDataType σ Ref] (stableHash : String → Nat)

/-- The target that routing finds under the key. -/
def lookup (s : Ring σ) (key : String) : Option Target :=
  (s.findNode (stableHash key)).bind fun n => (s.node n).get key

/-- What a reader is told about a key. -/
def answer (key : String) : Option Target → Except Exn (Option Target)
  | some t => .ok (some t)
  | none => .error (.keyNotFoundError s!"Key {key} not found")

/-- A scale-down takes nothing out of the container but the node it merges. -/
def CleanMerge [Routing σ] (s : Ring σ) (op : Op) : Prop :=
  ∀ key n, op = .delete key → s.scaledDown stableHash key = some n → Routing.Clean s.ring (s.node n).index

variable {stableHash} {s s' : Ring σ} {n r d p : Ref} {i m : Nat} {key k : String} {t : Target}

theorem lookup_of_findNode (hn : s.findNode (stableHash key) = some n) :
    s.lookup stableHash key = (s.node n).get key := by rw [lookup, hn]; rfl

theorem hasKey_of_lookup (hn : s.findNode (stableHash key) = some n) :
    (s.node n).hasKey key = (s.lookup stableHash key).isSome := by rw [lookup_of_findNode hn]; rfl

/-! ## Changes of the ring -/

/-- A change of the node that answers for a key, and of nothing but that key on it. -/
theorem lookup_onNode {f : Node → Node} {v : Option Target} (hn : s.findNode (stableHash key) = some n)
    (hf : ∀ k, (f (s.node n)).get k = if k = key then v else (s.node n).get k) :
    (s.onNode n f).lookup stableHash k = if k = key then v else s.lookup stableHash k := by
  rw [lookup, findNode_onNode, lookup]
  by_cases hk : k = key
  · subst hk; simp [hn, hf]
  · rw [if_neg hk]
    cases hr : s.findNode (stableHash k) with
    | none => rfl
    | some r =>
        simp only [Option.bind_some, node_onNode]
        split
        case isTrue he => subst he; rw [hf, if_neg hk]
        case isFalse => rfl

theorem lookup_stored (hn : s.findNode (stableHash key) = some n) :
    (s.onNode n (·.insert key t)).lookup stableHash k = if k = key then some t else s.lookup stableHash k :=
  lookup_onNode hn fun _ => Node.get_insert

theorem lookup_dropped (hn : s.findNode (stableHash key) = some n) :
    (s.onNode n (·.without key)).lookup stableHash k = if k = key then none else s.lookup stableHash k :=
  lookup_onNode hn fun _ => Node.get_without

variable [Routing σ]

theorem lookup_fresh (args : NodeArgs) (argsOk : args.check = .ok ())
    (nodeMinLoad nodeMaxLoad nodeBasePorts : Int) :
    (Ring.fresh args argsOk nodeMinLoad nodeMaxLoad (empty : σ) nodeBasePorts).lookup stableHash k = none := by
  have hs : Placed stableHash (Ring.fresh args argsOk nodeMinLoad nodeMaxLoad (empty : σ) nodeBasePorts) :=
    Placed.fresh args argsOk nodeMinLoad nodeMaxLoad nodeBasePorts
  obtain ⟨n, hn, -⟩ := hs.findNode (stableHash k)
  exact lookup_of_findNode hn

theorem Placed.lookup_eq_some (hs : Placed stableHash s) :
    s.lookup stableHash key = some t ↔ ∃ r ∈ s.getNodes, (s.node r).get key = some t := by
  constructor
  · intro h
    obtain ⟨n, hn, hmem⟩ := hs.findNode (stableHash key)
    exact ⟨n, hmem, (lookup_of_findNode hn).symm.trans h⟩
  · rintro ⟨r, hr, ht⟩
    exact (lookup_of_findNode (hs.of_hasKey hr (Node.hasKey_iff.mpr ⟨t, ht⟩))).trans ht

theorem lookup_split (hs : Placed stableHash s) (hn : n ∈ s.getNodes) (hm : s.findNode m = some n) :
    (s.split stableHash n m).lookup stableHash k = s.lookup stableHash k := by
  obtain ⟨r, hr, hmem⟩ := hs.findNode (stableHash k)
  have hlt := hs.allocated n hn
  rw [lookup_of_findNode hr, lookup, hs.findNode_split hm, hr]
  by_cases hmk : m ≤ stableHash k ∧ some r = some n
  · obtain ⟨hle, he⟩ := hmk
    rw [if_pos ⟨hle, he⟩, Option.bind_some, get_split_new hlt, if_pos hle, Option.some.inj he]
  · rw [if_neg hmk, Option.bind_some, node_split hlt (hs.allocated r hmem)]
    split
    case isTrue he =>
        subst he
        rw [Node.get_keepBelow, if_pos (by simpa using hmk)]
    case isFalse => rfl

theorem findNode_merged (hs : Placed stableHash s) (hc : Routing.Clean s.ring i)
    (hd : search s.ring i = some d) (hp : findMaxSmallerThan s.ring i = some p) (x : Nat) :
    (s.merged d p i).findNode x = if s.findNode x = some d then some p else s.findNode x := by
  obtain ⟨r, hr, -⟩ := hs.findNode x
  split
  case isTrue h => exact Routing.owner_remove_self hs.valid hd hp h
  case isFalse h =>
      rw [hr] at h ⊢
      exact Routing.owner_remove_clean hs.valid hc hd hp hr fun he => h (congrArg some he)

theorem lookup_merged (hs : Placed stableHash s) (hc : Routing.Clean s.ring i)
    (hd : search s.ring i = some d) (hp : findMaxSmallerThan s.ring i = some p) :
    (s.merged d p i).lookup stableHash k = s.lookup stableHash k := by
  have hdp : d ≠ p := (Routing.prior_ne hs.valid hd hp).symm
  have hdmem : d ∈ s.getNodes := (Routing.mem_list hs.valid).mpr ⟨i, Routing.entry_of_search hs.valid hd⟩
  obtain ⟨x, -, hx⟩ := Routing.owner_of_prior hs.valid hp
  have hpmem : p ∈ s.getNodes := Routing.owner_mem hs.valid hx
  obtain ⟨r, hr, -⟩ := hs.findNode (stableHash k)
  -- a node that does not answer for the key does not have it
  have hnone : ∀ q ∈ s.getNodes, q ≠ r → (s.node q).get k = none := by
    intro q hq hqr
    by_contra hne
    obtain ⟨t, ht⟩ := Option.ne_none_iff_exists'.mp hne
    exact hqr (Option.some.inj ((hs.of_hasKey hq (Node.hasKey_iff.mpr ⟨t, ht⟩)).symm.trans hr))
  rw [lookup_of_findNode hr, lookup, findNode_merged hs hc hd hp, hr]
  by_cases hrd : r = d
  · subst hrd
    rw [if_pos rfl, Option.bind_some, get_merged hdp, if_neg hdp.symm, if_pos rfl, hnone p hpmem hdp.symm,
      Option.or_none]
  · rw [if_neg fun he => hrd (Option.some.inj he), Option.bind_some, get_merged hdp, if_neg hrd]
    split
    case isTrue he => subst he; rw [hnone d hdmem hdp, Option.none_or]
    case isFalse => rfl

/-- A merge brings no target back, whatever it takes out of the container. -/
theorem lookup_of_merged (hs : Placed stableHash s) (hd : search s.ring i = some d)
    (hp : findMaxSmallerThan s.ring i = some p) (ht : (s.merged d p i).lookup stableHash k = some t) :
    s.lookup stableHash k = some t := by
  have hdmem : d ∈ s.getNodes := (Routing.mem_list hs.valid).mpr ⟨i, Routing.entry_of_search hs.valid hd⟩
  obtain ⟨r, hmem, ht⟩ := (hs.merged hd hp).lookup_eq_some.mp ht
  have hr : r ∈ s.getNodes := Routing.mem_list_of_remove hs.valid hd hp hmem
  rw [get_merged (Routing.prior_ne hs.valid hd hp).symm] at ht
  rw [hs.lookup_eq_some]
  split at ht
  case isTrue => cases ht
  case isFalse =>
      split at ht
      case isTrue he =>
          subst he
          rcases Option.or_eq_some_iff.mp ht with ht | ⟨-, ht⟩
          · exact ⟨d, hdmem, ht⟩
          · exact ⟨r, hr, ht⟩
      case isFalse => exact ⟨r, hr, ht⟩

/-! ## Calls -/

/-- What a call that returns leaves under its key. -/
def Op.written : Op → Option Target
  | .insert target _ _ => some target
  | .update _ newTarget => some newTarget
  | .delete _ => none

theorem lookup_step_ok (hs : Placed stableHash s) {op : Op} {x : Option Ref}
    (hc : CleanMerge stableHash s op) (h : Step stableHash s op (.ok x) s') (k : String) :
    s'.lookup stableHash k = if k = op.key then op.written else s.lookup stableHash k := by
  cases h with
  | Ins_Stored hkey hn => subst hkey; exact lookup_stored hn
  | Upd_Stored hn => exact lookup_stored hn
  | Ins_Split hkey hup hm =>
      subst hkey
      obtain ⟨hn, hmem, hs', hmid⟩ := hs.scaledUp hup hm
      exact (lookup_split hs' hmem hmid).trans (lookup_stored hn)
  | Del_Kept hn => exact lookup_dropped hn
  | @Del_Merged key n d p hdown hd hp =>
      rw [lookup_merged (hs.dropped n key) (hc key n rfl hdown) hd hp]
      exact lookup_dropped (scaledDown_eq_some.mp hdown).1

theorem lookup_step_of_ne (hs : Placed stableHash s) {op : Op} {o : Outcome} (hc : CleanMerge stableHash s op)
    (h : Step stableHash s op o s') (hk : k ≠ op.key) : s'.lookup stableHash k = s.lookup stableHash k := by
  cases o with
  | ok x => exact (lookup_step_ok hs hc h k).trans (if_neg hk)
  | error e =>
      cases h with
      | Ins_Exists | Upd_Missing | Del_Missing => rfl
      | Ins_NoCapacity hkey hn => subst hkey; exact (lookup_stored hn).trans (if_neg hk)
      | Del_NoCapacity hn => exact (lookup_dropped hn).trans (if_neg hk)
      | Del_Untracked hdown | Del_NoPrior hdown =>
          exact (lookup_dropped (scaledDown_eq_some.mp hdown).1).trans (if_neg hk)

omit [Routing σ] in
theorem insert_existing {u : String} {k : Option String} {o : Outcome}
    (hsome : (s.lookup stableHash (k.getD u)).isSome) (h : Step stableHash s (.insert t k u) o s') :
    o = .error (.keyAlreadyExistsError s!"Key {k.getD u} already exists") ∧ s' = s := by
  have habs : ∀ {n}, s.findNode (stableHash (k.getD u)) = some n →
      (s.node n).hasKey (k.getD u) = false → False := by
    intro n hn hk
    rw [hasKey_of_lookup hn, hsome] at hk
    cases hk
  cases h with
  | Ins_Exists hkey => subst hkey; exact ⟨rfl, rfl⟩
  | Ins_NoCapacity hkey hn hk | Ins_Stored hkey hn hk => subst hkey; exact (habs hn hk).elim
  | Ins_Split hkey hup =>
      subst hkey
      obtain ⟨hn, hk, -⟩ := scaledUp_eq_some.mp hup
      exact (habs hn hk).elim

omit [Routing σ] in
theorem delete_missing {o : Outcome} (hnone : s.lookup stableHash key = none)
    (h : Step stableHash s (.delete key) o s') :
    o = .error (.keyNotFoundError s!"Key {key} not found") ∧ s' = s := by
  have habs : ∀ {n}, s.findNode (stableHash key) = some n → (s.node n).hasKey key = true → False := by
    intro n hn hk
    rw [hasKey_of_lookup hn, hnone] at hk
    cases hk
  cases h with
  | Del_Missing => exact ⟨rfl, rfl⟩
  | Del_NoCapacity hn hk | Del_Kept hn hk => exact (habs hn hk).elim
  | Del_Untracked hdown | Del_NoPrior hdown | Del_Merged hdown =>
      obtain ⟨hn, hk, -⟩ := scaledDown_eq_some.mp hdown
      exact (habs hn hk).elim

/-- Whatever `delete` returns or raises, the key is gone. -/
theorem lookup_delete [Percentage] (hs : Placed stableHash s) {o : Outcome} (h : Step stableHash s (.delete key) o s') :
    s'.lookup stableHash key = none := by
  cases h with
  | Del_Missing hn hk => exact (lookup_of_findNode hn).trans (Node.hasKey_eq_false.mp hk)
  | Del_NoCapacity hn | Del_Kept hn => exact (lookup_dropped hn).trans (if_pos rfl)
  | Del_Untracked hdown | Del_NoPrior hdown =>
      exact (lookup_dropped (scaledDown_eq_some.mp hdown).1).trans (if_pos rfl)
  | @Del_Merged key n d p hdown hd hp =>
      cases hsome : ((s.onNode n (·.without key)).merged d p (s.node n).index).lookup stableHash key with
      | none => rfl
      | some t =>
          have hgone := lookup_of_merged (hs.dropped n key) hd hp hsome
          rw [lookup_dropped (scaledDown_eq_some.mp hdown).1, if_pos rfl] at hgone
          cases hgone

theorem lookup_step_some [Percentage] (hs : Placed stableHash s) {op : Op} {o : Outcome} (h : Step stableHash s op o s')
    (ht : s'.lookup stableHash k = some t) :
    s.lookup stableHash k = some t ∨ k = op.key ∧ op.written = some t := by
  have hstore : ∀ {n key t'}, s.findNode (stableHash key) = some n →
      (s.onNode n (·.insert key t')).lookup stableHash k = some t →
        s.lookup stableHash k = some t ∨ k = key ∧ some t' = some t := by
    intro n key t' hn ht
    rw [lookup_stored hn] at ht
    split at ht
    case isTrue hk => exact Or.inr ⟨hk, ht⟩
    case isFalse => exact Or.inl ht
  have hdrop : ∀ {n key}, s.findNode (stableHash key) = some n →
      (s.onNode n (·.without key)).lookup stableHash k = some t → s.lookup stableHash k = some t := by
    intro n key hn ht
    rw [lookup_dropped hn] at ht
    exact (Option.ite_none_left_eq_some.mp ht).2
  cases h with
  | Ins_Exists | Upd_Missing | Del_Missing => exact Or.inl ht
  | Ins_NoCapacity hkey hn | Ins_Stored hkey hn => subst hkey; exact hstore hn ht
  | Upd_Stored hn => exact hstore hn ht
  | Ins_Split hkey hup hm =>
      subst hkey
      obtain ⟨hn, hmem, hs', hmid⟩ := hs.scaledUp hup hm
      rw [lookup_split hs' hmem hmid] at ht
      exact hstore hn ht
  | Del_NoCapacity hn | Del_Kept hn => exact Or.inl (hdrop hn ht)
  | Del_Untracked hdown | Del_NoPrior hdown => exact Or.inl (hdrop (scaledDown_eq_some.mp hdown).1 ht)
  | @Del_Merged key n d p hdown hd hp =>
      exact Or.inl (hdrop (scaledDown_eq_some.mp hdown).1 (lookup_of_merged (hs.dropped n key) hd hp ht))

theorem exec_get_eq (hs : Placed stableHash s) (key : String) :
    exec (Ring.get stableHash key) s = (answer key (s.lookup stableHash key), s) := by
  obtain ⟨n, hn, -⟩ := hs.findNode (stableHash key)
  simp only [Ring.get, exec_bind, exec_getTargetNode hn, lookup_of_findNode hn]
  cases hkey : (s.node n).hasKey key with
  | true =>
      obtain ⟨t, ht⟩ := Node.hasKey_iff.mp hkey
      simp [ht, answer]
  | false =>
      rw [Node.hasKey_eq_false.mp hkey]
      rfl

end PrometheusRing.Ring
