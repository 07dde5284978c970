import PrometheusRing.Ring.Lemmas.Writes

/-!
# What can be read between two writes

In every state between two writes of a block, a node object has no target that was not registered before or is
not registered after the block, and keys that the block does not move are where they are before and after.
-/

namespace PrometheusRing.Ring

open AbstractDataType Effect

variable {σ : Type} [AbstractDataType σ Ref] (stableHash : String → Nat)

/-- No node object has a key that is not routed to it, not even one that has left the container. -/
def Swept (s : Ring σ) : Prop :=
  ∀ r k, (s.node r).hasKey k = true → s.findNode (stableHash k) = some r

/-- What a reader may rely on in a state `u` between two states `s` and `s'` of the ring. -/
structure Between (s s' u : Ring σ) : Prop where
  container : u.ring = s.ring ∨ u.ring = s'.ring
  home : ∀ {r k t}, (u.node r).get k = some t →
    s.findNode (stableHash k) = some r ∨ s'.findNode (stableHash k) = some r
  value : ∀ {r k t}, (u.node r).get k = some t →
    s.lookup stableHash k = some t ∨ s'.lookup stableHash k = some t
  still : ∀ {r k}, s.findNode (stableHash k) = some r → s'.findNode (stableHash k) = some r →
    (u.node r).get k = s.lookup stableHash k ∨ (u.node r).get k = s'.lookup stableHash k

variable {stableHash} {s s' u : Ring σ} {n r d p : Ref} {i m : Nat} {key k : String} {t : Target} {op : Op}
  {o : Outcome}

/-! ## No stale keys -/

namespace Swept

theorem get (hs : Swept stableHash s) (h : (s.node r).get k = some t) : s.lookup stableHash k = some t := by
  rw [lookup_of_findNode (hs r k (Node.hasKey_iff.mpr ⟨t, h⟩))]
  exact h

theorem fresh (args : NodeArgs) (argsOk : args.check = .ok ()) (nodeMinLoad nodeMaxLoad nodeBasePorts : Int)
    (adt : σ) : Swept stableHash (Ring.fresh args argsOk nodeMinLoad nodeMaxLoad adt nodeBasePorts) := by
  intro r k hk
  cases hk

theorem stored (hs : Swept stableHash s) (hn : s.findNode (stableHash key) = some n) (t : Target) :
    Swept stableHash (s.onNode n (·.insert key t)) := by
  intro r k hk
  rw [node_onNode] at hk
  split at hk
  case isFalse => exact hs r k hk
  case isTrue he =>
      subst he
      rcases Node.hasKey_insert.mp hk with rfl | hk
      · exact hn
      · exact hs r k hk

theorem dropped (hs : Swept stableHash s) (n : Ref) (key : String) :
    Swept stableHash (s.onNode n (·.without key)) := by
  intro r k hk
  rw [node_onNode] at hk
  split at hk
  case isFalse => exact hs r k hk
  case isTrue he => subst he; exact hs r k (Node.hasKey_without.mp hk).2

variable [Routing σ]

theorem split (hs : Swept stableHash s) (hp : Placed stableHash s) (hn : n ∈ s.getNodes)
    (hm : s.findNode m = some n) : Swept stableHash (s.split stableHash n m) := by
  have hlt := hp.allocated n hn
  intro r k hk
  rw [hp.findNode_split hm]
  by_cases hr : r = s.heap.next
  · subst hr
    obtain ⟨hmk, hk⟩ := (hasKey_split_new hlt).mp hk
    rw [if_pos ⟨hmk, hs n k hk⟩]
  · have hnode : (s.split stableHash n m).node r =
        if r = n then Node.keepBelow stableHash m (s.node n) else s.node r := by
      by_cases hrn : r = n
      · subst hrn; simp [Ring.split, node, hr]
      · simp [Ring.split, node, hr, hrn]
    rw [hnode] at hk
    split at hk
    case isTrue he =>
        subst he
        obtain ⟨hkm, hk⟩ := Node.hasKey_keepBelow.mp hk
        rw [if_neg fun hc => by omega]
        exact hs r k hk
    case isFalse he =>
        have hfind := hs r k hk
        rw [if_neg fun hc => he (Option.some.inj (hfind.symm.trans hc.2))]
        exact hfind

theorem merged (hs : Swept stableHash s) (hp : Placed stableHash s) (hc : Routing.Clean s.ring i)
    (hd : search s.ring i = some d) (hprior : findMaxSmallerThan s.ring i = some p) :
    Swept stableHash (s.merged d p i) := by
  intro r k hk
  rw [findNode_merged hp hc hd hprior]
  obtain ⟨hrd, ⟨rfl, hin⟩ | hin⟩ := (hasKey_merged (Routing.prior_ne hp.valid hd hprior).symm).mp hk
  · rw [if_pos (hs d k hin)]
  · have hfind := hs r k hin
    rw [if_neg fun he => hrd (Option.some.inj (hfind.symm.trans he))]
    exact hfind

theorem of_stored (hs : Swept stableHash s) (hp : Placed stableHash s) (h : Stored stableHash s t key o s') :
    Swept stableHash s' := by
  cases h with
  | NoCapacity hn | Kept hn => exact hs.stored hn _
  | Split hn _ _ hm =>
      obtain ⟨hmem, hp', hmid⟩ := hp.mid_stored hn hm
      exact (hs.stored hn _).split hp' hmem hmid

theorem step (hs : Swept stableHash s) (hp : Placed stableHash s) (hc : CleanMerge stableHash s op)
    (h : LockedStep stableHash s op o s') : Swept stableHash s' := by
  cases h with
  | Insert h => exact hs.of_stored hp h
  | Update h =>
      cases h with
      | Upd_Missing => exact hs
      | Upd_Stored hn => exact hs.stored hn _
  | Delete h =>
      cases h with
      | Del_Missing => exact hs
      | Del_NoCapacity | Del_Kept | Del_Untracked | Del_NoPrior => exact hs.dropped _ _
      | Del_Merged hdown hd hprior =>
          exact (hs.dropped _ _).merged (hp.dropped _ _) (hc _ _ rfl hdown) hd hprior

end Swept

/-! ## While keys are exported -/

/-- Some of the keys of `a` from the bound on have been copied to `b`, and some of them deleted. -/
structure Exporting (stableHash : String → Nat) (a b : Ref) (bound : Int) (s u : Ring σ) : Prop where
  ring : u.ring = s.ring
  source : ∀ k, (u.node a).get k = (s.node a).get k ∨ (stableHash k : Int) ≥ bound ∧ (u.node a).get k = none
  sink : ∀ k, (u.node b).get k = (s.node b).get k ∨
    (stableHash k : Int) ≥ bound ∧ (s.node a).hasKey k = true ∧ (u.node b).get k = (s.node a).get k
  frame : ∀ r, r ≠ a → r ≠ b → ∀ k, (u.node r).get k = (s.node r).get k

namespace Exporting

variable {a b : Ref} {bound : Int}

omit [AbstractDataType σ Ref] in
theorem refl (a b : Ref) (bound : Int) (s : Ring σ) : Exporting stableHash a b bound s s where
  ring := rfl
  source _ := Or.inl rfl
  sink _ := Or.inl rfl
  frame _ _ _ _ := rfl

omit [AbstractDataType σ Ref] in
/-- A change of one node's list of keys to delete. -/
theorem relist (h : Exporting stableHash a b bound s u) (keysToDelete : List String → List String) (r : Ref) :
    Exporting stableHash a b bound s
      (u.onNode r fun n => { n with keysToDelete := keysToDelete n.keysToDelete }) := by
  have hget : ∀ x k, ((u.onNode r fun n => { n with keysToDelete := keysToDelete n.keysToDelete }).node x).get k =
      (u.node x).get k := by
    intro x k
    rw [node_onNode]
    split <;> rfl
  refine ⟨h.ring, fun k => ?_, fun k => ?_, fun x ha hb k => ?_⟩
  · rw [hget]; exact h.source k
  · rw [hget]; exact h.sink k
  · rw [hget]; exact h.frame x ha hb k

omit [AbstractDataType σ Ref] in
theorem copied (h : Exporting stableHash a b bound s u) (hab : a ≠ b) (hkey : (stableHash key : Int) ≥ bound)
    (ht : (s.node a).get key = some t) : Exporting stableHash a b bound s (u.onNode b (·.insert key t)) := by
  have hother : ∀ x k, x ≠ b → ((u.onNode b (·.insert key t)).node x).get k = (u.node x).get k := by
    intro x k hx
    rw [node_onNode, if_neg hx]
  refine ⟨h.ring, fun k => ?_, fun k => ?_, fun x ha hb k => ?_⟩
  · rw [hother a k hab]; exact h.source k
  · rw [node_onNode_self, Node.get_insert]
    split
    case isTrue he => subst he; exact Or.inr ⟨hkey, Node.hasKey_iff.mpr ⟨t, ht⟩, ht.symm⟩
    case isFalse => exact h.sink k
  · rw [hother x k hb]; exact h.frame x ha hb k

omit [AbstractDataType σ Ref] in
theorem popped (h : Exporting stableHash a b bound s u) (hab : a ≠ b) (hkey : (stableHash key : Int) ≥ bound) :
    Exporting stableHash a b bound s (u.onNode a (·.without key)) := by
  have hother : ∀ x k, x ≠ a → ((u.onNode a (·.without key)).node x).get k = (u.node x).get k := by
    intro x k hx
    rw [node_onNode, if_neg hx]
  refine ⟨h.ring, fun k => ?_, fun k => ?_, fun x ha hb k => ?_⟩
  · rw [node_onNode_self, Node.get_without]
    split
    case isTrue he => subst he; exact Or.inr ⟨hkey, rfl⟩
    case isFalse => exact h.source k
  · rw [hother b k hab.symm]; exact h.sink k
  · rw [hother x k ha]; exact h.frame x ha hb k

/-- Every write of `export_keys` leaves the nodes so. -/
theorem write (hab : a ≠ b) (hsettled : (s.node a).keysToDelete = []) {w : Write}
    (hw : w ∈ exportWrites stableHash a b bound (s.node a)) (h : Exporting stableHash a b bound s u) :
    Exporting stableHash a b bound s (w.apply u) := by
  have hitem : ∀ e ∈ Node.exported stableHash bound (s.node a).targets.items,
      (stableHash e.1 : Int) ≥ bound ∧ (s.node a).get e.1 = some e.2 := by
    intro e he
    obtain ⟨hmem, hbound⟩ := List.mem_filter.mp he
    exact ⟨by simpa using hbound, Dict.get?_eq_some.mpr hmem⟩
  rw [exportWrites_eq, hsettled, List.nil_append] at hw
  rcases List.mem_append.mp hw with hw | hw
  · rcases List.mem_append.mp hw with hw | hw
    · obtain ⟨e, he, hw⟩ := List.mem_flatMap.mp hw
      obtain ⟨hbound, hget⟩ := hitem e he
      rcases List.mem_cons.mp hw with rfl | hw
      · exact h.copied hab hbound hget
      · obtain rfl := List.mem_singleton.mp hw
        exact h.relist (· ++ [e.1]) a
    · obtain ⟨k, hk, rfl⟩ := List.mem_map.mp hw
      obtain ⟨e, he, rfl⟩ := List.mem_map.mp hk
      exact h.popped hab (hitem e he).1
  · obtain rfl := List.mem_singleton.mp hw
    exact h.relist (fun _ => []) a

theorem always (hab : a ≠ b) (hsettled : (s.node a).keysToDelete = []) :
    writer.Always (Exporting stableHash a b bound s) (exportWrites stableHash a b bound (s.node a)) s :=
  Machine.Always.of_mem (fun _ hw _ h => h.write hab hsettled hw) (refl a b bound s)

end Exporting

/-! ## Between two writes -/

namespace Between

theorem route (h : Between stableHash s s' u) (x : Nat) :
    u.findNode x = s.findNode x ∨ u.findNode x = s'.findNode x :=
  h.container.imp (congrArg (owner · x)) (congrArg (owner · x))

theorem left (hs : Swept stableHash s) (s' : Ring σ) : Between stableHash s s' s where
  container := Or.inl rfl
  home ht := Or.inl (hs _ _ (Node.hasKey_iff.mpr ⟨_, ht⟩))
  value ht := Or.inl (hs.get ht)
  still hr _ := Or.inl (lookup_of_findNode hr).symm

theorem right (hs : Swept stableHash s') (s : Ring σ) : Between stableHash s s' s' where
  container := Or.inr rfl
  home ht := Or.inr (hs _ _ (Node.hasKey_iff.mpr ⟨_, ht⟩))
  value ht := Or.inr (hs.get ht)
  still _ hr := Or.inr (lookup_of_findNode hr).symm

/-- The block may have changed a target before. -/
theorem of_changed {s₁ : Ring σ} (h : Between stableHash s₁ s' u) (hring : s₁.ring = s.ring)
    (hlookup : ∀ k, s₁.lookup stableHash k = s.lookup stableHash k ∨
      s₁.lookup stableHash k = s'.lookup stableHash k) : Between stableHash s s' u := by
  have hfind : ∀ x, s₁.findNode x = s.findNode x := fun x => by rw [findNode, hring, ← findNode]
  refine ⟨?_, fun {r k t} ht => ?_, fun {r k t} ht => ?_, fun {r k} hr hr' => ?_⟩
  · rw [← hring]; exact h.container
  · rw [← hfind]; exact h.home ht
  · rcases h.value ht with ht | ht
    · rcases hlookup k with he | he
      · exact Or.inl (he ▸ ht)
      · exact Or.inr (he ▸ ht)
    · exact Or.inr ht
  · rcases h.still ((hfind _).trans hr) hr' with hg | hg
    · exact (hlookup k).imp hg.trans hg.trans
    · exact Or.inr hg

variable [Routing σ]

/-- A new node object that is not in the container yet has no keys. -/
theorem built (hs : Swept stableHash s) (hp : Placed stableHash s) (s' : Ring σ) (m : Nat) (port : Option Int) :
    Between stableHash s s' ((Write.newNode (Node.new s.args m port)).apply s) where
  container := Or.inl rfl
  home {r k t} ht := by
    change ((s.heap.alloc (Node.new s.args m port)).read r).get k = some t at ht
    rw [Heap.read_alloc] at ht
    split at ht
    case isTrue => cases ht
    case isFalse => exact Or.inl (hs r k (Node.hasKey_iff.mpr ⟨t, ht⟩))
  value {r k t} ht := by
    change ((s.heap.alloc (Node.new s.args m port)).read r).get k = some t at ht
    rw [Heap.read_alloc] at ht
    split at ht
    case isTrue => cases ht
    case isFalse => exact Or.inl (hs.get ht)
  still {r k} hr _ := by
    have hne : r ≠ s.heap.next := (hp.allocated r (Routing.owner_mem hp.valid hr)).ne
    refine Or.inl ((congrArg (Node.get · k) ?_).trans (lookup_of_findNode hr).symm)
    exact if_neg hne

/-- While `_split_node` exports the keys, the new node is in the container. -/
theorem splitting (hs : Swept stableHash s) (hp : Placed stableHash s) (hn : n ∈ s.getNodes)
    (hm : s.findNode m = some n) {port : Option Int}
    (h : Exporting stableHash n s.heap.next m
      { s with heap := s.heap.alloc (Node.new s.args m port), ring := insert s.ring m s.heap.next } u) :
    Between stableHash s (s.split stableHash n m) u := by
  have hne : n ≠ s.heap.next := (hp.allocated n hn).ne
  have hsource : ∀ k, (u.node n).get k = (s.node n).get k ∨ m ≤ stableHash k ∧ (u.node n).get k = none := by
    intro k
    refine (h.source k).imp (fun hg => hg.trans ?_) fun hg => ⟨by simpa using hg.1, hg.2⟩
    exact congrArg (Node.get · k) (if_neg hne)
  have hsink : ∀ k, (u.node s.heap.next).get k = none ∨
      m ≤ stableHash k ∧ (u.node s.heap.next).get k = (s.node n).get k := by
    intro k
    refine (h.sink k).imp (fun hg => hg.trans ?_) fun hg => ⟨by simpa using hg.1, hg.2.2.trans ?_⟩
    · exact congrArg (Node.get · k) (if_pos rfl)
    · exact congrArg (Node.get · k) (if_neg hne)
  have hframe : ∀ r, r ≠ n → r ≠ s.heap.next → ∀ k, (u.node r).get k = (s.node r).get k := fun r hrn hrnew k =>
    (h.frame r hrn hrnew k).trans (congrArg (Node.get · k) (if_neg hrnew))
  -- what a node object has is what the node had, or what the new node gets from it
  have hfrom : ∀ {r k t}, (u.node r).get k = some t → (s.node r).get k = some t ∨
      r = s.heap.next ∧ m ≤ stableHash k ∧ (s.node n).get k = some t := by
    intro r k t ht
    by_cases hrn : r = n
    · subst hrn
      rcases hsource k with hg | ⟨-, hg⟩
      · exact Or.inl (hg.symm.trans ht)
      · rw [hg] at ht; cases ht
    · by_cases hrnew : r = s.heap.next
      · subst hrnew
        rcases hsink k with hg | ⟨hmk, hg⟩
        · rw [hg] at ht; cases ht
        · exact Or.inr ⟨rfl, hmk, hg.symm.trans ht⟩
      · exact Or.inl ((hframe r hrn hrnew k).symm.trans ht)
  refine ⟨Or.inr h.ring, fun {r k t} ht => ?_, fun {r k t} ht => Or.inl ?_, fun {r k} hr hr' => ?_⟩
  · rcases hfrom ht with hg | ⟨rfl, hmk, hg⟩
    · exact Or.inl (hs r k (Node.hasKey_iff.mpr ⟨t, hg⟩))
    · right
      rw [hp.findNode_split hm, if_pos ⟨hmk, hs n k (Node.hasKey_iff.mpr ⟨t, hg⟩)⟩]
  · rcases hfrom ht with hg | ⟨-, -, hg⟩
    · exact hs.get hg
    · exact hs.get hg
  · -- the node answers for the key before the split and after it, so the key stays
    have hrnew : r ≠ s.heap.next := (hp.allocated r (Routing.owner_mem hp.valid hr)).ne
    rw [hp.findNode_split hm] at hr'
    split at hr'
    case isTrue => exact absurd (Option.some.inj hr').symm hrnew
    case isFalse hstay =>
        rw [lookup_of_findNode hr]
        by_cases hrn : r = n
        · subst hrn
          exact Or.inl ((hsource k).resolve_right fun hg => hstay ⟨hg.1, hr⟩)
        · exact Or.inl (hframe r hrn hrnew k)

/-- While `_delete_node` exports the keys, the node to delete is still in the container. -/
theorem merging (hs : Swept stableHash s) (hp : Placed stableHash s) (hc : Routing.Clean s.ring i)
    (hd : search s.ring i = some d) (hprior : findMaxSmallerThan s.ring i = some p)
    (h : Exporting stableHash d p 0 s u) : Between stableHash s (s.merged d p i) u := by
  have hpd : p ≠ d := Routing.prior_ne hp.valid hd hprior
  -- what a node object has is what the node had, or what the prior node gets from the deleted one
  have hfrom : ∀ {r k t}, (u.node r).get k = some t → (s.node r).get k = some t ∨
      r = p ∧ (s.node d).get k = some t := by
    intro r k t ht
    by_cases hrd : r = d
    · subst hrd
      rcases h.source k with hg | ⟨-, hg⟩
      · exact Or.inl (hg.symm.trans ht)
      · rw [hg] at ht; cases ht
    · by_cases hrp : r = p
      · subst hrp
        rcases h.sink k with hg | ⟨-, -, hg⟩
        · exact Or.inl (hg.symm.trans ht)
        · exact Or.inr ⟨rfl, hg.symm.trans ht⟩
      · exact Or.inl ((h.frame r hrd hrp k).symm.trans ht)
  refine ⟨Or.inl h.ring, fun {r k t} ht => ?_, fun {r k t} ht => Or.inl ?_, fun {r k} hr hr' => ?_⟩
  · rcases hfrom ht with hg | ⟨rfl, hg⟩
    · exact Or.inl (hs r k (Node.hasKey_iff.mpr ⟨t, hg⟩))
    · right
      rw [findNode_merged hp hc hd hprior, if_pos (hs d k (Node.hasKey_iff.mpr ⟨t, hg⟩))]
  · rcases hfrom ht with hg | ⟨-, hg⟩
    · exact hs.get hg
    · exact hs.get hg
  · -- the deleted node answers for the key no longer, so the key is another node's
    rw [findNode_merged hp hc hd hprior, hr] at hr'
    have hrd : r ≠ d := by
      rintro rfl
      rw [if_pos rfl] at hr'
      exact hpd (Option.some.inj hr')
    rw [lookup_of_findNode hr]
    by_cases hrp : r = p
    · subst hrp
      refine Or.inl ((h.sink k).resolve_right fun hg => ?_)
      exact hrd (Option.some.inj (hr.symm.trans (hs d k hg.2.1)))
    · exact Or.inl (h.frame r hrd hrp k)

end Between

/-! ## The writes of a block -/

variable [Routing σ]

theorem always_splitWrites (hs : Swept stableHash s) (hp : Placed stableHash s) (hn : n ∈ s.getNodes)
    (hmid : s.findNode m = some n) (hm : (s.node n).calcMidHash stableHash = .ok m) :
    writer.Always (Between stableHash s (s.split stableHash n m)) (splitWrites stableHash s n) s := by
  have hne : n ≠ s.heap.next := (hp.allocated n hn).ne
  have hend : Between stableHash s (s.split stableHash n m) (writeAll s (splitWrites stableHash s n)) := by
    rw [writeAll_splitWrites (hp.allocated n hn) (hp.settled n hn) hm]
    exact Between.right (hs.split hp hn hmid) s
  unfold writeAll at hend
  simp only [splitWrites, hm] at hend ⊢
  refine Machine.Always.concat ⟨Between.left hs _, Between.built hs hp _ _ _, ?_⟩ hend
  -- the exporting starts from the ring that has the new node
  have hnode : ∀ object a, ({ s with heap := s.heap.alloc object, ring := a } : Ring σ).node n = s.node n :=
    fun object a => if_neg hne
  have hsettled := fun object a => (congrArg Node.keysToDelete (hnode object a)).trans (hp.settled n hn)
  have hexport : writer.Always (Exporting stableHash n s.heap.next m _) _ _ := Exporting.always hne
    (hsettled (Node.new s.args m (some (s.nodeBasePorts + s.nodeCount))) (insert s.ring m s.heap.next))
  rw [hnode] at hexport
  exact hexport.imp fun u hu => Between.splitting hs hp hn hmid hu

theorem always_deleteNodeWrites (hs : Swept stableHash s) (hp : Placed stableHash s)
    (hc : Routing.Clean s.ring i) (hd : search s.ring i = some d)
    (hprior : findMaxSmallerThan s.ring i = some p) :
    writer.Always (Between stableHash s (s.merged d p i)) (deleteNodeWrites stableHash s i) s := by
  have hmem : d ∈ s.getNodes := (Routing.mem_list hp.valid).mpr ⟨i, Routing.entry_of_search hp.valid hd⟩
  have hend : Between stableHash s (s.merged d p i) (writeAll s (deleteNodeWrites stableHash s i)) := by
    rw [writeAll_deleteNodeWrites hp.toSound hd hprior]
    exact Between.right (hs.merged hp hc hd hprior) s
  unfold writeAll at hend
  simp only [deleteNodeWrites, hd, hprior] at hend ⊢
  refine Machine.Always.concat ?_ hend
  have hexport : writer.Always (Exporting stableHash d p 0 s) _ s := Exporting.always
    (Routing.prior_ne hp.valid hd hprior).symm (hp.settled d hmem)
  exact hexport.imp fun u hu => Between.merging hs hp hc hd hprior hu

theorem always_insertWrites (hs : Swept stableHash s) (hp : Placed stableHash s)
    (h : Stored stableHash s t key o s') :
    writer.Always (Between stableHash s s') (insertWrites stableHash s t key) s := by
  have hend : Between stableHash s s' s' := Between.right (hs.of_stored hp h) s
  cases h with
  | @NoCapacity n hn hz =>
      have hl : ((s.node n).insert key t).load = .error .zeroDivisionError := if_pos hz
      simp only [insertWrites_eq hn, hl]
      exact ⟨Between.left hs _, hend⟩
  | Kept hn hl hle =>
      simp only [insertWrites_eq hn, hl, if_neg (not_lt.mpr hle)]
      exact ⟨Between.left hs _, hend⟩
  | @Split n l m hn hl hlt hm =>
      obtain ⟨hmem, hp', hmid⟩ := hp.mid_stored hn hm
      have hm' : ((s.onNode n (·.insert key t)).node n).calcMidHash stableHash = .ok m := by
        rw [node_onNode_self]; exact hm
      simp only [insertWrites_eq hn, hl, if_pos hlt]
      refine ⟨Between.left hs _, (always_splitWrites (hs.stored hn t) hp' hmem hmid hm').imp fun u hu => ?_⟩
      refine hu.of_changed rfl fun k => ?_
      exact Or.inr (lookup_split hp' hmem hmid).symm

omit [Routing σ] in
theorem always_updateWrites (hs : Swept stableHash s) (h : Step stableHash s (.update key t) o s') :
    writer.Always (Between stableHash s s') (updateWrites stableHash s key t) s := by
  cases h with
  | Upd_Missing hn hkey =>
      simp only [updateWrites, hn, hkey]
      exact Between.left hs s
  | Upd_Stored hn hkey =>
      simp only [updateWrites, hn, hkey]
      exact ⟨Between.left hs _, Between.right (hs.stored hn t) s⟩

theorem always_deleteWrites (hs : Swept stableHash s) (hp : Placed stableHash s)
    (hc : CleanMerge stableHash s (.delete key)) (h : Step stableHash s (.delete key) o s') :
    writer.Always (Between stableHash s s') (deleteWrites stableHash s key) s := by
  have hleft : Between stableHash s s' s := Between.left hs s'
  have hend : Between stableHash s s' s' := Between.right (hs.step hp hc (.Delete h)) s
  have hgone := lookup_delete hp h
  cases h with
  | Del_Missing hn hkey =>
      simp only [deleteWrites, hn, hkey]
      exact hleft
  | @Del_NoCapacity _ n hn hkey hz =>
      have hl : ((s.node n).without key).load = .error .zeroDivisionError := if_pos hz
      simp only [deleteWrites_eq hn hkey, hl]
      exact ⟨hleft, hend⟩
  | @Del_Kept _ n l hn hkey hl hkeep =>
      rw [deleteWrites_of_kept hn hkey hl hkeep]
      exact ⟨hleft, hend⟩
  | @Del_Untracked _ n hdown hd =>
      have hd' : search (s.onNode n (·.without key)).ring (s.node n).index = none := hd
      rw [deleteWrites_of_scaledDown hdown, deleteNodeWrites, hd']
      exact ⟨hleft, hend⟩
  | @Del_NoPrior _ n d hdown hd hprior =>
      have hd' : search (s.onNode n (·.without key)).ring (s.node n).index = some d := hd
      have hprior' : findMaxSmallerThan (s.onNode n (·.without key)).ring (s.node n).index = none := hprior
      rw [deleteWrites_of_scaledDown hdown, deleteNodeWrites, hd', hprior']
      exact ⟨hleft, hend⟩
  | @Del_Merged _ n d p hdown hd hprior =>
      have hclean := hc key n rfl hdown
      rw [deleteWrites_of_scaledDown hdown]
      refine ⟨hleft, (always_deleteNodeWrites (hs.dropped n key) (hp.dropped n key) hclean hd hprior).imp
        fun u hu => ?_⟩
      refine hu.of_changed rfl fun k => ?_
      rw [lookup_dropped (scaledDown_eq_some.mp hdown).1]
      split
      case isTrue he => subst he; exact Or.inr hgone.symm
      case isFalse => exact Or.inl rfl

/-- Between two writes of a block, a reader sees what was there before the block or what is there after it. -/
theorem always_writes (hs : Swept stableHash s) (hp : Placed stableHash s) (hc : CleanMerge stableHash s op) :
    writer.Always (Between stableHash s (exec (locked stableHash op) s).2) (writes stableHash s op) s := by
  have h := step_locked hp.toSound stableHash op
  generalize (exec (locked stableHash op) s).1 = o at h
  generalize (exec (locked stableHash op) s).2 = s' at h ⊢
  cases h with
  | Insert h => exact always_insertWrites hs hp h
  | Update h => exact always_updateWrites hs h
  | Delete h => exact always_deleteWrites hs hp hc h

end PrometheusRing.Ring
