import PrometheusRing.Adt.Routing
import PrometheusRing.Node.Lemmas.ExportKeys
import PrometheusRing.Ring.Basic

/-!
# What a call does to the ring

`Step` lists every way in which a call can go, with its outcome and the state it leaves. Later proofs use
this relation and do not unfold the calls.
-/

namespace PrometheusRing

open AbstractDataType Effect

/-- The node without the key. -/
def Node.without (n : Node) (key : String) : Node := Node.mapTargets (·.erase key) n

theorem Node.load_eq [Percentage] {n : Node} (h : n.capacity ≠ 0) :
    n.load = .ok (Percentage.percent n.targets.size n.capacity) := if_neg h

theorem Node.capacity_ne_of_load [Percentage] {n : Node} {l : Int} (h : n.load = .ok l) : n.capacity ≠ 0 := by
  intro hz
  rw [Node.load, if_pos hz] at h
  cases h

theorem Node.load_eq_error [Percentage] {n : Node} {e : Exn} (h : n.load = .error e) :
    n.capacity = 0 ∧ e = .zeroDivisionError := by
  unfold Node.load at h
  split at h
  case isTrue hc => exact ⟨hc, by cases h; rfl⟩
  case isFalse => cases h

namespace Ring

variable {σ : Type}

/-! ## Changes of the ring -/

def onNode (s : Ring σ) (n : Ref) (f : Node → Node) : Ring σ := { s with heap := s.heap.update n f }

theorem node_onNode {s : Ring σ} {n r : Ref} {f : Node → Node} :
    (s.onNode n f).node r = if r = n then f (s.node r) else s.node r := by
  by_cases h : r = n
  · subst h; simp [node, onNode]
  · simp [node, onNode, h]

@[simp] theorem nodeMinLoad_onNode {s : Ring σ} {n : Ref} {f : Node → Node} :
    (s.onNode n f).nodeMinLoad = s.nodeMinLoad := rfl

@[simp] theorem nodeMaxLoad_onNode {s : Ring σ} {n : Ref} {f : Node → Node} :
    (s.onNode n f).nodeMaxLoad = s.nodeMaxLoad := rfl

@[simp] theorem nodeZero_onNode {s : Ring σ} {n : Ref} {f : Node → Node} :
    (s.onNode n f).nodeZero = s.nodeZero := rfl

@[simp] theorem node_onNode_self {s : Ring σ} {n : Ref} {f : Node → Node} :
    (s.onNode n f).node n = f (s.node n) := by simp [node_onNode]

theorem exec_update (s : Ring σ) (n : Ref) (f : Node → Node) :
    exec (onHeap (modify (·.update n f))) s = (.ok ⟨⟩, s.onNode n f) := rfl

variable [AbstractDataType σ Ref] (stableHash : String → Nat)

@[simp] theorem findNode_onNode {s : Ring σ} {n : Ref} {f : Node → Node} (x : Nat) :
    (s.onNode n f).findNode x = s.findNode x := rfl

/-- The new node gets the entries from the threshold on, the old node keeps the others. -/
def split (s : Ring σ) (n : Ref) (m : Nat) : Ring σ :=
  { s with
    heap := ((s.heap.alloc (Node.new s.args m (some (s.nodeBasePorts + s.nodeCount)))).update s.heap.next
      (Node.mapTargets (·.setAll (Node.exported stableHash m (s.node n).targets.items)))).update n
        (Node.keepBelow stableHash m)
    ring := insert s.ring m s.heap.next
    nodeCount := s.nodeCount + 1 }

/-- All entries of `d` go to `p`, and the index is removed from the container. -/
def merged (s : Ring σ) (d p : Ref) (i : Nat) : Ring σ :=
  { s with
    heap := (s.heap.update p (Node.mapTargets (·.setAll (s.node d).targets.items))).update d
      (Node.mapTargets fun _ => Dict.empty)
    ring := remove s.ring i }

section Calls

variable {stableHash} {s : Ring σ} {n d p : Ref} {i m : Nat} {key : String} {t : Target} {f : Node → Node}

/-! ## Calls within a step -/

theorem exec_getTargetNode (hn : s.findNode (stableHash key) = some n) :
    exec (getTargetNode stableHash key) s =
      (if (s.node n).hasKey key then .ok n else .error (.keyNotFoundError s!"Key {key} not found"), s) := by
  simp only [getTargetNode, exec_bind, exec_get, hn, notNone, exec_ofExcept]
  cases hkey : (s.node n).hasKey key <;> rfl

theorem calcMidHash_insert (n : Node) (key : String) (t : Target) :
    ∃ m, (n.insert key t).calcMidHash stableHash = .ok m := by
  obtain ⟨v, hv⟩ : ∃ v, (key, v) ∈ (n.insert key t).targets.items :=
    ⟨t, Dict.get?_eq_some.mp (by simp [Node.insert])⟩
  exact ⟨_, if_neg (List.length_pos_of_mem hv).ne'⟩

theorem exec_splitNode (hfresh : n < s.heap.next) (hsettled : (s.node n).keysToDelete = [])
    (hm : (s.node n).calcMidHash stableHash = .ok m) :
    exec (splitNode stableHash n) s = (.ok s.heap.next, s.split stableHash n m) := by
  have hne : n ≠ s.heap.next := hfresh.ne
  have hinit (i : Nat) (port : Option Int) : Node.init s.args i port = .ok (Node.new s.args i port) := by
    simp [Node.init, s.argsOk, bind, Except.bind, pure, Except.pure]
  have hread : (s.heap.alloc (Node.new s.args m (some (s.nodeBasePorts + s.nodeCount)))).read n = s.node n :=
    if_neg hne
  simp only [splitNode, exec_bind, exec_get, hm, hinit, exec_ofExcept, onHeap, exec_zoom, exec_modify,
    Node.exec_exportKeys hne m (hread ▸ hsettled), hread, exec_pure]
  rfl

omit [AbstractDataType σ Ref] in
theorem exec_exportAll (hne : d ≠ p) (hsettled : (s.node d).keysToDelete = []) :
    exec (Node.exportKeys stableHash d p 0) s.heap =
      (.ok ⟨⟩, (s.heap.update p (Node.mapTargets (·.setAll (s.node d).targets.items))).update d
        (Node.mapTargets fun _ => Dict.empty)) := by
  have hall : Node.exported stableHash 0 (s.node d).targets.items = (s.node d).targets.items := by
    simp [Node.exported]
  have hnone : Node.keepBelow stableHash 0 = Node.mapTargets fun _ => Dict.empty := by
    funext x
    simp [Node.keepBelow, Node.mapTargets, Dict.filter, Dict.empty]
  rw [Node.exec_exportKeys hne 0 hsettled, hnone, ← node, hall]

theorem exec_deleteNode_untracked (hd : search s.ring i = none) :
    exec (deleteNode stableHash i) s = (.error (.nodeNotFoundError s!"Node with index {i} not found"), s) := by
  simp only [deleteNode, exec_bind, exec_get, hd]
  rfl

theorem exec_deleteNode_noPrior (hd : search s.ring i = some d) (hp : findMaxSmallerThan s.ring i = none) :
    exec (deleteNode stableHash i) s = (.error (.attributeError "index"), s) := by
  simp only [deleteNode, exec_bind, exec_get, hd, hp, notNone, exec_ofExcept]

omit [AbstractDataType σ Ref] in
theorem exec_deleteKey_without (hk : (s.node n).hasKey key = true) :
    ∃ target, exec (onHeap (Node.deleteKey n key)) s = (.ok target, s.onNode n (·.without key)) := by
  obtain ⟨target, ht⟩ := Dict.contains_iff.mp hk
  exact ⟨target, by rw [onHeap, exec_zoom, Node.exec_deleteKey ht]; rfl⟩

/-! ## What holds of the node objects -/

/-- What holds of the node objects after every call: those in the container are allocated, have no key left to
delete and are built from the ring's own arguments. -/
structure Sound [Routing σ] (s : Ring σ) : Prop where
  valid : Routing.Valid s.ring
  allocated : ∀ r ∈ s.getNodes, r < s.heap.next
  settled : ∀ r ∈ s.getNodes, (s.node r).keysToDelete = []
  shared : ∀ r ∈ s.getNodes, (s.node r).toNodeArgs = s.args

variable [Routing σ]

theorem Sound.findNode (hs : s.Sound) (x : Nat) : ∃ n, s.findNode x = some n ∧ n ∈ s.getNodes := by
  obtain ⟨n, hn⟩ := Routing.owner_total x hs.valid
  exact ⟨n, hn, Routing.owner_mem hs.valid hn⟩

theorem Sound.capacity_ne (hs : s.Sound) (hcap : s.args.capacity ≠ 0) {x : Nat} (hn : s.findNode x = some n) :
    (s.node n).capacity ≠ 0 := by
  rw [hs.shared n (Routing.owner_mem hs.valid hn)]
  exact hcap

theorem Sound.onNode (hs : s.Sound) (hd : (f (s.node n)).keysToDelete = (s.node n).keysToDelete)
    (ha : (f (s.node n)).toNodeArgs = (s.node n).toNodeArgs) : (s.onNode n f).Sound where
  valid := hs.valid
  allocated := hs.allocated
  settled r hr := by
    rw [node_onNode]
    split
    case isTrue he => subst he; rw [hd]; exact hs.settled r hr
    case isFalse => exact hs.settled r hr
  shared r hr := by
    rw [node_onNode]
    split
    case isTrue he => subst he; rw [ha]; exact hs.shared r hr
    case isFalse => exact hs.shared r hr

theorem exec_deleteNode (hs : s.Sound) (hd : search s.ring i = some d)
    (hp : findMaxSmallerThan s.ring i = some p) :
    exec (deleteNode stableHash i) s = (.ok d, s.merged d p i) := by
  have hmem : d ∈ s.getNodes := (Routing.mem_list hs.valid).mpr ⟨i, Routing.entry_of_search hs.valid hd⟩
  simp only [deleteNode, exec_bind, exec_get, hd, hp, notNone, exec_ofExcept, onHeap, exec_zoom,
    exec_exportAll (Routing.prior_ne hs.valid hd hp).symm (hs.settled d hmem), exec_modify, exec_pure]
  rfl

end Calls

variable [Percentage]

/-- The node that inserting the key splits. -/
def scaledUp (s : Ring σ) (key : String) (target : Target) : Option Ref := do
  let n ← s.findNode (stableHash key)
  let load ← ((s.node n).insert key target).load.toOption
  if (s.node n).hasKey key = false ∧ s.nodeMaxLoad < load then some n else none

/-- The node that deleting the key is to remove from the ring. -/
def scaledDown (s : Ring σ) (key : String) : Option Ref := do
  let n ← s.findNode (stableHash key)
  let load ← ((s.node n).without key).load.toOption
  if (s.node n).hasKey key = true ∧ load ≤ s.nodeMinLoad ∧ n ≠ s.nodeZero then some n else none

/-! ## Steps -/

/-- One call: the operation, its outcome and the state it leaves. -/
inductive Step (s : Ring σ) : Op → Outcome → Ring σ → Prop where
  | Ins_Exists {t k u key n} : k.getD u = key → s.findNode (stableHash key) = some n →
      (s.node n).hasKey key = true →
      Step s (.insert t k u) (.error (.keyAlreadyExistsError s!"Key {key} already exists")) s
  | Ins_NoCapacity {t k u key n} : k.getD u = key → s.findNode (stableHash key) = some n →
      (s.node n).hasKey key = false → (s.node n).capacity = 0 →
      Step s (.insert t k u) (.error .zeroDivisionError) (s.onNode n (·.insert key t))
  | Ins_Stored {t k u key n l} : k.getD u = key → s.findNode (stableHash key) = some n →
      (s.node n).hasKey key = false → ((s.node n).insert key t).load = .ok l → l ≤ s.nodeMaxLoad →
      Step s (.insert t k u) (.ok none) (s.onNode n (·.insert key t))
  | Ins_Split {t k u key n m} : k.getD u = key → s.scaledUp stableHash key t = some n →
      ((s.node n).insert key t).calcMidHash stableHash = .ok m →
      Step s (.insert t k u) (.ok (some s.heap.next)) ((s.onNode n (·.insert key t)).split stableHash n m)
  | Upd_Missing {t key n} : s.findNode (stableHash key) = some n → (s.node n).hasKey key = false →
      Step s (.update key t) (.error (.keyNotFoundError s!"Key {key} not found")) s
  | Upd_Stored {t key n} : s.findNode (stableHash key) = some n → (s.node n).hasKey key = true →
      Step s (.update key t) (.ok none) (s.onNode n (·.insert key t))
  | Del_Missing {key n} : s.findNode (stableHash key) = some n → (s.node n).hasKey key = false →
      Step s (.delete key) (.error (.keyNotFoundError s!"Key {key} not found")) s
  | Del_NoCapacity {key n} : s.findNode (stableHash key) = some n → (s.node n).hasKey key = true →
      (s.node n).capacity = 0 → Step s (.delete key) (.error .zeroDivisionError) (s.onNode n (·.without key))
  | Del_Kept {key n l} : s.findNode (stableHash key) = some n → (s.node n).hasKey key = true →
      ((s.node n).without key).load = .ok l → s.nodeMinLoad < l ∨ n = s.nodeZero →
      Step s (.delete key) (.ok none) (s.onNode n (·.without key))
  | Del_Untracked {key n} : s.scaledDown stableHash key = some n →
      search s.ring (s.node n).index = none →
      Step s (.delete key) (.error (.nodeNotFoundError s!"Node with index {(s.node n).index} not found"))
        (s.onNode n (·.without key))
  | Del_NoPrior {key n d} : s.scaledDown stableHash key = some n →
      search s.ring (s.node n).index = some d → findMaxSmallerThan s.ring (s.node n).index = none →
      Step s (.delete key) (.error (.attributeError "index")) (s.onNode n (·.without key))
  | Del_Merged {key n d p} : s.scaledDown stableHash key = some n →
      search s.ring (s.node n).index = some d → findMaxSmallerThan s.ring (s.node n).index = some p →
      Step s (.delete key) (.ok (some n)) ((s.onNode n (·.without key)).merged d p (s.node n).index)

variable {stableHash} {s s' : Ring σ} {n r : Ref} {key : String} {t : Target}

omit [Percentage] in
private theorem toOption_eq_some {ε α : Type} {x : Except ε α} {a : α} : x.toOption = some a ↔ x = .ok a := by
  cases x <;> simp [Except.toOption]

theorem scaledUp_eq_some : s.scaledUp stableHash key t = some n ↔
    s.findNode (stableHash key) = some n ∧ (s.node n).hasKey key = false ∧
      ∃ l, ((s.node n).insert key t).load = .ok l ∧ s.nodeMaxLoad < l := by
  simp only [scaledUp, bind, Option.bind_eq_some_iff, toOption_eq_some, Option.ite_none_right_eq_some,
    Option.some.injEq]
  constructor
  · rintro ⟨x, hx, l, hl, ⟨hk, hlt⟩, rfl⟩; exact ⟨hx, hk, l, hl, hlt⟩
  · rintro ⟨hx, hk, l, hl, hlt⟩; exact ⟨n, hx, l, hl, ⟨hk, hlt⟩, rfl⟩

theorem scaledUp_eq_none {l : Int} (hn : s.findNode (stableHash key) = some n)
    (hl : ((s.node n).insert key t).load = .ok l) (hle : l ≤ s.nodeMaxLoad) :
    s.scaledUp stableHash key t = none := by
  rw [Option.eq_none_iff_forall_ne_some]
  intro n' hup
  obtain ⟨hn', -, l', hl', hlt⟩ := scaledUp_eq_some.mp hup
  obtain rfl : n = n' := Option.some.inj (hn.symm.trans hn')
  rw [hl] at hl'
  cases hl'
  omega

theorem scaledDown_eq_some : s.scaledDown stableHash key = some n ↔
    s.findNode (stableHash key) = some n ∧ (s.node n).hasKey key = true ∧ n ≠ s.nodeZero ∧
      ∃ l, ((s.node n).without key).load = .ok l ∧ l ≤ s.nodeMinLoad := by
  simp only [scaledDown, bind, Option.bind_eq_some_iff, toOption_eq_some, Option.ite_none_right_eq_some,
    Option.some.injEq]
  constructor
  · rintro ⟨x, hx, l, hl, ⟨hk, hle, hz⟩, rfl⟩; exact ⟨hx, hk, hz, l, hl, hle⟩
  · rintro ⟨hx, hk, hz, l, hl, hle⟩; exact ⟨n, hx, l, hl, ⟨hk, hle, hz⟩, rfl⟩

/-- An insert that overloads a node splits it and does not raise. -/
theorem split_of_scaledUp {k : Option String} {u : String} {o : Outcome} (h : Step stableHash s (.insert t k u) o s')
    (hup : s.scaledUp stableHash (k.getD u) t = some n) :
    ∃ m, ((s.node n).insert (k.getD u) t).calcMidHash stableHash = .ok m ∧ o = .ok (some s.heap.next) ∧
      s' = (s.onNode n (·.insert (k.getD u) t)).split stableHash n m := by
  obtain ⟨hn, hkey, l, hl, hlt⟩ := scaledUp_eq_some.mp hup
  cases h with
  | Ins_Exists hk hn' hkey' =>
      subst hk
      obtain rfl := Option.some.inj (hn.symm.trans hn')
      rw [hkey] at hkey'; cases hkey'
  | Ins_NoCapacity hk hn' _ hz =>
      subst hk
      obtain rfl := Option.some.inj (hn.symm.trans hn')
      exact (Node.capacity_ne_of_load hl hz).elim
  | Ins_Stored hk hn' _ hl' hle =>
      subst hk
      rw [scaledUp_eq_none hn' hl' hle] at hup; cases hup
  | Ins_Split hk hup' hm =>
      subst hk
      obtain rfl := Option.some.inj (hup.symm.trans hup')
      exact ⟨_, hm, rfl, rfl⟩

/-- An insert that returns a node has overloaded one. -/
theorem isSome_scaledUp {k : Option String} {u : String} (h : Step stableHash s (.insert t k u) (.ok (some r)) s') :
    (s.scaledUp stableHash (k.getD u) t).isSome := by
  cases h with
  | Ins_Split hk hup => subst hk; exact Option.isSome_of_eq_some hup

/-! ## Every call is a step -/

variable [Routing σ]

theorem step_insert {k : Option String} {u : String} (hs : s.Sound) :
    Step stableHash s (.insert t k u) (exec (Ring.insert stableHash t k u) s).1
      (exec (Ring.insert stableHash t k u) s).2 := by
  obtain ⟨key, hk⟩ : ∃ key, k.getD u = key := ⟨_, rfl⟩
  obtain ⟨n, hn, hmem⟩ := hs.findNode (stableHash key)
  simp only [Ring.insert, insertCheck, hk, exec_bind, exec_get, hn, notNone, exec_ofExcept]
  cases hkey : (s.node n).hasKey key with
  | true => exact Step.Ins_Exists hk hn hkey
  | false =>
      simp only [Bool.false_eq_true, ↓reduceIte, exec_pure, insertLocked, exec_bind, exec_get, notNone, hn,
        exec_ofExcept, exec_update, node_onNode_self]
      cases hl : ((s.node n).insert key t).load with
      | error e =>
          obtain ⟨hc, rfl⟩ := Node.load_eq_error hl
          exact Step.Ins_NoCapacity hk hn hkey hc
      | ok l =>
          by_cases hlt : s.nodeMaxLoad < l
          · obtain ⟨m, hm⟩ := calcMidHash_insert (s.node n) key t
            have hs' : (s.onNode n (·.insert key t)).Sound := hs.onNode rfl rfl
            have hm' : ((s.onNode n (·.insert key t)).node n).calcMidHash stableHash = .ok m := by
              rw [node_onNode_self]; exact hm
            simp only [gt_iff_lt, nodeMaxLoad_onNode, hlt, ↓reduceIte, exec_bind, exec_pure,
              exec_splitNode (hs'.allocated n hmem) (hs'.settled n hmem) hm']
            exact Step.Ins_Split hk (scaledUp_eq_some.mpr ⟨hn, hkey, l, hl, hlt⟩) hm
          · simp only [gt_iff_lt, nodeMaxLoad_onNode, hlt, ↓reduceIte, exec_pure]
            exact Step.Ins_Stored hk hn hkey hl (not_lt.mp hlt)

theorem step_update (hs : s.Sound) :
    Step stableHash s (.update key t) (exec (call stableHash (.update key t)) s).1
      (exec (call stableHash (.update key t)) s).2 := by
  obtain ⟨n, hn, hmem⟩ := hs.findNode (stableHash key)
  simp only [call, Ring.update, exec_bind, exec_getTargetNode hn]
  cases hkey : (s.node n).hasKey key with
  | true => exact Step.Upd_Stored hn hkey
  | false => exact Step.Upd_Missing hn hkey

theorem step_delete (hs : s.Sound) :
    Step stableHash s (.delete key) (exec (Ring.delete stableHash key) s).1
      (exec (Ring.delete stableHash key) s).2 := by
  obtain ⟨n, hn, hmem⟩ := hs.findNode (stableHash key)
  simp only [Ring.delete, exec_bind, exec_get, hn, notNone, exec_ofExcept]
  cases hkey : (s.node n).hasKey key with
  | false => exact Step.Del_Missing hn hkey
  | true =>
      obtain ⟨target, htarget⟩ := exec_deleteKey_without hkey
      simp only [Bool.not_true, Bool.false_eq_true, ↓reduceIte, exec_bind, exec_discard, htarget, Except.map,
        exec_get, exec_ofExcept, node_onNode_self]
      cases hl : ((s.node n).without key).load with
      | error e =>
          obtain ⟨hc, rfl⟩ := Node.load_eq_error hl
          exact Step.Del_NoCapacity hn hkey hc
      | ok l =>
          by_cases hle : l ≤ s.nodeMinLoad
          · by_cases hz : n = s.nodeZero
            · simp only [nodeMinLoad_onNode, hle, ↓reduceIte, exec_bind, exec_get, nodeZero_onNode, hz, exec_pure]
              exact hz ▸ Step.Del_Kept hn hkey hl (Or.inr hz)
            · have hs' : (s.onNode n (·.without key)).Sound := hs.onNode rfl rfl
              have hdown := scaledDown_eq_some.mpr ⟨hn, hkey, hz, l, hl, hle⟩
              simp only [nodeMinLoad_onNode, hle, ↓reduceIte, exec_bind, exec_get, nodeZero_onNode, hz, exec_pure,
                exec_discard, node_onNode_self]
              have hi : ((s.node n).without key).index = (s.node n).index := rfl
              rw [hi]
              cases hd : search (s.onNode n (·.without key)).ring (s.node n).index with
              | none =>
                  rw [exec_deleteNode_untracked hd]
                  exact Step.Del_Untracked hdown hd
              | some d =>
                  cases hp : findMaxSmallerThan (s.onNode n (·.without key)).ring (s.node n).index with
                  | none =>
                      rw [exec_deleteNode_noPrior hd hp]
                      exact Step.Del_NoPrior hdown hd hp
                  | some p =>
                      rw [exec_deleteNode hs' hd hp]
                      exact Step.Del_Merged hdown hd hp
          · simp only [nodeMinLoad_onNode, hle, ↓reduceIte, exec_pure]
            exact Step.Del_Kept hn hkey hl (Or.inl (not_le.mp hle))

theorem step_machine (hs : s.Sound) (stableHash : String → Nat) (op : Op) :
    Step stableHash s op (machine stableHash op s).1 (machine stableHash op s).2 :=
  match op with
  | .insert _ _ _ => step_insert hs
  | .update _ _ => step_update hs
  | .delete _ => step_delete hs

end Ring

end PrometheusRing
