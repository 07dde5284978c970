import PrometheusRing.Ring.Lemmas.Hashes
import PrometheusRing.Ring.Theorems.OrderedMap

/-!
# No node stands idle

On an ordered map every node but node zero has a target, as long as no split sends all the keys of a node away
that stays in the ring.
-/

namespace PrometheusRing.Ring

open AbstractDataType

variable {σ : Type} [AbstractDataType σ Ref] (stableHash : String → Nat)

/-- When the keys of a node that is split hash to neighbouring values, the lowest one is the index of the new
node. Then the old node must be node zero, not at that index, or some other node at that index. -/
def KeepsNode (s : Ring σ) : Op → Prop
  | .insert target key uuid4 => ∀ n ∈ s.scaledUp stableHash (key.getD uuid4) target,
      let hashes := ((s.node n).insert (key.getD uuid4) target).hashes stableHash
      (∀ x ∈ hashes, ∀ y ∈ hashes, x ≤ y + 1) → if n = s.nodeZero then 0 ∉ hashes else (s.node n).index ∈ hashes
  | _ => True

instance (s : Ring σ) : DecidablePred (KeepsNode stableHash s)
  | .insert _ _ _ => inferInstanceAs (Decidable (∀ n ∈ _, _))
  | .update _ _ => inferInstanceAs (Decidable True)
  | .delete _ => inferInstanceAs (Decidable True)

/-- Node zero is in the map under index 0, and every other node holds a key. -/
structure Occupied (s : Ring σ) : Prop where
  zero : search s.ring 0 = some s.nodeZero
  occupied : ∀ r ∈ s.getNodes, r ≠ s.nodeZero → ∃ k, (s.node r).hasKey k = true

variable {stableHash} [OrderedMap σ] {s s' s₀ : Ring σ} {n r : Ref} {m : Nat} {key k : String} {t : Target}
  {op : Op} {o : Outcome}

omit [OrderedMap σ] in
theorem Occupied.onNode {f : Node → Node} (ho : s.Occupied)
    (hf : n ≠ s.nodeZero → ∀ k, (s.node n).hasKey k = true → ∃ k', (f (s.node n)).hasKey k' = true) :
    (s.onNode n f).Occupied where
  zero := ho.zero
  occupied r hr hz := by
    obtain ⟨k, hk⟩ := ho.occupied r hr hz
    rw [node_onNode]
    split
    case isTrue he => subst he; exact hf hz k hk
    case isFalse => exact ⟨k, hk⟩

theorem Occupied.zero_mem (ho : s.Occupied) (hs : s.Sound) : s.nodeZero ∈ s.getNodes :=
  (Routing.mem_list hs.valid).mpr ⟨0, ho.zero⟩

theorem Occupied.index_zero (ho : s.Occupied) (hs : Tracked stableHash s) : (s.node s.nodeZero).index = 0 :=
  hs.indexed 0 _ ho.zero

theorem Occupied.eq_zero (ho : s.Occupied) (hs : Tracked stableHash s) (hr : r ∈ s.getNodes)
    (hi : (s.node r).index = 0) : r = s.nodeZero :=
  Option.some.inj ((hi ▸ hs.entry hr : search s.ring 0 = some r).symm.trans ho.zero)

/-- A split node either keeps a key or gives up its index to the new node. -/
theorem Occupied.split (ho : s.Occupied) (hs : Tracked stableHash s) (hd : DistinctHashes stableHash s)
    (hn : n ∈ s.getNodes) (hm : (s.node n).calcMidHash stableHash = .ok m)
    (hkeep : (∀ x ∈ (s.node n).hashes stableHash, ∀ y ∈ (s.node n).hashes stableHash, x ≤ y + 1) →
      if n = s.nodeZero then 0 ∉ (s.node n).hashes stableHash
        else (s.node n).index ∈ (s.node n).hashes stableHash) :
    (s.split stableHash n m).Occupied := by
  have hmid := hs.findNode_mid hn hm
  have hlt := hs.allocated n hn
  obtain ⟨hne, hmean⟩ := Node.calcMidHash_eq_ok.mp hm
  have hclose := Mean.lt_or_close hne (hd.nodup hs.toPlaced hn)
  rw [hmean] at hclose
  constructor
  · -- the new node does not take index 0 from node zero
    have hm0 : m ≠ 0 := by
      rintro rfl
      rcases hclose with ⟨x, -, hx⟩ | ⟨hmem, hup⟩
      · exact absurd hx (Nat.not_lt_zero x)
      · have hz : n = s.nodeZero :=
          ho.eq_zero hs hn (hs.index_of_mid hmid (ho.zero_mem hs.toSound) (ho.index_zero hs))
        have hk := hkeep fun x hx y hy => by have := hup x hx; omega
        rw [if_pos hz] at hk
        exact hk hmem
    change search (insert s.ring m s.heap.next) 0 = some s.nodeZero
    rw [OrderedMap.search_insert, if_neg hm0.symm]
    exact ho.zero
  · intro r hr hz
    change r ≠ s.nodeZero at hz
    rcases hs.mem_of_mem_split hr with rfl | hr'
    · exact exists_hasKey_split_new hlt hm
    · rw [node_split hlt (hs.allocated r hr')]
      split
      case isFalse => exact ho.occupied r hr' hz
      case isTrue he =>
          subst he
          rcases hclose with ⟨x, hx, hxm⟩ | ⟨hmem, hup⟩
          · obtain ⟨k, hk, rfl⟩ := Node.mem_hashes.mp hx
            exact ⟨k, Node.hasKey_keepBelow.mpr ⟨by omega, hk⟩⟩
          · -- all keys go to the new node, which replaces the old one under its index
            exfalso
            have hk := hkeep fun x hx y hy => by have := hup x hx; have := hup y hy; omega
            rw [if_neg hz] at hk
            have hidx : (s.node r).index = m := le_antisymm (hs.index_le hn m hmem) (hup _ hk).1
            obtain ⟨i, hi⟩ := (Routing.mem_list (hs.split hn hmid).valid).mp hr
            change search (insert s.ring m s.heap.next) i = some r at hi
            rw [OrderedMap.search_insert] at hi
            split at hi
            case isTrue => exact hlt.ne' (Option.some.inj hi)
            case isFalse him => exact him ((hs.indexed i r hi).symm.trans hidx)

theorem Occupied.merged (ho : s.Occupied) (hs : Tracked stableHash s) {i : Nat} {d p : Ref} (hi : i ≠ 0)
    (hd : search s.ring i = some d) (hp : findMaxSmallerThan s.ring i = some p) {s₁ : Ring σ}
    (hring : s₁.ring = s.ring) (hzero : s₁.nodeZero = s.nodeZero)
    (hnode : ∀ r, r ≠ d → s₁.node r = s.node r) : (s₁.merged d p i).Occupied := by
  have hdp : d ≠ p := (Routing.prior_ne hs.valid hd hp).symm
  constructor
  · change search (remove s₁.ring i) 0 = some s₁.nodeZero
    rw [hring, hzero, OrderedMap.search_remove, if_neg hi.symm]
    exact ho.zero
  · intro r hr hz
    change r ∈ list (remove s₁.ring i) at hr
    rw [hring] at hr
    obtain ⟨hr, hrd⟩ := (Routing.mem_list_remove hs.valid trivial hd hp).mp hr
    obtain ⟨k, hk⟩ := ho.occupied r hr fun he => hz (he.trans hzero.symm)
    rw [← hnode r hrd] at hk
    exact ⟨k, (hasKey_merged hdp).mpr ⟨hrd, Or.inr hk⟩⟩

theorem Occupied.step (ho : s.Occupied) (hs : Tracked stableHash s) (hd : DistinctHashes stableHash s)
    (hcap : s.args.capacity ≠ 0) (hmin : 0 ≤ s.nodeMinLoad) (hf : FreshHash stableHash s op)
    (hk : KeepsNode stableHash s op) (h : Step stableHash s op o s') : s'.Occupied := by
  have hstore : ∀ {n key t}, (s.onNode n (·.insert key t)).Occupied := by
    intro n key t
    exact ho.onNode fun _ k hk => ⟨k, Node.hasKey_insert.mpr (Or.inr hk)⟩
  cases h with
  | Ins_Exists | Upd_Missing | Del_Missing => exact ho
  | Ins_NoCapacity | Ins_Stored | Upd_Stored => exact hstore
  | @Ins_Split t k u key n m hkey hup hm =>
      subst hkey
      obtain ⟨hn, hmem, -, -⟩ := hs.toPlaced.scaledUp hup hm
      have hself : (s.onNode n (·.insert (k.getD u) t)).node n = (s.node n).insert (k.getD u) t :=
        node_onNode_self
      exact hstore.split (hs.stored hn t) (hd.stored hs.toPlaced hf hn) hmem (hself.symm ▸ hm)
        (hself.symm ▸ hk n hup)
  | Del_NoCapacity hn _ hz => exact absurd hz (hs.capacity_ne hcap hn)
  | Del_Kept hn _ hl hkept =>
      refine ho.onNode fun hz k _ => ?_
      have hpos := hkept.resolve_right hz
      exact Node.hasKey_of_load (hs.capacity_ne hcap hn) hl (by omega)
  | Del_Untracked hdown hd' => exact absurd hd' (hs.search_scaledDown hdown)
  | Del_NoPrior hdown _ hp =>
      obtain ⟨hn, -, hz, -⟩ := scaledDown_eq_some.mp hdown
      have hmem := Routing.owner_mem hs.valid hn
      obtain ⟨p, hp'⟩ := Routing.prior_total hs.valid fun hi => hz (ho.eq_zero hs hmem hi)
      rw [hp] at hp'; cases hp'
  | @Del_Merged key n d p hdown hd' hp =>
      obtain ⟨hn, -, hz, -⟩ := scaledDown_eq_some.mp hdown
      have hmem := Routing.owner_mem hs.valid hn
      obtain rfl : n = d := Option.some.inj ((hs.entry hmem).symm.trans hd')
      exact ho.merged hs (fun hi => hz (ho.eq_zero hs hmem hi)) hd' hp rfl rfl fun r hr =>
        node_onNode.trans (if_neg hr)

theorem Occupied.fresh (args : NodeArgs) (argsOk : args.check = .ok ())
    (nodeMinLoad nodeMaxLoad nodeBasePorts : Int) :
    (Ring.fresh args argsOk nodeMinLoad nodeMaxLoad (empty : σ) nodeBasePorts).Occupied where
  zero := (OrderedMap.search_insert _ _ _ _).trans (if_pos rfl)
  occupied _ hr hz := absurd (mem_getNodes_fresh.mp hr) hz

theorem run_occupied {args : NodeArgs} {nodeMinLoad nodeMaxLoad nodeBasePorts : Int}
    (hinit : Ring.init args nodeMinLoad nodeMaxLoad (empty : σ) nodeBasePorts = .ok s₀)
    (hcap : args.capacity ≠ 0) (hmin : 0 ≤ nodeMinLoad) {ops : List Op}
    (hguard : (machine stableHash).Guarded
      (fun s op => FreshHash stableHash s op ∧ KeepsNode stableHash s op) ops s₀) :
    let s := (machine stableHash).run ops s₀
    Tracked stableHash s ∧ s.Occupied ∧ s.nodeZero = s₀.nodeZero := by
  obtain ⟨h, rfl⟩ := init_eq_ok.mp hinit
  have hinv := hguard.invariant (fun s => (Tracked stableHash s ∧ DistinctHashes stableHash s ∧ s.Occupied) ∧
      s.args = args ∧ s.nodeMinLoad = nodeMinLoad ∧ s.nodeZero = 0) (fun s op hs hop => ?_)
    ⟨⟨Tracked.fresh args h nodeMinLoad nodeMaxLoad nodeBasePorts,
      DistinctHashes.fresh args h nodeMinLoad nodeMaxLoad nodeBasePorts,
      Occupied.fresh args h nodeMinLoad nodeMaxLoad nodeBasePorts⟩, rfl, rfl, rfl⟩
  · exact ⟨hinv.1.1, hinv.1.2.2, hinv.2.2.2⟩
  · obtain ⟨⟨hs, hd, ho⟩, rfl, rfl, hz⟩ := hs
    have hstep := step_machine hs.toSound stableHash op
    exact ⟨⟨hs.step (cleanMerge op) hstep, hd.step hs.toPlaced hop.1 hstep,
      ho.step hs hd hcap hmin hop.1 hop.2 hstep⟩, args_step hstep, nodeMinLoad_step hstep,
      (nodeZero_step hstep).trans hz⟩

/-- Every node but node zero has a target, and node zero is alone once no key is stored. -/
theorem no_idle_node {args : NodeArgs} {nodeMinLoad nodeMaxLoad nodeBasePorts : Int}
    (hinit : Ring.init args nodeMinLoad nodeMaxLoad (empty : σ) nodeBasePorts = .ok s₀)
    (hcap : 1 ≤ args.capacity) (hmin : 0 ≤ nodeMinLoad) (ops : List Op)
    (hguard : (machine stableHash).Guarded
      (fun s op => FreshHash stableHash s op ∧ KeepsNode stableHash s op) ops s₀) :
    let s := (machine stableHash).run ops s₀
    (∀ r ∈ s.getNodes, r ≠ s₀.nodeZero → (s.node r).listItems ≠ []) ∧
      (Machine.observe storedKeys ∅ ((machine stableHash).trace ops s₀) = ∅ → s.getNodes = [s₀.nodeZero]) := by
  intro s
  obtain ⟨hs, ho, hzero⟩ := run_occupied hinit (by omega) hmin hguard
  constructor
  · intro r hr hz he
    obtain ⟨k, hk⟩ := ho.occupied r hr (hzero ▸ hz)
    obtain ⟨t, ht⟩ := Node.hasKey_iff.mp hk
    have hmem : t ∈ (s.node r).listItems := List.mem_map_of_mem (Dict.get?_eq_some.mp ht)
    rw [he] at hmem; cases hmem
  · intro hempty
    have hall : ∀ r ∈ s.getNodes, r = s.nodeZero := by
      intro r hr
      by_contra hz
      obtain ⟨k, hk⟩ := ho.occupied r hr hz
      obtain ⟨t, ht⟩ := Node.hasKey_iff.mp hk
      have hstored := (run_storedKeys hinit (by omega) ops k).mpr
        (Option.isSome_iff_exists.mpr ⟨t, hs.lookup_eq_some.mpr ⟨r, hr, ht⟩⟩)
      rw [hempty] at hstored
      exact hstored
    by_contra hne
    rcases ((Routing.nodup_list hs.valid).ne_singleton_iff _).mp hne with hnil | ⟨r, hr, hz⟩
    · have hmem := ho.zero_mem hs.toSound
      rw [Ring.getNodes, hnil] at hmem; cases hmem
    · exact hz ((hall r hr).trans hzero)

theorem no_idle_node_default :
    let t : Target := ⟨"a", "a", "host", 8000⟩
    let s := (machine String.length).run
      [.insert t (some "a") "", .insert t (some "bbbbb") "", .insert t (some "ccccccccc") "", .delete "bbbbb"]
      (Settings.freshRing (MockADT Ref))
    ∀ r ∈ s.getNodes, r ≠ 0 → (s.node r).listItems ≠ [] :=
  (no_idle_node (Settings.ring_default _) (by decide) (by decide) _ (by decide +kernel)).1

/-- Two keys with neighbouring hashes both go to the new node, and the old one stays without a key. -/
theorem split_leaves_idle_node :
    let hash := tableHash [("a", 0), ("b", 6), ("c", 5)]
    let target (id : String) : Target := ⟨id, id, "host", 8000⟩
    let insert (id : String) : Op := .insert (target id) (some id) ""
    let s := (machine hash).run [insert "a", insert "b", insert "c"] (Settings.freshRing (MockADT Ref))
    1 ∈ s.getNodes ∧ s.nodeZero = 0 ∧ (s.node 1).listItems = [] := by
  decide +kernel

end PrometheusRing.Ring
