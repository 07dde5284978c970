import PrometheusRing.Ring.Lemmas.Indices

/-!
# Hashes of the keys of a node

A node's keys hash to its index or beyond. When different keys have different hashes, this pins down where a
split puts the new node.
-/

namespace PrometheusRing.Ring

open AbstractDataType

variable {σ : Type} [AbstractDataType σ Ref] (stableHash : String → Nat)

/-- Different registered keys have different hashes. -/
def DistinctHashes (s : Ring σ) : Prop :=
  ∀ k k', (s.lookup stableHash k).isSome → (s.lookup stableHash k').isSome →
    stableHash k = stableHash k' → k = k'

/-- An inserted key has another hash than the registered keys. -/
def FreshHash (s : Ring σ) : Op → Prop
  | .insert _ key uuid4 => ∀ r ∈ s.getNodes, ∀ k ∈ (s.node r).targets.keys,
      stableHash k = stableHash (key.getD uuid4) → k = key.getD uuid4
  | _ => True

instance (s : Ring σ) : DecidablePred (FreshHash stableHash s)
  | .insert _ _ _ => inferInstanceAs (Decidable (∀ r ∈ _, _))
  | .update _ _ => inferInstanceAs (Decidable True)
  | .delete _ => inferInstanceAs (Decidable True)

variable {stableHash} {s s' : Ring σ} {n r : Ref} {m x : Nat} {key k : String} {t : Target} {op : Op}
  {o : Outcome} [Routing σ]

omit [Routing σ] in
theorem DistinctHashes.extend (hd : DistinctHashes stableHash s)
    (hreg : ∀ k, (s'.lookup stableHash k).isSome → (s.lookup stableHash k).isSome ∨ k = key)
    (hfresh : ∀ k, (s.lookup stableHash k).isSome → stableHash k = stableHash key → k = key) :
    DistinctHashes stableHash s' := by
  intro k k' hk hk' he
  rcases hreg k hk with hold | rfl
  · rcases hreg k' hk' with hold' | rfl
    · exact hd k k' hold hold' he
    · exact hfresh k hold he
  · rcases hreg k' hk' with hold' | rfl
    · exact (hfresh k' hold' he.symm).symm
    · rfl

theorem DistinctHashes.fresh (args : NodeArgs) (argsOk : args.check = .ok ())
    (nodeMinLoad nodeMaxLoad nodeBasePorts : Int) :
    DistinctHashes stableHash (Ring.fresh args argsOk nodeMinLoad nodeMaxLoad (empty : σ) nodeBasePorts) := by
  intro k k' hk
  rw [lookup_fresh] at hk
  cases hk

theorem FreshHash.eq {u : String} {key : Option String} (hf : FreshHash stableHash s (.insert t key u))
    (hs : Placed stableHash s) (hk : (s.lookup stableHash k).isSome)
    (he : stableHash k = stableHash (key.getD u)) : k = key.getD u := by
  obtain ⟨t', ht⟩ := Option.isSome_iff_exists.mp hk
  obtain ⟨r, hr, hrk⟩ := hs.lookup_eq_some.mp ht
  exact hf r hr k (Dict.mem_keys.mpr (Node.hasKey_iff.mpr ⟨t', hrk⟩)) he

theorem DistinctHashes.stored (hd : DistinctHashes stableHash s) (hs : Placed stableHash s) {u : String}
    {key : Option String} (hf : FreshHash stableHash s (.insert t key u))
    (hn : s.findNode (stableHash (key.getD u)) = some n) :
    DistinctHashes stableHash (s.onNode n (·.insert (key.getD u) t)) := by
  refine hd.extend (fun k hk => ?_) fun k => hf.eq hs
  rw [lookup_stored hn] at hk
  split at hk
  case isTrue he => exact Or.inr he
  case isFalse => exact Or.inl hk

theorem DistinctHashes.step [Percentage] (hd : DistinctHashes stableHash s) (hs : Placed stableHash s)
    (hf : FreshHash stableHash s op) (h : Step stableHash s op o s') : DistinctHashes stableHash s' := by
  -- only an insert registers a key, the one it is called with
  have hreg : ∀ k, (s'.lookup stableHash k).isSome → (s.lookup stableHash k).isSome ∨ k = op.key := by
    intro k hk
    obtain ⟨t, ht⟩ := Option.isSome_iff_exists.mp hk
    exact (lookup_step_some hs h ht).imp (fun ht => Option.isSome_iff_exists.mpr ⟨t, ht⟩) And.left
  cases op with
  | insert t key u => exact hd.extend hreg fun k => hf.eq hs
  | update key t =>
      have hold : ∀ k, (s'.lookup stableHash k).isSome → (s.lookup stableHash k).isSome := by
        intro k hk
        rcases hreg k hk with hk' | rfl
        · exact hk'
        · cases h with
          | Upd_Missing => exact hk
          | Upd_Stored hn hin => exact (hasKey_of_lookup hn).symm.trans hin
      exact fun k k' hk hk' => hd k k' (hold k hk) (hold k' hk')
  | delete key =>
      have hold : ∀ k, (s'.lookup stableHash k).isSome → (s.lookup stableHash k).isSome := by
        intro k hk
        refine (hreg k hk).resolve_right fun he => ?_
        rw [show k = key from he, lookup_delete hs h] at hk
        cases hk
      exact fun k k' hk hk' => hd k k' (hold k hk) (hold k' hk')

theorem DistinctHashes.nodup (hd : DistinctHashes stableHash s) (hs : Placed stableHash s)
    (hr : r ∈ s.getNodes) : ((s.node r).hashes stableHash).Nodup := by
  refine List.Nodup.map_on (fun k hk k' hk' he => ?_) (s.node r).targets.nodup
  have hsome : ∀ k ∈ (s.node r).targets.keys, (s.lookup stableHash k).isSome := by
    intro k hk
    obtain ⟨t, ht⟩ := Node.hasKey_iff.mp (Dict.mem_keys.mp hk)
    exact Option.isSome_iff_exists.mpr ⟨t, hs.lookup_eq_some.mpr ⟨r, hr, ht⟩⟩
  exact hd k k' (hsome k hk) (hsome k' hk') he

theorem Placed.entry_le (hs : Placed stableHash s) {i : Nat} (hr : Routing.Entry s.ring i r) :
    ∀ x ∈ (s.node r).hashes stableHash, i ≤ x := by
  intro x hx
  obtain ⟨k, hk, rfl⟩ := Node.mem_hashes.mp hx
  have hmem : r ∈ s.getNodes := (Routing.mem_list hs.valid).mpr ⟨i, hr⟩
  obtain ⟨j, hj, hle, -⟩ := Routing.owner_greatest hs.valid (hs.of_hasKey hmem hk)
  rw [Routing.entry_index_unique hs.valid hr hj]
  exact hle

theorem Tracked.index_le (hs : Tracked stableHash s) (hr : r ∈ s.getNodes) :
    ∀ x ∈ (s.node r).hashes stableHash, (s.node r).index ≤ x := hs.entry_le (hs.entry hr)

theorem Tracked.index_of_mid (hs : Tracked stableHash s) (hm : s.findNode m = some n) (hr : r ∈ s.getNodes)
    (hrm : (s.node r).index = m) : (s.node n).index = m := by
  obtain ⟨i, hi, hle, hmax⟩ := Routing.owner_greatest hs.valid hm
  rw [hs.indexed i n hi]
  exact le_antisymm hle (hmax m r (hrm ▸ hs.entry hr) le_rfl)

end PrometheusRing.Ring
