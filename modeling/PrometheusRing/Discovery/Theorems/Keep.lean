import PrometheusRing.Discovery.Basic

/-!
# Which targets a node keeps

The built-in provider's rule matches a node's own index only. The rule for Consul looks for the index anywhere
in the tags, so it also matches an index that starts with the node's.
-/

namespace PrometheusRing

/-! ## Decimal texts -/

theorem not_mem_toDigits {i : Nat} {c : Char} (hc : c.isDigit = false) : c ∉ Nat.toDigits 10 i := by
  intro hm
  rw [Nat.isDigit_of_mem_toDigits (by decide) (by decide) hm] at hc
  cases hc

theorem not_isMeta_of_mem_toDigits {i : Nat} : ∀ c ∈ Nat.toDigits 10 i, ¬ Regex.isMeta c := by
  have hmeta : ∀ c ∈ "\\.+*?()[]\x7b\x7d|^$".toList, c.isDigit = false := by simp
  intro c hc hm
  exact not_mem_toDigits (hmeta c (by simpa [Regex.isMeta] using hm)) hc

theorem toDigits_inj {i j : Nat} : Nat.toDigits 10 i = Nat.toDigits 10 j ↔ i = j := by
  rw [← Nat.toList_repr, ← Nat.toList_repr, String.toList_inj]
  exact toString_injective.eq_iff

namespace Node

/-! ## The two rules -/

theorem keeps_ring_sd {n : Node} (hp : n.sdProvider = some "prometheus_ring_sd") (labels : Dict String String) :
    n.keeps labels =
      ((Regex.parse n.index.repr.toList).any (·.fullMatch ((labels.get? "node_index").getD "").toList)) := by
  simp [keeps, prometheusYml, Yaml.field?, Yaml.items, scrapeConfigs, hp, scrapeConfig, keepRule?, Yaml.text?,
    KeepRule.accepts, KeepRule.value]

theorem keeps_consul {n : Node} (hp : n.sdProvider = some "consul") (labels : Dict String String) :
    n.keeps labels =
      ((Regex.parse (".*ring-node-" ++ n.index.repr ++ ".*").toList).any
        (·.fullMatch ((labels.get? "__meta_consul_tags").getD "").toList)) := by
  simp [keeps, prometheusYml, Yaml.field?, Yaml.items, scrapeConfigs, hp, scrapeConfig, keepRule?, Yaml.text?,
    KeepRule.accepts, KeepRule.value]
  rfl

theorem parse_index (i : Nat) :
    Regex.parse i.repr.toList = some (Regex.literal (Nat.toDigits 10 i)) := by
  have hparse := @Regex.parse_literal_append (Nat.toDigits 10 i) [] not_isMeta_of_mem_toDigits (by simp)
  rw [Nat.toList_repr]
  simpa [Regex.parse] using hparse

theorem parse_tag (i : Nat) :
    Regex.parse (".*ring-node-" ++ i.repr ++ ".*").toList =
      some (Regex.anything :: (Regex.literal ("ring-node-".toList ++ Nat.toDigits 10 i) ++ [Regex.anything])) := by
  have hplain : ∀ c ∈ "ring-node-".toList ++ Nat.toDigits 10 i, ¬ Regex.isMeta c := by
    intro c hc
    rcases List.mem_append.mp hc with hc | hc
    · exact (by simp [Regex.isMeta] : ∀ c ∈ "ring-node-".toList, ¬ Regex.isMeta c) c hc
    · exact not_isMeta_of_mem_toDigits c hc
  have hrest := @Regex.parse_literal_append _ ['.', '*'] hplain (by simp)
  have htext : (".*ring-node-" ++ i.repr ++ ".*").toList =
      '.' :: '*' :: (("ring-node-".toList ++ Nat.toDigits 10 i) ++ ['.', '*']) := by simp
  rw [htext, Regex.parse, hrest]
  simp [Regex.parse, Regex.atom?, Regex.anything]

/-- The tag of one index occurs in the tags of another exactly if the other's digits begin with the one's. -/
theorem tag_infix_iff (i j : Nat) :
    "ring-node-".toList ++ Nat.toDigits 10 i <:+: (",ring-node-" ++ j.repr ++ ",").toList ↔
      Nat.toDigits 10 i <+: Nat.toDigits 10 j := by
  have htext : (",ring-node-" ++ j.repr ++ ",").toList =
      ',' :: ("ring-node-".toList ++ (Nat.toDigits 10 j ++ [','])) := by simp
  have hcons : "ring-node-".toList = 'r' :: "ing-node-".toList := by decide
  -- the letter r occurs once, so the tag can only start there
  have hr : 'r' ∉ "ing-node-".toList ++ (Nat.toDigits 10 j ++ [',']) := by
    have hj : 'r' ∉ Nat.toDigits 10 j := not_mem_toDigits (by decide)
    simp [hj]
  have hafter : ¬ "ring-node-".toList ++ Nat.toDigits 10 i <:+:
      "ing-node-".toList ++ (Nat.toDigits 10 j ++ [',']) := fun h => hr (h.subset (by simp))
  have hcomma : Nat.toDigits 10 i ≠ Nat.toDigits 10 j ++ [','] := by
    intro h
    have hi : ',' ∉ Nat.toDigits 10 i := not_mem_toDigits (by decide)
    exact hi (by simp [h])
  rw [htext, List.infix_cons_iff]
  constructor
  · rintro (h | h)
    · simp at h
    · rw [hcons, List.cons_append, List.cons_append, List.infix_cons_iff] at h
      rcases h with h | h
      · rw [← List.cons_append, ← List.cons_append, List.prefix_append_right_inj, List.prefix_concat_iff] at h
        exact h.resolve_left hcomma
      · exact absurd h hafter
  · intro h
    right
    exact ((List.prefix_append_right_inj _).mpr (h.trans (List.prefix_append _ _))).isInfix

/-! ## Each target at its own node -/

/-- Every target is kept by exactly the node it is assigned to, but for the nodes of a ring with Consul whose
index is, in digits, a proper beginning of the index of the target's node. -/
theorem keeps_own_targets (n m : Node) (s : ServiceDiscovery) (target : Target)
    (hp : n.sdProvider ∈ serviceDiscoveryProvider.map some) :
    (n.keeps (n.discovered s m target) ↔ n.index = m.index) ↔
      ¬ (n.sdProvider = some "consul" ∧ n.index ≠ m.index ∧
        Nat.toDigits 10 n.index <+: Nat.toDigits 10 m.index) := by
  have hprovider : n.sdProvider = some "prometheus_ring_sd" ∨ n.sdProvider = some "consul" := by
    simpa [serviceDiscoveryProvider] using hp
  rcases hprovider with hp | hp
  · have hlabel : (n.discovered s m target).get? "node_index" = some m.index.repr := by
      simp [discovered, hp, API.targetGroup, Dict.get?_set]
    rw [keeps_ring_sd hp, hlabel, parse_index]
    simp only [Option.getD_some, Option.any_some, Regex.fullMatch_literal, Nat.toList_repr, toDigits_inj]
    simp [hp, eq_comm]
  · have hlabel : (n.discovered s m target).get? "__meta_consul_tags" =
        some (",ring-node-" ++ m.index.repr ++ ",") := by
      have htag : (s.registerTarget target m).2.tags = ["ring-node-" ++ m.index.repr] := rfl
      simp [discovered, hp, htag, ← String.append_assoc]
    have hline : '\n' ∉ (",ring-node-" ++ m.index.repr ++ ",").toList := by
      have hm : '\n' ∉ Nat.toDigits 10 m.index := not_mem_toDigits (by decide)
      simp [hm]
    rw [keeps_consul hp, hlabel, parse_tag]
    simp only [Option.getD_some, Option.any_some, Regex.fullMatch_anything_literal_anything hline, tag_infix_iff]
    by_cases hij : n.index = m.index
    · simp [hij]
    · simp [hp, hij]

/-- A node of a ring with Consul, as `Node.__init__` makes it. -/
def consulNode (index : Nat) : Node := Node.new { capacity := 2, sdProvider := some "consul" } index none

/-- Nodes 1 and 2 do not take each other's targets. -/
theorem keeps_own_targets_consul :
    (consulNode 1).keeps ((consulNode 1).discovered { consulUrl := "consul" } (consulNode 2)
      { id := "t", name := "t", address := "host" }) ↔ (consulNode 1).index = (consulNode 2).index :=
  (keeps_own_targets (consulNode 1) (consulNode 2) { consulUrl := "consul" }
    { id := "t", name := "t", address := "host" } (by decide)).mpr (by decide)

/-- Node 1 also keeps the targets of node 10. -/
theorem node_keeps_foreign_target :
    ¬ ∀ (n m : Node) (s : ServiceDiscovery) (target : Target),
        n.sdProvider ∈ serviceDiscoveryProvider.map some →
        (n.keeps (n.discovered s m target) ↔ n.index = m.index) := by
  intro h
  have hkeeps := h (consulNode 1) (consulNode 10) { consulUrl := "consul" }
    { id := "t", name := "t", address := "host" } (by decide)
  revert hkeeps
  decide +kernel

end Node

end PrometheusRing
