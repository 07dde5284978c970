import PrometheusRing.Discovery.Container
import PrometheusRing.Discovery.Theorems.Keep
import PrometheusRing.NodeImage.Lemmas.Main

/-!
# What replacing placeholders does to the configuration of a node
-/

namespace PrometheusRing

namespace EnvToYml

variable {σ : Type} {env : Environment} {f : String → String} {k : String}

/-! ## The environment -/

theorem getenv_ofEntries (text : String) (imageEnv : String → String) (hostname : Except String String) :
    (Environment.ofEntries ["PROMETHEUS_YML=" ++ text] imageEnv hostname).getenv "PROMETHEUS_YML" = text := by
  simp [Environment.ofEntries, value?]

/-! ## Strings without placeholders -/

theorem placeHolders_eq_nil {v : String} (h : '{' ∉ v.toList) : placeHolders v = [] := by
  rw [placeHolders]
  generalize v.toList = s at h ⊢
  induction s with
  | nil => rfl
  | cons c s ih =>
      have hc : c ≠ '{' := fun hc => h (hc ▸ List.mem_cons_self)
      simp only [pieces, matchName, hc, false_and, ↓reduceIte, List.filterMap_cons, Piece.name?]
      exact ih fun hs => h (List.mem_cons_of_mem c hs)

/-- What a string becomes if all its placeholders have values. -/
def replaced (env : Environment) (v : String) : String := (replaceString env v).toOption.getD v

theorem replaced_eq_self {v : String} (h : '{' ∉ v.toList) : replaced env v = v := by
  simp [replaced, replaceString, placeHolders_eq_nil h, pure, Except.pure, Except.toOption]

theorem replaced_hostname {host : String} (h : env.hostname = .ok host) :
    replaced env "\x7bHOSTNAME\x7d" = host := by
  have hmatch : placeHolders "\x7bHOSTNAME\x7d" = ["HOSTNAME"] := by decide +kernel
  have hsplit : Replace.split (matchText "HOSTNAME").toList "\x7bHOSTNAME\x7d".toList = [[], []] := by decide +kernel
  have hvalue : treatPlaceHolder env "HOSTNAME" = .ok host := by rw [treatPlaceHolder, if_pos rfl, h]
  have hall : replaceAll "\x7bHOSTNAME\x7d" (matchText "HOSTNAME") host = host := by
    rw [replaceAll, Replace.replaceAll, hsplit]
    simp
  have hstring : replaceString env "\x7bHOSTNAME\x7d" = .ok host := by
    rw [replaceString, hmatch, List.foldlM_cons, replaceMatch, hvalue]
    exact congrArg Except.ok hall
  rw [replaced, hstring]
  rfl

/-! ## All strings at once -/

namespace Data

/-- The configuration with a function applied to every string. -/
def mapStrings (f : String → String) : Data σ → Data σ
  | .map keys value => .map keys fun key => (value key).mapStrings f
  | .slice len item => .slice len fun i => (item i).mapStrings f
  | .string v => .string (f v)
  | .other v => .other v

theorem field?_mapStrings (d : Data σ) : (d.mapStrings f).field? k = (d.field? k).map (mapStrings f) := by
  cases d with
  | map keys value =>
      simp only [mapStrings, field?, FiniteMap.get?_mk]
      split <;> rfl
  | _ => rfl

theorem items_mapStrings (d : Option (Data σ)) : items (d.map (mapStrings f)) = (items d).map (mapStrings f) := by
  rcases d with _ | d
  · rfl
  · cases d with
    | slice len item => simp [items, mapStrings, Function.comp_def]
    | _ => rfl

theorem text?_mapStrings (d : Option (Data σ)) : text? (d.map (mapStrings f)) = (text? d).map f := by
  rcases d with _ | d
  · rfl
  · cases d <;> rfl

end Data

theorem Replaced.eq_mapStrings {d d' : Data σ} (h : Replaced env d d') : d' = d.mapStrings (replaced env) := by
  induction h with
  | map _ ih => exact congrArg _ (funext ih)
  | slice _ ih => exact congrArg _ (funext ih)
  | string h => simp [Data.mapStrings, replaced, h, Except.toOption]
  | other => rfl

/-! ## Dumped values -/

namespace Data

theorem field?_ofEntries (entries : List (String × Data σ)) :
    (ofEntries entries).field? k = (entries.find? (·.1 = k)).map Prod.snd := by
  change (entries.foldr (fun e m => m.set e.1 e.2) FiniteMap.empty).get? k = _
  induction entries with
  | nil => exact FiniteMap.get?_empty k
  | cons e entries ih =>
      rw [List.foldr_cons, FiniteMap.get?_set, ih, List.find?_cons]
      by_cases h : e.1 = k
      · simp [h]
      · simp [h, Ne.symm h]

end Data

end EnvToYml

namespace Yaml

open EnvToYml Data

variable {σ : Type} {k : String}

theorem dataItems_eq (items : List Yaml) : dataItems items = items.map (data (σ := σ)) := by
  induction items with
  | nil => rfl
  | cons y ys ih => rw [dataItems, ih, List.map_cons]

theorem dataEntries_eq (entries : List (String × Yaml)) :
    dataEntries entries = entries.map fun e => (e.1, data (σ := σ) e.2) := by
  induction entries with
  | nil => rfl
  | cons e es ih => rw [dataEntries, ih, List.map_cons]

theorem field?_data (y : Yaml) : (data (σ := σ) y).field? k = (y.field? k).map data := by
  cases y with
  | map entries =>
      rw [data, field?_ofEntries, dataEntries_eq, List.find?_map, Yaml.field?]
      simp [Function.comp_def]
  | str _ => rfl
  | list _ => rfl

theorem items_data (y : Option Yaml) : Data.items (y.map (data (σ := σ))) = (items y).map data := by
  rcases y with _ | y
  · rfl
  · cases y with
    | list ys => exact List.ofFn_getElem.trans (dataItems_eq ys)
    | str _ => rfl
    | map _ => rfl

theorem text?_data (y : Option Yaml) : Data.text? (y.map (data (σ := σ))) = text? y := by
  rcases y with _ | y
  · rfl
  · cases y <;> rfl

end Yaml

namespace Yaml

open EnvToYml Data

variable {σ : Type} {v : String}

theorem holds_ofList {items : List (Data σ)} (h : (ofList items).Holds v) : ∃ d ∈ items, d.Holds v := by
  obtain ⟨i, hi⟩ := h
  exact ⟨items.get i, List.get_mem items i, hi⟩

theorem holds_ofEntries {entries : List (String × Data σ)} (h : (ofEntries entries).Holds v) :
    ∃ e ∈ entries, e.2.Holds v := by
  obtain ⟨⟨key, hkey⟩, hvalue⟩ := h
  have hfield := field?_ofEntries (k := key) entries
  rw [ofEntries, Data.field?, FiniteMap.get?_mk, dif_pos hkey] at hfield
  obtain ⟨e, he, hd⟩ := Option.map_eq_some_iff.mp hfield.symm
  exact ⟨e, List.mem_of_find?_eq_some he, hd ▸ hvalue⟩

mutual
/-- The strings at all depths. -/
def strings : Yaml → List String
  | .str value => [value]
  | .list items => itemStrings items
  | .map entries => entryStrings entries

def itemStrings : List Yaml → List String
  | [] => []
  | y :: ys => strings y ++ itemStrings ys

def entryStrings : List (String × Yaml) → List String
  | [] => []
  | (_, y) :: es => strings y ++ entryStrings es
end

mutual
theorem mem_strings : (y : Yaml) → (data (σ := σ) y).Holds v → v ∈ y.strings
  | .str value, h => List.mem_singleton.mpr h.symm
  | .list items, h => by
      obtain ⟨d, hd, hv⟩ := holds_ofList h
      exact mem_itemStrings items hd hv
  | .map entries, h => by
      obtain ⟨e, he, hv⟩ := holds_ofEntries h
      exact mem_entryStrings entries he hv

theorem mem_itemStrings : (items : List Yaml) → {d : Data σ} → d ∈ dataItems items → d.Holds v →
    v ∈ itemStrings items
  | [], _, hd, _ => absurd hd List.not_mem_nil
  | y :: ys, d, hd, hv => by
      rcases List.mem_cons.mp hd with rfl | hd
      · exact List.mem_append_left _ (mem_strings y hv)
      · exact List.mem_append_right _ (mem_itemStrings ys hd hv)

theorem mem_entryStrings : (entries : List (String × Yaml)) → {e : String × Data σ} → e ∈ dataEntries entries →
    e.2.Holds v → v ∈ entryStrings entries
  | [], _, he, _ => absurd he List.not_mem_nil
  | (key, y) :: es, e, he, hv => by
      rcases List.mem_cons.mp he with rfl | he
      · exact List.mem_append_left _ (mem_strings y hv)
      · exact List.mem_append_right _ (mem_entryStrings es he hv)
end

/-- A configuration whose only placeholder is the host name has no unresolved one where there is a host name. -/
theorem resolved_of_hostname {y : Yaml} {env : Environment} {host : String} (h : env.hostname = .ok host)
    (hy : ∀ v ∈ y.strings, ∀ name ∈ placeHolders v, name = "HOSTNAME") : ¬ (data (σ := σ) y).Unresolved env := by
  rintro ⟨v, hv, name, hname, hunresolvable⟩
  obtain rfl := hy v (mem_strings y hv) name hname
  rcases hunresolvable with hreserved | ⟨hne, -⟩ | ⟨-, err, herr⟩
  · exact absurd hreserved (by decide)
  · exact hne rfl
  · rw [h] at herr; cases herr

end Yaml

namespace Node

open EnvToYml Data

variable {σ : Type} {f : String → String}

/-- The relabel rule of a scrape configuration, as it is written. -/
def relabelRule (sourceLabel regex : String) : Yaml :=
  .map [("action", .str "keep"), ("source_labels", .list [.str sourceLabel]), ("regex", .str regex)]

theorem keepRule?_relabelRule (sourceLabel regex : String) :
    PrometheusRing.keepRule? (relabelRule sourceLabel regex) = some ⟨[sourceLabel], regex⟩ := by
  simp [PrometheusRing.keepRule?, relabelRule, Yaml.field?, Yaml.text?, Yaml.items]

theorem keepRule?_mapStrings (sourceLabel regex : String) (hkeep : f "keep" = "keep") :
    Data.keepRule? ((relabelRule sourceLabel regex).data (σ := σ) |>.mapStrings f) = some ⟨[f sourceLabel], f regex⟩ := by
  simp only [Data.keepRule?, field?_mapStrings, text?_mapStrings, items_mapStrings, Yaml.field?_data, Yaml.text?_data,
    Yaml.items_data]
  simp [relabelRule, Yaml.field?, Yaml.text?, Yaml.items, Yaml.data, mapStrings, text?, hkeep]

theorem rules_scrapeConfig (n : Node) (discovery addressKey address sourceLabel regex : String)
    (hdiscovery : discovery ≠ "relabel_configs") :
    Yaml.items ((n.scrapeConfig discovery addressKey address sourceLabel regex).field? "relabel_configs") =
      [relabelRule sourceLabel regex] := by
  simp [scrapeConfig, Yaml.field?, Yaml.items, relabelRule, hdiscovery]

/-- The rules of a node have no placeholder in them. -/
theorem rules_plain (n : Node) {config rule : Yaml}
    (hconfig : config ∈ Yaml.items (n.prometheusYml.field? "scrape_configs"))
    (hrule : rule ∈ Yaml.items (config.field? "relabel_configs")) :
    ∃ sourceLabel regex, rule = relabelRule sourceLabel regex ∧ '{' ∉ sourceLabel.toList ∧ '{' ∉ regex.toList := by
  have hindex : '{' ∉ Nat.toDigits 10 n.index := not_mem_toDigits (by decide)
  have hconfigs : Yaml.items (n.prometheusYml.field? "scrape_configs") = n.scrapeConfigs := by
    simp [prometheusYml, Yaml.field?, Yaml.items]
  rw [hconfigs, scrapeConfigs] at hconfig
  split at hconfig
  case isTrue =>
      obtain rfl := List.mem_singleton.mp hconfig
      rw [rules_scrapeConfig _ _ _ _ _ _ (by decide)] at hrule
      exact ⟨_, _, List.mem_singleton.mp hrule, by decide, by simp [hindex]⟩
  case isFalse =>
      split at hconfig
      case isTrue =>
          obtain rfl := List.mem_singleton.mp hconfig
          rw [rules_scrapeConfig _ _ _ _ _ _ (by decide)] at hrule
          refine ⟨_, _, List.mem_singleton.mp hrule, by decide, ?_⟩
          simp only [String.toList_append, List.mem_append, not_or]
          exact ⟨⟨by decide, by simpa using hindex⟩, by decide⟩
      case isFalse => exact absurd hconfig List.not_mem_nil

/-- Replacing the placeholders changes nothing about the targets that a node keeps. -/
theorem keeps_mapStrings (n : Node) (hf : ∀ v, '{' ∉ v.toList → f v = v) (labels : Dict String String) :
    (n.prometheusYml.data (σ := σ) |>.mapStrings f).keeps labels = n.keeps labels := by
  simp only [Data.keeps, Node.keeps, field?_mapStrings, items_mapStrings, Yaml.field?_data, Yaml.items_data,
    List.any_map, List.filterMap_map, Function.comp_def]
  rw [Bool.eq_iff_iff, List.any_eq_true, List.any_eq_true]
  refine exists_congr fun config => and_congr_right fun hconfig => ?_
  rw [List.filterMap_congr fun rule hrule => ?_]
  obtain ⟨sourceLabel, regex, rfl, hlabel, hregex⟩ := rules_plain n hconfig hrule
  have hmapped := keepRule?_mapStrings (σ := σ) sourceLabel regex (hf "keep" (by decide))
  rw [hf sourceLabel hlabel, hf regex hregex] at hmapped
  exact hmapped.trans (keepRule?_relabelRule sourceLabel regex).symm

theorem scrapeConfigs_ring_sd {n : Node} (hp : n.sdProvider = some "prometheus_ring_sd") :
    Yaml.items (n.prometheusYml.field? "scrape_configs") =
      [n.scrapeConfig "http_sd_configs" "url" n.targetsUrl "node_index" s!"{n.index}"] := by
  simp [prometheusYml, Yaml.field?, Yaml.items, scrapeConfigs, hp]
  rfl

theorem addresses_mapStrings (y : Yaml) (discovery addressKey : String) :
    (y.data (σ := σ) |>.mapStrings f).addresses discovery addressKey =
      ((Yaml.items (y.field? discovery)).filterMap fun block => Yaml.text? (block.field? addressKey)).map f := by
  simp only [Data.addresses, field?_mapStrings, items_mapStrings, text?_mapStrings, Yaml.field?_data, Yaml.items_data,
    Yaml.text?_data, List.filterMap_map, Function.comp_def, List.map_filterMap]

/-- The Prometheus of a node of a ring that serves its own list asks for it, and keeps what the node keeps. -/
theorem mem_scraped_mapStrings {n : Node} (hp : n.sdProvider = some "prometheus_ring_sd")
    (hf : ∀ v, '{' ∉ v.toList → f v = v) (web : Web) (g : TargetGroup) :
    g ∈ (n.prometheusYml.data (σ := σ) |>.mapStrings f).scraped web ↔
      g ∈ web.list (f n.targetsUrl) ∧ n.keeps g.labels := by
  have hconfigs := scrapeConfigs_ring_sd hp
  have hdiscovered (config : Yaml) (hconfig : config ∈ Yaml.items (n.prometheusYml.field? "scrape_configs")) :
      (config.data (σ := σ) |>.mapStrings f).discovered web = web.list (f n.targetsUrl) := by
    rw [hconfigs] at hconfig
    obtain rfl := List.mem_singleton.mp hconfig
    simp [Data.discovered, addresses_mapStrings, scrapeConfig, Yaml.field?, Yaml.items, Yaml.text?]
  rw [← keeps_mapStrings (σ := σ) n hf]
  simp only [Data.scraped, Data.keeps, field?_mapStrings (n.prometheusYml.data), items_mapStrings, Yaml.field?_data,
    Yaml.items_data]
  rw [hconfigs] at hdiscovered ⊢
  simp [hdiscovered]

/-- The replica label of a node is its placeholder for the host name. -/
theorem replica?_mapStrings (n : Node) :
    (n.prometheusYml.data (σ := σ) |>.mapStrings f).replica? = some (f "\x7bHOSTNAME\x7d") := by
  have hglobal : ∃ labels, n.prometheusYml.field? "global" = some (.map
      [("scrape_interval", .str n.scrapeInterval), ("external_labels", labels)]) ∧
      labels.field? "__replica__" = some (.str "\x7bHOSTNAME\x7d") := by
    simp [prometheusYml, Yaml.field?]
  obtain ⟨labels, hglobal, hreplica⟩ := hglobal
  have hlabels : (Yaml.map [("scrape_interval", .str n.scrapeInterval), ("external_labels", labels)]).field?
      "external_labels" = some labels := by simp [Yaml.field?]
  simp only [Data.replica?, field?_mapStrings, Yaml.field?_data, hglobal, hlabels, hreplica, Option.map_some,
    Option.bind_eq_bind, Option.bind_some]
  rfl

end Node

end PrometheusRing
