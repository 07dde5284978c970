import Mathlib.Data.Finset.Sort
import Mathlib.Data.String.Basic
import PrometheusRing.Discovery.Lemmas.Container

/-!
# The container of a node scrapes for the node

Whatever the placeholders in a node's settings stand for, the container either exits before it has written anything,
or its Prometheus keeps the targets that the configuration of the node keeps.
-/

namespace PrometheusRing.EnvToYml

open Effect

variable {σ φ : Type}

/-- The platform reads back what is dumped, what it has marshalled and what it has written, as far as the
configuration needs it. -/
structure Platform.Handles (platform : Platform σ φ) (readFile : φ → String → Option String) (dump : Yaml → String)
    (env : Environment) (y : Yaml) : Prop where
  dumped : dump y ≠ "" ∧ platform.unmarshal (dump y) = .ok y.data
  marshalled : ∀ config, Replaced env y.data config →
    ∃ text, platform.marshal config = .ok text ∧ platform.unmarshal text = .ok config
  written : ∀ text files, ∃ files', exec (platform.writeFile defaultFile text) files = (.ok (), files') ∧
    readFile files' defaultFile = some text

variable {platform : Platform σ φ} {readFile : φ → String → Option String} {dump : Yaml → String} {env : Environment}
  {n : Node}

theorem configFile?_cmd : configFile? cmd = some defaultFile := by decide +kernel

namespace Platform.Handles

variable {y : Yaml}

theorem fetch (h : platform.Handles readFile dump env y) (hyml : env.getenv "PROMETHEUS_YML" = dump y) :
    fetchPrometheusConfig platform env = .ok y.data := by
  rw [fetchPrometheusConfig_eq_ok, hyml]
  exact h.dumped

theorem prometheusConfig?_none (h : platform.Handles readFile dump env y)
    (hyml : env.getenv "PROMETHEUS_YML" = dump y) (hunresolved : (y.data : Data σ).Unresolved env)
    (iteration : Iteration) (files : φ) : prometheusConfig? platform readFile env iteration files = none := by
  obtain ⟨stdout, hentry⟩ := exec_entry_unresolved (c := { files }) iteration cmd (h.fetch hyml) hunresolved
  rw [prometheusConfig?, hentry]

theorem prometheusConfig?_some (h : platform.Handles readFile dump env y)
    (hyml : env.getenv "PROMETHEUS_YML" = dump y) (hresolved : ¬ (y.data : Data σ).Unresolved env)
    (iteration : Iteration) (files : φ) : prometheusConfig? platform readFile env iteration files =
      some (y.data.mapStrings (replaced env)) := by
  obtain ⟨config, hreplaced, -⟩ := exists_replaced y.data hresolved
  obtain ⟨text, hmarshal, hunmarshal⟩ := h.marshalled config hreplaced
  obtain ⟨files', hwrite, hread⟩ := h.written text files
  obtain ⟨stdout, hentry⟩ := exec_entry_ok (c := { files }) iteration cmd (h.fetch hyml) hreplaced hmarshal
    hwrite
  rw [← hreplaced.eq_mapStrings]
  simp only [prometheusConfig?, hentry, configFile?_cmd, hread, Option.bind_eq_bind, Option.bind_some, hunmarshal]
  rfl

end Platform.Handles

theorem Data.holds_of_field? {k v : String} {d d' : Data σ} (h : d.field? k = some d') (hd : d'.Holds v) :
    d.Holds v := by
  cases d with
  | map keys value =>
      rw [field?, FiniteMap.get?_mk] at h
      split at h
      case isTrue hk => exact ⟨⟨k, hk⟩, Option.some.inj h ▸ hd⟩
      case isFalse => cases h
  | _ => cases h

theorem Data.holds_of_replica? {v : String} {d : Data σ} (h : d.replica? = some v) : d.Holds v := by
  obtain ⟨g, hg, hlabels⟩ := Option.bind_eq_some_iff.mp h
  obtain ⟨labels, hlabels, hreplica⟩ := Option.bind_eq_some_iff.mp hlabels
  refine Data.holds_of_field? hg (Data.holds_of_field? hlabels ?_)
  cases hfield : labels.field? "__replica__" with
  | none => rw [hfield] at hreplica; cases hreplica
  | some d =>
      rw [hfield] at hreplica
      refine Data.holds_of_field? hfield ?_
      cases d with
      | string s => exact Option.some.inj hreplica
      | _ => cases hreplica

theorem Data.mapStrings_id (d : Data σ) : d.mapStrings id = d := by
  induction d with
  | map _ _ ih => exact congrArg _ (funext ih)
  | slice _ _ ih => exact congrArg _ (funext ih)
  | string _ => rfl
  | other _ => rfl

/-- Without a host name no container of a node comes up. -/
theorem unresolved_of_hostname {err : String} (h : env.hostname = .error err) :
    (n.prometheusYml.data : Data σ).Unresolved env := by
  have hreplica : (n.prometheusYml.data : Data σ).replica? = some "\x7bHOSTNAME\x7d" := by
    rw [← Data.mapStrings_id n.prometheusYml.data]
    exact Node.replica?_mapStrings n
  exact ⟨_, Data.holds_of_replica? hreplica, "HOSTNAME", by decide +kernel, Or.inr (Or.inr ⟨rfl, err, h⟩)⟩

/-- A container that is given the configuration of a node exits before it has written anything, exactly if some
placeholder of the configuration has no value. Otherwise it comes up, its Prometheus keeps the targets that the node
keeps, and its replica label is the host name, whatever the values of the placeholders and the orders of iteration. -/
theorem container_serves_node (h : platform.Handles readFile dump env n.prometheusYml)
    (hyml : env.getenv "PROMETHEUS_YML" = dump n.prometheusYml) (iteration : Iteration) (files : φ) :
    ((n.prometheusYml.data : Data σ).Unresolved env ↔
        ∃ stdout, exec (entry platform env iteration cmd) { files } = (.error 1, { files, stdout })) ∧
      (prometheusConfig? platform readFile env iteration files = none ↔
        (n.prometheusYml.data : Data σ).Unresolved env) ∧
      ∀ config, prometheusConfig? platform readFile env iteration files = some config →
        (∀ labels, config.keeps labels = n.keeps labels) ∧
          ∃ host, env.hostname = .ok host ∧ config.replica? = some host := by
  by_cases hunresolved : (n.prometheusYml.data : Data σ).Unresolved env
  · have hnone := h.prometheusConfig?_none hyml hunresolved iteration files
    have hexit := exec_entry_unresolved (c := { files }) iteration cmd (h.fetch hyml) hunresolved
    rw [hnone]
    exact ⟨iff_of_true hunresolved hexit, iff_of_true rfl hunresolved, fun config hsome => absurd hsome (by simp)⟩
  · have hsome := h.prometheusConfig?_some hyml hunresolved iteration files
    have hcomesUp : ¬ ∃ stdout, exec (entry platform env iteration cmd) { files } = (.error 1, { files, stdout }) := by
      rintro ⟨stdout, hexit⟩
      rw [prometheusConfig?, hexit] at hsome
      cases hsome
    rw [hsome]
    refine ⟨iff_of_false hunresolved hcomesUp, iff_of_false (by simp) hunresolved, fun config hconfig => ?_⟩
    obtain rfl := Option.some.inj hconfig
    refine ⟨Node.keeps_mapStrings n fun v hv => replaced_eq_self hv, ?_⟩
    cases hhost : env.hostname with
    | error err => exact absurd (unresolved_of_hostname hhost) hunresolved
    | ok host => exact ⟨host, rfl, by rw [Node.replica?_mapStrings, replaced_hostname hhost]⟩

/-! ## A platform for one configuration -/

/-- A platform that knows two texts: the one that a configuration is dumped as, and the one it is written as. -/
def twoTexts (dumped written : String) (env : Environment) (y : Yaml) : Platform σ (String → Option String) where
  unmarshal text :=
    if text = dumped then .ok y.data
    else if text = written then .ok (y.data.mapStrings (replaced env))
    else .error "yaml: unknown text"
  marshal _ := .ok written
  writeFile outputFile text := modify fun files => Function.update files outputFile (some text)

theorem twoTexts_handles {dumped written : String} (hdumped : dumped ≠ "") (hne : written ≠ dumped)
    (env : Environment) (y : Yaml) :
    (twoTexts dumped written env y : Platform σ _).Handles (fun files path => files path) (fun _ => dumped) env y where
  dumped := ⟨hdumped, if_pos rfl⟩
  marshalled config h := ⟨written, rfl, by rw [h.eq_mapStrings]; exact (if_neg hne).trans (if_pos rfl)⟩
  written text files := ⟨Function.update files defaultFile (some text), rfl, Function.update_self _ _ _⟩

/-- The keys of a map in alphabetical order. -/
def alphabetical : Iteration := fun _ keys => {
  items := keys.attach.sort (· ≤ ·)
  nodup := Finset.sort_nodup keys.attach (· ≤ ·)
  complete := fun k => (Finset.mem_sort (· ≤ ·)).mpr (Finset.mem_attach keys k) }

/-- A node of a ring whose targets are served by the ring itself. -/
def ringNode (index : Nat) : Node :=
  Node.new { capacity := 2, sdProvider := some "prometheus_ring_sd", sdHost := some "api", sdPort := some "9988" } index
    (some 19090)

/-- What `yaml.dump` makes of the configuration of node 0. -/
def nodeZeroDumped : String :=
  "global:\n  scrape_interval: 1m\n  external_labels:\n    cluster: node-0\n    __replica__: '\x7bHOSTNAME\x7d'\n" ++
  "scrape_configs:\n- job_name: prometheus_ring_sd\n  scrape_timeout: 20s\n  http_sd_configs:\n" ++
  "  - url: http://api:9988/targets\n    refresh_interval: 1m\n  relabel_configs:\n  - action: keep\n" ++
  "    source_labels:\n    - node_index\n    regex: '0'\n"

/-- What `yaml.Marshal` makes of it once the host name is in its place. -/
def nodeZeroWritten : String :=
  "global:\n    external_labels:\n        __replica__: host\n        cluster: node-0\n    scrape_interval: 1m\n" ++
  "scrape_configs:\n    - http_sd_configs:\n        - refresh_interval: 1m\n" ++
  "          url: http://api:9988/targets\n      job_name: prometheus_ring_sd\n      relabel_configs:\n" ++
  "        - action: keep\n          regex: \"0\"\n          source_labels:\n            - node_index\n" ++
  "      scrape_timeout: 20s\n"

theorem container_serves_node_zero :
    let env := Environment.ofEntries ["PROMETHEUS_YML=" ++ nodeZeroDumped] (fun _ => "") (.ok "host")
    let platform : Platform Empty _ := twoTexts nodeZeroDumped nodeZeroWritten env (ringNode 0).prometheusYml
    prometheusConfig? platform (fun files path => files path) env alphabetical (fun _ => none) ≠ none := by
  intro env platform hnone
  have hhandles : platform.Handles (fun files path => files path) (fun _ => nodeZeroDumped) env
      (ringNode 0).prometheusYml := twoTexts_handles (by decide +kernel) (by decide +kernel) _ _
  have hyml : env.getenv "PROMETHEUS_YML" = nodeZeroDumped := getenv_ofEntries _ _ _
  refine Yaml.resolved_of_hostname (y := (ringNode 0).prometheusYml) rfl ?_
    ((container_serves_node hhandles hyml alphabetical _).2.1.mp hnone)
  decide +kernel

end PrometheusRing.EnvToYml
