import PrometheusRing.NodeImage.Main
import PrometheusRing.NodeImage.Theorems.Configuration

/-!
# When the container of a node comes up
-/

namespace PrometheusRing.EnvToYml

open Effect

variable {σ φ : Type} {platform : Platform σ φ} {env : Environment} {c : Container φ}

/-- The configuration file that the image is set up for. -/
def defaultFile : String := "/etc/prometheus/prometheus.yml"

@[simp] theorem exec_print (text : String) (c : Container φ) :
    exec (print text) c = (.ok (), { c with stdout := c.stdout ++ text }) := rfl

@[simp] theorem exec_exitOnError_ok {α : Type} (message : String) (a : α) (c : Container φ) :
    exec (exitOnError message (.ok a)) c = (.ok a, c) := rfl

@[simp] theorem exec_exitOnError_error {α : Type} (message err : String) (c : Container φ) :
    exec (exitOnError message (.error err : Except String α)) c =
      (.error 1, { c with stdout := c.stdout ++ s!"{message}: {err}\n" }) := rfl

/-! ## Results -/

/-- A replaced configuration is what the program gives, in whatever order it iterates maps. -/
theorem Replaced.result {data result : Data σ} (h : Replaced env data result) (iteration : Iteration)
    (place : List Step) : replacePlaceholders env iteration place data = .ok result := by
  induction h generalizing place with
  | map _ ih =>
      rw [replacePlaceholders, Collect.overKeys_ok _ fun key => ih key _]
      rfl
  | slice _ ih =>
      rw [replacePlaceholders, Collect.overIndices_ok fun i => ih i _]
      rfl
  | string h =>
      rw [replacePlaceholders, h]
      rfl
  | other => rfl

theorem fetchPrometheusConfig_eq_ok {config : Data σ} : fetchPrometheusConfig platform env = .ok config ↔
    env.getenv "PROMETHEUS_YML" ≠ "" ∧ platform.unmarshal (env.getenv "PROMETHEUS_YML") = .ok config := by
  unfold fetchPrometheusConfig
  by_cases h : env.getenv "PROMETHEUS_YML" = ""
  · simp [h]
  · cases hp : platform.unmarshal (env.getenv "PROMETHEUS_YML") <;> simp [h, hp]

/-! ## The two ways in which the container ends up -/

/-- Prometheus is started on a file that holds the configuration with every string replaced. -/
theorem exec_entry_ok {config result : Data σ} {text : String} {files' : φ} (iteration : Iteration)
    (args : List String) (hfetch : fetchPrometheusConfig platform env = .ok config) (hreplaced : Replaced env config result)
    (hmarshal : platform.marshal result = .ok text)
    (hwrite : exec (platform.writeFile defaultFile text) c.files = (.ok (), files')) :
    ∃ stdout, exec (entry platform env iteration args) c = (.ok args, ⟨files', stdout⟩) := by
  have hmain : exec (main platform env iteration ["/usr/bin/env_to_yml"]) c =
      (.ok (), ⟨files', c.stdout ++ s!"Output file: {defaultFile}\n" ++ s!"{text}\n"⟩) := by
    have hfiles (stdout : String) : exec (onFiles (platform.writeFile defaultFile text)) ⟨c.files, stdout⟩ =
        (.ok (.ok ()), ⟨files', stdout⟩) := by
      change (_, _) = _
      simp only [hwrite]
    simp only [main, exec_bind, exec_print, hfetch, hreplaced.result iteration [], hmarshal, exec_exitOnError_ok]
    rw [← defaultFile, hfiles]
    rfl
  simp only [entry, exec_bind, exec_except, hmain, exec_print]
  exact ⟨_, rfl⟩

/-- A placeholder without a value stops the container before it writes anything. -/
theorem exec_entry_unresolved {config : Data σ} (iteration : Iteration) (args : List String)
    (hfetch : fetchPrometheusConfig platform env = .ok config) (h : config.Unresolved env) :
    ∃ stdout, exec (entry platform env iteration args) c = (.error 1, { c with stdout }) := by
  obtain ⟨err, herr⟩ := (replacePlaceholders_error_iff iteration [] config).mpr h
  simp only [entry, main, exec_bind, exec_except, exec_print, hfetch, herr, exec_exitOnError_ok,
    exec_exitOnError_error]
  exact ⟨_, rfl⟩

end PrometheusRing.EnvToYml
