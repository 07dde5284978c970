import PrometheusRing.Lib.Effect
import PrometheusRing.NodeImage.EnvToYml

/-!
# The container of a node

The entry script runs `env_to_yml`, which writes the configuration file from `PROMETHEUS_YML`, and then Prometheus.
-/

namespace PrometheusRing.EnvToYml

/-- The calls of `yaml.v3` and of the operating system, where `φ` is the state of the files. -/
structure Platform (σ φ : Type) where
  unmarshal : String → Except String (Data σ)
  marshal : Data σ → Except String String
  writeFile : (outputFile text : String) → Effect String φ Unit

/-- The files of a container, and what its programs have printed. -/
structure Container (φ : Type) where
  files : φ
  stdout : String := ""

/-- A program that may exit with a status other than 0. -/
abbrev ProgramM (φ α : Type) := Effect Nat (Container φ) α

variable {σ φ : Type}

def print (text : String) : ProgramM φ Unit := modify fun c => { c with stdout := c.stdout ++ text }

/-- A call that gives its error as a value. -/
def onFiles {α : Type} (x : Effect String φ α) : ProgramM φ (Except String α) :=
  ExceptT.mk fun c => (.ok (Effect.exec x c.files).1, { c with files := (Effect.exec x c.files).2 })

/-- `if err != nil`: prints the error and exits with status 1. -/
def exitOnError {α : Type} (message : String) : Except String α → ProgramM φ α
  | .ok a => return a
  | .error err => do
      print s!"{message}: {err}\n"
      throw 1

variable (platform : Platform σ φ) (env : Environment) (iteration : Iteration)

def fetchPrometheusConfig : Except String (Data σ) :=
  let ymlEnv := env.getenv "PROMETHEUS_YML"
  if ymlEnv = "" then .error "PROMETHEUS_YML environment variable not set"
  else
    match platform.unmarshal ymlEnv with
    | .error err => .error s!"error unmarshalling YAML: {err}"
    | .ok ymlMap => .ok ymlMap

def main (args : List String) : ProgramM φ Unit := do
  let outputFile := match args with
    | _ :: outputFile :: _ => outputFile
    | _ => "/etc/prometheus/prometheus.yml"
  print s!"Output file: {outputFile}\n"
  let prometheusYml ← exitOnError "Error reading variable" (fetchPrometheusConfig platform env)
  let prometheusYml ← exitOnError "Error replacing environment variables"
    (replacePlaceholders env iteration [] prometheusYml)
  let prometheusStr ← exitOnError "Error marshaling YAML" (platform.marshal prometheusYml)
  print s!"{prometheusStr}\n"
  exitOnError "Error writing to file" (← onFiles (platform.writeFile outputFile prometheusStr))

/-- The entry script. It returns the arguments that it runs Prometheus with. -/
def entry (args : List String) : ProgramM φ (List String) := do
  Effect.except (main platform env iteration ["/usr/bin/env_to_yml"]) fun status =>
    if status = 1 then throw 1 else return ()
  print (" ".intercalate args ++ "\n")
  return args

/-- The arguments that the image gives the entry script. -/
def cmd : List String :=
  ["--config.file=/etc/prometheus/prometheus.yml", "--storage.agent.path=/prometheus/agent", "--agent"]

end PrometheusRing.EnvToYml
