import PrometheusRing.Discovery.Basic
import PrometheusRing.NodeImage.Main

/-!
# From a service to what its Prometheus scrapes

The configuration of a node is dumped into the environment of its service. The container of the service writes it,
with the placeholders replaced, into the file that Prometheus reads.
-/

namespace PrometheusRing

/-- The groups that service discovery gives at an address: the list that is served there, and what a Consul server
there makes of its services. -/
structure Web where
  list : String → List TargetGroup
  services : String → List TargetGroup

/-- Where the nodes are told to ask for the list of targets. -/
def NodeArgs.targetsUrl (args : NodeArgs) : String :=
  s!"http://{Node.shown args.sdHost}:{Node.shown args.sdPort}/targets"

namespace EnvToYml

/-- The value in `key=value`. -/
def value? (key entry : String) : Option String :=
  let start := key.toList ++ ['=']
  if start.isPrefixOf entry.toList then some (String.ofList (entry.toList.drop start.length)) else none

/-- The surroundings of a container: the variables of its service, over those of the image. -/
def Environment.ofEntries (entries : List String) (image : String → String) (hostname : Except String String) :
    Environment where
  getenv name := (entries.findSome? (value? name)).getD (image name)
  hostname

namespace Data

variable {σ : Type}

def ofList (items : List (Data σ)) : Data σ := .slice items.length items.get

/-- The map with these entries, of which the first counts for a key. -/
def ofEntries (entries : List (String × Data σ)) : Data σ :=
  let m := entries.foldr (fun e m => m.set e.1 e.2) FiniteMap.empty
  .map m.keys m.value

/-! ## The configuration, as Prometheus reads it -/

def field? (key : String) : Data σ → Option (Data σ)
  | .map keys value => (FiniteMap.mk keys value).get? key
  | .slice _ _ | .string _ | .other _ => none

def items : Option (Data σ) → List (Data σ)
  | some (.slice _ item) => List.ofFn item
  | _ => []

def text? : Option (Data σ) → Option String
  | some (.string v) => some v
  | _ => none

def keepRule? (rule : Data σ) : Option KeepRule := do
  let action ← text? (rule.field? "action")
  let regex ← text? (rule.field? "regex")
  guard (action = "keep")
  return { sourceLabels := (items (rule.field? "source_labels")).filterMap (text? ∘ some), regex }

/-- Some scrape configuration keeps a target with these labels. -/
def keeps (config : Data σ) (labels : Dict String String) : Bool :=
  (items (config.field? "scrape_configs")).any fun scrapeConfig =>
    ((items (scrapeConfig.field? "relabel_configs")).filterMap keepRule?).all (·.accepts labels)

/-- The addresses in the blocks of a service discovery mechanism. -/
def addresses (scrapeConfig : Data σ) (discovery addressKey : String) : List String :=
  (items (scrapeConfig.field? discovery)).filterMap fun block => text? (block.field? addressKey)

/-- The groups that a scrape configuration discovers, before it relabels them. -/
def discovered (scrapeConfig : Data σ) (web : Web) : List TargetGroup :=
  (scrapeConfig.addresses "http_sd_configs" "url").flatMap web.list ++
    (scrapeConfig.addresses "consul_sd_configs" "server").flatMap web.services

/-- The groups that some scrape configuration discovers and keeps. -/
def scraped (config : Data σ) (web : Web) : List TargetGroup :=
  (items (config.field? "scrape_configs")).flatMap fun scrapeConfig =>
    (scrapeConfig.discovered web).filter fun g =>
      ((items (scrapeConfig.field? "relabel_configs")).filterMap keepRule?).all (·.accepts g.labels)

/-- The external label that tells the replicas of a node apart. -/
def replica? (config : Data σ) : Option String := do
  let global ← config.field? "global"
  let labels ← global.field? "external_labels"
  text? (labels.field? "__replica__")

end Data

end EnvToYml

namespace Yaml

open EnvToYml

variable {σ : Type}

mutual
/-- What `yaml.Unmarshal` gives for a dumped value. -/
def data : Yaml → Data σ
  | .str value => .string value
  | .list items => .ofList (dataItems items)
  | .map entries => .ofEntries (dataEntries entries)

def dataItems : List Yaml → List (Data σ)
  | [] => []
  | y :: ys => data y :: dataItems ys

def dataEntries : List (String × Yaml) → List (String × Data σ)
  | [] => []
  | (key, y) :: es => (key, data y) :: dataEntries es
end

end Yaml

namespace EnvToYml

variable {σ φ : Type} (platform : Platform σ φ) (readFile : φ → String → Option String)

/-- The file of the first `--config.file`. -/
def configFile? (args : List String) : Option String := args.findSome? (value? "--config.file")

/-- The configuration that Prometheus reads in a container of a node's image, if the container comes up. -/
def prometheusConfig? (env : Environment) (iteration : Iteration) (files : φ) : Option (Data σ) :=
  match Effect.exec (entry platform env iteration cmd) { files } with
  | (.ok args, container) => do
      let outputFile ← configFile? args
      let text ← readFile container.files outputFile
      (platform.unmarshal text).toOption
  | (.error _, _) => none

end EnvToYml

end PrometheusRing
