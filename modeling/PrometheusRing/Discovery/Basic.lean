import PrometheusRing.Api.Basic
import PrometheusRing.Lib.Regex
import PrometheusRing.Node.Yaml

/-!
# Service discovery

How a target gets its labels, and what a node's configuration makes of them. Of Prometheus two things are
assumed: the regular expression of a relabel rule has to match the whole label value, and the tags of a
Consul service come as one label, joined and surrounded by commas.
-/

namespace PrometheusRing

structure ServiceDiscovery where
  consulUrl : String
  consulPort : Int := 8500

/-- The payload of a registration. -/
structure Registration where
  id : String
  name : String
  tags : List String
  address : String
  port : Int

/-- The address of the request that `register_target` sends, and its payload. -/
def ServiceDiscovery.registerTarget (s : ServiceDiscovery) (target : Target) (node : Node) :
    String × Registration :=
  (s!"http://{s.consulUrl}:{s.consulPort}/v1/agent/service/register",
    { id := target.id, name := target.name, tags := [s!"ring-node-{node.index}"],
      address := target.address, port := target.metricsPort })

/-! ## The configuration, as Prometheus reads it -/

namespace Yaml

/-- The entry of a map. -/
def field? (key : String) : Yaml → Option Yaml
  | .map entries => (entries.find? (fun e => e.1 = key)).map Prod.snd
  | .str _ | .list _ => none

def items : Option Yaml → List Yaml
  | some (.list items) => items
  | _ => []

def text? : Option Yaml → Option String
  | some (.str value) => some value
  | _ => none

end Yaml

/-- A relabel rule that keeps the targets whose labels it matches. -/
structure KeepRule where
  sourceLabels : List String
  regex : String

/-- The rule, if it is one with `action: keep`. -/
def keepRule? (rule : Yaml) : Option KeepRule := do
  let action ← Yaml.text? (rule.field? "action")
  let regex ← Yaml.text? (rule.field? "regex")
  guard (action = "keep")
  return { sourceLabels := (Yaml.items (rule.field? "source_labels")).filterMap (Yaml.text? ∘ some), regex }

/-- The value of the source labels, where a missing one is empty. -/
def KeepRule.value (r : KeepRule) (labels : Dict String String) : String :=
  ";".intercalate (r.sourceLabels.map fun l => (labels.get? l).getD "")

def KeepRule.accepts (r : KeepRule) (labels : Dict String String) : Bool :=
  (Regex.parse r.regex.toList).any (·.fullMatch (r.value labels).toList)

namespace Node

/-- Some scrape configuration of the node keeps a target with these labels. -/
def keeps (n : Node) (labels : Dict String String) : Bool :=
  (Yaml.items (n.prometheusYml.field? "scrape_configs")).any fun config =>
    ((Yaml.items (config.field? "relabel_configs")).filterMap keepRule?).all (·.accepts labels)

/-- The labels under which the node discovers a target that is assigned to the node `m`. -/
def discovered (n : Node) (s : ServiceDiscovery) (m : Node) (target : Target) : Dict String String :=
  if n.sdProvider = some "prometheus_ring_sd" then (API.targetGroup m target).labels
  else
    let tags := (s.registerTarget target m).2.tags
    Dict.empty.set "__meta_consul_tags" ("," ++ ",".intercalate tags ++ ",")

end Node

end PrometheusRing
