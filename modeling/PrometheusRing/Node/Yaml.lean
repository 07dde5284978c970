import PrometheusRing.Node.Basic

/-!
# The configuration file of a node
-/

namespace PrometheusRing

/-- What `yaml.dump` is given. The keys of a map are in the order in which they were set. -/
inductive Yaml where
  | str (value : String)
  | list (items : List Yaml)
  | map (entries : List (String × Yaml))

namespace Node

/-- A value in a formatted string, where `None` is written out. -/
def shown {α : Type} [ToString α] : Option α → String
  | some a => toString a
  | none => "None"

/-- A scrape configuration: the service discovery block with its address, and the relabeling. -/
def scrapeConfig (n : Node) (discovery addressKey address sourceLabel regex : String) : Yaml :=
  .map [
    ("job_name", .str "prometheus_ring_sd"),
    ("scrape_timeout", .str n.scrapeTimeout),
    (discovery, .list [.map [(addressKey, .str address), ("refresh_interval", .str n.sdRefreshInterval)]]),
    ("relabel_configs", .list [.map [
      ("action", .str "keep"),
      ("source_labels", .list [.str sourceLabel]),
      ("regex", .str regex)]])]

def scrapeConfigs (n : Node) : List Yaml :=
  let server := s!"http://{shown n.sdHost}:{shown n.sdPort}"
  if n.sdProvider = some "prometheus_ring_sd" then
    [n.scrapeConfig "http_sd_configs" "url" s!"{server}/targets" "node_index" s!"{n.index}"]
  else if n.sdProvider = some "consul" then
    [n.scrapeConfig "consul_sd_configs" "server" server "__meta_consul_tags" s!".*ring-node-{n.index}.*"]
  else []

def remoteWrite (n : Node) : List (String × Yaml) :=
  match n.metricsDatabaseUrl with
  | none => []
  | some url =>
      [("remote_write", .list [.map [
        ("url", .str s!"http://{url}:{shown n.metricsDatabasePort}{shown n.metricsDatabasePath}"),
        ("headers", .map [("X-ScopeOrgID", .str "prometheus-ring")])]])]

/-- `yaml`, before it is dumped. -/
def prometheusYml (n : Node) : Yaml :=
  .map ([
    ("global", .map [
      ("scrape_interval", .str n.scrapeInterval),
      ("external_labels", .map [
        ("cluster", .str s!"node-{n.index}"),
        ("__replica__", .str "\x7bHOSTNAME\x7d")])]),
    ("scrape_configs", .list n.scrapeConfigs)] ++ n.remoteWrite)

end Node

end PrometheusRing
