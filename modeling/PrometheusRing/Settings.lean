import PrometheusRing.Ring.Basic

/-!
# The settings of the service and the ring it starts with
-/

namespace PrometheusRing

open AbstractDataType

/-- The settings that the ring and the orchestrator are built from. -/
structure Settings where
  dockerNetwork : String := "prometheus-ring"
  dockerPrometheusImage : String := "prometheus-ring-node"
  nodeCapacity : Int := 2
  nodeMinLoad : Int := 25
  nodeMaxLoad : Int := 75
  nodeReplicationNum : Int := 1
  nodeScrapeInterval : String := "1m"
  nodeScrapeTimeout : String := "20s"
  sdRefreshInterval : String := "1m"
  sdProvider : String := "consul"
  sdPort : Int := 8500
  sdHost : String := "consul"
  metricsDatabaseUrl : String := ""
  metricsDatabasePort : Int := 8000
  metricsDatabasePath : String := ""

namespace Settings

def nodeArgs (s : Settings) : NodeArgs where
  capacity := s.nodeCapacity
  sdProvider := some s.sdProvider
  sdHost := some s.sdHost
  sdPort := some (toString s.sdPort)
  scrapeInterval := s.nodeScrapeInterval
  scrapeTimeout := s.nodeScrapeTimeout
  sdRefreshInterval := s.sdRefreshInterval
  replicaCount := s.nodeReplicationNum
  metricsDatabaseUrl := some s.metricsDatabaseUrl
  metricsDatabasePort := some s.metricsDatabasePort
  metricsDatabasePath := some s.metricsDatabasePath

/-- The ring of the service, on an empty container. -/
def ring (σ : Type) [AbstractDataType σ Ref] (s : Settings) : Except Exn (Ring σ) :=
  Ring.init s.nodeArgs s.nodeMinLoad s.nodeMaxLoad empty

theorem check_default : ({} : Settings).nodeArgs.check = .ok () := by decide +kernel

/-- The ring under the default settings. -/
def freshRing (σ : Type) [AbstractDataType σ Ref] : Ring σ :=
  Ring.fresh ({} : Settings).nodeArgs check_default 25 75 empty 19090

theorem ring_default (σ : Type) [AbstractDataType σ Ref] : ({} : Settings).ring σ = .ok (freshRing σ) :=
  Ring.init_eq_ok.mpr ⟨check_default, rfl⟩

end Settings

/-- The hash function with the values of the table, and 0 elsewhere. -/
def tableHash (table : List (String × Nat)) (key : String) : Nat := (table.lookup key).getD 0

end PrometheusRing
