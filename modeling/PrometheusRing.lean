import PrometheusRing.Lib.Effect
import PrometheusRing.Lib.Heap
import PrometheusRing.Lib.Machine
import PrometheusRing.Lib.Dict
import PrometheusRing.Lib.Entries
import PrometheusRing.Lib.Mean
import PrometheusRing.Lib.Regex
import PrometheusRing.Lib.Replace
import PrometheusRing.Lib.Collect
import PrometheusRing.Lib.Double
import PrometheusRing.Exceptions
import PrometheusRing.Adt.AbstractDataType
import PrometheusRing.Adt.BinarySearchTree
import PrometheusRing.Adt.MockADT
import PrometheusRing.Adt.Routing
import PrometheusRing.Adt.Lemmas.BinarySearchTree
import PrometheusRing.Adt.Lemmas.TreeRouting
import PrometheusRing.Adt.Lemmas.MapRouting
import PrometheusRing.Adt.Theorems.SearchTree
import PrometheusRing.Node.TimeLiteral
import PrometheusRing.Node.Load
import PrometheusRing.Node.Basic
import PrometheusRing.Node.Yaml
import PrometheusRing.Node.Lemmas.ExportKeys
import PrometheusRing.Node.Theorems.TimeLiteral
import PrometheusRing.Node.Theorems.ExportKeys
import PrometheusRing.Ring.Basic
import PrometheusRing.Settings
import PrometheusRing.Ring.Lemmas.Steps
import PrometheusRing.Ring.Lemmas.Placement
import PrometheusRing.Ring.Lemmas.Lookup
import PrometheusRing.Ring.Lemmas.Indices
import PrometheusRing.Ring.Lemmas.Hashes
import PrometheusRing.Ring.Theorems.OrderedMap
import PrometheusRing.Ring.Lemmas.Loads
import PrometheusRing.Ring.Theorems.Occupancy
import PrometheusRing.Ring.Theorems.Tree
import PrometheusRing.Ring.Theorems.Identity
import PrometheusRing.Ring.Theorems.Capacity
import PrometheusRing.Ring.Theorems.Ports
import PrometheusRing.Orquestrator.SwarmOrquestrator
import PrometheusRing.Orquestrator.Swarm
import PrometheusRing.Orquestrator.Lemmas.Services
import PrometheusRing.Orquestrator.Orquestrator
import PrometheusRing.Orquestrator.Theorems.Instances
import PrometheusRing.Api.Basic
import PrometheusRing.Api.Lemmas.Calls
import PrometheusRing.Api.Theorems.Targets
import PrometheusRing.Api.Theorems.Services
import PrometheusRing.Api.Theorems.Failures
import PrometheusRing.NodeImage.EnvToYml
import PrometheusRing.Discovery.Basic
import PrometheusRing.Discovery.Theorems.Keep
import PrometheusRing.Ring.Concurrent
import PrometheusRing.Ring.Theorems.Concurrent
import PrometheusRing.NodeImage.Theorems.Placeholders
import PrometheusRing.NodeImage.Theorems.Configuration
import PrometheusRing.Adt.Lemmas.SameEntries
import PrometheusRing.Ring.Lemmas.Simulation
import PrometheusRing.Api.Theorems.Containers
import PrometheusRing.Ring.Writes
import PrometheusRing.Ring.Lemmas.Locked
import PrometheusRing.Ring.Lemmas.Writes
import PrometheusRing.Ring.Lemmas.Between
import PrometheusRing.Ring.Theorems.Readers
import PrometheusRing.Ring.Theorems.LastWriter
import PrometheusRing.Lib.Retry
import PrometheusRing.Orquestrator.Theorems.Retries
import PrometheusRing.Api.Main
import PrometheusRing.Api.Theorems.Registry
import PrometheusRing.NodeImage.Main
import PrometheusRing.NodeImage.Lemmas.Main
import PrometheusRing.Discovery.Container
import PrometheusRing.Discovery.Lemmas.Container
import PrometheusRing.Discovery.Theorems.Container
import PrometheusRing.Orquestrator.Lemmas.Environments
import PrometheusRing.Discovery.Theorems.Scraping
import PrometheusRing.Api.Theorems.Footprint
import PrometheusRing.Ring.Theorems.Undo
import PrometheusRing.Api.Theorems.Readers
import PrometheusRing.Adt.PrintTree
import PrometheusRing.Adt.Theorems.Picture
import PrometheusRing.Api.Theorems.Lost
import PrometheusRing.Lib.Ledger
import PrometheusRing.Lib.Threads
import PrometheusRing.Orquestrator.Tasks
import PrometheusRing.Orquestrator.Lemmas.Tasks
import PrometheusRing.Orquestrator.Lemmas.Faulty
import PrometheusRing.Api.Threads
import PrometheusRing.Api.Lemmas.Threads
import PrometheusRing.Api.Theorems.Drift
import PrometheusRing.Api.Theorems.Threads
import PrometheusRing.Api.Theorems.Restart
