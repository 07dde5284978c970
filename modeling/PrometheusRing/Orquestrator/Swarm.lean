import Mathlib.Order.SetNotation
import PrometheusRing.Orquestrator.SwarmOrquestrator

/-!
# The Docker daemon

What the orchestrator may rely on as long as the daemon does its work, and a daemon that does.
-/

namespace PrometheusRing

open Effect

variable {δ : Type}

/-- A daemon that works, with the services that run in each of its states: it creates a service unless its
name is in use, finds and scales a running service, and removes it on request. -/
structure Docker.Working (docker : Docker δ) (live : δ → Set Service) : Prop where
  create_new (spec : ServiceSpec) (c : δ) : (∀ x ∈ live c, x.name ≠ spec.name) →
    ∃ x c', exec (docker.create spec) c = (.ok x, c') ∧ x.name = spec.name ∧ live c' = insert x (live c)
  create_used (spec : ServiceSpec) (c : δ) {x : Service} : x ∈ live c → x.name = spec.name →
    ∃ e c', exec (docker.create spec) c = (.error e, c') ∧ live c' = live c
  get_live {c : δ} {x : Service} : x ∈ live c →
    ∃ y c', exec (docker.get x.id) c = (.ok y, c') ∧ y ∈ live c ∧ live c' = live c
  scale_live {c : δ} {x : Service} (replicas : Int) : x ∈ live c →
    ∃ c', exec (docker.scale x replicas) c = (.ok (), c') ∧ live c' = live c
  remove_live {c : δ} {x : Service} : x ∈ live c →
    ∃ c', exec (docker.remove x) c = (.ok (), c') ∧ live c' = live c \ {x}

/-- The running services of a swarm, and how many it has created. -/
structure Swarm where
  running : List Service := []
  created : Nat := 0

namespace Swarm

/-- Raises unless the service runs. -/
def checkRunning (service : Service) : Effect DockerError Swarm Unit := do
  if service ∉ (← get).running then
    throw (.apiError s!"service {service.id} not found")

def docker : Docker Swarm where
  create spec := do
    if (← get).running.any (·.name = spec.name) then
      throw (.apiError s!"name conflicts with an existing object: service {spec.name} already exists")
    let service : Service := ⟨toString (← get).created, spec.name⟩
    modify fun s => { running := service :: s.running, created := s.created + 1 }
    return service
  get id := do
    match (← get).running.find? (·.id = id) with
    | some service => return service
    | none => throw (.apiError s!"service {id} not found")
  scale service _ := checkRunning service
  remove service := do
    checkRunning service
    modify fun s => { s with running := s.running.filter (· ≠ service) }

def live (s : Swarm) : Set Service := {x | x ∈ s.running}

theorem exec_checkRunning {service : Service} {c : Swarm} (h : service ∈ live c) :
    exec (checkRunning service) c = (.ok (), c) := by
  have hmem : service ∈ c.running := h
  simp [checkRunning, exec_bind, hmem]

theorem any_running {c : Swarm} {name : String} :
    c.running.any (·.name = name) = true ↔ ∃ x ∈ live c, x.name = name := by
  simp [live]

theorem docker_working : docker.Working live where
  create_new spec c hnew := by
    have hany : c.running.any (·.name = spec.name) = false := by
      rw [Bool.eq_false_iff, Ne, any_running]
      rintro ⟨x, hx, hname⟩
      exact hnew x hx hname
    exists ⟨toString c.created, spec.name⟩, ⟨⟨toString c.created, spec.name⟩ :: c.running, c.created + 1⟩
    refine ⟨?_, rfl, ?_⟩
    · simp only [docker, exec_bind, exec_get, hany]
      rfl
    · ext x
      simp [live]
  create_used spec c x hx hname := by
    have hany : c.running.any (·.name = spec.name) = true := any_running.mpr ⟨x, hx, hname⟩
    exists .apiError s!"name conflicts with an existing object: service {spec.name} already exists", c
    refine ⟨?_, rfl⟩
    simp only [docker, exec_bind, exec_get, hany]
    rfl
  get_live {c x} hx := by
    obtain ⟨y, hy⟩ : ∃ y, c.running.find? (·.id = x.id) = some y :=
      Option.isSome_iff_exists.mp (List.find?_isSome.mpr ⟨x, hx, by simp⟩)
    refine ⟨y, c, ?_, List.mem_of_find?_eq_some hy, rfl⟩
    simp only [docker, exec_bind, exec_get, hy]
    rfl
  scale_live replicas hx := ⟨_, exec_checkRunning hx, rfl⟩
  remove_live {c x} hx := by
    refine ⟨{ c with running := c.running.filter (· ≠ x) }, ?_, ?_⟩
    · simp only [docker, exec_bind, exec_checkRunning hx, exec_modify]
    · ext y
      simp [live]

end Swarm

end PrometheusRing
