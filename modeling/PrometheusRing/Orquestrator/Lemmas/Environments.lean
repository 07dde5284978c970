import PrometheusRing.Orquestrator.Lemmas.Services
import PrometheusRing.Orquestrator.Theorems.Retries

/-!
# The environments of the services

A service keeps the environment it was created with. The orchestrator puts the configuration of a node there.
-/

namespace PrometheusRing

open Effect

variable {δ : Type}

/-- A daemon that works and on which each service keeps the environment of its specification. -/
structure Docker.Keeping (docker : Docker δ) (live : δ → Set Service) (environment : δ → Service → List String) :
    Prop extends docker.Working live where
  create_environment {spec : ServiceSpec} {c c' : δ} {x : Service} : exec (docker.create spec) c = (.ok x, c') →
    x ∉ live c → environment c' x = spec.env ∧ ∀ y ∈ live c, environment c' y = environment c y
  get_environment {c : δ} {x : Service} : x ∈ live c →
    ∀ y ∈ live c, environment (exec (docker.get x.id) c).2 y = environment c y
  scale_environment {c : δ} {x : Service} (replicas : Int) : x ∈ live c →
    ∀ y ∈ live c, environment (exec (docker.scale x replicas) c).2 y = environment c y
  remove_environment {c : δ} {x : Service} : x ∈ live c →
    ∀ y ∈ live c, environment (exec (docker.remove x) c).2 y = environment c y

/-! ## A daemon that records the environments -/

/-- The state of a daemon, with the environments of the services it has created. -/
structure Recorded (δ : Type) where
  daemon : δ
  environment : Service → List String := fun _ => []

namespace Recorded

def onDaemon {α : Type} (x : Effect DockerError δ α) : Effect DockerError (Recorded δ) α :=
  Effect.zoom daemon (fun c r => { r with daemon := c }) x

/-- The daemon that also records the environment of each service it creates. -/
def docker (docker : Docker δ) : Docker (Recorded δ) where
  create spec := do
    let service ← onDaemon (docker.create spec)
    modify fun r => { r with environment := Function.update r.environment service spec.env }
    return service
  get id := onDaemon (docker.get id)
  scale service replicas := onDaemon (docker.scale service replicas)
  remove service := onDaemon (docker.remove service)

theorem docker_keeping {d : Docker δ} {live : δ → Set Service} (h : d.Working live) :
    (Recorded.docker d).Keeping (fun r => live r.daemon) environment where
  create_new spec r hnew := by
    obtain ⟨x, c, hcreate, hname, hlive⟩ := h.create_new spec r.daemon hnew
    refine ⟨x, ⟨c, Function.update r.environment x spec.env⟩, ?_, hname, hlive⟩
    simp only [Recorded.docker, onDaemon, exec_bind, exec_zoom, hcreate, exec_modify]
    rfl
  create_used spec r x hx hname := by
    obtain ⟨e, c, hcreate, hlive⟩ := h.create_used spec r.daemon hx hname
    refine ⟨e, ⟨c, r.environment⟩, ?_, hlive⟩
    simp only [Recorded.docker, onDaemon, exec_bind, exec_zoom, hcreate]
  get_live {r x} hx := by
    obtain ⟨y, c, hget, hy, hlive⟩ := h.get_live hx
    exact ⟨y, ⟨c, r.environment⟩, by simp only [Recorded.docker, onDaemon, exec_zoom, hget], hy, hlive⟩
  scale_live {r x} replicas hx := by
    obtain ⟨c, hscale, hlive⟩ := h.scale_live replicas hx
    exact ⟨⟨c, r.environment⟩, by simp only [Recorded.docker, onDaemon, exec_zoom, hscale], hlive⟩
  remove_live {r x} hx := by
    obtain ⟨c, hremove, hlive⟩ := h.remove_live hx
    exact ⟨⟨c, r.environment⟩, by simp only [Recorded.docker, onDaemon, exec_zoom, hremove], hlive⟩
  create_environment {spec r r' x} hcreate hx := by
    simp only [Recorded.docker, onDaemon, exec_bind, exec_zoom] at hcreate
    rcases hd : exec (d.create spec) r.daemon with ⟨e | service, c⟩
    · rw [hd] at hcreate; cases hcreate
    · rw [hd] at hcreate
      cases hcreate
      refine ⟨Function.update_self _ _ _, fun y hy => Function.update_of_ne ?_ _ _⟩
      rintro rfl
      exact hx hy
  get_environment _ _ _ := rfl
  scale_environment _ _ _ _ := rfl
  remove_environment _ _ _ := rfl

end Recorded

/-! ## What the orchestrator does to the environments -/

/-- The same services run, in the same environments. -/
def SameServices (live : δ → Set Service) (environment : δ → Service → List String) (c c' : δ) : Prop :=
  live c' = live c ∧ ∀ x ∈ live c, environment c' x = environment c x

namespace SwarmOrquestrator

variable {docker : Docker δ} {live : δ → Set Service} {environment : δ → Service → List String}
  {o : SwarmOrquestrator δ} {node : Node} {x : Service} {c c' : δ}

theorem scaleOnce_same (hd : docker.Keeping live environment) (hx : x ∈ live c) (count : Int)
    (h : SameServices live environment c c') :
    SameServices live environment c (exec (scaleOnce docker x count) c').2 := by
  have hx' : x ∈ live c' := h.1 ▸ hx
  have henv := hd.get_environment hx'
  obtain ⟨y, c₁, hget, hy, hlive⟩ := hd.get_live hx'
  rw [hget] at henv
  have hy₁ : y ∈ live c₁ := hlive.symm ▸ hy
  have henv₁ := hd.scale_environment count hy₁
  obtain ⟨c₂, hscale, hlive₁⟩ := hd.scale_live count hy₁
  rw [hscale] at henv₁
  simp only [scaleOnce, exec_bind, hget, hscale]
  refine ⟨(hlive₁.trans hlive).trans h.1, fun z hz => ?_⟩
  have hz' : z ∈ live c' := h.1 ▸ hz
  rw [henv₁ z (hlive.symm ▸ hz'), henv z hz', h.2 z hz]

/-- One service is added, in whose environment the configuration of the node is. -/
theorem createNode_environment (dump : Yaml → String) (hd : docker.Keeping live environment)
    (hname : ∀ x ∈ live o.client, x.name ≠ serviceName node.index) :
    let c := (exec (createNode docker dump node) o).2.client
    ∃ y, y.name = serviceName node.index ∧ environment c y = ["PROMETHEUS_YML=" ++ dump node.prometheusYml] ∧
      live c = insert y (live o.client) ∧ ∀ x ∈ live o.client, environment c x = environment o.client x := by
  obtain ⟨y, c₁, hcreate, hy, hlive⟩ := hd.create_new (nodeSpec dump o node) o.client hname
  obtain ⟨henv, hothers⟩ := hd.create_environment hcreate fun hx => hname y hx hy
  have hy₁ : y ∈ live c₁ := hlive.symm ▸ Set.mem_insert y _
  obtain ⟨c₂, hsame, hcall⟩ := createNode_tracking (I := SameServices live environment c₁) hcreate
    (fun _ => scaleOnce_same hd hy₁ node.replicaCount) ⟨rfl, fun _ _ => rfl⟩
  rw [hcall]
  refine ⟨y, hy, (hsame.2 y hy₁).trans henv, hsame.1.trans hlive, fun x hx => ?_⟩
  exact (hsame.2 x (hlive.symm ▸ Set.mem_insert_of_mem y hx)).trans (hothers x hx)

/-- Removing a service changes no environment. -/
theorem deleteNode_environment (hd : docker.Keeping live environment)
    (hservice : o.services.get? node.index = some x) (hx : x ∈ live o.client) :
    ∀ y ∈ live o.client,
      environment (exec (deleteNode docker node) o).2.client y = environment o.client y := by
  have henv := hd.remove_environment hx
  obtain ⟨c, hremove, -⟩ := hd.remove_live hx
  rw [hremove] at henv
  simp only [deleteNode, exec_bind, exec_get, hservice, notNone, exec_ofExcept, exec_onClient hremove]
  exact henv

end SwarmOrquestrator

end PrometheusRing
