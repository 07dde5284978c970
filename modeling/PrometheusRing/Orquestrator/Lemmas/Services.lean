import PrometheusRing.Orquestrator.Swarm

/-!
# Creating and deleting services on a daemon that works
-/

namespace PrometheusRing.SwarmOrquestrator

open Effect

variable {δ : Type} {docker : Docker δ} {live : δ → Set Service} {o : SwarmOrquestrator δ}
  {x : Service} {node : Node}

theorem exec_onClient {α : Type} {y : Effect DockerError δ α} {a : α} {c : δ}
    (h : exec y o.client = (.ok a, c)) : exec (onClient y) o = (.ok a, { o with client := c }) := by
  rw [onClient, exec_zoom, exec_mapError, h]
  rfl

theorem exec_scaleAttempts (hd : docker.Working live) (hx : x ∈ live o.client) (count : Int) (attempts : Nat) :
    ∃ c, exec (scaleAttempts docker x count (attempts + 1)) o = (.ok true, { o with client := c }) ∧
      live c = live o.client := by
  obtain ⟨y, c, hget, hy, hc⟩ := hd.get_live hx
  obtain ⟨c', hscale, hc'⟩ := hd.scale_live count (hc.symm ▸ hy : y ∈ live c)
  refine ⟨c', ?_, hc'.trans hc⟩
  have hscale' : exec (docker.scale y count) { o with client := c }.client = (.ok (), c') := hscale
  simp only [scaleAttempts, exec_except, exec_bind, exec_onClient hget, exec_onClient hscale', exec_pure]

theorem exec_scaleService (hd : docker.Working live) (hx : x ∈ live o.client) (count : Int) :
    ∃ c, (∀ message, exec (scaleService docker x count message) o = (.ok (), { o with client := c })) ∧
      live c = live o.client := by
  obtain ⟨c, hattempt, hc⟩ := exec_scaleAttempts hd hx count 4
  refine ⟨c, fun message => ?_, hc⟩
  simp only [scaleService, apiMaxRetries, exec_bind, hattempt]
  rfl

theorem exec_createNode (dump : Yaml → String) (hd : docker.Working live)
    (hname : ∀ x ∈ live o.client, x.name ≠ serviceName node.index) :
    ∃ x c, exec (createNode docker dump node) o =
        (.ok (), { o with client := c, services := o.services.set node.index x }) ∧
      x.name = serviceName node.index ∧ live c = insert x (live o.client) := by
  simp only [createNode, exec_bind, exec_get]
  generalize hspec : ServiceSpec.mk _ _ _ _ _ = spec
  have hspecName : spec.name = serviceName node.index := by rw [← hspec]
  obtain ⟨x, c, hcreate, hx, hc⟩ := hd.create_new spec o.client (hspecName.symm ▸ hname)
  rw [exec_onClient hcreate]
  simp only [exec_modify]
  -- both scalings find the new service
  have hx₁ : x ∈ live { o with client := c, services := o.services.set node.index x }.client :=
    hc.symm ▸ Set.mem_insert x (live o.client)
  obtain ⟨c₁, hscale₁, hc₁⟩ := exec_scaleService hd hx₁ node.replicaCount
  have hx₂ : x ∈ live { o with client := c₁, services := o.services.set node.index x }.client := hc₁.symm ▸ hx₁
  obtain ⟨c₂, hscale₂, hc₂⟩ := exec_scaleService hd hx₂ node.replicaCount
  refine ⟨x, c₂, ?_, hx.trans hspecName, (hc₂.trans hc₁).trans hc⟩
  simp only [hscale₁, hscale₂]

/-- The service of a node is removed, but stays in `services`. -/
theorem exec_deleteNode (hd : docker.Working live) (hservice : o.services.get? node.index = some x)
    (hx : x ∈ live o.client) :
    ∃ c, exec (deleteNode docker node) o = (.ok (), { o with client := c }) ∧
      live c = live o.client \ {x} := by
  obtain ⟨c, hremove, hc⟩ := hd.remove_live hx
  refine ⟨c, ?_, hc⟩
  simp only [deleteNode, exec_bind, exec_get, hservice, notNone, exec_ofExcept, exec_onClient hremove]

end PrometheusRing.SwarmOrquestrator
