import PrometheusRing.Orquestrator.Lemmas.Tasks
import PrometheusRing.Orquestrator.Swarm

/-!
# A daemon whose calls may fail

Any call may raise. One that raises has done nothing, or has done its work all the same, as when the connection is
lost before the answer.
-/

namespace PrometheusRing

open Effect

variable {δ : Type}

/-- What is left to rely on: names are unique, and a call does its own work or none. -/
structure Docker.Faulty (docker : Docker δ) (live : δ → Set Service) : Prop where
  create (spec : ServiceSpec) (c : δ) :
    (live (exec (docker.create spec) c).2 = live c ∧ ∀ x, (exec (docker.create spec) c).1 ≠ .ok x) ∨
      (∀ y ∈ live c, y.name ≠ spec.name) ∧ ∃ x, x.name = spec.name ∧
        live (exec (docker.create spec) c).2 = insert x (live c) ∧
          ∀ y, (exec (docker.create spec) c).1 = .ok y → y = x
  get (id : String) (c : δ) : live (exec (docker.get id) c).2 = live c
  scale (x : Service) (replicas : Int) (c : δ) : live (exec (docker.scale x replicas) c).2 = live c
  remove (x : Service) (c : δ) :
    ((live (exec (docker.remove x) c).2 = live c ∨ live (exec (docker.remove x) c).2 = live c \ {x}) ∧
        ∀ u, (exec (docker.remove x) c).1 ≠ .ok u) ∨
      x ∈ live c ∧ live (exec (docker.remove x) c).2 = live c \ {x}

theorem Swarm.docker_faulty : Swarm.docker.Faulty Swarm.live where
  create spec c := by
    by_cases hany : ∃ x ∈ live c, x.name = spec.name
    · obtain ⟨x, hx, hname⟩ := hany
      obtain ⟨e, c', hcreate, hlive⟩ := docker_working.create_used spec c hx hname
      rw [hcreate]
      exact Or.inl ⟨hlive, fun x h => by cases h⟩
    · simp only [not_exists, not_and] at hany
      obtain ⟨x, c', hcreate, hname, hlive⟩ := docker_working.create_new spec c hany
      rw [hcreate]
      exact Or.inr ⟨hany, x, hname, hlive, fun y h => (Except.ok.inj h).symm⟩
  get id c := by
    simp only [docker, exec_bind, exec_get]
    cases c.running.find? (·.id = id) <;> rfl
  scale x replicas c := by
    simp only [docker, checkRunning, exec_bind, exec_get]
    split <;> rfl
  remove x c := by
    by_cases hx : x ∈ live c
    · obtain ⟨c', hremove, hlive⟩ := docker_working.remove_live hx
      rw [hremove]
      exact Or.inr ⟨hx, hlive⟩
    · have hnot : x ∉ c.running := hx
      have hremove : exec (docker.remove x) c = (.error (.apiError s!"service {x.id} not found"), c) := by
        simp only [docker, checkRunning, exec_bind, exec_get, if_pos hnot]
        rfl
      rw [hremove]
      exact Or.inl ⟨Or.inl rfl, fun u h => by cases h⟩

/-! ## Injecting faults -/

/-- What happens to a call. -/
inductive Fault where
  | none
  /-- The call raises and has done nothing. -/
  | before
  /-- The call has done its work and raises. -/
  | after

/-- A daemon and what happens to the calls to come; after the last one all work. -/
structure Faulting (δ : Type) where
  daemon : δ
  plan : List Fault

namespace Faulting

def onDaemon {α : Type} (x : Effect DockerError δ α) : Effect DockerError (Faulting δ) α :=
  Effect.zoom daemon (fun c f => { f with daemon := c }) x

def inject {α : Type} (x : Effect DockerError δ α) : Effect DockerError (Faulting δ) α := do
  let fault := (← get).plan.headD .none
  modify fun f => { f with plan := f.plan.tail }
  match fault with
  | .none => onDaemon x
  | .before => throw (.apiError "503 Service Unavailable")
  | .after =>
      discard (onDaemon x)
      throw (.apiError "504 Gateway Timeout")

def docker (docker : Docker δ) : Docker (Faulting δ) where
  create spec := inject (docker.create spec)
  get id := inject (docker.get id)
  scale service replicas := inject (docker.scale service replicas)
  remove service := inject (docker.remove service)

theorem inject_cases {α : Type} (x : Effect DockerError δ α) (f : Faulting δ) :
    ((exec (inject x) f).2.daemon = f.daemon ∨ (exec (inject x) f).2.daemon = (exec x f.daemon).2) ∧
        (∀ y, (exec (inject x) f).1 ≠ .ok y) ∨
      (exec (inject x) f).2.daemon = (exec x f.daemon).2 ∧ (exec (inject x) f).1 = (exec x f.daemon).1 := by
  simp only [inject, exec_bind, exec_get, exec_modify]
  cases f.plan.headD .none with
  | none => exact Or.inr ⟨rfl, rfl⟩
  | before => exact Or.inl ⟨Or.inl rfl, fun y h => by cases h⟩
  | after =>
      simp only [exec_discard, onDaemon, exec_zoom, exec_bind]
      refine Or.inl ?_
      cases hx : exec x f.daemon with
      | mk r c =>
          cases r with
          | error e => exact ⟨Or.inr rfl, fun y h => by cases h⟩
          | ok a => exact ⟨Or.inr rfl, fun y h => by cases h⟩

theorem docker_faulty {d : Docker δ} {live : δ → Set Service} (h : d.Faulty live) :
    (Faulting.docker d).Faulty (fun f => live f.daemon) where
  create spec f := by
    rcases inject_cases (d.create spec) f with ⟨hdaemon, hraise⟩ | ⟨hdaemon, hout⟩
    · simp only [Faulting.docker]
      rcases hdaemon with hdaemon | hdaemon
      · rw [hdaemon]
        exact Or.inl ⟨rfl, hraise⟩
      · rw [hdaemon]
        rcases h.create spec f.daemon with ⟨hlive, -⟩ | ⟨hnew, x, hname, hlive, -⟩
        · exact Or.inl ⟨hlive, hraise⟩
        · exact Or.inr ⟨hnew, x, hname, hlive, fun y hy => absurd hy (hraise y)⟩
    · simp only [Faulting.docker]
      rw [hdaemon, hout]
      exact h.create spec f.daemon
  get id f := by
    rcases inject_cases (d.get id) f with ⟨hdaemon | hdaemon, -⟩ | ⟨hdaemon, -⟩
    · exact congrArg live hdaemon
    · exact (congrArg live hdaemon).trans (h.get id f.daemon)
    · exact (congrArg live hdaemon).trans (h.get id f.daemon)
  scale x replicas f := by
    rcases inject_cases (d.scale x replicas) f with ⟨hdaemon | hdaemon, -⟩ | ⟨hdaemon, -⟩
    · exact congrArg live hdaemon
    · exact (congrArg live hdaemon).trans (h.scale x replicas f.daemon)
    · exact (congrArg live hdaemon).trans (h.scale x replicas f.daemon)
  remove x f := by
    rcases inject_cases (d.remove x) f with ⟨hdaemon, hraise⟩ | ⟨hdaemon, hout⟩
    · simp only [Faulting.docker]
      refine Or.inl ⟨?_, hraise⟩
      rcases hdaemon with hdaemon | hdaemon
      · exact Or.inl (congrArg live hdaemon)
      · rw [hdaemon]
        rcases h.remove x f.daemon with ⟨hlive, -⟩ | ⟨-, hlive⟩
        · exact hlive
        · exact Or.inr hlive
    · simp only [Faulting.docker]
      rw [hdaemon, hout]
      exact h.remove x f.daemon

end Faulting

/-! ## Tasks on a faulty daemon -/

namespace SwarmOrquestrator

open Threads

/-- The indices whose services run. -/
def serviceIndices (live : δ → Set Service) (o : SwarmOrquestrator δ) : Set Nat :=
  {i | ∃ x ∈ live o.client, x.name = serviceName i}

/-- A service that is tracked has the name that belongs to its index, and the names of the ring's services are unique. -/
structure Named (live : δ → Set Service) (o : SwarmOrquestrator δ) : Prop where
  services : ∀ i x, o.services.get? i = some x → x.name = serviceName i
  unique : ∀ x ∈ live o.client, ∀ y ∈ live o.client, ∀ i, x.name = serviceName i → y.name = serviceName i → x = y

/-- The service that a call has got hold of is that of its node. -/
def Task.Named : Task → Prop
  | .track node service | .remove node service => service.name = serviceName node.index
  | _ => True

/-- The service that a call still has to create or to remove. -/
def Task.debt : Task → Option (Nat × ℤ)
  | .create node => some (node.index, 1)
  | .find node | .remove node _ => some (node.index, -1)
  | _ => none

variable {docker : Docker δ} {dump : Yaml → String} {live : δ → Set Service} {o o' : SwarmOrquestrator δ} {x : Service}
  {i : Nat}

theorem serviceIndices_congr (hlive : live o'.client = live o.client) : serviceIndices live o' = serviceIndices live o := by
  rw [serviceIndices, hlive, serviceIndices]

theorem serviceIndices_insert (hlive : live o'.client = insert x (live o.client)) (hx : x.name = serviceName i) :
    serviceIndices live o' = insert i (serviceIndices live o) := by
  ext j
  constructor
  · rintro ⟨y, hy, hname⟩
    rw [hlive] at hy
    rcases Set.mem_insert_iff.mp hy with rfl | hy
    · exact Or.inl (serviceName_injective (hname.symm.trans hx))
    · exact Or.inr ⟨y, hy, hname⟩
  · rintro (rfl | ⟨y, hy, hname⟩)
    · exact ⟨x, hlive ▸ Set.mem_insert x _, hx⟩
    · exact ⟨y, hlive ▸ Set.mem_insert_of_mem x hy, hname⟩

namespace Named

theorem serviceIndices_erase (h : Named live o) (hlive : live o'.client = live o.client \ {x}) (hx : x ∈ live o.client)
    (hname : x.name = serviceName i) : serviceIndices live o' = serviceIndices live o \ {i} := by
  ext j
  constructor
  · rintro ⟨y, hy, hyname⟩
    rw [hlive] at hy
    refine ⟨⟨y, hy.1, hyname⟩, ?_⟩
    rintro rfl
    exact hy.2 (h.unique y hy.1 x hx _ hyname hname)
  · rintro ⟨⟨y, hy, hyname⟩, hj⟩
    refine ⟨y, hlive ▸ ⟨hy, ?_⟩, hyname⟩
    rintro rfl
    exact hj (serviceName_injective (hyname.symm.trans hname))

theorem insert (h : Named live o) (hlive : live o'.client = insert x (live o.client)) (hservices : o'.services = o.services)
    (hnew : ∀ y ∈ live o.client, y.name ≠ x.name) : Named live o' where
  services := hservices ▸ h.services
  unique y hy z hz j hyname hzname := by
    rw [hlive] at hy hz
    rcases Set.mem_insert_iff.mp hy with rfl | hy
    · rcases Set.mem_insert_iff.mp hz with rfl | hz
      · rfl
      · exact absurd (hzname.trans hyname.symm) (hnew z hz)
    · rcases Set.mem_insert_iff.mp hz with hzx | hz
      · exact absurd (hyname.trans (hzx ▸ hzname).symm) (hnew y hy)
      · exact h.unique y hy z hz j hyname hzname

theorem mono (h : Named live o) (hlive : live o'.client ⊆ live o.client) (hservices : o'.services = o.services) :
    Named live o' where
  services := hservices ▸ h.services
  unique y hy z hz := h.unique y (hlive hy) z (hlive hz)

theorem track (h : Named live o) (hlive : live o'.client = live o.client) (hservices : o'.services = o.services.set i x)
    (hx : x.name = serviceName i) : Named live o' where
  services j y hy := by
    rw [hservices, Dict.get?_set] at hy
    split at hy
    case isTrue he =>
        obtain rfl := Option.some.inj hy
        rw [he, hx]
    case isFalse => exact h.services j y hy
  unique := by rw [hlive]; exact h.unique

end Named

/-! ## One task -/

/-- A loop goes on with an attempt, or ends. -/
theorem retry_debt {node : Node} {service : Service} {loop : Loop} {left : Nat} {e : Exn} :
    (exec (Task.retry node service loop left e) o).2 = o ∧
      ∀ t ∈ rest (exec (Task.retry node service loop left e) o).1, t.debt = none ∧ t.Named := by
  unfold Task.retry
  split
  case h_1 => exact ⟨rfl, fun t ht => by cases ht; exact ⟨rfl, trivial⟩⟩
  case h_2 => exact ⟨rfl, fun t ht => by cases ht⟩
  case h_3 => exact ⟨rfl, fun t ht => by cases ht⟩

/-- A task keeps the account of its node's service. -/
theorem block_task (hd : docker.Faulty live) {failed : Except Exn Unit → Bool}
    (hfailed : ∀ e, (∃ d, e = .docker d) ∨ e = .attributeError "remove" → failed (.error e) = true) (nodes : Set Nat)
    (h : Named live o) (t : Task) (ht : t.Named) :
    Block (fun _ => nodes) (serviceIndices live) (Named live) Task.Named failed Task.debt t.debt o
      (exec (t.next docker dump) o).1 (exec (t.next docker dump) o).2 := by
  have hsame {o' : SwarmOrquestrator δ} (hlive : live o'.client = live o.client) :
      Ledger.surplus nodes (serviceIndices live o') = Ledger.surplus nodes (serviceIndices live o) := by
    rw [serviceIndices_congr hlive]
  have hretry {c : δ} (hlive : live c = live o.client) (node : Node) (service : Service) (loop : Loop) (left : Nat)
      (e : Exn) : Block (fun _ => nodes) (serviceIndices live) (Named live) Task.Named failed Task.debt none o
        (exec (Task.retry node service loop left e) { o with client := c }).1
        (exec (Task.retry node service loop left e) { o with client := c }).2 := by
    obtain ⟨hstate, hrest⟩ := @retry_debt δ { o with client := c } node service loop left e
    rw [hstate]
    exact .kept (h.mono hlive.subset rfl) (fun t ht => (hrest t ht).2) (hsame hlive)
      (Option.bind_eq_none_iff.mpr fun t ht => (hrest t ht).1)
  cases t with
  | create node =>
      have hnot (hnew : ∀ y ∈ live o.client, y.name ≠ serviceName node.index) : node.index ∉ serviceIndices live o :=
        fun ⟨y, hy, hname⟩ => hnew y hy hname
      have hcreate := hd.create (nodeSpec dump o node) o.client
      rw [exec_next_create]
      generalize exec (docker.create (nodeSpec dump o node)) o.client = p at hcreate ⊢
      rcases p with ⟨d | x, c⟩
      · rcases hcreate with ⟨hlive, -⟩ | ⟨hnew, x, hname, hlive, -⟩
        · exact .raised (h.mono hlive.subset rfl) (hsame hlive) (hfailed _ (Or.inl ⟨d, rfl⟩))
        · refine .settled (h.insert hlive rfl (hname ▸ hnew)) (fun t ht => by cases ht) ?_ rfl
          rw [serviceIndices_insert hlive hname]
          exact Ledger.surplus_insert_right (hnot hnew)
      · rcases hcreate with ⟨-, hraise⟩ | ⟨hnew, y, hname, hlive, hout⟩
        · exact absurd rfl (hraise x)
        · obtain rfl := hout x rfl
          refine .settled (h.insert hlive rfl (hname ▸ hnew)) (fun t ht => by cases ht; exact hname) ?_ rfl
          rw [serviceIndices_insert hlive hname]
          exact Ledger.surplus_insert_right (hnot hnew)
  | track node service =>
      exact .kept (h.track rfl rfl ht) (fun t ht => by cases ht; trivial) (hsame rfl) rfl
  | fetch node service loop left =>
      have hget := hd.get service.id o.client
      rw [exec_next_fetch]
      generalize exec (docker.get service.id) o.client = p at hget ⊢
      rcases p with ⟨d | x, c⟩
      · exact hretry hget node service loop left (.docker d)
      · exact .kept (h.mono hget.subset rfl) (fun t ht => by cases ht; trivial) (hsame hget) rfl
  | scale node service loop left updatedService =>
      have hscale := hd.scale updatedService node.replicaCount o.client
      rw [exec_next_scale]
      generalize exec (docker.scale updatedService node.replicaCount) o.client = p at hscale ⊢
      rcases p with ⟨d | u, c⟩
      · exact hretry hscale node service loop left (.docker d)
      · cases loop with
        | attaching => exact .kept (h.mono hscale.subset rfl) (fun t ht => by cases ht; trivial) (hsame hscale) rfl
        | scaling => exact .kept (h.mono hscale.subset rfl) (fun t ht => by cases ht) (hsame hscale) rfl
  | find node =>
      rw [exec_next_find]
      cases hfind : o.services.get? node.index with
      | none => exact .raised h rfl (hfailed _ (Or.inr rfl))
      | some x => exact .kept h (fun t ht => by cases ht; exact h.services _ x hfind) rfl rfl
  | remove node x =>
      have hremove := hd.remove x o.client
      rw [exec_next_remove]
      have hsettled {c : δ} {r : Except Exn (Option Task)} (hmem : x ∈ live o.client) (hlive : live c = live o.client \ {x})
          (hr : rest r = none) : Block (fun _ => nodes) (serviceIndices live) (Named live) Task.Named failed Task.debt
            (some (node.index, -1)) o r { o with client := c } := by
        refine .settled (h.mono (hlive.subset.trans Set.sdiff_subset) rfl) (fun t ht => by rw [hr] at ht; cases ht) ?_
          (by rw [hr]; rfl)
        have herase : serviceIndices live { o with client := c } = _ := h.serviceIndices_erase hlive hmem ht
        rw [herase]
        exact Ledger.surplus_erase_right ⟨x, hmem, ht⟩
      generalize exec (docker.remove x) o.client = p at hremove ⊢
      rcases p with ⟨d | u, c⟩
      · rcases hremove with ⟨hlive | hlive, -⟩ | ⟨hmem, hlive⟩
        · exact .raised (h.mono hlive.subset rfl) (hsame hlive) (hfailed _ (Or.inl ⟨d, rfl⟩))
        · by_cases hmem : x ∈ live o.client
          · exact hsettled hmem hlive rfl
          · have hlive' : live c = live o.client := hlive.trans (Set.sdiff_singleton_eq_self hmem)
            exact .raised (h.mono hlive'.subset rfl) (hsame hlive') (hfailed _ (Or.inl ⟨d, rfl⟩))
        · exact hsettled hmem hlive rfl
      · rcases hremove with ⟨-, hraise⟩ | ⟨hmem, hlive⟩
        · exact absurd rfl (hraise u)
        · exact hsettled hmem hlive rfl

end SwarmOrquestrator

end PrometheusRing
