import PrometheusRing.Api.Lemmas.Threads
import PrometheusRing.Api.Theorems.Registry
import PrometheusRing.Orquestrator.Lemmas.Faulty
import PrometheusRing.Ring.Lemmas.Locked

/-!
# Starting again

The ring is lost with the process and the services are not. Wherever the process ends, in the middle of calls or not,
a new one does not come up on the same daemon: the service of node zero is still there.
-/

namespace PrometheusRing

open Effect Threads

namespace SwarmOrquestrator

variable {δ : Type} {docker : Docker δ} {dump : Yaml → String} {live : δ → Set Service} {o o' : SwarmOrquestrator δ}
  {i : Nat}

/-- The service of the index runs, and what is tracked has the name that belongs to its index. -/
structure Serves (live : δ → Set Service) (i : Nat) (o : SwarmOrquestrator δ) : Prop where
  runs : i ∈ serviceIndices live o
  services : ∀ j x, o.services.get? j = some x → x.name = serviceName j

/-- The task has the service of its node, and is not about to remove that of the index. -/
def Task.Spares (i : Nat) (t : Task) : Prop :=
  t.Named ∧ t.debt ≠ some (i, -1)

theorem Serves.client (h : Serves live i o) {c : δ} (hlive : i ∈ serviceIndices live { o with client := c }) :
    Serves live i { o with client := c } where
  runs := hlive
  services := h.services

theorem Serves.same (h : Serves live i o) {c : δ} (hlive : live c = live o.client) :
    Serves live i { o with client := c } := by
  refine h.client ?_
  rw [serviceIndices_congr (o := o) hlive]
  exact h.runs

theorem Serves.created (hd : docker.Faulty live) (h : Serves live i o) (node : Node) :
    Serves live i { o with client := (exec (docker.create (nodeSpec dump o node)) o.client).2 } := by
  rcases hd.create (nodeSpec dump o node) o.client with ⟨hlive, -⟩ | ⟨-, x, hname, hlive, -⟩
  · exact h.same hlive
  · refine h.client ?_
    rw [serviceIndices_insert (o := o) hlive hname]
    exact Or.inr h.runs

theorem Serves.removed (hd : docker.Faulty live) (h : Serves live i o) {x : Service} (hx : x.name ≠ serviceName i) :
    Serves live i { o with client := (exec (docker.remove x) o.client).2 } := by
  have hother {c : δ} (hlive : live c = live o.client \ {x}) : Serves live i { o with client := c } := by
    obtain ⟨y, hy, hname⟩ := h.runs
    refine h.client ⟨y, hlive ▸ ⟨hy, ?_⟩, hname⟩
    rintro rfl
    exact hx hname
  rcases hd.remove x o.client with ⟨hlive | hlive, -⟩ | ⟨-, hlive⟩
  · exact h.same hlive
  · exact hother hlive
  · exact hother hlive

/-- A task that spares a service leaves it running, and so does what follows. -/
theorem Serves.next (hd : docker.Faulty live) (h : Serves live i o) (t : Task) (ht : t.Spares i) :
    Serves live i (exec (t.next docker dump) o).2 ∧ ∀ u ∈ rest (exec (t.next docker dump) o).1, u.Spares i := by
  have hretry {c : δ} (hlive : live c = live o.client) (node : Node) (service : Service) (loop : Loop) (left : Nat)
      (e : Exn) : Serves live i (exec (Task.retry node service loop left e) { o with client := c }).2 ∧
        ∀ u ∈ rest (exec (Task.retry node service loop left e) { o with client := c }).1, u.Spares i := by
    obtain ⟨hstate, hrest⟩ := @retry_debt δ { o with client := c } node service loop left e
    rw [hstate]
    refine ⟨h.same hlive, fun u hu => ?_⟩
    obtain ⟨hdebt, hnamed⟩ := hrest u hu
    exact ⟨hnamed, by simp [hdebt]⟩
  cases t with
  | create node =>
      have hkept := @Serves.created δ docker dump live o i hd h node
      have hcreate := hd.create (nodeSpec dump o node) o.client
      rw [exec_next_create]
      generalize exec (docker.create (nodeSpec dump o node)) o.client = p at hkept hcreate ⊢
      rcases p with ⟨d | x, c⟩
      · exact ⟨hkept, fun u hu => by cases hu⟩
      · have hname : x.name = serviceName node.index := by
          rcases hcreate with ⟨-, hraise⟩ | ⟨-, y, hname, -, hout⟩
          · exact absurd rfl (hraise x)
          · obtain rfl := hout x rfl
            exact hname
        refine ⟨hkept, fun u hu => ?_⟩
        cases hu
        exact ⟨hname, by simp [Task.debt]⟩
  | track node service =>
      refine ⟨⟨h.runs, fun j x hx => ?_⟩, fun u hu => ?_⟩
      · change (o.services.set node.index service).get? j = some x at hx
        rw [Dict.get?_set] at hx
        split at hx
        case isTrue he =>
            obtain rfl := Option.some.inj hx
            rw [he]
            exact ht.1
        case isFalse => exact h.services j x hx
      · cases hu
        exact ⟨trivial, by simp [Task.debt]⟩
  | fetch node service loop left =>
      have hget := hd.get service.id o.client
      rw [exec_next_fetch]
      generalize exec (docker.get service.id) o.client = p at hget ⊢
      rcases p with ⟨d | x, c⟩
      · exact hretry hget node service loop left (.docker d)
      · refine ⟨h.same hget, fun u hu => ?_⟩
        cases hu
        exact ⟨trivial, by simp [Task.debt]⟩
  | scale node service loop left x =>
      have hscale := hd.scale x node.replicaCount o.client
      rw [exec_next_scale]
      generalize exec (docker.scale x node.replicaCount) o.client = p at hscale ⊢
      rcases p with ⟨d | v, c⟩
      · exact hretry hscale node service loop left (.docker d)
      · refine ⟨h.same hscale, fun u hu => ?_⟩
        cases loop with
        | attaching =>
            cases hu
            exact ⟨trivial, by simp [Task.debt]⟩
        | scaling => cases hu
  | find node =>
      rw [exec_next_find]
      cases hfind : o.services.get? node.index with
      | none => exact ⟨h, fun u hu => by cases hu⟩
      | some x =>
          refine ⟨h, fun u hu => ?_⟩
          cases hu
          exact ⟨h.services _ x hfind, ht.2⟩
  | remove node x =>
      have hx : x.name ≠ serviceName i := by
        intro hname
        obtain rfl := serviceName_injective (ht.1.symm.trans hname)
        exact ht.2 rfl
      have hkept := h.removed hd hx
      rw [exec_next_remove]
      generalize exec (docker.remove x) o.client = p at hkept ⊢
      rcases p with ⟨d | v, c⟩
      · exact ⟨hkept, fun u hu => by cases hu⟩
      · exact ⟨hkept, fun u hu => by cases hu⟩

/-- A call that returns has created the service. -/
theorem serves_createNode (hd : docker.Faulty live) {node : Node} (hempty : o.services = Dict.empty) {u : Unit}
    (h : exec (createNode docker dump node) o = (.ok u, o')) : Serves live node.index o' := by
  have hcreate := hd.create (nodeSpec dump o node) o.client
  cases hout : exec (docker.create (nodeSpec dump o node)) o.client with
  | mk r c =>
      rw [hout] at hcreate
      cases r with
      | error d =>
          rw [exec_createNode_eq, hout] at h
          cases h
      | ok x =>
          rcases hcreate with ⟨-, hraise⟩ | ⟨-, y, hname, hlive, hx⟩
          · exact absurd rfl (hraise x)
          · obtain rfl := hx x rfl
            have hscale (c : δ) (hc : x ∈ live c) : x ∈ live (exec (scaleOnce docker x node.replicaCount) c).2 := by
              simp only [scaleOnce, exec_bind]
              have hget := hd.get x.id c
              generalize exec (docker.get x.id) c = p at hget ⊢
              rcases p with ⟨d | y, c₁⟩
              · exact hget.symm ▸ hc
              · exact ((hd.scale y node.replicaCount c₁).trans hget).symm ▸ hc
            obtain ⟨c', hc', hstate⟩ := createNode_tracking hout hscale (show x ∈ live c from hlive ▸ Set.mem_insert x _)
            rw [h] at hstate
            obtain rfl : o' = tracking o node x c' := hstate
            refine ⟨⟨x, hc', hname⟩, fun j y hy => ?_⟩
            rw [tracking, hempty, Dict.get?_set] at hy
            split at hy
            case isTrue he =>
                obtain rfl := Option.some.inj hy
                rw [he]
                exact hname
            case isFalse => cases hy

/-- Where the service of a node runs, no other is created for it. -/
theorem not_created_again (hd : docker.Faulty live) {node : Node} (hruns : node.index ∈ serviceIndices live o)
    {u : Unit} : exec (createNode docker dump node) o ≠ (.ok u, o') := by
  intro h
  have hcreate := hd.create (nodeSpec dump o node) o.client
  rw [exec_createNode_eq] at h
  generalize exec (docker.create (nodeSpec dump o node)) o.client = p at hcreate h
  rcases p with ⟨d | x, c⟩
  · cases h
  · rcases hcreate with ⟨-, hraise⟩ | ⟨hnew, -⟩
    · exact hraise x rfl
    · obtain ⟨y, hy, hname⟩ := hruns
      exact hnew y hy hname

end SwarmOrquestrator

namespace API

open SwarmOrquestrator (Task Serves)

variable {δ : Type} {stableHash : String → Nat} {docker : Docker δ} {dump : Yaml → String} {live : δ → Set Service}
  {a a₀ : API (BinarySearchTree Nat Ref) δ}

def Thread.Spares (i : Nat) : Thread → Prop
  | .task t => t.Spares i
  | _ => True

/-- The node that a scale-down takes out has one before it, so it is not that at index 0. -/
theorem spares_next (hd : docker.Faulty live) (hs : Ring.Placed stableHash a.ring) (h : Serves live 0 a.orquestrator)
    (t : Thread) (ht : t.Spares 0) :
    (Ring.Placed stableHash (exec (t.next stableHash docker dump) a).2.ring ∧
      Serves live 0 (exec (t.next stableHash docker dump) a).2.orquestrator) ∧
      ∀ u ∈ rest (exec (t.next stableHash docker dump) a).1, u.Spares 0 := by
  cases t with
  | insert target =>
      have hstored := @Ring.stored_insertLocked _ _ stableHash a.ring _ hs.toSound target target.id
      rw [exec_next_insert Prod.mk.eta.symm]
      refine ⟨⟨hstored.placed hs, h⟩, fun u hu => ?_⟩
      generalize (exec (Ring.insertLocked stableHash target target.id) a.ring).1 = o at hu
      rcases o with e | _ | n
      · cases hu
      · cases hu
      · cases hu
        exact ⟨trivial, by simp [Task.debt]⟩
  | delete targetId =>
      have hstep := Ring.step_machine hs.toSound stableHash (.delete targetId)
      rw [exec_next_delete Prod.mk.eta.symm]
      refine ⟨⟨hs.step hstep, h⟩, fun u hu => ?_⟩
      generalize (Ring.machine stableHash (.delete targetId) a.ring).1 = o at hstep hu
      generalize (Ring.machine stableHash (.delete targetId) a.ring).2 = s' at hstep hu
      have hindex : ∀ r ∈ a.ring.getNodes, (s'.node r).index = (a.ring.node r).index := fun r hr =>
        Ring.index_step hs hstep (hs.allocated r hr)
      cases hstep with
      | Del_Missing | Del_NoCapacity | Del_Kept | Del_Untracked | Del_NoPrior => cases hu
      | @Del_Merged _ n d p hdown hsearch hp =>
          obtain ⟨x, hx, -⟩ := Routing.owner_of_prior hs.valid hp
          have hi := (hindex n (Routing.owner_mem hs.valid (Ring.scaledDown_eq_some.mp hdown).1)).trans hx
          cases hu
          refine ⟨trivial, fun hdebt => ?_⟩
          cases hi.symm.trans (congrArg Prod.fst (Option.some.inj hdebt))
  | task t =>
      obtain ⟨hkept, hspares⟩ := @Serves.next δ docker dump live a.orquestrator 0 hd h t ht
      rw [exec_next_task]
      refine ⟨⟨hs, hkept⟩, fun u hu => ?_⟩
      rw [rest_map] at hu
      obtain ⟨v, hv, rfl⟩ := Option.map_eq_some_iff.mp hu
      exact hspares v hv

/-- From the start on, node zero keeps its service. -/
theorem serves_run (hd : docker.Faulty live) (hs : Ring.Placed stableHash a₀.ring) (h : Serves live 0 a₀.orquestrator)
    (events : List (Event Op)) :
    Serves live 0 ((threads stableHash docker dump).run events ⟨a₀, []⟩).shared.orquestrator := by
  have hguard : (threads stableHash docker dump).Guarded (Each fun _ _ => True) events
      (⟨a₀, []⟩ : Pool (BinarySearchTree Nat Ref) δ) :=
    .of_forall (fun p e => by cases e <;> simp [Each]) events _
  refine (Threads.invariant (fun a => Ring.Placed stableHash a.ring ∧ Serves live 0 a.orquestrator) (Thread.Spares 0)
    (fun op a ha => ?_) (fun t a ha ht _ => spares_next hd ha.1 ha.2 t ht) hguard ⟨hs, h⟩
    fun t ht => absurd ht List.not_mem_nil).1.2
  rw [exec_enter ha.1]
  refine ⟨ha, fun t ht => ?_⟩
  cases op with
  | registerTarget target =>
      dsimp only at ht
      cases hlookup : a.ring.lookup stableHash target.id <;> rw [hlookup] at ht <;> cases ht
      trivial
  | unregisterTarget targetId =>
      dsimp only at ht
      cases hlookup : a.ring.lookup stableHash targetId <;> rw [hlookup] at ht <;> cases ht
      trivial

end API

namespace Main

open API
open SwarmOrquestrator (Serves)

variable {δ : Type} {stableHash : String → Nat} {docker : Docker δ} {dump : Yaml → String} {live : δ → Set Service}
  {a₀ : API (BinarySearchTree Nat Ref) δ} {settings : Settings} {client : δ}

theorem start_eq_ok (h : start docker dump settings client = .ok a₀) :
    ∃ (node : Node) (o : SwarmOrquestrator δ), node.index = 0 ∧ o.client = client ∧ o.services = Dict.empty ∧
      exec (SwarmOrquestrator.createNode docker dump node) o = (.ok (), a₀.orquestrator) := by
  unfold start at h
  cases hring : settings.ring (BinarySearchTree Nat Ref) with
  | error e => rw [hring] at h; cases h
  | ok s₀ =>
      obtain ⟨hargs, rfl⟩ := Ring.init_eq_ok.mp hring
      rw [hring] at h
      simp only [bind, Except.bind] at h
      split at h
      case h_1 a hcreate =>
          cases h
          simp only [createFirstNode, exec_bind, exec_get, onOrquestrator, exec_zoom] at hcreate
          obtain ⟨hout, hstate⟩ := Prod.mk.inj hcreate
          refine ⟨_, _, ?_, ?_, ?_, Prod.ext hout (congrArg API.orquestrator hstate)⟩
          · rfl
          · rfl
          · rfl
      case h_2 => cases h

/-- Once the service has started, the service of node zero runs wherever its calls have come to, and so no second start
succeeds on the daemon that it leaves behind, whatever the settings are and whatever the daemon has made of each
request. -/
theorem restart_refused (hd : docker.Faulty live) (hstart : start docker dump settings client = .ok a₀)
    (events : List (Event Op)) :
    let left := ((threads stableHash docker dump).run events ⟨a₀, []⟩).shared.orquestrator.client
    (∃ x ∈ live left, x.name = serviceName 0) ∧
      ∀ (settings' : Settings) (client' : δ) (a : API (BinarySearchTree Nat Ref) δ), live client' = live left →
        start docker dump settings' client' ≠ .ok a := by
  intro left
  obtain ⟨node, o, hindex, -, hempty, hcreate⟩ := start_eq_ok hstart
  obtain ⟨hargs, hring⟩ := Ring.init_eq_ok.mp (start_ring hstart)
  have hplaced : Ring.Placed stableHash a₀.ring := by
    rw [hring]
    exact Ring.Placed.fresh settings.nodeArgs hargs settings.nodeMinLoad settings.nodeMaxLoad 19090
  have hserves : Serves live 0 a₀.orquestrator := hindex ▸ SwarmOrquestrator.serves_createNode hd hempty hcreate
  have hruns : 0 ∈ SwarmOrquestrator.serviceIndices live
      ((threads stableHash docker dump).run events ⟨a₀, []⟩).shared.orquestrator :=
    (serves_run hd hplaced hserves events).runs
  refine ⟨hruns, fun settings' client' a hclient hagain => ?_⟩
  obtain ⟨node', o', hindex', rfl, -, hcreate'⟩ := start_eq_ok hagain
  refine SwarmOrquestrator.not_created_again hd ?_ hcreate'
  rw [SwarmOrquestrator.serviceIndices_congr hclient, hindex']
  exact hruns

/-- The process ends before the service of node 50 is created, and the next one has a larger capacity. -/
theorem restart_refused_default :
    let hash := tableHash [("a", 0), ("b", 100)]
    let register (id : String) : Event Op := .call (.registerTarget ⟨id, id, "host", 8000⟩)
    let orquestrator : SwarmOrquestrator Swarm := { client := {}, prometheusDockerImage := "prometheus-ring-node" }
    let a₀ := (exec (createFirstNode Swarm.docker fun _ => "")
      ⟨Settings.freshRing (BinarySearchTree Nat Ref), orquestrator⟩).2
    let p := (threads hash Swarm.docker fun _ => "").run [register "a", .step 0, register "b", .step 0] ⟨a₀, []⟩
    p.running.length = 1 ∧
      ∀ a, start Swarm.docker (fun _ => "") { nodeCapacity := 100 } p.shared.orquestrator.client ≠ .ok a := by
  intro hash register orquestrator a₀ p
  have hstart : start Swarm.docker (fun _ => "") {} {} = .ok a₀ := by
    rw [start, Settings.ring_default]
    rfl
  refine ⟨by decide +kernel, ?_⟩
  have hp : p = (threads hash Swarm.docker fun _ => "").run [register "a", .step 0, register "b", .step 0] ⟨a₀, []⟩ :=
    rfl
  clear_value p
  intro a
  exact (restart_refused Swarm.docker_faulty hstart [register "a", .step 0, register "b", .step 0]).2
    { nodeCapacity := 100 } p.shared.orquestrator.client a (by rw [hp])

end Main

end PrometheusRing
