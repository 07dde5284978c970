import PrometheusRing.Api.Theorems.Services
import PrometheusRing.Api.Theorems.Targets
import PrometheusRing.Discovery.Theorems.Container
import PrometheusRing.Orquestrator.Lemmas.Environments

/-!
# Every registered target is scraped by one service

From the call that registers a target to the Prometheus that scrapes it: the ring assigns the target to a node, the
orchestrator hands the configuration of the node to its service, the container of the service writes it into the file
that Prometheus reads, and Prometheus asks the address in it for the list of targets and keeps some by their labels.
-/

namespace PrometheusRing.API

open Effect EnvToYml

variable {δ σ φ : Type} {stableHash : String → Nat} {docker : Docker δ} {dump : Yaml → String}
  {live : δ → Set Service} {environment : δ → Service → List String} {a : API (BinarySearchTree Nat Ref) δ}

/-- Services and nodes are in step, and the service of a node has the configuration of the node. -/
structure Configured (live : δ → Set Service) (environment : δ → Service → List String) (dump : Yaml → String)
    (stableHash : String → Nat) (a : API (BinarySearchTree Nat Ref) δ) : Prop extends InStep live stableHash a where
  environments : ∀ r ∈ a.ring.getNodes, ∀ x ∈ live a.orquestrator.client,
    x.name = serviceName (a.ring.node r).index →
      environment a.orquestrator.client x = ["PROMETHEUS_YML=" ++ dump (a.ring.node r).prometheusYml]

/-- A service after a call ran in the same environment before, or it is that of a node of the ring and has the
configuration of the node. -/
theorem InStep.services_after (h : InStep live stableHash a) (hd : docker.Keeping live environment) {op : Op}
    (hclean : Ring.CleanScaleDown stableHash a.ring op.ringOp)
    (hsplit : Ring.SplitsElsewhere stableHash a.ring op.ringOp) {x : Service}
    (hx : x ∈ live (machine stableHash docker dump op a).2.orquestrator.client) :
    (x ∈ live a.orquestrator.client ∧
      environment (machine stableHash docker dump op a).2.orquestrator.client x =
        environment a.orquestrator.client x) ∨
    ∃ n ∈ (machine stableHash docker dump op a).2.ring.getNodes,
      x.name = serviceName ((machine stableHash docker dump op a).2.ring.node n).index ∧
      environment (machine stableHash docker dump op a).2.orquestrator.client x =
        ["PROMETHEUS_YML=" ++ dump ((machine stableHash docker dump op a).2.ring.node n).prometheusYml] := by
  have hs := h.tracked
  have hstep := Ring.step_machine hs.toSound stableHash op.ringOp
  have hcall : machine stableHash docker dump op a = _ := exec_call hs.toPlaced op Prod.mk.eta.symm
  rw [hcall] at hx ⊢
  generalize (Ring.machine stableHash op.ringOp a.ring).1 = o at hstep hx ⊢
  generalize (Ring.machine stableHash op.ringOp a.ring).2 = s' at hstep hx ⊢
  cases op with
  | registerTarget target =>
      cases hstep with
      | Ins_Exists | Ins_NoCapacity | Ins_Stored => exact Or.inl ⟨hx, rfl⟩
      | @Ins_Split _ _ _ key n m hkey hup hm =>
          subst hkey
          obtain ⟨-, hmem, hs', -⟩ := hs.toPlaced.scaledUp hup hm
          have hindex : ((Ring.split stableHash (a.ring.onNode n (·.insert _ target)) n m).node
              a.ring.heap.next).index = m := Ring.index_split_new (hs'.allocated n hmem)
          have hname : ∀ z ∈ live a.orquestrator.client, z.name ≠ serviceName m := fun z hz he => by
            obtain ⟨r, hr, hri⟩ := h.nodes z hz m he
            exact hsplit.index_ne hs hup hm r hr hri
          rw [← hindex] at hname
          obtain ⟨y, hy, henv, hlive, hothers⟩ := SwarmOrquestrator.createNode_environment dump hd hname
          rcases Set.mem_insert_iff.mp (hlive ▸ hx) with rfl | hx
          · exact Or.inr ⟨_, (Ring.mem_getNodes_split hs').mpr (Or.inr rfl), hy, henv⟩
          · exact Or.inl ⟨hx, hothers x hx⟩
  | unregisterTarget targetId =>
      cases hstep with
      | Del_Missing | Del_NoCapacity | Del_Kept | Del_Untracked | Del_NoPrior => exact Or.inl ⟨hx, rfl⟩
      | @Del_Merged _ n d p hdown hd' hp =>
          have hmem := Routing.owner_mem hs.valid (Ring.scaledDown_eq_some.mp hdown).1
          obtain ⟨y, hy, hget, -⟩ := h.services n hmem
          have hindex : (((a.ring.onNode n (·.without targetId)).merged d p (a.ring.node n).index).node n).index =
              (a.ring.node n).index :=
            Ring.index_step hs.toPlaced (.Del_Merged hdown hd' hp) (hs.allocated n hmem)
          rw [← hindex] at hget
          obtain ⟨c, hdelete, hlive⟩ := SwarmOrquestrator.exec_deleteNode hd.toWorking hget hy
          have henv := SwarmOrquestrator.deleteNode_environment hd hget hy
          have hx' : x ∈ live a.orquestrator.client := by
            change x ∈ live (exec (SwarmOrquestrator.deleteNode docker _) a.orquestrator).2.client at hx
            rw [hdelete] at hx
            exact (hlive ▸ hx : x ∈ live a.orquestrator.client \ {y}).1
          exact Or.inl ⟨hx', henv x hx'⟩

namespace Configured

theorem step (h : Configured live environment dump stableHash a) (hd : docker.Keeping live environment) {op : Op}
    (hclean : Ring.CleanScaleDown stableHash a.ring op.ringOp)
    (hsplit : Ring.SplitsElsewhere stableHash a.ring op.ringOp) :
    Configured live environment dump stableHash (machine stableHash docker dump op a).2 := by
  have hnext : InStep live stableHash (machine stableHash docker dump op a).2 :=
    h.toInStep.step hd.toWorking hclean hsplit
  refine ⟨hnext, fun r hr x hx hname => ?_⟩
  have hs := h.tracked.toPlaced
  have hring : (machine stableHash docker dump op a).2.ring = _ := ring_machine hs op
  have hstep := Ring.step_machine hs.toSound stableHash op.ringOp
  rw [← hring] at hstep
  rcases h.toInStep.services_after hd hclean hsplit hx with ⟨hx₀, henv⟩ | ⟨n, hn, hxn, henv⟩
  · -- the service ran before, so the node is one of the nodes from before
    obtain ⟨r₀, hr₀, hindex⟩ := h.nodes x hx₀ _ hname
    rcases Ring.mem_step hs hstep hr with hr' | rfl
    · have hallocated := hs.allocated r hr'
      have hkept := Ring.index_step hs hstep hallocated
      have hyml := Ring.field_step Node.prometheusYml (fun _ _ => rfl) hs hstep hallocated
      rw [henv, hyml]
      exact h.environments r hr' x hx₀ (hname.trans (congrArg serviceName hkept))
    · obtain ⟨t, k, u, n, m, hop, hup, hm, hsplit'⟩ := Ring.split_of_new_mem hs hstep hr
      obtain ⟨-, hmem, hs', -⟩ := hs.scaledUp hup hm
      rw [hsplit'] at hindex
      rw [hop] at hsplit
      have hne := hsplit.index_ne h.tracked hup hm r₀ hr₀
      exact absurd (hindex.trans (Ring.index_split_new (hs'.allocated _ hmem))) hne
  · obtain rfl := hnext.indices r hr n hn (serviceName_injective (hname.symm.trans hxn))
    exact henv

theorem start (hd : docker.Keeping live environment) {s₀ : Ring.TreeRing} {o₀ : SwarmOrquestrator δ}
    (ht : Ring.Tracked stableHash s₀) (hnodes : ∀ r, r ∈ s₀.getNodes ↔ r = s₀.nodeZero)
    (hfree : ∀ x ∈ live o₀.client, ∀ i, x.name ≠ serviceName i) :
    Configured live environment dump stableHash (exec (createFirstNode docker dump) ⟨s₀, o₀⟩).2 := by
  refine ⟨InStep.start hd.toWorking ht hnodes hfree, fun r hr x hx hname => ?_⟩
  obtain rfl := (hnodes r).mp hr
  obtain ⟨y, -, henv, hlive, -⟩ := SwarmOrquestrator.createNode_environment dump hd fun x hx =>
    hfree x hx (s₀.node s₀.nodeZero).index
  rcases Set.mem_insert_iff.mp (hlive ▸ hx) with rfl | hx
  · exact henv
  · exact absurd hname (hfree x hx _)

/-- From the start on, the services and their configurations are in step with the nodes. -/
theorem run (hd : docker.Keeping live environment) {args : NodeArgs} (hargs : args.check = .ok ())
    {nodeMinLoad nodeMaxLoad nodeBasePorts : Int} {o₀ : SwarmOrquestrator δ}
    (hfree : ∀ x ∈ live o₀.client, ∀ i, x.name ≠ serviceName i) {ops : List Op}
    (hguard : (machine stableHash docker dump).Guarded
      (fun a op => Ring.CleanScaleDown stableHash a.ring op.ringOp ∧ Ring.SplitsElsewhere stableHash a.ring op.ringOp)
      ops (exec (createFirstNode docker dump)
        ⟨Ring.fresh args hargs nodeMinLoad nodeMaxLoad AbstractDataType.empty nodeBasePorts, o₀⟩).2) :
    let a := (machine stableHash docker dump).run ops (exec (createFirstNode docker dump)
      ⟨Ring.fresh args hargs nodeMinLoad nodeMaxLoad AbstractDataType.empty nodeBasePorts, o₀⟩).2
    Configured live environment dump stableHash a ∧ a.ring.args = args := by
  refine hguard.invariant (fun a => Configured live environment dump stableHash a ∧ a.ring.args = args)
    (fun a op h hop => ?_) ⟨start hd (Ring.Tracked.fresh args hargs nodeMinLoad nodeMaxLoad nodeBasePorts)
      (fun _ => Ring.mem_getNodes_fresh) hfree, rfl⟩
  have hstep := Ring.step_machine h.1.tracked.toSound stableHash op.ringOp
  refine ⟨h.1.step hd hop.1 hop.2, ?_⟩
  rw [ring_machine h.1.tracked.toPlaced, Ring.args_step hstep, h.2]

end Configured

/-! ## Scraping -/

/-- What the containers of a service find around them, apart from the environment of the service. -/
structure Image (σ φ : Type) where
  platform : Platform σ φ
  readFile : φ → String → Option String
  /-- The variables that the image itself sets. -/
  imageEnv : String → String
  hostname : Service → Except String String
  iteration : Service → Iteration
  files : Service → φ

variable (image : Image σ φ)

/-- The surroundings of a container of the service. -/
def Image.surroundings (entries : List String) (x : Service) : Environment :=
  Environment.ofEntries entries image.imageEnv (image.hostname x)

/-- A container of the service, which runs with these entries in its environment, discovers the group in the web
and scrapes it. -/
def Image.Scrapes (web : Web) (entries : List String) (x : Service) (g : TargetGroup) : Prop :=
  ∃ config, prometheusConfig? image.platform image.readFile (image.surroundings entries x) (image.iteration x)
    (image.files x) = some config ∧ g ∈ config.scraped web

variable {web : Web} {url : String} {g : TargetGroup}

/-- The containers of a node's service scrape what the node keeps of the list at the address in its configuration. -/
theorem scrapes_iff {n : Node} {x : Service} (hprovider : n.sdProvider = some "prometheus_ring_sd")
    (hhandles : image.platform.Handles image.readFile dump
      (image.surroundings ["PROMETHEUS_YML=" ++ dump n.prometheusYml] x) n.prometheusYml)
    (hresolved : ¬ (n.prometheusYml.data : Data σ).Unresolved
      (image.surroundings ["PROMETHEUS_YML=" ++ dump n.prometheusYml] x))
    (hurl : replaceString (image.surroundings ["PROMETHEUS_YML=" ++ dump n.prometheusYml] x) n.targetsUrl = .ok url) :
    image.Scrapes web ["PROMETHEUS_YML=" ++ dump n.prometheusYml] x g ↔
      g ∈ web.list url ∧ n.keeps g.labels := by
  have hconfig := hhandles.prometheusConfig?_some (getenv_ofEntries _ _ _) hresolved (image.iteration x)
    (image.files x)
  simp only [Image.Scrapes, hconfig, Option.some.injEq, exists_eq_left']
  rw [Node.mem_scraped_mapStrings hprovider fun v hv => replaced_eq_self hv, replaced, hurl]
  rfl

/-- A node keeps the targets that are assigned to its index. -/
theorem keeps_targetGroup {n m : Node} {t : Target} (hprovider : n.sdProvider = some "prometheus_ring_sd") :
    n.keeps (targetGroup m t).labels ↔ n.index = m.index := by
  rw [Node.keeps_ring_sd hprovider, get?_nodeIndex, Node.parse_index]
  simp only [Option.getD_some, Option.any_some, Regex.fullMatch_literal]
  change m.index.repr.toList = _ ↔ _
  rw [Nat.toList_repr, toDigits_inj, eq_comm]

namespace Configured

variable {r : Ref} {x : Service}

/-- A service of the ring is that of one of its nodes. -/
theorem node_of_service (h : Configured live environment dump stableHash a) (hx : x ∈ live a.orquestrator.client)
    {i : Nat} (hname : x.name = serviceName i) :
    ∃ r ∈ a.ring.getNodes, x.name = serviceName (a.ring.node r).index ∧
      environment a.orquestrator.client x = ["PROMETHEUS_YML=" ++ dump (a.ring.node r).prometheusYml] := by
  obtain ⟨r, hr, rfl⟩ := h.nodes x hx i hname
  exact ⟨r, hr, hname, h.environments r hr x hx hname⟩

variable {image}

/-- The services of the ring scrape the listed groups, each at its node. -/
theorem scrapes_group (h : Configured live environment dump stableHash a)
    (hprovider : a.ring.args.sdProvider = some "prometheus_ring_sd") (hserved : web.list url = a.buildTargetsJson)
    (hcontainers : ∀ r ∈ a.ring.getNodes, ∀ x ∈ live a.orquestrator.client, x.name = serviceName (a.ring.node r).index →
      let env := image.surroundings (environment a.orquestrator.client x) x
      image.platform.Handles image.readFile dump env (a.ring.node r).prometheusYml ∧
        ¬ ((a.ring.node r).prometheusYml.data : Data σ).Unresolved env ∧
        replaceString env a.ring.args.targetsUrl = .ok url)
    (hx : x ∈ live a.orquestrator.client) {i : Nat} (hname : x.name = serviceName i) :
    image.Scrapes web (environment a.orquestrator.client x) x g ↔
      ∃ r ∈ a.ring.getNodes, ∃ k t, (a.ring.node r).get k = some t ∧ g = targetGroup (a.ring.node r) t ∧
        i = (a.ring.node r).index := by
  obtain ⟨r, hr, hrname, henv⟩ := h.node_of_service hx hname
  obtain rfl := serviceName_injective (hname.symm.trans hrname)
  obtain ⟨hhandles, hresolved, hurl⟩ := hcontainers r hr x hx hrname
  have hshared : (a.ring.node r).sdProvider = some "prometheus_ring_sd" :=
    (congrArg NodeArgs.sdProvider (h.tracked.shared r hr)).trans hprovider
  rw [← h.tracked.shared r hr] at hurl
  rw [henv] at hhandles hresolved hurl ⊢
  rw [scrapes_iff image hshared hhandles hresolved hurl, hserved, mem_buildTargetsJson]
  constructor
  · rintro ⟨⟨r', hr', k, t, ht, rfl⟩, hkeeps⟩
    exact ⟨r', hr', k, t, ht, rfl, (keeps_targetGroup hshared).mp hkeeps⟩
  · rintro ⟨r', hr', k, t, ht, rfl, hindex⟩
    exact ⟨⟨r', hr', k, t, ht, rfl⟩, (keeps_targetGroup hshared).mpr hindex⟩

end Configured

/-- On a daemon that works, every registered target is scraped at its address by exactly one of the services of the
ring, and what a service of the ring scrapes is registered. The provider is the ring itself, and the address in the
settings is that of the list of targets; every placeholder in the settings has a value in the containers, no split
repeats the index of the old node and no scale-down drops another node than the one it returns. -/
theorem registered_scraped_once (hd : docker.Keeping live environment) {args : NodeArgs}
    {nodeMinLoad nodeMaxLoad nodeBasePorts : Int} {s₀ : Ring.TreeRing}
    (hinit : Ring.init args nodeMinLoad nodeMaxLoad AbstractDataType.empty nodeBasePorts = .ok s₀)
    (hprovider : args.sdProvider = some "prometheus_ring_sd")
    {o₀ : SwarmOrquestrator δ} (hfree : ∀ x ∈ live o₀.client, ∀ i, x.name ≠ serviceName i) (ops : List Op)
    (hguard : (machine stableHash docker dump).Guarded
      (fun a op => Ring.CleanScaleDown stableHash a.ring op.ringOp ∧
        Ring.SplitsElsewhere stableHash a.ring op.ringOp)
      ops (exec (createFirstNode docker dump) ⟨s₀, o₀⟩).2) :
    let a := (machine stableHash docker dump).run ops (exec (createFirstNode docker dump) ⟨s₀, o₀⟩).2
    let services := {x ∈ live a.orquestrator.client | ∃ i, x.name = serviceName i}
    let entries := environment a.orquestrator.client
    web.list url = a.buildTargetsJson →
    (∀ r ∈ a.ring.getNodes, ∀ x ∈ services, x.name = serviceName (a.ring.node r).index →
      let env := image.surroundings (entries x) x
      image.platform.Handles image.readFile dump env (a.ring.node r).prometheusYml ∧
        ¬ ((a.ring.node r).prometheusYml.data : Data σ).Unresolved env ∧
        replaceString env args.targetsUrl = .ok url) →
    (∀ id t, (exec (Ring.get stableHash id) a.ring).1 = .ok (some t) →
      ∃! x, x ∈ services ∧ ∃ g, image.Scrapes web (entries x) x g ∧
        g.labels.get? "target_id" = some id ∧ g.targets = [t.endpoint]) ∧
    ∀ x ∈ services, ∀ g, image.Scrapes web (entries x) x g →
      ∃ id t, (exec (Ring.get stableHash id) a.ring).1 = .ok (some t) ∧
        g.labels.get? "target_id" = some id ∧ g.targets = [t.endpoint] := by
  intro a services entries hserved hcontainers
  have hkeyed : Keyed stableHash a.ring :=
    (run_keyed hinit (exec (createFirstNode docker dump) ⟨s₀, o₀⟩).2.orquestrator ops).2
  obtain ⟨hargs, rfl⟩ := Ring.init_eq_ok.mp hinit
  obtain ⟨h, hshared⟩ : Configured live environment dump stableHash a ∧ a.ring.args = args :=
    Configured.run hd hargs hfree hguard
  have hs := h.tracked.toPlaced
  rw [← hshared] at hprovider hcontainers
  have hscrapes {x : Service} {i : Nat} (hx : x ∈ services) (hname : x.name = serviceName i) {g : TargetGroup} :
      image.Scrapes web (entries x) x g ↔ ∃ r ∈ a.ring.getNodes, ∃ k t, (a.ring.node r).get k = some t ∧
        g = targetGroup (a.ring.node r) t ∧ i = (a.ring.node r).index :=
    h.scrapes_group hprovider hserved (fun r hr x hx hname => hcontainers r hr x ⟨hx, _, hname⟩ hname) hx.1 hname
  have hget (id : String) (t : Target) : (exec (Ring.get stableHash id) a.ring).1 = .ok (some t) ↔
      a.ring.lookup stableHash id = some t := by
    rw [Ring.exec_get_eq hs]
    cases a.ring.lookup stableHash id <;> simp [Ring.answer]
  constructor
  · intro id t ht
    have hlookup := (hget id t).mp ht
    obtain ⟨r, hr, ht⟩ := hs.lookup_eq_some.mp hlookup
    obtain ⟨x, hx, -, hname⟩ := h.services r hr
    have hid : (targetGroup (a.ring.node r) t).labels.get? "target_id" = some id := by
      rw [get?_targetId, hkeyed id t hlookup]
    refine ⟨x, ⟨⟨hx, _, hname⟩, targetGroup (a.ring.node r) t,
      (hscrapes ⟨hx, _, hname⟩ hname).mpr ⟨r, hr, id, t, ht, rfl, rfl⟩, hid, rfl⟩, ?_⟩
    rintro y ⟨⟨hy, i, hyname⟩, g, hscraped, hgid, -⟩
    obtain ⟨r', hr', k, t', ht', rfl, rfl⟩ := (hscrapes ⟨hy, i, hyname⟩ hyname).mp hscraped
    -- the group has the id of the target, so it is the one stored under it
    have hk : t'.id = k := hkeyed k t' (hs.lookup_eq_some.mpr ⟨r', hr', ht'⟩)
    rw [get?_targetId] at hgid
    obtain rfl : k = id := hk.symm.trans (Option.some.inj hgid)
    have hrr' : r' = r := Option.some.inj ((hs.of_hasKey hr' (Node.hasKey_iff.mpr ⟨t', ht'⟩)).symm.trans
      (hs.of_hasKey hr (Node.hasKey_iff.mpr ⟨t, ht⟩)))
    subst hrr'
    exact h.unique y hy x hx _ hyname hname
  · rintro x ⟨hx, i, hname⟩ g hscraped
    obtain ⟨r, hr, k, t, ht, rfl, -⟩ := (hscrapes ⟨hx, i, hname⟩ hname).mp hscraped
    have hlookup := hs.lookup_eq_some.mpr ⟨r, hr, ht⟩
    exact ⟨k, t, (hget k t).mpr hlookup, by rw [get?_targetId, hkeyed k t hlookup], rfl⟩

deriving instance DecidableEq for NodeArgs

/-- The configuration of a node depends on its arguments and its index. -/
theorem prometheusYml_congr {n m : Node} (hargs : n.toNodeArgs = m.toNodeArgs) (hindex : n.index = m.index) :
    n.prometheusYml = m.prometheusYml := by
  obtain ⟨args, index⟩ := n
  obtain ⟨args', index'⟩ := m
  obtain rfl : args = args' := hargs
  obtain rfl : index = index' := hindex
  rfl

/-- The image of a ring with one node, in whose containers the host name is `host`. -/
def nodeZeroImage : Image Empty (String → Option String) where
  platform := twoTexts nodeZeroDumped nodeZeroWritten
    (.ofEntries ["PROMETHEUS_YML=" ++ nodeZeroDumped] (fun _ => "") (.ok "host")) (ringNode 0).prometheusYml
  readFile files path := files path
  imageEnv _ := ""
  hostname _ := .ok "host"
  iteration _ := alphabetical
  files _ _ := none

theorem registered_scraped_once_a :
    let s₀ : Ring.TreeRing := Ring.fresh (ringNode 0).toNodeArgs (by decide +kernel) 25 75 AbstractDataType.empty 19090
    let dump : Yaml → String := fun _ => nodeZeroDumped
    let docker := Recorded.docker Swarm.docker
    let a := (machine String.length docker dump).run [.registerTarget ⟨"a", "a", "host", 8000⟩]
      (exec (createFirstNode docker dump) ⟨s₀, { client := { daemon := {} } }⟩).2
    let web : Web :=
      { list := fun url => if url = "http://api:9988/targets" then a.buildTargetsJson else [], services := fun _ => [] }
    ∃! x, (x ∈ Swarm.live a.orquestrator.client.daemon ∧ ∃ i, x.name = serviceName i) ∧
      ∃ g, nodeZeroImage.Scrapes web (a.orquestrator.client.environment x) x g ∧
        g.labels.get? "target_id" = some "a" ∧ g.targets = ["host:8000"] := by
  intro s₀ dump docker a web
  have hinit : Ring.init (ringNode 0).toNodeArgs 25 75 AbstractDataType.empty 19090 = .ok s₀ :=
    Ring.init_eq_ok.mpr ⟨by decide +kernel, rfl⟩
  have hrunning : a.orquestrator.client.daemon.running = [⟨"0", "prometheus-0"⟩] := by decide +kernel
  have henv : a.orquestrator.client.environment ⟨"0", "prometheus-0"⟩ = ["PROMETHEUS_YML=" ++ nodeZeroDumped] := by
    decide +kernel
  have hserved : web.list "http://api:9988/targets" = a.buildTargetsJson := by simp only [web, if_true]
  have hnodes : a.ring.getNodes = [0] := by decide +kernel
  have hyml : (a.ring.node 0).prometheusYml = (ringNode 0).prometheusYml :=
    prometheusYml_congr (by decide +kernel) (by decide +kernel)
  refine (registered_scraped_once nodeZeroImage (Recorded.docker_keeping Swarm.docker_working) hinit rfl
    (fun x hx => absurd hx List.not_mem_nil) _ (by decide +kernel) hserved ?_).1 "a" ⟨"a", "a", "host", 8000⟩ ?_
  · rintro r hr x ⟨hx, -⟩ -
    obtain rfl : r = 0 := List.mem_singleton.mp (hnodes ▸ hr)
    obtain rfl : x = ⟨"0", "prometheus-0"⟩ := List.mem_singleton.mp (hrunning ▸ hx)
    change nodeZeroImage.platform.Handles _ _ (nodeZeroImage.surroundings (a.orquestrator.client.environment _) _) _ ∧
      ¬ Data.Unresolved (nodeZeroImage.surroundings (a.orquestrator.client.environment _) _) _ ∧
      replaceString (nodeZeroImage.surroundings (a.orquestrator.client.environment _) _) _ = _
    rw [henv, hyml]
    exact ⟨twoTexts_handles (by decide +kernel) (by decide +kernel) _ _,
      Yaml.resolved_of_hostname rfl (by decide +kernel), by decide +kernel⟩
  · decide +kernel

end PrometheusRing.API
