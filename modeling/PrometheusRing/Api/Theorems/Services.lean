import PrometheusRing.Api.Lemmas.Calls
import PrometheusRing.Orquestrator.Lemmas.Services
import PrometheusRing.Ring.Lemmas.Hashes
import PrometheusRing.Ring.Theorems.Tree

/-!
# Services and nodes

On a daemon that works, one service runs for each node of the ring, as long as no split repeats the index of
the old node and no scale-down drops another node than the one it returns.
-/

namespace PrometheusRing

open Effect

namespace Ring

variable (stableHash : String → Nat)

/-- The tree node found under the index of a node that is scaled down has at most one child. -/
def CleanScaleDown (s : TreeRing) : Op → Prop
  | .delete key => ∀ n ∈ s.scaledDown stableHash key, s.ring.HasTwoChildren (s.node n).index = false
  | _ => True

instance (s : TreeRing) : DecidablePred (CleanScaleDown stableHash s)
  | .insert _ _ _ => inferInstanceAs (Decidable True)
  | .update _ _ => inferInstanceAs (Decidable True)
  | .delete _ => inferInstanceAs (Decidable (∀ n ∈ _, _))

/-- The keys of an overloaded node hash, on average, to one above its index or more. -/
def SplitsElsewhere (s : TreeRing) : Op → Prop
  | .insert target key uuid4 => ∀ n ∈ s.scaledUp stableHash (key.getD uuid4) target,
      let hashes := ((s.node n).insert (key.getD uuid4) target).hashes stableHash
      ((s.node n).index + 1) * hashes.length ≤ hashes.sum
  | _ => True

instance (s : TreeRing) : DecidablePred (SplitsElsewhere stableHash s)
  | .insert _ _ _ => inferInstanceAs (Decidable (∀ n ∈ _, _))
  | .update _ _ => inferInstanceAs (Decidable True)
  | .delete _ => inferInstanceAs (Decidable True)

variable {stableHash} {s : TreeRing} {op : Op} {n r : Ref} {m : Nat} {t : Target} {k : Option String}
  {u : String}

theorem CleanScaleDown.cleanMerge (h : CleanScaleDown stableHash s op) : CleanMerge stableHash s op := by
  rintro key n rfl hn
  exact h n hn

/-- A split takes no node out of the tree, not even one under the same key. -/
theorem mem_getNodes_split (hs : Placed stableHash s) :
    r ∈ (s.split stableHash n m).getNodes ↔ r ∈ s.getNodes ∨ r = s.heap.next := by
  constructor
  · exact fun hr => (hs.mem_of_mem_split hr).symm
  · intro hr
    refine (Routing.mem_list (Routing.valid_insert m hs.valid hs.new_notMem)).mpr ?_
    rcases hr with hr | rfl
    · obtain ⟨i, hi⟩ := (Routing.mem_list hs.valid).mp hr
      exact ⟨i, (hs.valid.mem_insert _).mpr (Or.inr hi)⟩
    · exact ⟨m, Routing.entry_insert_self m hs.valid⟩

theorem SplitsElsewhere.index_ne (h : SplitsElsewhere stableHash s (.insert t k u)) (hs : Tracked stableHash s)
    (hup : s.scaledUp stableHash (k.getD u) t = some n)
    (hm : ((s.node n).insert (k.getD u) t).calcMidHash stableHash = .ok m) :
    ∀ r ∈ s.getNodes, (s.node r).index ≠ m := by
  intro r hr hrm
  obtain ⟨-, -, -, hmid⟩ := hs.toPlaced.scaledUp hup hm
  have hn : (s.node n).index = m := hs.index_of_mid hmid hr hrm
  obtain ⟨hne, hmean⟩ := Node.calcMidHash_eq_ok.mp hm
  have hlt := (Mean.mean_lt_iff hne).mp (hmean.trans_lt (Nat.lt_succ_self m))
  have hge := h n hup
  rw [hn] at hge
  exact absurd hge (not_le.mpr hlt)

end Ring

namespace API

variable {δ : Type} {stableHash : String → Nat} {docker : Docker δ} {dump : Yaml → String}
  {live : δ → Set Service} {a : API (BinarySearchTree Nat Ref) δ} {s' : Ring.TreeRing}

/-- The node has a service of its name, and the orchestrator has the service under the node's index. -/
def HasService (live : δ → Set Service) (o : SwarmOrquestrator δ) (node : Node) : Prop :=
  ∃ x ∈ live o.client, o.services.get? node.index = some x ∧ x.name = serviceName node.index

/-- Every node has its service, and every service with a name of the ring's is that of one node. -/
structure InStep (live : δ → Set Service) (stableHash : String → Nat) (a : API (BinarySearchTree Nat Ref) δ) :
    Prop where
  tracked : Ring.Tracked stableHash a.ring
  indices : a.ring.DistinctIndices
  services : ∀ r ∈ a.ring.getNodes, HasService live a.orquestrator (a.ring.node r)
  nodes : ∀ x ∈ live a.orquestrator.client, ∀ i, x.name = serviceName i →
    ∃ r ∈ a.ring.getNodes, (a.ring.node r).index = i
  unique : ∀ x ∈ live a.orquestrator.client, ∀ y ∈ live a.orquestrator.client, ∀ i,
    x.name = serviceName i → y.name = serviceName i → x = y

namespace InStep

theorem frame (h : InStep live stableHash a) (ht : Ring.Tracked stableHash s') (hi : s'.DistinctIndices)
    (hnodes : s'.getNodes = a.ring.getNodes)
    (hindex : ∀ r ∈ a.ring.getNodes, (s'.node r).index = (a.ring.node r).index) :
    InStep live stableHash ⟨s', a.orquestrator⟩ where
  tracked := ht
  indices := hi
  services r hr := by
    rw [hnodes] at hr
    have hservice := h.services r hr
    unfold HasService at hservice ⊢
    rw [hindex r hr]
    exact hservice
  nodes x hx i hname := by
    obtain ⟨r, hr, hri⟩ := h.nodes x hx i hname
    exact ⟨r, hnodes ▸ hr, (hindex r hr).trans hri⟩
  unique := h.unique

theorem created (h : InStep live stableHash a) (hd : docker.Working live) (ht : Ring.Tracked stableHash s')
    (hi : s'.DistinctIndices) {n : Ref} (hnodes : ∀ r, r ∈ s'.getNodes ↔ r ∈ a.ring.getNodes ∨ r = n)
    (hindex : ∀ r ∈ a.ring.getNodes, (s'.node r).index = (a.ring.node r).index)
    (hnew : ∀ r ∈ a.ring.getNodes, (a.ring.node r).index ≠ (s'.node n).index) :
    InStep live stableHash
      ⟨s', (exec (SwarmOrquestrator.createNode docker dump (s'.node n)) a.orquestrator).2⟩ := by
  have hname : ∀ x ∈ live a.orquestrator.client, x.name ≠ serviceName (s'.node n).index := by
    intro x hx he
    obtain ⟨r, hr, hri⟩ := h.nodes x hx _ he
    exact hnew r hr hri
  obtain ⟨y, c, hcreate, hy, hc⟩ := SwarmOrquestrator.exec_createNode dump hd hname
  rw [hcreate]
  refine { tracked := ht, indices := hi, services := ?_, nodes := ?_, unique := ?_ }
  · intro r hr
    rcases (hnodes r).mp hr with hr | rfl
    · obtain ⟨x, hx, hget, hxname⟩ := h.services r hr
      unfold HasService
      rw [hindex r hr]
      refine ⟨x, hc ▸ Set.mem_insert_of_mem y hx, ?_, hxname⟩
      rw [Dict.get?_set, if_neg (hnew r hr), hget]
    · exact ⟨y, hc ▸ Set.mem_insert y _, by rw [Dict.get?_set, if_pos rfl], hy⟩
  · intro x hx i hxname
    change x ∈ live c at hx
    rw [hc] at hx
    rcases Set.mem_insert_iff.mp hx with rfl | hx
    · exact ⟨n, (hnodes n).mpr (Or.inr rfl), serviceName_injective (hy.symm.trans hxname)⟩
    · obtain ⟨r, hr, hri⟩ := h.nodes x hx i hxname
      exact ⟨r, (hnodes r).mpr (Or.inl hr), (hindex r hr).trans hri⟩
  · intro x hx z hz i hxname hzname
    change x ∈ live c at hx
    change z ∈ live c at hz
    rw [hc] at hx hz
    rcases Set.mem_insert_iff.mp hx with rfl | hx'
    · rcases Set.mem_insert_iff.mp hz with rfl | hz'
      · rfl
      · exact absurd (hzname.trans (hxname.symm.trans hy)) (hname z hz')
    · rcases Set.mem_insert_iff.mp hz with rfl | hz'
      · exact absurd (hxname.trans (hzname.symm.trans hy)) (hname x hx')
      · exact h.unique x hx' z hz' i hxname hzname

theorem deleted (h : InStep live stableHash a) (hd : docker.Working live) (ht : Ring.Tracked stableHash s')
    (hi : s'.DistinctIndices) {n : Ref} (hn : n ∈ a.ring.getNodes)
    (hnodes : ∀ r, r ∈ s'.getNodes ↔ r ∈ a.ring.getNodes ∧ r ≠ n)
    (hindex : ∀ r ∈ a.ring.getNodes, (s'.node r).index = (a.ring.node r).index) :
    InStep live stableHash
      ⟨s', (exec (SwarmOrquestrator.deleteNode docker (s'.node n)) a.orquestrator).2⟩ := by
  obtain ⟨y, hy, hget, hyname⟩ := h.services n hn
  rw [← hindex n hn] at hget
  obtain ⟨c, hdelete, hc⟩ := SwarmOrquestrator.exec_deleteNode hd hget hy
  rw [hdelete]
  refine { tracked := ht, indices := hi, services := ?_, nodes := ?_, unique := ?_ }
  · intro r hr
    obtain ⟨hr, hrn⟩ := (hnodes r).mp hr
    obtain ⟨x, hx, hget, hxname⟩ := h.services r hr
    have hxy : x ≠ y := by
      rintro rfl
      exact hrn (h.indices r hr n hn (serviceName_injective (hxname.symm.trans hyname)))
    unfold HasService
    rw [hindex r hr]
    exact ⟨x, hc ▸ ⟨hx, hxy⟩, hget, hxname⟩
  · intro x hx i hxname
    change x ∈ live c at hx
    rw [hc] at hx
    obtain ⟨r, hr, hri⟩ := h.nodes x hx.1 i hxname
    refine ⟨r, (hnodes r).mpr ⟨hr, ?_⟩, (hindex r hr).trans hri⟩
    rintro rfl
    exact hx.2 (h.unique x hx.1 y hy i hxname (hyname.trans (congrArg serviceName hri)))
  · intro x hx z hz i hxname hzname
    change x ∈ live c at hx
    change z ∈ live c at hz
    rw [hc] at hx hz
    exact h.unique x hx.1 z hz.1 i hxname hzname

theorem step (h : InStep live stableHash a) (hd : docker.Working live) {op : Op}
    (hclean : Ring.CleanScaleDown stableHash a.ring op.ringOp)
    (hsplit : Ring.SplitsElsewhere stableHash a.ring op.ringOp) :
    InStep live stableHash (machine stableHash docker dump op a).2 := by
  have hs := h.tracked
  have hstep := Ring.step_machine hs.toSound stableHash op.ringOp
  have hcall : machine stableHash docker dump op a = _ := exec_call hs.toPlaced op Prod.mk.eta.symm
  rw [hcall]
  generalize (Ring.machine stableHash op.ringOp a.ring).1 = o at hstep ⊢
  generalize (Ring.machine stableHash op.ringOp a.ring).2 = s' at hstep ⊢
  have ht := hs.step hclean.cleanMerge hstep
  have hi : s'.DistinctIndices := by
    refine h.indices.step hs.toPlaced hstep ?_
    intro t k u n m hop hup hm
    rw [hop] at hsplit
    exact hsplit.index_ne hs hup hm
  have hindex : ∀ r ∈ a.ring.getNodes, (s'.node r).index = (a.ring.node r).index := fun r hr =>
    Ring.index_step hs.toPlaced hstep (hs.allocated r hr)
  cases op with
  | registerTarget target =>
      cases hstep with
      | Ins_Exists | Ins_NoCapacity | Ins_Stored => exact h.frame ht hi rfl hindex
      | Ins_Split hkey hup hm =>
          subst hkey
          obtain ⟨-, hmem, hs', -⟩ := hs.toPlaced.scaledUp hup hm
          refine h.created hd ht hi (fun r => Ring.mem_getNodes_split hs') hindex fun r hr he => ?_
          exact hsplit.index_ne hs hup hm r hr (he.trans (Ring.index_split_new (hs'.allocated _ hmem)))
  | unregisterTarget targetId =>
      cases hstep with
      | Del_Missing | Del_NoCapacity | Del_Kept | Del_Untracked | Del_NoPrior => exact h.frame ht hi rfl hindex
      | @Del_Merged _ n d p hdown hd' hp =>
          have hmem := Routing.owner_mem hs.valid (Ring.scaledDown_eq_some.mp hdown).1
          have hd'' := Routing.entry_of_search hs.valid hd'
          obtain rfl : d = n := h.indices d (hs.mem hd'') n hmem (hs.indexed _ d hd'')
          exact h.deleted hd ht hi hmem
            (fun r => Routing.mem_list_remove hs.valid (hclean.cleanMerge _ _ rfl hdown) hd' hp) hindex

theorem start (hd : docker.Working live) {s₀ : Ring.TreeRing} {o₀ : SwarmOrquestrator δ}
    (ht : Ring.Tracked stableHash s₀) (hnodes : ∀ r, r ∈ s₀.getNodes ↔ r = s₀.nodeZero)
    (hfree : ∀ x ∈ live o₀.client, ∀ i, x.name ≠ serviceName i) :
    InStep live stableHash (exec (createFirstNode docker dump) ⟨s₀, o₀⟩).2 := by
  obtain ⟨y, c, hcreate, hy, hc⟩ := SwarmOrquestrator.exec_createNode dump hd fun x hx =>
    hfree x hx (s₀.node s₀.nodeZero).index
  have hexec : exec (createFirstNode docker dump) ⟨s₀, o₀⟩ =
      ((exec (SwarmOrquestrator.createNode docker dump (s₀.node s₀.nodeZero)) o₀).1,
        ⟨s₀, (exec (SwarmOrquestrator.createNode docker dump (s₀.node s₀.nodeZero)) o₀).2⟩) := rfl
  rw [hexec, hcreate]
  have hown : ∀ x ∈ live c, ∀ i, x.name = serviceName i → x = y := by
    intro x hx i hname
    rw [hc] at hx
    exact (Set.mem_insert_iff.mp hx).resolve_right fun hx => hfree x hx i hname
  refine { tracked := ht, indices := ?_, services := ?_, nodes := ?_, unique := ?_ }
  · intro r hr r' hr' _
    exact ((hnodes r).mp hr).trans ((hnodes r').mp hr').symm
  · intro r hr
    obtain rfl := (hnodes r).mp hr
    exact ⟨y, hc ▸ Set.mem_insert y _, by rw [Dict.get?_set, if_pos rfl], hy⟩
  · intro x hx i hname
    obtain rfl := hown x hx i hname
    exact ⟨s₀.nodeZero, (hnodes _).mpr rfl, serviceName_injective (hy.symm.trans hname)⟩
  · intro x hx z hz i hname hname'
    exact (hown x hx i hname).trans (hown z hz i hname').symm

end InStep

/-- After every call, the services with a name of the ring's are those of the indices of its nodes, and each
node has one of its own. -/
theorem services_in_step (hd : docker.Working live) {args : NodeArgs}
    {nodeMinLoad nodeMaxLoad nodeBasePorts : Int} {s₀ : Ring.TreeRing}
    (hinit : Ring.init args nodeMinLoad nodeMaxLoad AbstractDataType.empty nodeBasePorts = .ok s₀)
    {o₀ : SwarmOrquestrator δ} (hfree : ∀ x ∈ live o₀.client, ∀ i, x.name ≠ serviceName i) (ops : List Op)
    (hguard : (machine stableHash docker dump).Guarded
      (fun a op => Ring.CleanScaleDown stableHash a.ring op.ringOp ∧
        Ring.SplitsElsewhere stableHash a.ring op.ringOp)
      ops (exec (createFirstNode docker dump) ⟨s₀, o₀⟩).2) :
    let a := (machine stableHash docker dump).run ops (exec (createFirstNode docker dump) ⟨s₀, o₀⟩).2
    (∀ i, (∃ x ∈ live a.orquestrator.client, x.name = serviceName i) ↔
        ∃ r ∈ a.ring.getNodes, (a.ring.node r).index = i) ∧
      (∀ r ∈ a.ring.getNodes,
        ∃! x, x ∈ live a.orquestrator.client ∧ x.name = serviceName (a.ring.node r).index) ∧
      (a.ring.getNodes.map fun r => (a.ring.node r).index).Nodup := by
  intro a
  obtain ⟨hargs, rfl⟩ := Ring.init_eq_ok.mp hinit
  have h : InStep live stableHash a := hguard.invariant (InStep live stableHash)
    (fun a op h hop => h.step hd hop.1 hop.2)
    (InStep.start hd (Ring.Tracked.fresh args hargs nodeMinLoad nodeMaxLoad nodeBasePorts)
      (fun _ => Ring.mem_getNodes_fresh) hfree)
  refine ⟨fun i => ⟨?_, ?_⟩, fun r hr => ?_, h.indices.nodup h.tracked.toPlaced⟩
  · rintro ⟨x, hx, hname⟩
    exact h.nodes x hx i hname
  · rintro ⟨r, hr, rfl⟩
    obtain ⟨x, hx, -, hname⟩ := h.services r hr
    exact ⟨x, hx, hname⟩
  · obtain ⟨x, hx, -, hname⟩ := h.services r hr
    exact ⟨x, ⟨hx, hname⟩, fun y hy => h.unique y hy.1 x hx _ hy.2 hname⟩

theorem services_in_step_default :
    let register (id : String) : Op := .registerTarget ⟨id, id, "host", 8000⟩
    let a := (machine String.length Swarm.docker fun _ => "").run
      [register "", register "bbbb", register "cc", .unregisterTarget "bbbb"]
      (exec (createFirstNode Swarm.docker fun _ => "")
        ⟨Settings.freshRing (BinarySearchTree Nat Ref), { client := {} }⟩).2
    ∃ x ∈ a.orquestrator.client.running, x.name = "prometheus-2" :=
  ((services_in_step Swarm.docker_working (Settings.ring_default _) (fun x hx => absurd hx List.not_mem_nil) _
    (by decide +kernel)).1 2).mpr ⟨1, by decide +kernel, by decide +kernel⟩

/-- Unregistering `b` scales down node 50, whose tree node has two children: its service is removed, but the
node that leaves the tree is 140. -/
theorem scale_down_removes_other_service :
    let register (id : String) : Op := .registerTarget ⟨id, id, "host", 8000⟩
    let a := (machine (tableHash [("a", 0), ("b", 100), ("c", 20), ("d", 180)]) Swarm.docker fun _ => "").run
      [register "a", register "b", register "c", register "d", .unregisterTarget "b"]
      (exec (createFirstNode Swarm.docker fun _ => "")
        ⟨Settings.freshRing (BinarySearchTree Nat Ref), { client := {} }⟩).2
    a.ring.getNodes.map (fun r => (a.ring.node r).index) = [0, 10, 50] ∧
      a.orquestrator.client.running.map Service.name = ["prometheus-140", "prometheus-10", "prometheus-0"] := by
  decide +kernel

end API

end PrometheusRing
