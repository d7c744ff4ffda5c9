import TieredKVCache.Scheduler.Coverage
import TieredKVCache.VllmAdapter.KvContents

/-!
# A cluster of connectors

Connectors on several nodes share the scheduler of `bindings.cpp`: each puts into its own storage
and registers in the one index, and the scheduler routes by this index. A node is credited with the
keys that its connector has put (`creditOf`). In every run of calls each connector answers as if it
were alone, and a route names the node that is credited with most keys of the prefix among those
that may be chosen; where the storage of a node has room for its keys, a load on this node finds
all that it is credited with (`runCluster_answers`).
-/

namespace TieredKVCache.VllmAdapter

open Lib Storage Scheduler

/-! ## The scheduler of the bindings -/

/-- `PyScheduler`; the id of the tenant is empty. -/
structure PyScheduler (D : Type) where
  config : SchedulerConfig
  index : CrossNodeIndex
  cluster : ClusterState D := ⟨[]⟩

namespace PyScheduler

variable {D : Type} [DoubleArith D]

def route [BEq D] (keys : List BlockKey) (scheduler : PyScheduler D) : NodeId :=
  (Scheduler.route scheduler.config scheduler.index scheduler.cluster ⟨keys, ⟨""⟩⟩).node

/-- The high water mark of the nodes, `0.9`. -/
def highWater : D := DoubleArith.ofSize 9 / DoubleArith.ofSize 10

/-- The cluster that `update_cluster` makes of its argument. -/
def clusterOf (nodes : List (NodeId × Bool × D)) : ClusterState D where
  nodes := nodes.map fun (id, reachable, occupancy) => ⟨id, reachable, occupancy, highWater⟩

def updateCluster (nodes : List (NodeId × Bool × D)) (scheduler : PyScheduler D) : PyScheduler D :=
  { scheduler with cluster := clusterOf nodes }

end PyScheduler

/-! ## The cluster -/

/-- What the connector of a node is made with. -/
structure NodeSetup (D : Type) where
  config : ConnectorConfig
  tiers : TierConfig D

structure Cluster (D : Type) where
  setup : NodeId → NodeSetup D
  scheduler : PyScheduler D
  stores : NodeId → PyTieredStore D

inductive ClusterCall (D : Type) where
  | connector (node : NodeId) (call : ProjectKVConnector.Call)
  | route (keys : List BlockKey)
  | updateCluster (nodes : List (NodeId × Bool × D))

inductive ClusterOutcome where
  | answered (outcome : ProjectKVConnector.Outcome)
  | routed (node : NodeId)
  | updated

namespace Cluster

open ProjectKVConnector

variable {D : Type} [DoubleArith D]

omit [DoubleArith D] in
/-- The connector of a node. -/
def connector (node : NodeId) (cluster : Cluster D) : ProjectKVConnector D where
  config := (cluster.setup node).config
  index := cluster.scheduler.index
  store := cluster.stores node
  selfNode := node

def new (setup : NodeId → NodeSetup D) (config : SchedulerConfig) (hash : BlockKey → UInt64) :
    Cluster D where
  setup
  scheduler := { config, index := .new hash }
  stores node := { tiers := (setup node).tiers }

variable [BEq D]

def runCall (call : ClusterCall D) (cluster : Cluster D) :
    Except Fault (ClusterOutcome × Cluster D) :=
  match call with
  | .connector node call => do
    let (outcome, c) ← ProjectKVConnector.runCall call (cluster.connector node)
    return (.answered outcome, { cluster with
      scheduler := { cluster.scheduler with index := c.index }
      stores := Function.update cluster.stores node c.store })
  | .route keys => .ok (.routed (cluster.scheduler.route keys), cluster)
  | .updateCluster nodes =>
    .ok (.updated, { cluster with scheduler := cluster.scheduler.updateCluster nodes })

def runCalls : List (ClusterCall D) → Cluster D → Except Fault (List ClusterOutcome × Cluster D) :=
  runAll runCall

end Cluster

/-! ## What the calls tell -/

section

variable {D : Type} [DoubleArith D]

open ProjectKVConnector

/-- The puts that the connector of a node has made. -/
def putsAt (setup : NodeId → NodeSetup D) (node : NodeId) (calls : List (ClusterCall D)) :
    List (BlockKey × List UInt8) :=
  calls.flatMap fun
    | .connector node' call => if node' = node then putsOf (setup node).tiers call else []
    | _ => []

def ClusterCall.cluster : ClusterCall D → Option (ClusterState D)
  | .updateCluster nodes => some (PyScheduler.clusterOf nodes)
  | _ => none

/-- The cluster as last updated. -/
def lastNodes (calls : List (ClusterCall D)) : ClusterState D :=
  lastValue ClusterCall.cluster ⟨[]⟩ calls

/-- At how many positions of the prefix there is a key that the node has put. -/
def creditOf (setup : NodeId → NodeSetup D) (calls : List (ClusterCall D)) (keys : List BlockKey)
    (node : NodeId) : Nat :=
  keys.countP fun key => (lastPut (putsAt setup node calls) key).isSome

/-- The node that a route names. -/
structure RouteAnswers [BEq D] (config : SchedulerConfig) (snapshot : ClusterState D)
    (credit : NodeId → Nat) (node : NodeId) : Prop where
  credited : config.prefixReuseEnabled = true →
    (∃ other, Eligible snapshot other ∧ 0 < credit other) →
    Eligible snapshot node ∧ ∀ other, Eligible snapshot other →
      credit other < credit node ∨ credit other = credit node ∧ node ≤ other
  placed : (config.prefixReuseEnabled = true →
      ∀ other, Eligible snapshot other → credit other = 0) → node = choosePlacementNode snapshot

/-- The payloads of the node have one size, and its tiers have room for its keys. -/
def Roomy (setup : NodeId → NodeSetup D) (node : NodeId) (calls : List (ClusterCall D)) : Prop :=
  ∃ size ids, FitsAll (setup node).tiers size ∧ 0 < size ∧
    ids.card ≤ roomFor (setup node).tiers size ∧
    ∀ call, .connector node call ∈ calls → AsksOnly (PutOf size ids) call

/-- What a call of `calls` answers, given those before it. -/
def ClusterAnswers [BEq D] (setup : NodeId → NodeSetup D) (config : SchedulerConfig)
    (calls past : List (ClusterCall D)) : ClusterCall D → ClusterOutcome → Prop
  | .connector node call, .answered outcome =>
    Answers (setup node).config (setup node).tiers (putsAt setup node past) call outcome ∧
      (Roomy setup node calls → LoadsAll (putsAt setup node past) outcome)
  | .route keys, .routed node =>
    RouteAnswers config (lastNodes past) (creditOf setup past keys) node
  | .updateCluster _, .updated => True
  | _, _ => False

variable {setup : NodeId → NodeSetup D} {node : NodeId} {past : List (ClusterCall D)}

theorem putsAt_snoc (call : ClusterCall D) :
    putsAt setup node (past ++ [call]) = putsAt setup node past ++ putsAt setup node [call] := by
  rw [putsAt, List.flatMap_append]
  rfl

theorem putsAt_connector (node' : NodeId) (call : Call) :
    putsAt setup node [.connector node' call] =
      if node' = node then putsOf (setup node).tiers call else [] := by
  rw [putsAt, List.flatMap_singleton]

theorem lastNodes_snoc (call : ClusterCall D) :
    lastNodes (past ++ [call]) = call.cluster.getD (lastNodes past) :=
  lastValue_snoc ClusterCall.cluster ⟨[]⟩ past call

end

/-! ## One node among others -/

namespace ProjectKVConnector

variable {D : Type} [DoubleArith D] {config : ConnectorConfig} {tiers : TierConfig D}
  {P : BlockKey × List UInt8 → Prop}
  {I : List (BlockKey × List UInt8) → ProjectKVConnector D → Prop}

/-- A connector that has registered its own blocks in an index. -/
structure Beside (index : CrossNodeIndex) (node : NodeId) (c : ProjectKVConnector D) : Prop where
  selfNode : c.selfNode = node
  others : ∀ other, other ≠ node → ∀ key,
    other ∈ c.index.lookup key ↔ other ∈ index.lookup key

theorem Preserved.beside (hI : Preserved config tiers P I) (index : CrossNodeIndex)
    (node : NodeId) : Preserved config tiers P fun puts c => I puts c ∧ Beside index node c where
  serves h := hI.serves h.1
  keeps h hkeeps := ⟨hI.keeps h.1 hkeeps, h.2.selfNode, h.2.others⟩
  record keys h := ⟨hI.record keys h.1, h.2.selfNode, h.2.others⟩
  put hput h hfits hputs := by
    refine ⟨hI.put hput h.1 hfits hputs, h.2.selfNode, fun other hne key' => ?_⟩
    rw [CrossNodeIndex.mem_lookup_register, h.2.selfNode, h.2.others other hne]
    split
    next => exact or_iff_right hne
    next => exact Iff.rfl

end ProjectKVConnector

section

variable {D : Type} [DoubleArith D] {setup : NodeId → NodeSetup D} {node : NodeId}
  {past : List (ClusterCall D)}

open ProjectKVConnector

/-- What the calls of a node keep, whatever the other nodes register. -/
structure NodeKept (setup : NodeId → NodeSetup D) (node : NodeId) (calls : List (ClusterCall D))
    (P : BlockKey × List UInt8 → Prop)
    (I : List (BlockKey × List UInt8) → ProjectKVConnector D → Prop) : Prop where
  preserved : Preserved (setup node).config (setup node).tiers P I
  asks : ∀ call, .connector node call ∈ calls → AsksOnly P call
  start : ∀ {c}, Serves (setup node).config (setup node).tiers [] c → I [] c
  reindex : ∀ {puts c} (index : CrossNodeIndex), I puts c →
    (∀ key, c.selfNode ∈ index.lookup key ↔ c.selfNode ∈ c.index.lookup key) →
      I puts { c with index }
  loadsAll : ∀ {puts c outcome}, Roomy setup node calls → I puts c → MissesAbsent c outcome →
    LoadsAll puts outcome

theorem exists_nodeKept (setup : NodeId → NodeSetup D) (calls : List (ClusterCall D))
    (node : NodeId) : ∃ P I, NodeKept setup node calls P I := by
  by_cases hroomy : Roomy setup node calls
  · obtain ⟨size, ids, hfits, hsize, hroom, hasks⟩ := id hroomy
    refine ⟨PutOf size ids, HoldsAll (setup node).config (setup node).tiers size ids,
      holdsAll_preserved _ hfits hsize hroom, hasks, fun h => ?_, fun index h hindex => ?_, ?_⟩
    · exact ⟨h, fun _ hne => absurd rfl hne, fun _ _ hlast => (by cases hlast),
        fun _ hne => absurd rfl hne⟩
    · exact ⟨h.serves.reindex hindex, h.held, h.sizes, h.within⟩
    · exact fun _ h hmisses => h.loadsAll hfits hmisses
  · exact ⟨fun _ => True, Serves (setup node).config (setup node).tiers,
      serves_preserved _ _, fun call _ => asksOnly_true call, id, fun _ h => h.reindex,
      fun h => absurd h hroomy⟩

/-! ## Runs of the cluster -/

variable [BEq D] {config : SchedulerConfig} {calls : List (ClusterCall D)} {cluster : Cluster D}
  {P : NodeId → BlockKey × List UInt8 → Prop}
  {I : NodeId → List (BlockKey × List UInt8) → ProjectKVConnector D → Prop}

/-- The cluster after some calls. -/
structure ClusterKept (setup : NodeId → NodeSetup D) (config : SchedulerConfig)
    (I : NodeId → List (BlockKey × List UInt8) → ProjectKVConnector D → Prop)
    (past : List (ClusterCall D)) (cluster : Cluster D) : Prop where
  setup_eq : cluster.setup = setup
  config_eq : cluster.scheduler.config = config
  cluster_eq : cluster.scheduler.cluster = lastNodes past
  nodes : ∀ node, I node (putsAt setup node past) (cluster.connector node)

omit [BEq D] in
theorem ClusterKept.new (hI : ∀ node, NodeKept setup node calls (P node) (I node))
    (config : SchedulerConfig) (hash : BlockKey → UInt64) :
    ClusterKept setup config I [] (Cluster.new setup config hash) where
  setup_eq := rfl
  config_eq := rfl
  cluster_eq := rfl
  nodes node := (hI node).start (serves_connect (setup node).config (setup node).tiers hash node)

omit [BEq D] in
/-- The index covers of a prefix what the node is credited with. -/
theorem ClusterKept.coverageOf_eq (h : ClusterKept setup config I past cluster)
    (hI : ∀ node, NodeKept setup node calls (P node) (I node)) (keys : List BlockKey)
    (node : NodeId) :
    coverageOf cluster.scheduler.index keys node = creditOf setup past keys node := by
  refine List.countP_congr fun key _ => ?_
  have hlisted := ((hI node).preserved.serves (h.nodes node)).listed key
  rw [decide_eq_true_iff, Option.isSome_iff_ne_none]
  exact hlisted

theorem ClusterKept.routeAnswers (h : ClusterKept setup config I past cluster)
    (hI : ∀ node, NodeKept setup node calls (P node) (I node)) (keys : List BlockKey) :
    RouteAnswers config (lastNodes past) (creditOf setup past keys)
      (cluster.scheduler.route keys) := by
  have hcredit := h.coverageOf_eq hI keys
  have hoptimal := route_optimal cluster.scheduler.index (lastNodes past)
  rw [PyScheduler.route, h.config_eq, h.cluster_eq]
  refine ⟨fun henabled hcovered => ?_, fun hnone => ?_⟩
  · simp only [← hcredit] at hcovered ⊢
    obtain ⟨node, hmost, -, hroute⟩ := hoptimal.covered config henabled ⟨keys, ⟨""⟩⟩ hcovered
    rw [hroute]
    exact hmost
  · cases henabled : config.prefixReuseEnabled with
    | false =>
      rw [Scheduler.route, henabled, Bool.false_and]
      rfl
    | true =>
      rw [hoptimal.uncovered config henabled]
      rintro ⟨other, heligible, hcovers⟩
      have hzero := hnone henabled other heligible
      rw [← hcredit] at hzero
      exact absurd hzero hcovers.ne'

omit [BEq D] in
theorem ClusterKept.connector (h : ClusterKept setup config I past cluster)
    (hI : ∀ node, NodeKept setup node calls (P node) (I node)) (node : NodeId)
    {call : ProjectKVConnector.Call} {c : ProjectKVConnector D}
    (hlast : I node (putsAt setup node past ++ putsOf (setup node).tiers call) c)
    (hbeside : Beside cluster.scheduler.index node c) :
    ClusterKept setup config I (past ++ [.connector node call]) { cluster with
      scheduler := { cluster.scheduler with index := c.index }
      stores := Function.update cluster.stores node c.store } := by
  refine ⟨h.setup_eq, h.config_eq, ?_, fun other => ?_⟩
  · rw [lastNodes_snoc]
    exact h.cluster_eq
  · rw [putsAt_snoc, putsAt_connector]
    by_cases heq : node = other
    · subst heq
      have hconfig := ((hI node).preserved.serves hlast).config
      have hself := hbeside.selfNode
      rw [if_pos rfl]
      convert hlast using 1
      unfold Cluster.connector
      dsimp only
      rw [Function.update_self, h.setup_eq, ← hconfig, ← hself]
    · rw [if_neg heq, List.append_nil]
      have hother := (hI other).reindex c.index (h.nodes other)
        fun key => hbeside.others other (Ne.symm heq) key
      unfold Cluster.connector at hother ⊢
      dsimp only at hother ⊢
      rwa [Function.update_of_ne (Ne.symm heq)]

theorem ClusterKept.runCall (h : ClusterKept setup config I past cluster)
    (hI : ∀ node, NodeKept setup node calls (P node) (I node)) (call : ClusterCall D)
    (hcall : call ∈ calls) : Returns (Cluster.runCall call cluster) fun r =>
      ClusterKept setup config I (past ++ [call]) r.2 ∧
        ClusterAnswers setup config calls past call r.1 := by
  cases call with
  | connector node call =>
    have hbeside : Beside cluster.scheduler.index node (cluster.connector node) :=
      ⟨rfl, fun _ _ _ => Iff.rfl⟩
    apply (((hI node).preserved.beside cluster.scheduler.index node).runCall call
      ((hI node).asks call hcall) ⟨h.nodes node, hbeside⟩).bind
    rintro r ⟨⟨hlast, hbeside⟩, hanswer, hmisses⟩
    refine returns_ok ⟨h.connector hI node hlast hbeside, hanswer, fun hroomy => ?_⟩
    exact (hI node).loadsAll hroomy (h.nodes node) hmisses
  | route keys =>
    refine returns_ok ⟨⟨h.setup_eq, h.config_eq, ?_, fun node => ?_⟩, h.routeAnswers hI keys⟩
    · rw [lastNodes_snoc]
      exact h.cluster_eq
    · rw [putsAt_snoc]
      exact (List.append_nil (putsAt setup node past)).symm ▸ h.nodes node
  | updateCluster nodes =>
    refine returns_ok ⟨⟨h.setup_eq, h.config_eq, ?_, fun node => ?_⟩, trivial⟩
    · rw [lastNodes_snoc]
      rfl
    · rw [putsAt_snoc]
      exact (List.append_nil (putsAt setup node past)).symm ▸ h.nodes node

/-- **Answers of a cluster.** In every run of calls on connectors that share a scheduler, each
connector answers by its own puts, and a route names the node that is credited with most keys of
the prefix among those that may be chosen, or is a placement where none is credited. Where the
tiers of a node have room for its keys, its loads find every key that it is credited with. -/
theorem runCluster_answers (setup : NodeId → NodeSetup D) (config : SchedulerConfig)
    (hash : BlockKey → UInt64) (calls : List (ClusterCall D)) :
    Returns (Cluster.runCalls calls (.new setup config hash)) fun r =>
      AtEachCall (ClusterAnswers setup config calls) [] calls r.1 := by
  choose P I hI using exists_nodeKept setup calls
  have hrun := runAll_invariant (I := ClusterKept setup config I)
    (P := ClusterAnswers setup config calls) (fun call hcall h => h.runCall hI call hcall)
    calls (List.Subset.refl calls) (ClusterKept.new hI config hash)
  exact hrun.mono fun r hr => hr.2

end

end TieredKVCache.VllmAdapter
