import TieredKVCache.Core.Double
import TieredKVCache.Scheduler.FairShare
import TieredKVCache.Scheduler.NodeIndex

/-!
# Routing and failover

`Route`, `ChoosePlacementNode` and `ResolveOnFailure` of `scheduler.cpp`. They decide on a snapshot
of the cluster and on the index. A holder that the snapshot does not list counts as reachable for
`route` and as lost for `resolveOnFailure`: so the two agree on the holders that are listed
(`decisions_sound`).
-/

namespace TieredKVCache.Scheduler

open Lib

/-- The occupancy at or above which a node is overloaded is a parameter of the node. -/
structure NodeState (D : Type) where
  id : NodeId
  reachable : Bool
  occupancyRatio : D
  highWaterRatio : D

structure ClusterState (D : Type) where
  nodes : List (NodeState D)

structure Request where
  prefixKeys : List BlockKey
  tenant : TenantId

structure RouteDecision where
  node : NodeId
  reusePrefix : Bool
  recompute : Bool
deriving DecidableEq, Repr

structure SchedulerConfig where
  prefixReuseEnabled : Bool := true

/-! ## Choosing a node -/

section

variable {D : Type} [DoubleArith D] [BEq D]

/-- `Overloaded`. -/
def NodeState.overloaded (node : NodeState D) : Bool :=
  decide (node.highWaterRatio ≤ node.occupancyRatio)

/-- The comparison of `PickLeastLoaded`: equal occupancy leaves it to the order of the ids. -/
def NodeState.lighter (node best : NodeState D) : Bool :=
  decide (node.occupancyRatio < best.occupancyRatio) ||
    (node.occupancyRatio == best.occupancyRatio && decide (node.id < best.id))

/-- A step of the loop of `PickLeastLoaded`. -/
def pickStep (best : Option (NodeState D)) (node : NodeState D) : Option (NodeState D) :=
  match best with
  | none => some node
  | some best => if node.lighter best then some node else some best

def pickLeastLoaded (nodes : List (NodeState D)) : Option (NodeState D) :=
  nodes.foldl pickStep none

/-- Without a reachable node the answer is the empty id. -/
def choosePlacementNode (state : ClusterState D) : NodeId :=
  let reachable := state.nodes.filter fun node => node.reachable
  let belowWater := reachable.filter fun node => !node.overloaded
  match pickLeastLoaded (if belowWater = [] then reachable else belowWater) with
  | none => {}
  | some chosen => chosen.id

/-! ## The decisions -/

/-- The first entry of the snapshot for a node. -/
def ClusterState.find (state : ClusterState D) (node : NodeId) : Option (NodeState D) :=
  state.nodes.find? fun entry => decide (entry.id = node)

/-- `coverage[node] += 1`. -/
def countNode (coverage : AList fun _ : NodeId => Nat) (node : NodeId) :
    AList fun _ : NodeId => Nat :=
  coverage.insert node ((coverage.lookup node).getD 0 + 1)

/-- How many of the keys each node holds. -/
def coverage (index : CrossNodeIndex) (prefixKeys : List BlockKey) : AList fun _ : NodeId => Nat :=
  prefixKeys.foldl (fun coverage key => (index.lookup key).foldl countNode coverage) ∅

/-- What `Route` asks of a holder: the snapshot does not list it, or lists it as reachable. -/
def ClusterState.presumes (snapshot : ClusterState D) (node : NodeId) : Bool :=
  match snapshot.find node with
  | none => true
  | some state => state.reachable

/-- What `ResolveOnFailure` asks of a holder: the snapshot lists it as reachable. -/
def ClusterState.lists (snapshot : ClusterState D) (node : NodeId) : Bool :=
  match snapshot.find node with
  | none => false
  | some state => state.reachable

/-- A step of the loop over the coverage. -/
def bestStep (snapshot : ClusterState D) (best : Option NodeId × Nat) (entry : NodeId × Nat) :
    Option NodeId × Nat :=
  if snapshot.presumes entry.1 && decide (entry.2 > best.2) then (some entry.1, entry.2) else best

/-- The first of the nodes with the largest count among those that `Route` may choose. -/
def bestHolder (snapshot : ClusterState D) (entries : List (NodeId × Nat)) : Option NodeId :=
  (entries.foldl (bestStep snapshot) (none, 0)).1

def route (config : SchedulerConfig) (index : CrossNodeIndex) (snapshot : ClusterState D)
    (req : Request) : RouteDecision :=
  let best :=
    if config.prefixReuseEnabled && !req.prefixKeys.isEmpty then
      bestHolder snapshot (inOrder (coverage index req.prefixKeys))
    else none
  match best with
  | some best => { node := best, reusePrefix := true, recompute := false }
  | none => { node := choosePlacementNode snapshot, reusePrefix := false, recompute := false }

def resolveOnFailure (index : CrossNodeIndex) (key : BlockKey) (state : ClusterState D) :
    RouteDecision :=
  let reachableHolders := (index.lookup key).filterMap fun holder =>
    match state.find holder with
    | none => none
    | some entry => if entry.reachable then some entry else none
  match pickLeastLoaded reachableHolders with
  | none => { node := {}, reusePrefix := false, recompute := true }
  | some chosen => { node := chosen.id, reusePrefix := true, recompute := false }

/-! ## What the choices guarantee -/

private theorem foldl_pickStep (nodes : List (NodeState D)) (best : NodeState D) :
    ∃ node, nodes.foldl pickStep (some best) = some node ∧ (node = best ∨ node ∈ nodes) := by
  induction nodes generalizing best with
  | nil => exact ⟨best, rfl, .inl rfl⟩
  | cons node nodes ih =>
    rw [List.foldl_cons, pickStep]
    split
    · obtain ⟨chosen, hrun, hchosen⟩ := ih node
      refine ⟨chosen, hrun, .inr ?_⟩
      rcases hchosen with rfl | hmem
      · exact List.mem_cons_self
      · exact List.mem_cons_of_mem _ hmem
    · obtain ⟨chosen, hrun, hchosen⟩ := ih best
      exact ⟨chosen, hrun, hchosen.imp_right (List.mem_cons_of_mem _)⟩

/-- A node is chosen among those on offer, unless there is none. -/
theorem pickLeastLoaded_spec (nodes : List (NodeState D)) :
    (nodes = [] ∧ pickLeastLoaded nodes = none) ∨
      ∃ node ∈ nodes, pickLeastLoaded nodes = some node := by
  cases nodes with
  | nil => exact .inl ⟨rfl, rfl⟩
  | cons first nodes =>
    obtain ⟨node, hrun, hnode⟩ := foldl_pickStep nodes first
    refine .inr ⟨node, ?_, hrun⟩
    rcases hnode with rfl | hmem
    · exact List.mem_cons_self
    · exact List.mem_cons_of_mem _ hmem

/-- A placement is a reachable node, or the empty id where no node is reachable. -/
theorem choosePlacementNode_spec (state : ClusterState D) :
    (∃ node ∈ state.nodes, node.reachable = true ∧ choosePlacementNode state = node.id) ∨
      (∀ node ∈ state.nodes, node.reachable = false) ∧ choosePlacementNode state = {} := by
  unfold choosePlacementNode
  extract_lets reachable belowWater
  have hsub : ∀ node ∈ if belowWater = [] then reachable else belowWater, node ∈ reachable := by
    intro node hmem
    split at hmem
    · exact hmem
    · exact (List.mem_filter.mp hmem).1
  rcases pickLeastLoaded_spec (if belowWater = [] then reachable else belowWater) with
    ⟨hempty, hrun⟩ | ⟨node, hmem, hrun⟩
  · rw [hrun]
    refine .inr ⟨fun node hnode => ?_, rfl⟩
    have hnone : reachable = [] := by
      split at hempty
      next => exact hempty
      next hbelow => exact absurd hempty hbelow
    simpa using List.filter_eq_nil_iff.mp hnone node hnode
  · rw [hrun]
    obtain ⟨hnode, hreachable⟩ := List.mem_filter.mp (hsub node hmem)
    exact .inl ⟨node, hnode, hreachable, rfl⟩

end

section

variable {D : Type}

theorem mem_foldl_countNode {nodes : List NodeId} {counts : AList fun _ : NodeId => Nat}
    {node : NodeId} : node ∈ nodes.foldl countNode counts ↔ node ∈ counts ∨ node ∈ nodes := by
  induction nodes generalizing counts with
  | nil => simp
  | cons first nodes ih =>
    rw [List.foldl_cons, ih, countNode, AList.mem_insert, List.mem_cons]
    tauto

theorem mem_coverage {index : CrossNodeIndex} {prefixKeys : List BlockKey} {node : NodeId} :
    node ∈ coverage index prefixKeys ↔ ∃ key ∈ prefixKeys, node ∈ index.lookup key := by
  suffices hfrom : ∀ counts : AList fun _ : NodeId => Nat,
      node ∈ prefixKeys.foldl (fun counts key => (index.lookup key).foldl countNode counts) counts ↔
        node ∈ counts ∨ ∃ key ∈ prefixKeys, node ∈ index.lookup key by
    exact (hfrom ∅).trans (by simp)
  intro counts
  induction prefixKeys generalizing counts with
  | nil => simp
  | cons key prefixKeys ih =>
    rw [List.foldl_cons, ih, mem_foldl_countNode, List.exists_mem_cons_iff, or_assoc]

/-- Every count is positive. -/
def Counted (counts : AList fun _ : NodeId => Nat) : Prop :=
  ∀ node count, counts.lookup node = some count → 0 < count

theorem counted_countNode {counts : AList fun _ : NodeId => Nat} (node : NodeId)
    (h : Counted counts) : Counted (countNode counts node) := by
  intro node' count hcount
  rcases lookup_insert_eq_some.mp hcount with ⟨-, rfl⟩ | ⟨-, hold⟩
  · exact Nat.succ_pos _
  · exact h _ _ hold

theorem counted_coverage (index : CrossNodeIndex) (prefixKeys : List BlockKey) :
    Counted (coverage index prefixKeys) := by
  refine List.foldlRecOn prefixKeys _ (fun _ _ h => by cases h) fun counts hcounts key _ => ?_
  exact List.foldlRecOn (index.lookup key) _ hcounts fun _ h node _ => counted_countNode node h

/-- The search finds a node that `Route` may choose, unless there is none. -/
theorem bestHolder_spec (snapshot : ClusterState D) {entries : List (NodeId × Nat)}
    (hpos : ∀ entry ∈ entries, 0 < entry.2) :
    (bestHolder snapshot entries = none ∧ ∀ entry ∈ entries, snapshot.presumes entry.1 = false) ∨
      ∃ entry ∈ entries, snapshot.presumes entry.1 = true ∧
        bestHolder snapshot entries = some entry.1 := by
  suffices hfold : (entries.foldl (bestStep snapshot) (none, 0) = (none, 0) ∧
        ∀ entry ∈ entries, snapshot.presumes entry.1 = false) ∨
      ∃ entry ∈ entries, snapshot.presumes entry.1 = true ∧
        (entries.foldl (bestStep snapshot) (none, 0)).1 = some entry.1 from
    hfold.imp_left fun h => ⟨congrArg Prod.fst h.1, h.2⟩
  induction entries using List.reverseRecOn with
  | nil => exact .inl ⟨rfl, by simp⟩
  | append_singleton entries entry ih =>
    have hmem : entry ∈ entries ++ [entry] := List.mem_append_right _ List.mem_cons_self
    have hbefore := ih fun e he => hpos e (List.mem_append_left _ he)
    rw [List.foldl_append, List.foldl_cons, List.foldl_nil, bestStep]
    split
    next htaken => exact .inr ⟨entry, hmem, (Bool.and_eq_true_iff.mp htaken).1, rfl⟩
    next hkept =>
      rcases hbefore with ⟨hrun, hnone⟩ | ⟨e, he, hpresumed, hrun⟩
      · rw [hrun] at hkept ⊢
        refine .inl ⟨rfl, fun e he => ?_⟩
        rcases List.mem_append.mp he with he | he
        · exact hnone e he
        · cases List.mem_singleton.mp he
          simpa [hpos entry hmem] using hkept
      · exact .inr ⟨e, List.mem_append_left _ he, hpresumed, hrun⟩

theorem ClusterState.id_of_find {snapshot : ClusterState D} {node : NodeId} {entry : NodeState D}
    (h : snapshot.find node = some entry) : entry.id = node := by
  have hid := List.find?_some h
  exact of_decide_eq_true hid

theorem presumes_iff {snapshot : ClusterState D} {node : NodeId} :
    snapshot.presumes node = true ↔ snapshot.find node = none ∨ snapshot.lists node = true := by
  unfold ClusterState.presumes ClusterState.lists
  split
  next h => simp [h]
  next state h => simp [h]

variable [DoubleArith D] [BEq D]

/-- A route reuses a holder of one of the keys, or is a placement where there is none to choose. -/
theorem route_spec (config : SchedulerConfig) (index : CrossNodeIndex) (snapshot : ClusterState D)
    (req : Request) : (route config index snapshot req).recompute = false ∧
      (((route config index snapshot req).reusePrefix = true ∧ config.prefixReuseEnabled = true ∧
          snapshot.presumes (route config index snapshot req).node = true ∧
          ∃ key ∈ req.prefixKeys, (route config index snapshot req).node ∈ index.lookup key) ∨
        ((route config index snapshot req).reusePrefix = false ∧
          (route config index snapshot req).node = choosePlacementNode snapshot ∧
          (config.prefixReuseEnabled = true → ∀ key ∈ req.prefixKeys, ∀ node ∈ index.lookup key,
            snapshot.presumes node = false))) := by
  have hmem : ∀ entry : NodeId × Nat, entry ∈ inOrder (coverage index req.prefixKeys) →
      0 < entry.2 ∧ ∃ key ∈ req.prefixKeys, entry.1 ∈ index.lookup key := by
    rintro ⟨node, count⟩ hentry
    have hcount := mem_inOrder.mp hentry
    exact ⟨counted_coverage index _ node count hcount,
      mem_coverage.mp (mem_of_lookup hcount)⟩
  unfold route
  by_cases hreuse : (config.prefixReuseEnabled && !req.prefixKeys.isEmpty) = true
  · have henabled := (Bool.and_eq_true_iff.mp hreuse).1
    rw [if_pos hreuse]
    rcases bestHolder_spec snapshot fun entry hentry => (hmem entry hentry).1 with
      ⟨hbest, hnone⟩ | ⟨entry, hentry, hpresumed, hbest⟩
    · rw [hbest]
      refine ⟨rfl, .inr ⟨rfl, rfl, fun _ key hkey node hnode => ?_⟩⟩
      have hcovered : node ∈ coverage index req.prefixKeys := mem_coverage.mpr ⟨key, hkey, hnode⟩
      obtain ⟨count, hcount⟩ := mem_iff_lookup.mp hcovered
      exact hnone (node, count) (mem_inOrder.mpr hcount)
    · rw [hbest]
      exact ⟨rfl, .inl ⟨rfl, henabled, hpresumed, (hmem entry hentry).2⟩⟩
  · rw [if_neg hreuse]
    refine ⟨rfl, .inr ⟨rfl, rfl, fun henabled key hkey => ?_⟩⟩
    have hnil : req.prefixKeys = [] := by simpa [henabled] using hreuse
    rw [hnil] at hkey
    cases hkey

/-- A failover names a reachable holder, or asks to recompute where there is none. -/
theorem resolveOnFailure_spec (index : CrossNodeIndex) (key : BlockKey) (state : ClusterState D) :
    ((resolveOnFailure index key state).recompute = false ∧
        state.lists (resolveOnFailure index key state).node = true ∧
        (resolveOnFailure index key state).node ∈ index.lookup key) ∨
      ((resolveOnFailure index key state).recompute = true ∧
        ∀ node ∈ index.lookup key, state.lists node = false) := by
  unfold resolveOnFailure
  extract_lets reachableHolders
  have hmem : ∀ entry, entry ∈ reachableHolders ↔ ∃ node ∈ index.lookup key,
      state.find node = some entry ∧ entry.reachable = true := by
    intro entry
    rw [List.mem_filterMap]
    refine exists_congr fun node => and_congr_right fun _ => ?_
    split
    next h => simp [h]
    next found h =>
      rw [h, Option.some.injEq]
      split
      next hreachable =>
        refine ⟨fun heq => ?_, fun heq => congrArg some heq.1⟩
        cases heq
        exact ⟨rfl, hreachable⟩
      next hlost =>
        refine iff_of_false (Option.some_ne_none _).symm fun heq => ?_
        rw [heq.1] at hlost
        exact hlost heq.2
  rcases pickLeastLoaded_spec reachableHolders with ⟨hnil, hrun⟩ | ⟨entry, hentry, hrun⟩
  · rw [hrun]
    refine .inr ⟨rfl, fun node hnode => ?_⟩
    unfold ClusterState.lists
    split
    next => rfl
    next found hfound =>
      refine Bool.eq_false_iff.mpr fun hreachable => ?_
      have hin := (hmem found).mpr ⟨node, hnode, hfound, hreachable⟩
      rw [hnil] at hin
      cases hin
  · rw [hrun]
    obtain ⟨node, hnode, hfound, hreachable⟩ := (hmem entry).mp hentry
    have hid : entry.id = node := ClusterState.id_of_find hfound
    refine .inl ⟨rfl, ?_, ?_⟩
    · show state.lists entry.id = true
      rw [hid, ClusterState.lists, hfound]
      exact hreachable
    · show entry.id ∈ index.lookup key
      rw [hid]
      exact hnode

/-- On one key, a route reuses a holder where a failover finds one or a holder is not listed. -/
theorem route_single {config : SchedulerConfig} {index : CrossNodeIndex} {snapshot : ClusterState D}
    (henabled : config.prefixReuseEnabled = true) (key : BlockKey) (tenant : TenantId) :
    (route config index snapshot ⟨[key], tenant⟩).reusePrefix = true ↔
      (resolveOnFailure index key snapshot).recompute = false ∨
        ∃ node ∈ index.lookup key, snapshot.find node = none := by
  have hroute := (route_spec config index snapshot ⟨[key], tenant⟩).2
  have hresolve := resolveOnFailure_spec index key snapshot
  constructor
  · intro hreuse
    rcases hroute with ⟨-, -, hpresumed, key', hkey, hnode⟩ | ⟨hplaced, -⟩
    · cases List.mem_singleton.mp hkey
      rcases presumes_iff.mp hpresumed with hunlisted | hlisted
      · exact .inr ⟨_, hnode, hunlisted⟩
      · rcases hresolve with ⟨hkept, -⟩ | ⟨-, hnone⟩
        · exact .inl hkept
        · exact absurd ((hnone _ hnode).symm.trans hlisted) Bool.false_ne_true
    · exact absurd (hplaced.symm.trans hreuse) Bool.false_ne_true
  · intro hchoice
    have hsome : ∃ node ∈ index.lookup key, snapshot.presumes node = true := by
      rcases hchoice with hkept | ⟨node, hnode, hunlisted⟩
      · rcases hresolve with ⟨-, hlisted, hnode⟩ | ⟨hrecompute, -⟩
        · exact ⟨_, hnode, presumes_iff.mpr (.inr hlisted)⟩
        · exact absurd (hkept.symm.trans hrecompute) Bool.false_ne_true
      · exact ⟨node, hnode, presumes_iff.mpr (.inl hunlisted)⟩
    obtain ⟨node, hnode, hpresumed⟩ := hsome
    rcases hroute with ⟨hreuse, -⟩ | ⟨-, -, hnone⟩
    · exact hreuse
    · have hnot := hnone henabled key List.mem_cons_self node hnode
      exact absurd (hnot.symm.trans hpresumed) Bool.false_ne_true

/-- What the decisions promise on a snapshot. -/
structure DecisionsSound (config : SchedulerConfig) (index : CrossNodeIndex)
    (snapshot : ClusterState D) : Prop where
  failover : ∀ key, (resolveOnFailure index key snapshot).recompute = false →
    snapshot.lists (resolveOnFailure index key snapshot).node = true
  noRecompute : ∀ req, (route config index snapshot req).recompute = false
  reuse : ∀ req, (route config index snapshot req).reusePrefix = true →
    (∃ key ∈ req.prefixKeys, (route config index snapshot req).node ∈ index.lookup key) ∧
      (snapshot.find (route config index snapshot req).node = none ∨
        snapshot.lists (route config index snapshot req).node = true)
  placement : ∀ req, (route config index snapshot req).reusePrefix = false →
    (∃ entry ∈ snapshot.nodes, entry.reachable = true ∧
        (route config index snapshot req).node = entry.id) ∨
      (∀ entry ∈ snapshot.nodes, entry.reachable = false) ∧
        (route config index snapshot req).node = {}
  single : config.prefixReuseEnabled = true → ∀ key tenant,
    ((route config index snapshot ⟨[key], tenant⟩).reusePrefix = true ↔
      (resolveOnFailure index key snapshot).recompute = false ∨
        ∃ node ∈ index.lookup key, snapshot.find node = none)

/-- **Reachable decisions.** A failover that does not recompute, and a placement while a node is
reachable, name a reachable node of the snapshot; a route that reuses a prefix may also name a
holder that the snapshot does not list, and only for such holders differ the two on a single key. -/
theorem decisions_sound (config : SchedulerConfig) (index : CrossNodeIndex)
    (snapshot : ClusterState D) : DecisionsSound config index snapshot := by
  refine ⟨fun key hkept => ?_, fun req => (route_spec config index snapshot req).1,
    fun req hreuse => ?_, fun req hplaced => ?_, fun henabled key tenant => ?_⟩
  · rcases resolveOnFailure_spec index key snapshot with ⟨-, hlisted, -⟩ | ⟨hrecompute, -⟩
    · exact hlisted
    · exact absurd (hkept.symm.trans hrecompute) Bool.false_ne_true
  · rcases (route_spec config index snapshot req).2 with ⟨-, -, hpresumed, hheld⟩ | ⟨hplaced, -⟩
    · exact ⟨hheld, presumes_iff.mp hpresumed⟩
    · exact absurd (hplaced.symm.trans hreuse) Bool.false_ne_true
  · rcases (route_spec config index snapshot req).2 with ⟨hreuse, -⟩ | ⟨-, hnode, -⟩
    · exact absurd (hplaced.symm.trans hreuse) Bool.false_ne_true
    · rw [hnode]
      exact choosePlacementNode_spec snapshot
  · exact route_single henabled key tenant

end

/-- One node holds the block, and the snapshot lists no node. -/
def unlistedHolder : CrossNodeIndex := (CrossNodeIndex.new fun _ => 0).register {} ⟨"node-a"⟩

/-- The route reuses a node that the snapshot does not list, and the failover recomputes. -/
theorem unlistedHolder_reused :
    route (D := ℚ) {} unlistedHolder ⟨[]⟩ ⟨[{}], ⟨""⟩⟩ =
        { node := ⟨"node-a"⟩, reusePrefix := true, recompute := false } ∧
      (ClusterState.lists (D := ℚ) ⟨[]⟩ ⟨"node-a"⟩ = false) ∧
      (resolveOnFailure (D := ℚ) unlistedHolder {} ⟨[]⟩).recompute = true := by
  decide +kernel

end TieredKVCache.Scheduler
