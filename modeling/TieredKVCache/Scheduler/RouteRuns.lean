import TieredKVCache.Scheduler.Coverage
import TieredKVCache.Scheduler.IndexRuns

/-!
# Routes among concurrent calls

`Route` copies the cluster under `mu_`, then asks the index for one key of the prefix after the
other, each time under the lock of one shard, and decides on what it has counted. Between these
steps other threads register and unregister blocks, replace the cluster and route. So a route need
not be the answer on any one state of the index. What it has counted lies between the coverage that
a node had throughout the call and the one that it had at some moment of it (`events_sound`); where
no call changes a key of the prefix meanwhile, it is the answer of a call that runs alone.
-/

namespace TieredKVCache.Scheduler

open Lib

/-! ## Definitions -/

variable {Tid D : Type}

/-- A call of `Route` that has copied the cluster; `pending` are the keys not yet looked up. -/
structure RouteCall (D : Type) where
  snapshot : ClusterState D
  pending : List BlockKey
  coverage : AList fun _ : NodeId => Nat

/-- What the threads share, and the calls of `Route` that have begun. -/
structure SchedulerState (Tid D : Type) where
  index : CrossNodeIndex
  cluster : ClusterState D
  calls : Tid → Option (RouteCall D)

def SchedulerState.new (hash : BlockKey → UInt64) : SchedulerState Tid D :=
  ⟨.new hash, ⟨[]⟩, fun _ => none⟩

/-- The keys that a route looks up. -/
def lookedUpKeys (config : SchedulerConfig) (req : Request) : List BlockKey :=
  if config.prefixReuseEnabled then req.prefixKeys else []

inductive SchedulerEvent (Tid D : Type) where
  | indexed (event : IndexEvent Tid)
  | updated (tid : Tid) (state : ClusterState D)
  | began (tid : Tid) (req : Request)
  | counted (tid : Tid) (key : BlockKey) (nodes : List NodeId)
  | routed (tid : Tid) (decision : RouteDecision)
  | resolved (tid : Tid) (key : BlockKey) (state : ClusterState D) (decision : RouteDecision)

section

variable [DoubleArith D] [BEq D]

/-- The end of `Route`, on what it has counted. -/
def RouteCall.decision (call : RouteCall D) : RouteDecision :=
  match bestHolder call.snapshot (inOrder call.coverage) with
  | some best => { node := best, reusePrefix := true, recompute := false }
  | none => { node := choosePlacementNode call.snapshot, reusePrefix := false, recompute := false }

variable [DecidableEq Tid]

def SchedulerState.setCall (tid : Tid) (call : Option (RouteCall D)) (s : SchedulerState Tid D) :
    SchedulerState Tid D :=
  { s with calls := Function.update s.calls tid call }

inductive SchedulerStep (config : SchedulerConfig) (s : SchedulerState Tid D) :
    SchedulerEvent Tid D → SchedulerState Tid D → Prop
  | index {event : IndexEvent Tid} {index : CrossNodeIndex} (h : IndexStep s.index event index) :
      SchedulerStep config s (.indexed event) { s with index }
  | update (tid : Tid) (state : ClusterState D) :
      SchedulerStep config s (.updated tid state) { s with cluster := state }
  | begin (tid : Tid) (req : Request) (hidle : s.calls tid = none) :
      SchedulerStep config s (.began tid req)
        (s.setCall tid (some ⟨s.cluster, lookedUpKeys config req, ∅⟩))
  | count (tid : Tid) (call : RouteCall D) (key : BlockKey) (keys : List BlockKey)
      (hcall : s.calls tid = some call) (hkey : call.pending = key :: keys) :
      SchedulerStep config s (.counted tid key (s.index.lookup key))
        (s.setCall tid (some ⟨call.snapshot, keys,
          (s.index.lookup key).foldl countNode call.coverage⟩))
  | decide (tid : Tid) (call : RouteCall D) (hcall : s.calls tid = some call)
      (hdone : call.pending = []) :
      SchedulerStep config s (.routed tid call.decision) (s.setCall tid none)
  | resolve (tid : Tid) (key : BlockKey) (state : ClusterState D) :
      SchedulerStep config s (.resolved tid key state (resolveOnFailure s.index key state)) s

end

/-! ## The index and the cluster -/

/-- The call of the index in a step. -/
def SchedulerEvent.indexEvent : SchedulerEvent Tid D → Option (IndexEvent Tid)
  | .indexed event => some event
  | .counted tid key nodes => some (.lookedUp tid key nodes)
  | _ => none

/-- After these steps, the last change of the key for the node was a registration. -/
def HeldAt (trace : List (SchedulerEvent Tid D)) (key : BlockKey) (node : NodeId) : Prop :=
  LastSet (changes key (trace.filterMap SchedulerEvent.indexEvent)) node

instance (trace : List (SchedulerEvent Tid D)) (key : BlockKey) (node : NodeId) :
    Decidable (HeldAt trace key node) :=
  inferInstanceAs (Decidable (_ = _))

def SchedulerEvent.cluster : SchedulerEvent Tid D → Option (ClusterState D)
  | .updated _ state => some state
  | _ => none

/-- The cluster as last updated. -/
def lastCluster (trace : List (SchedulerEvent Tid D)) : ClusterState D :=
  lastValue SchedulerEvent.cluster ⟨[]⟩ trace

theorem lastCluster_snoc (trace : List (SchedulerEvent Tid D)) (event : SchedulerEvent Tid D) :
    lastCluster (trace ++ [event]) = event.cluster.getD (lastCluster trace) :=
  lastValue_snoc SchedulerEvent.cluster ⟨[]⟩ trace event

/-- Steps that do not concern the index leave its nodes. -/
theorem heldAt_append_of_unchanged {first during : List (SchedulerEvent Tid D)} {key : BlockKey}
    {node : NodeId} (h : changes key (during.filterMap SchedulerEvent.indexEvent) = []) :
    HeldAt (first ++ during) key node ↔ HeldAt first key node := by
  unfold HeldAt changes at *
  rw [List.filterMap_append, List.filterMap_append, h, List.append_nil]

/-- A run, as the index sees it. -/
theorem SchedulerStep.indexRun [DoubleArith D] [BEq D] [DecidableEq Tid] {config : SchedulerConfig}
    {hash : BlockKey → UInt64} {trace : List (SchedulerEvent Tid D)} {s s' : SchedulerState Tid D}
    {event : SchedulerEvent Tid D} (hstep : SchedulerStep config s event s')
    (h : Run IndexStep (.new hash) (trace.filterMap SchedulerEvent.indexEvent) s.index) :
    Run IndexStep (.new hash) ((trace ++ [event]).filterMap SchedulerEvent.indexEvent)
      s'.index := by
  rw [filterMap_concat]
  refine h.moves ?_
  cases hstep with
  | index hstep => exact hstep
  | count tid _ key => exact .lookup tid key
  | update => rfl
  | begin => rfl
  | decide => rfl
  | resolve => rfl

/-! ## Counting -/

/-- The map after some lookups. -/
def countViews (views : List (List NodeId)) : AList fun _ : NodeId => Nat :=
  views.foldl (fun counts nodes => nodes.foldl countNode counts) ∅

/-- How many of the lookups returned the node. -/
def viewsOf (views : List (List NodeId)) (node : NodeId) : Nat :=
  views.countP fun nodes => nodes.contains node

variable {views : List (List NodeId)}

theorem countViews_concat (views : List (List NodeId)) (nodes : List NodeId) :
    countViews (views ++ [nodes]) = nodes.foldl countNode (countViews views) := by
  rw [countViews, List.foldl_append]
  rfl

theorem getD_countViews (hviews : ∀ nodes ∈ views, nodes.Nodup) (node : NodeId) :
    ((countViews views).lookup node).getD 0 = viewsOf views node := by
  induction views using List.reverseRecOn with
  | nil => rfl
  | append_singleton views nodes ih =>
    obtain ⟨hviews, hnodes⟩ := List.forall_mem_append.mp hviews
    rw [countViews_concat, getD_foldl_countNode (hnodes nodes List.mem_cons_self), ih hviews,
      viewsOf, viewsOf, List.countP_append, List.countP_singleton]
    simp only [List.contains_iff_mem]

theorem counted_countViews (views : List (List NodeId)) : Counted (countViews views) := by
  refine List.foldlRecOn views _ (fun _ _ h => by cases h) fun counts hcounts nodes _ => ?_
  exact List.foldlRecOn nodes _ hcounts fun _ h node _ => counted_countNode node h

theorem mem_inOrder_countViews (hviews : ∀ nodes ∈ views, nodes.Nodup) {entry : NodeId × Nat} :
    entry ∈ inOrder (countViews views) ↔ entry.2 = viewsOf views entry.1 ∧ 0 < entry.2 := by
  have hcount := getD_countViews hviews entry.1
  rw [show entry = (entry.1, entry.2) from rfl, mem_inOrder]
  constructor
  · intro hsome
    rw [hsome] at hcount
    exact ⟨hcount, counted_countViews views entry.1 entry.2 hsome⟩
  · rintro ⟨heq, hpos⟩
    cases hlookup : (countViews views).lookup entry.1 with
    | none =>
      rw [hlookup, Option.getD_none, ← heq] at hcount
      exact absurd hpos (hcount ▸ lt_irrefl 0)
    | some count =>
      rw [hlookup] at hcount
      exact congrArg some (hcount.trans heq.symm)

/-- A route decides for an eligible node that most of its lookups returned, if there is one. -/
theorem decision_spec [DoubleArith D] [BEq D] {call : RouteCall D}
    (hviews : ∀ nodes ∈ views, nodes.Nodup) (hcoverage : call.coverage = countViews views) :
    (∃ node, call.decision = ⟨node, true, false⟩ ∧
        Eligible call.snapshot node ∧ 0 < viewsOf views node ∧
        ∀ other, Eligible call.snapshot other → viewsOf views other ≤ viewsOf views node) ∨
      (call.decision = ⟨choosePlacementNode call.snapshot, false, false⟩ ∧
        ∀ other, Eligible call.snapshot other → viewsOf views other = 0) := by
  have hentries : ∀ {entry : NodeId × Nat}, entry ∈ inOrder call.coverage ↔
      entry.2 = viewsOf views entry.1 ∧ 0 < entry.2 :=
    hcoverage ▸ mem_inOrder_countViews hviews
  have hmem : ∀ {node : NodeId}, Eligible call.snapshot node → 0 < viewsOf views node →
      (node, viewsOf views node) ∈ (inOrder call.coverage).filter
        fun entry => call.snapshot.presumes entry.1 := by
    intro node heligible hpos
    exact List.mem_filter.mpr ⟨hentries.mpr ⟨rfl, hpos⟩, presumes_iff_eligible.mpr heligible⟩
  rw [RouteCall.decision, bestHolder_eq call.snapshot fun entry hentry => (hentries.mp hentry).2]
  cases hmax : ((inOrder call.coverage).filter
      fun entry => call.snapshot.presumes entry.1).argmax Prod.snd with
  | none =>
    refine .inr ⟨rfl, fun other hother => Nat.eq_zero_of_not_pos fun hpos => ?_⟩
    have hin := hmem hother hpos
    rw [List.argmax_eq_none.mp hmax] at hin
    cases hin
  | some entry =>
    obtain ⟨hentry, hpresumed⟩ := List.mem_filter.mp (List.argmax_mem hmax)
    obtain ⟨hcount, hpos⟩ := hentries.mp hentry
    refine .inl ⟨entry.1, rfl, presumes_iff_eligible.mp hpresumed, hcount ▸ hpos, ?_⟩
    intro other hother
    rcases Nat.eq_zero_or_pos (viewsOf views other) with hzero | hother'
    · exact hzero ▸ Nat.zero_le _
    · rw [← hcount]
      exact List.le_of_mem_argmax (hmem hother hother') hmax

theorem coverage_eq_countViews (index : CrossNodeIndex) (keys : List BlockKey) :
    coverage index keys = countViews (keys.map index.lookup) := by
  rw [coverage, countViews, List.foldl_map]

/-- A route that runs alone. -/
theorem route_eq_decision [DoubleArith D] [BEq D] (config : SchedulerConfig)
    (index : CrossNodeIndex) (snapshot : ClusterState D) (req : Request) :
    route config index snapshot req =
      RouteCall.decision ⟨snapshot, [], coverage index (lookedUpKeys config req)⟩ := by
  have hnone : bestHolder snapshot (inOrder (coverage index [])) = none := rfl
  rw [route, RouteCall.decision, lookedUpKeys]
  cases hreuse : config.prefixReuseEnabled with
  | false =>
    rw [if_neg Bool.false_ne_true, hnone]
    rfl
  | true =>
    rw [if_pos rfl]
    cases hkeys : req.prefixKeys with
    | nil =>
      rw [hnone]
      rfl
    | cons key keys => rfl

/-! ## A call among others -/

/-- The thread begins or ends a route. -/
def SchedulerEvent.bounds [DecidableEq Tid] (tid : Tid) : SchedulerEvent Tid D → Bool
  | .began tid' _ => decide (tid' = tid)
  | .routed tid' _ => decide (tid' = tid)
  | _ => false

variable {first during : List (SchedulerEvent Tid D)} {key : BlockKey} {nodes : List NodeId}

/-- The answer of a lookup at some moment of `during`. -/
def Seen (first during : List (SchedulerEvent Tid D)) (key : BlockKey) (nodes : List NodeId) :
    Prop :=
  nodes.Pairwise (· < ·) ∧
    ∃ past, past <+: during ∧ ∀ node, node ∈ nodes ↔ HeldAt (first ++ past) key node

theorem Seen.snoc (h : Seen first during key nodes) (event : SchedulerEvent Tid D) :
    Seen first (during ++ [event]) key nodes := by
  obtain ⟨hsorted, past, hpast, hnodes⟩ := h
  exact ⟨hsorted, past, hpast.trans (List.prefix_append _ _), hnodes⟩

/-- A call of `Route` that has begun at the end of `first` and has made its lookups in `during`. -/
structure Running [DecidableEq Tid] (config : SchedulerConfig)
    (first during : List (SchedulerEvent Tid D)) (tid : Tid) (req : Request) (call : RouteCall D) :
    Prop where
  alone : ∀ event ∈ during, event.bounds tid = false
  snapshot : call.snapshot = lastCluster first
  counted : ∃ views : List (BlockKey × List NodeId),
    views.map Prod.fst ++ call.pending = lookedUpKeys config req ∧
      call.coverage = countViews (views.map Prod.snd) ∧
      ∀ view ∈ views, Seen first during view.1 view.2

section

variable [DecidableEq Tid] {config : SchedulerConfig} {tid : Tid} {req : Request}
  {call : RouteCall D}

theorem Running.snoc (h : Running config first during tid req call) {event : SchedulerEvent Tid D}
    (hevent : event.bounds tid = false) :
    Running config first (during ++ [event]) tid req call where
  alone := List.forall_mem_append.mpr ⟨h.alone, List.forall_mem_singleton.mpr hevent⟩
  snapshot := h.snapshot
  counted := by
    obtain ⟨views, hkeys, hcoverage, hseen⟩ := h.counted
    exact ⟨views, hkeys, hcoverage, fun view hview => (hseen view hview).snoc event⟩

/-- The next lookup of a call. -/
theorem Running.count (h : Running config first during tid req call) {keys : List BlockKey}
    (hkey : call.pending = key :: keys) (hsorted : nodes.Pairwise (· < ·))
    (hnodes : ∀ node, node ∈ nodes ↔ HeldAt (first ++ during) key node) :
    Running config first (during ++ [.counted tid key nodes]) tid req
      ⟨call.snapshot, keys, nodes.foldl countNode call.coverage⟩ where
  alone := List.forall_mem_append.mpr ⟨h.alone, List.forall_mem_singleton.mpr rfl⟩
  snapshot := h.snapshot
  counted := by
    obtain ⟨views, hkeys, hcoverage, hseen⟩ := h.counted
    refine ⟨views ++ [(key, nodes)], ?_, ?_, ?_⟩
    · rw [← hkeys, hkey, List.map_append, List.append_assoc]
      rfl
    · rw [List.map_append, List.map_singleton, countViews_concat, hcoverage]
    · refine List.forall_mem_append.mpr ⟨fun view hview => (hseen view hview).snoc _, ?_⟩
      refine List.forall_mem_singleton.mpr ⟨hsorted, during, ?_, hnodes⟩
      exact List.prefix_append _ _

/-- The call that a thread has not ended. -/
def Begun (config : SchedulerConfig) (trace : List (SchedulerEvent Tid D)) (tid : Tid)
    (call : RouteCall D) : Prop :=
  ∃ earlier req during, trace = earlier ++ .began tid req :: during ∧
    Running config (earlier ++ [.began tid req]) during tid req call

theorem Begun.snoc {trace : List (SchedulerEvent Tid D)} (h : Begun config trace tid call)
    {event : SchedulerEvent Tid D} (hevent : event.bounds tid = false) :
    Begun config (trace ++ [event]) tid call := by
  obtain ⟨earlier, req, during, rfl, hrunning⟩ := h
  exact ⟨earlier, req, during ++ [event], by simp, hrunning.snoc hevent⟩

/-- The state after some steps. -/
structure Tracked (config : SchedulerConfig) (hash : BlockKey → UInt64)
    (trace : List (SchedulerEvent Tid D)) (s : SchedulerState Tid D) : Prop where
  indexed : Run IndexStep (.new hash) (trace.filterMap SchedulerEvent.indexEvent) s.index
  cluster : s.cluster = lastCluster trace
  calls : ∀ tid call, s.calls tid = some call → Begun config trace tid call

theorem tracked_new (config : SchedulerConfig) (hash : BlockKey → UInt64) :
    Tracked config hash [] (SchedulerState.new hash : SchedulerState Tid D) :=
  ⟨.nil, rfl, fun _ _ h => by cases h⟩

variable {hash : BlockKey → UInt64} {trace : List (SchedulerEvent Tid D)}
  {s s' : SchedulerState Tid D}

theorem Tracked.mem_lookup (h : Tracked config hash trace s) (key : BlockKey) (node : NodeId) :
    node ∈ s.index.lookup key ↔ HeldAt trace key node :=
  mem_lookup_iff_lastSet h.indexed key node

/-- A step of one thread, for the calls of the others. -/
theorem Tracked.calls_setCall (h : Tracked config hash trace s) {event : SchedulerEvent Tid D}
    {next : Option (RouteCall D)} (hother : ∀ tid', tid' ≠ tid → event.bounds tid' = false)
    (hnext : ∀ call, next = some call → Begun config (trace ++ [event]) tid call) (tid' : Tid)
    (call : RouteCall D) (hcall : (s.setCall tid next).calls tid' = some call) :
    Begun config (trace ++ [event]) tid' call := by
  unfold SchedulerState.setCall at hcall
  dsimp only at hcall
  by_cases heq : tid' = tid
  · subst heq
    rw [Function.update_self] at hcall
    exact hnext call hcall
  · rw [Function.update_of_ne heq] at hcall
    exact (h.calls tid' call hcall).snoc (hother tid' heq)

variable [DoubleArith D] [BEq D]

theorem Tracked.step (h : Tracked config hash trace s) {event : SchedulerEvent Tid D}
    (hstep : SchedulerStep config s event s') : Tracked config hash (trace ++ [event]) s' := by
  have hindexed := hstep.indexRun h.indexed
  cases hstep with
  | index hstep =>
    refine ⟨hindexed, ?_, fun tid call hcall => (h.calls tid call hcall).snoc rfl⟩
    rw [lastCluster_snoc]
    exact h.cluster
  | update tid state =>
    refine ⟨hindexed, ?_, fun tid call hcall => (h.calls tid call hcall).snoc rfl⟩
    rw [lastCluster_snoc]
    rfl
  | begin tid req =>
    refine ⟨hindexed, ?_, h.calls_setCall (fun tid' hne => decide_eq_false hne.symm) ?_⟩
    · rw [lastCluster_snoc]
      exact h.cluster
    · rintro call hcall
      cases hcall
      refine ⟨trace, req, [], rfl, ?_, ?_, [], rfl, rfl, fun _ hview => by cases hview⟩
      · exact fun _ hevent => by cases hevent
      · rw [lastCluster_snoc]
        exact h.cluster
  | count tid call key keys hcall hkey =>
    refine ⟨hindexed, ?_, h.calls_setCall (fun _ _ => rfl) ?_⟩
    · rw [lastCluster_snoc]
      exact h.cluster
    · rintro call' hcall'
      cases hcall'
      obtain ⟨earlier, req, during, rfl, hrunning⟩ := h.calls tid call hcall
      refine ⟨earlier, req, during ++ [.counted tid key (s.index.lookup key)], by simp, ?_⟩
      refine hrunning.count hkey (s.index.pairwise_lookup key) fun node => ?_
      rw [h.mem_lookup, List.append_assoc]
      rfl
  | decide tid =>
    refine ⟨hindexed, ?_, h.calls_setCall (fun tid' hne => decide_eq_false hne.symm) ?_⟩
    · rw [lastCluster_snoc]
      exact h.cluster
    · intro call hcall
      cases hcall
  | resolve tid =>
    refine ⟨hindexed, ?_, fun tid call hcall => (h.calls tid call hcall).snoc rfl⟩
    rw [lastCluster_snoc]
    exact h.cluster

end

/-! ## The decisions -/

/-- At how many positions of the prefix there is a key that the node held at some moment. -/
def coverageEver (first during : List (SchedulerEvent Tid D)) (keys : List BlockKey)
    (node : NodeId) : Nat :=
  keys.countP fun key => during.inits.any fun past => decide (HeldAt (first ++ past) key node)

/-- At how many positions of the prefix there is a key that the node held at every moment. -/
def coverageThroughout (first during : List (SchedulerEvent Tid D)) (keys : List BlockKey)
    (node : NodeId) : Nat :=
  keys.countP fun key => during.inits.all fun past => decide (HeldAt (first ++ past) key node)

/-- What the lookups of a call have counted. -/
theorem viewsOf_between {views : List (BlockKey × List NodeId)}
    (hseen : ∀ view ∈ views, Seen first during view.1 view.2) (node : NodeId) :
    coverageThroughout first during (views.map Prod.fst) node ≤
        viewsOf (views.map Prod.snd) node ∧
      viewsOf (views.map Prod.snd) node ≤
        coverageEver first during (views.map Prod.fst) node := by
  unfold coverageThroughout coverageEver viewsOf
  rw [List.countP_map, List.countP_map, List.countP_map]
  constructor
  · refine List.countP_mono_left fun view hview hall => ?_
    obtain ⟨-, past, hpast, hnodes⟩ := hseen view hview
    have hheld := List.all_eq_true.mp hall past ((List.mem_inits past during).mpr hpast)
    exact List.contains_iff_mem.mpr ((hnodes node).mpr (of_decide_eq_true hheld))
  · refine List.countP_mono_left fun view hview hmem => ?_
    obtain ⟨-, past, hpast, hnodes⟩ := hseen view hview
    refine List.any_eq_true.mpr ⟨past, (List.mem_inits past during).mpr hpast, ?_⟩
    exact decide_eq_true ((hnodes node).mp (List.contains_iff_mem.mp hmem))

section

variable [DoubleArith D] [BEq D]

/-- The decision of a call that began after `first` and ran during `during`. -/
structure RouteSound (config : SchedulerConfig) (first during : List (SchedulerEvent Tid D))
    (req : Request) (decision : RouteDecision) : Prop where
  fresh : decision.recompute = false
  reused : decision.reusePrefix = true → config.prefixReuseEnabled = true ∧
    Eligible (lastCluster first) decision.node ∧
    0 < coverageEver first during req.prefixKeys decision.node ∧
    ∀ other, Eligible (lastCluster first) other →
      coverageThroughout first during req.prefixKeys other ≤
        coverageEver first during req.prefixKeys decision.node
  placed : decision.reusePrefix = false →
    decision.node = choosePlacementNode (lastCluster first) ∧
    (config.prefixReuseEnabled = true → ∀ other, Eligible (lastCluster first) other →
      coverageThroughout first during req.prefixKeys other = 0)
  /-- No call changes a key of the prefix meanwhile. -/
  undisturbed : (∀ key ∈ req.prefixKeys,
      changes key (during.filterMap SchedulerEvent.indexEvent) = []) →
    ∀ index : CrossNodeIndex,
      (∀ key ∈ req.prefixKeys, ∀ node, node ∈ index.lookup key ↔ HeldAt first key node) →
      decision = route config index (lastCluster first) req

/-- Of a failover, whose one lookup is its only step. -/
structure FailoverSound (before : List (SchedulerEvent Tid D)) (key : BlockKey)
    (state : ClusterState D) (decision : RouteDecision) : Prop where
  held : decision.recompute = false →
    state.lists decision.node = true ∧ HeldAt before key decision.node
  lost : decision.recompute = true → ∀ node, HeldAt before key node → state.lists node = false

/-- The decisions of a run, given the steps before them. -/
def EventSound [DecidableEq Tid] (config : SchedulerConfig)
    (before : List (SchedulerEvent Tid D)) : SchedulerEvent Tid D → Prop
  | .routed tid decision => ∃ earlier req during, before = earlier ++ .began tid req :: during ∧
      (∀ event ∈ during, event.bounds tid = false) ∧
      RouteSound config (earlier ++ [.began tid req]) during req decision
  | .resolved _ key state decision => FailoverSound before key state decision
  | _ => True

variable [DecidableEq Tid] {config : SchedulerConfig} {tid : Tid} {req : Request}
  {call : RouteCall D}

/-- Lookups between which nothing changes are those of one index. -/
theorem Running.undisturbed (h : Running config first during tid req call)
    (hdone : call.pending = []) (hquiet : ∀ key ∈ lookedUpKeys config req,
      changes key (during.filterMap SchedulerEvent.indexEvent) = [])
    {index : CrossNodeIndex} (hindex : ∀ key ∈ lookedUpKeys config req, ∀ node,
      node ∈ index.lookup key ↔ HeldAt first key node) :
    call.decision = route config index (lastCluster first) req := by
  obtain ⟨views, hkeys, hcoverage, hseen⟩ := h.counted
  rw [hdone, List.append_nil] at hkeys
  have hviews : ∀ view ∈ views, view.2 = index.lookup view.1 := by
    intro view hview
    have hkey : view.1 ∈ lookedUpKeys config req := hkeys ▸ List.mem_map_of_mem hview
    obtain ⟨hsorted, past, ⟨rest, rfl⟩, hnodes⟩ := hseen view hview
    have hpast : changes view.1 (past.filterMap SchedulerEvent.indexEvent) = [] := by
      have hall := hquiet view.1 hkey
      unfold changes at hall ⊢
      rw [List.filterMap_append, List.filterMap_append] at hall
      exact (List.append_eq_nil_iff.mp hall).1
    refine hsorted.eq_of_mem_iff (index.pairwise_lookup view.1) fun node => ?_
    rw [hnodes, hindex view.1 hkey, heldAt_append_of_unchanged hpast]
  have hlookups : views.map Prod.snd = (lookedUpKeys config req).map index.lookup := by
    rw [← hkeys, List.map_map]
    exact List.map_congr_left hviews
  rw [route_eq_decision, RouteCall.decision, RouteCall.decision, hcoverage, hlookups, h.snapshot,
    coverage_eq_countViews]

theorem Running.sound (h : Running config first during tid req call) (hdone : call.pending = []) :
    RouteSound config first during req call.decision := by
  obtain ⟨views, hkeys, hcoverage, hseen⟩ := h.counted
  rw [hdone, List.append_nil] at hkeys
  have hnodup : ∀ nodes ∈ views.map Prod.snd, nodes.Nodup := by
    refine List.forall_mem_map.mpr fun view hview => ?_
    exact (hseen view hview).1.imp ne_of_lt
  have hbetween := viewsOf_between hseen
  rw [hkeys] at hbetween
  have hquiet : (∀ key ∈ req.prefixKeys,
      changes key (during.filterMap SchedulerEvent.indexEvent) = []) →
      ∀ index : CrossNodeIndex,
        (∀ key ∈ req.prefixKeys, ∀ node, node ∈ index.lookup key ↔ HeldAt first key node) →
        call.decision = route config index (lastCluster first) req := by
    intro hunchanged index hindex
    have hsub : ∀ key ∈ lookedUpKeys config req, key ∈ req.prefixKeys := by
      intro key hkey
      rw [lookedUpKeys] at hkey
      split at hkey
      · exact hkey
      · cases hkey
    exact h.undisturbed hdone (fun key hkey => hunchanged key (hsub key hkey))
      fun key hkey => hindex key (hsub key hkey)
  rcases decision_spec hnodup hcoverage with
    ⟨node, hdecision, heligible, hpos, hmost⟩ | ⟨hdecision, hnone⟩
  · have henabled : config.prefixReuseEnabled = true := by
      by_contra hdisabled
      have hzero := hpos.trans_le (hbetween node).2
      rw [lookedUpKeys, if_neg hdisabled] at hzero
      exact absurd hzero (lt_irrefl 0)
    rw [lookedUpKeys, if_pos henabled] at hbetween
    rw [h.snapshot] at heligible hmost
    refine ⟨?_, fun _ => ?_, fun hplaced => ?_, hquiet⟩
    · rw [hdecision]
    · rw [hdecision]
      refine ⟨henabled, heligible, hpos.trans_le (hbetween node).2, fun other hother => ?_⟩
      calc coverageThroughout first during req.prefixKeys other
          ≤ viewsOf (views.map Prod.snd) other := (hbetween other).1
        _ ≤ viewsOf (views.map Prod.snd) node := hmost other hother
        _ ≤ coverageEver first during req.prefixKeys node := (hbetween node).2
    · rw [hdecision] at hplaced
      cases hplaced
  · rw [h.snapshot] at hdecision hnone
    refine ⟨?_, fun hreused => ?_, fun _ => ?_, hquiet⟩
    · rw [hdecision]
    · rw [hdecision] at hreused
      cases hreused
    · refine ⟨by rw [hdecision], fun henabled other hother => ?_⟩
      have hle := (hbetween other).1
      rw [lookedUpKeys, if_pos henabled, hnone other hother] at hle
      exact Nat.le_zero.mp hle

theorem SchedulerStep.sound {hash : BlockKey → UInt64} {trace : List (SchedulerEvent Tid D)}
    {s s' : SchedulerState Tid D} {event : SchedulerEvent Tid D}
    (hstep : SchedulerStep config s event s') (h : Tracked config hash trace s) :
    EventSound config trace event := by
  cases hstep with
  | decide tid call hcall hdone =>
    obtain ⟨earlier, req, during, htrace, hrunning⟩ := h.calls tid call hcall
    exact ⟨earlier, req, during, htrace, hrunning.alone, hrunning.sound hdone⟩
  | resolve tid key state =>
    rcases resolveOnFailure_spec s.index key state with ⟨hkept, hlisted, hmem⟩ | ⟨hrecompute, hlost⟩
    · refine ⟨fun _ => ⟨hlisted, (h.mem_lookup key _).mp hmem⟩, fun hrecompute => ?_⟩
      exact absurd (hkept.symm.trans hrecompute) Bool.false_ne_true
    · refine ⟨fun hkept => ?_, fun _ node hheld => hlost node ((h.mem_lookup key node).mpr hheld)⟩
      exact absurd (hkept.symm.trans hrecompute) Bool.false_ne_true
  | index => trivial
  | update => trivial
  | begin => trivial
  | count => trivial

/-- **Decisions among concurrent calls.** In every interleaving of the steps of `Register`,
`Unregister`, `Lookup`, `UpdateClusterState`, `Route` and `ResolveOnFailure`, a route decides by the
cluster as it was when the call began: it reuses an eligible node that held at some moment of the
call as many keys as any eligible node held throughout, or finds none that held a key throughout. -/
theorem events_sound (config : SchedulerConfig) (hash : BlockKey → UInt64)
    {trace : List (SchedulerEvent Tid D)} {s : SchedulerState Tid D}
    (h : Run (SchedulerStep config) (.new hash) trace s) : AtEvery (EventSound config) trace :=
  (h.atEvery (tracked_new config hash) fun htracked hstep =>
    ⟨htracked.step hstep, hstep.sound htracked⟩).2

end

/-- A route of one thread, during which another one unregisters the node that it has counted. -/
def disturbedRoute : List (SchedulerEvent Nat ℚ) :=
  [.indexed (.registered 2 {} ⟨"a"⟩), .began 1 ⟨[{}], ⟨""⟩⟩, .counted 1 {} [⟨"a"⟩],
    .indexed (.unregistered 2 {} ⟨"a"⟩), .routed 1 ⟨⟨"a"⟩, true, false⟩]

theorem events_sound_disturbed : ∃ s, Run (SchedulerStep {}) (.new fun _ => 0) disturbedRoute s ∧
    AtEvery (EventSound {}) disturbedRoute := by
  let index : CrossNodeIndex := (CrossNodeIndex.new fun _ => 0).register {} ⟨"a"⟩
  let begun : SchedulerState Nat ℚ :=
    ⟨index, ⟨[]⟩, Function.update (fun _ => none) 1 (some ⟨⟨[]⟩, [{}], ∅⟩)⟩
  let call : RouteCall ℚ := ⟨⟨[]⟩, [], [⟨"a"⟩].foldl countNode ∅⟩
  let counted : SchedulerState Nat ℚ :=
    { begun.setCall 1 (some call) with index := index.unregister {} ⟨"a"⟩ }
  have hcount : SchedulerStep {} begun (.counted 1 {} [⟨"a"⟩]) (begun.setCall 1 (some call)) := by
    unfold call
    rw [← show index.lookup {} = [⟨"a"⟩] by decide +kernel]
    exact .count 1 ⟨⟨[]⟩, [{}], ∅⟩ {} [] rfl rfl
  have hdecide : SchedulerStep {} counted (.routed 1 ⟨⟨"a"⟩, true, false⟩)
      (counted.setCall 1 none) := by
    rw [show (⟨⟨"a"⟩, true, false⟩ : RouteDecision) = call.decision by decide +kernel]
    exact .decide 1 call rfl rfl
  have hrun : Run (SchedulerStep {}) (.new fun _ => 0) disturbedRoute (counted.setCall 1 none) :=
    .snoc (.snoc (.snoc (.snoc (.snoc .nil (.index (.register 2 {} ⟨"a"⟩)))
      (.begin 1 ⟨[{}], ⟨""⟩⟩ rfl)) hcount) (.index (.unregister 2 {} ⟨"a"⟩))) hdecide
  exact ⟨_, hrun, events_sound {} (fun _ => 0) hrun⟩

end TieredKVCache.Scheduler
