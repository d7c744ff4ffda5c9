import TieredKVCache.Lib.Extremum
import TieredKVCache.Scheduler.Route

/-!
# Optimal routes

`Route` counts, for each node, the keys of the prefix that it holds (`lookup_coverage`), and keeps
the first of the largest counts among the nodes it may choose, by ascending id. So a route names
the eligible node that covers most, and the one with the smallest id of several
(`route_optimal`). Without prefix reuse the index is not consulted.
-/

namespace TieredKVCache.Scheduler

open Lib

/-! ## Counting -/

/-- At how many positions of the prefix there is a key that the node holds. -/
def coverageOf (index : CrossNodeIndex) (prefixKeys : List BlockKey) (node : NodeId) : Nat :=
  prefixKeys.countP fun key => decide (node ∈ index.lookup key)

theorem getD_countNode (counts : AList fun _ : NodeId => Nat) (node node' : NodeId) :
    ((countNode counts node').lookup node).getD 0 =
      (counts.lookup node).getD 0 + if node = node' then 1 else 0 := by
  unfold countNode
  by_cases h : node = node'
  · subst h
    rw [AList.lookup_insert, if_pos rfl]
    rfl
  · rw [AList.lookup_insert_ne h, if_neg h, Nat.add_zero]

/-- A list without repetitions counts each of its nodes once. -/
theorem getD_foldl_countNode {nodes : List NodeId} (hnodup : nodes.Nodup)
    (counts : AList fun _ : NodeId => Nat) (node : NodeId) :
    ((nodes.foldl countNode counts).lookup node).getD 0 =
      (counts.lookup node).getD 0 + if node ∈ nodes then 1 else 0 := by
  induction nodes generalizing counts with
  | nil => simp
  | cons first nodes ih =>
    obtain ⟨hfirst, hnodup⟩ := List.nodup_cons.mp hnodup
    rw [List.foldl_cons, ih hnodup, getD_countNode]
    by_cases h : node = first
    · subst h
      simp [hfirst]
    · simp [h]

theorem getD_coverage (index : CrossNodeIndex) (prefixKeys : List BlockKey) (node : NodeId) :
    ((coverage index prefixKeys).lookup node).getD 0 = coverageOf index prefixKeys node := by
  suffices hfrom : ∀ counts : AList fun _ : NodeId => Nat,
      ((prefixKeys.foldl (fun counts key => (index.lookup key).foldl countNode counts)
        counts).lookup node).getD 0 =
          (counts.lookup node).getD 0 + coverageOf index prefixKeys node by
    exact (hfrom ∅).trans (Nat.zero_add _)
  intro counts
  induction prefixKeys generalizing counts with
  | nil => rfl
  | cons key prefixKeys ih =>
    have hnodup : (index.lookup key).Nodup := (index.pairwise_lookup key).imp ne_of_lt
    rw [List.foldl_cons, ih, getD_foldl_countNode hnodup, coverageOf, coverageOf,
      List.countP_cons]
    simp only [decide_eq_true_eq]
    omega

/-- The map lists the nodes that hold a key of the prefix, with their coverage. -/
theorem lookup_coverage {index : CrossNodeIndex} {prefixKeys : List BlockKey} {node : NodeId}
    {count : Nat} : (coverage index prefixKeys).lookup node = some count ↔
      count = coverageOf index prefixKeys node ∧ 0 < count := by
  have hcount := getD_coverage index prefixKeys node
  constructor
  · intro hsome
    rw [hsome] at hcount
    exact ⟨hcount, counted_coverage index prefixKeys node count hsome⟩
  · rintro ⟨rfl, hpos⟩
    cases hlookup : (coverage index prefixKeys).lookup node with
    | none =>
      rw [hlookup, Option.getD_none] at hcount
      omega
    | some count =>
      rw [hlookup] at hcount
      exact congrArg some hcount

/-- The entries of the map ascend by the id of the node. -/
theorem pairwise_inOrder (counts : AList fun _ : NodeId => Nat) :
    (inOrder counts).Pairwise fun entry entry' => entry.1 < entry'.1 := by
  have hsorted : (inOrder counts).Pairwise fun entry entry' => entry.1 ≤ entry'.1 := by
    unfold inOrder
    exact List.pairwise_insertionSort _ _
  have hdistinct : ((inOrder counts).map Prod.fst).Nodup := by
    have hkeys : (counts.entries.map fun e => (e.1, e.2)).map Prod.fst = counts.keys := by
      rw [List.map_map]
      rfl
    rw [inOrder, ((List.perm_insertionSort _ _).map Prod.fst).nodup_iff, hkeys]
    exact counts.keys_nodup
  exact hsorted.imp₂ (fun _ _ hle hne => lt_of_le_of_ne hle hne) (List.pairwise_map.mp hdistinct)

/-! ## The largest coverage -/

section

variable {D : Type}

/-- The snapshot does not list the node, or its first entry for it is reachable. -/
def Eligible (snapshot : ClusterState D) (node : NodeId) : Prop :=
  ∀ entry, snapshot.find node = some entry → entry.reachable = true

theorem presumes_iff_eligible {snapshot : ClusterState D} {node : NodeId} :
    snapshot.presumes node = true ↔ Eligible snapshot node := by
  unfold ClusterState.presumes Eligible
  cases snapshot.find node with
  | none => simp
  | some entry => simp

/-- The loop keeps the first of the largest entries that it may choose. -/
theorem foldl_bestStep (snapshot : ClusterState D) {entries : List (NodeId × Nat)}
    (hpos : ∀ entry ∈ entries, 0 < entry.2) :
    entries.foldl (bestStep snapshot) (none, 0) =
      (((entries.filter fun entry => snapshot.presumes entry.1).argmax Prod.snd).map
        fun entry => (some entry.1, entry.2)).getD (none, 0) := by
  induction entries using List.reverseRecOn with
  | nil => rfl
  | append_singleton entries entry ih =>
    have hbefore := ih fun e he => hpos e (List.mem_append_left _ he)
    have hentry : 0 < entry.2 := hpos entry (List.mem_append_right _ List.mem_cons_self)
    rw [List.foldl_append, List.foldl_cons, List.foldl_nil, hbefore, List.filter_append]
    by_cases hpresumed : snapshot.presumes entry.1 = true
    · have hlast : ([entry].filter fun entry => snapshot.presumes entry.1) = [entry] := by
        simp [hpresumed]
      rw [hlast, List.argmax_concat]
      cases (entries.filter fun entry => snapshot.presumes entry.1).argmax Prod.snd with
      | none => simp [bestStep, hpresumed, hentry]
      | some best =>
        by_cases hmore : best.2 < entry.2
        · simp [bestStep, hpresumed, hmore]
        · simp [bestStep, hmore]
    · have hlast : ([entry].filter fun entry => snapshot.presumes entry.1) = [] := by
        simp [hpresumed]
      rw [hlast, List.append_nil, bestStep, Bool.eq_false_iff.mpr hpresumed]
      rfl

theorem bestHolder_eq (snapshot : ClusterState D) {entries : List (NodeId × Nat)}
    (hpos : ∀ entry ∈ entries, 0 < entry.2) :
    bestHolder snapshot entries =
      ((entries.filter fun entry => snapshot.presumes entry.1).argmax Prod.snd).map Prod.fst := by
  rw [bestHolder, foldl_bestStep snapshot hpos]
  cases (entries.filter fun entry => snapshot.presumes entry.1).argmax Prod.snd with
  | none => rfl
  | some entry => rfl

/-- The eligible node that covers most, and the smallest id of several. -/
def CoversMost (index : CrossNodeIndex) (snapshot : ClusterState D) (prefixKeys : List BlockKey)
    (node : NodeId) : Prop :=
  Eligible snapshot node ∧ ∀ other, Eligible snapshot other →
    coverageOf index prefixKeys other < coverageOf index prefixKeys node ∨
      coverageOf index prefixKeys other = coverageOf index prefixKeys node ∧ node ≤ other

theorem CoversMost.unique {index : CrossNodeIndex} {snapshot : ClusterState D}
    {prefixKeys : List BlockKey} {node node' : NodeId}
    (h : CoversMost index snapshot prefixKeys node)
    (h' : CoversMost index snapshot prefixKeys node') : node = node' := by
  rcases h.2 node' h'.1 with hlt | ⟨heq, hle⟩
  · rcases h'.2 node h.1 with hlt' | ⟨heq', -⟩
    · omega
    · omega
  · rcases h'.2 node h.1 with hlt' | ⟨-, hle'⟩
    · omega
    · exact le_antisymm hle hle'

/-- Some eligible node holds a key of the prefix. -/
def Covered (index : CrossNodeIndex) (snapshot : ClusterState D) (prefixKeys : List BlockKey) :
    Prop :=
  ∃ node, Eligible snapshot node ∧ 0 < coverageOf index prefixKeys node

theorem bestHolder_coverage (index : CrossNodeIndex) (snapshot : ClusterState D)
    (prefixKeys : List BlockKey) :
    (∃ node, CoversMost index snapshot prefixKeys node ∧
        bestHolder snapshot (inOrder (coverage index prefixKeys)) = some node ∧
        Covered index snapshot prefixKeys) ∨
      bestHolder snapshot (inOrder (coverage index prefixKeys)) = none ∧
        ¬ Covered index snapshot prefixKeys := by
  have hentries : ∀ {entry : NodeId × Nat}, entry ∈ inOrder (coverage index prefixKeys) ↔
      entry.2 = coverageOf index prefixKeys entry.1 ∧ 0 < entry.2 :=
    mem_inOrder.trans lookup_coverage
  rw [bestHolder_eq snapshot fun entry hentry => (hentries.mp hentry).2]
  have hmem : ∀ {node : NodeId}, Eligible snapshot node → 0 < coverageOf index prefixKeys node →
      (node, coverageOf index prefixKeys node) ∈ (inOrder (coverage index prefixKeys)).filter
        fun entry => snapshot.presumes entry.1 := by
    intro node heligible hcovers
    exact List.mem_filter.mpr ⟨hentries.mpr ⟨rfl, hcovers⟩, presumes_iff_eligible.mpr heligible⟩
  cases hmax : ((inOrder (coverage index prefixKeys)).filter
      fun entry => snapshot.presumes entry.1).argmax Prod.snd with
  | none =>
    refine .inr ⟨rfl, ?_⟩
    rintro ⟨node, heligible, hcovers⟩
    have hin := hmem heligible hcovers
    rw [List.argmax_eq_none.mp hmax] at hin
    cases hin
  | some entry =>
    obtain ⟨hentry, hpresumed⟩ := List.mem_filter.mp (List.argmax_mem hmax)
    obtain ⟨hcount, hpos⟩ := hentries.mp hentry
    have heligible : Eligible snapshot entry.1 := presumes_iff_eligible.mp hpresumed
    have hcovered : Covered index snapshot prefixKeys := ⟨entry.1, heligible, hcount ▸ hpos⟩
    refine .inl ⟨entry.1, ⟨heligible, fun other hother => ?_⟩, rfl, hcovered⟩
    rw [← hcount]
    rcases Nat.eq_zero_or_pos (coverageOf index prefixKeys other) with hzero | hcovers
    · exact .inl (hzero ▸ hpos)
    · have hin := hmem hother hcovers
      have hle : coverageOf index prefixKeys other ≤ entry.2 := List.le_of_mem_argmax hin hmax
      rcases Nat.lt_or_eq_of_le hle with hlt | heq
      · exact .inl hlt
      · have hsorted := (pairwise_inOrder (coverage index prefixKeys)).filter
          fun entry => snapshot.presumes entry.1
        exact .inr ⟨heq, argmax_first hsorted hmax hin heq.ge⟩

theorem Covered.ne_nil {index : CrossNodeIndex} {snapshot : ClusterState D}
    {prefixKeys : List BlockKey} (h : Covered index snapshot prefixKeys) : prefixKeys ≠ [] := by
  rintro rfl
  obtain ⟨node, -, hcovers⟩ := h
  exact absurd hcovers (lt_irrefl 0)

variable [DoubleArith D] [BEq D]

/-- With prefix reuse, the best holder of a prefix that is not empty is reused. -/
theorem route_of_bestHolder {config : SchedulerConfig} (henabled : config.prefixReuseEnabled = true)
    {index : CrossNodeIndex} {snapshot : ClusterState D} {req : Request} {node : NodeId}
    (hkeys : req.prefixKeys ≠ [])
    (hbest : bestHolder snapshot (inOrder (coverage index req.prefixKeys)) = some node) :
    route config index snapshot req =
      { node := node, reusePrefix := true, recompute := false } := by
  rw [route, henabled, List.isEmpty_eq_false_iff.mpr hkeys, hbest]
  rfl

/-- What a route is on an index and a snapshot. -/
structure RouteOptimal (index : CrossNodeIndex) (snapshot : ClusterState D) : Prop where
  covered : ∀ config : SchedulerConfig, config.prefixReuseEnabled = true → ∀ req : Request,
    Covered index snapshot req.prefixKeys →
    ∃ node, CoversMost index snapshot req.prefixKeys node ∧
      (∀ other, CoversMost index snapshot req.prefixKeys other → other = node) ∧
      route config index snapshot req = { node := node, reusePrefix := true, recompute := false }
  uncovered : ∀ config : SchedulerConfig, config.prefixReuseEnabled = true → ∀ req : Request,
    ¬ Covered index snapshot req.prefixKeys →
    route config index snapshot req =
      { node := choosePlacementNode snapshot, reusePrefix := false, recompute := false }
  disabled : ∀ config : SchedulerConfig, config.prefixReuseEnabled = false →
    ∀ (req : Request) (index' : CrossNodeIndex),
      route config index' snapshot req = route config index snapshot req

/-- **Optimal routes.** With prefix reuse, a route reuses the eligible node that covers most, with
the smallest id of several, and is a placement where no eligible node holds a key of the prefix.
Without it, the index has no influence. -/
theorem route_optimal (index : CrossNodeIndex) (snapshot : ClusterState D) :
    RouteOptimal index snapshot := by
  refine ⟨fun config henabled req hcovered => ?_, fun config henabled req huncovered => ?_,
    fun config hdisabled req index' => ?_⟩
  · rcases bestHolder_coverage index snapshot req.prefixKeys with
      ⟨node, hmost, hbest, -⟩ | ⟨-, huncovered⟩
    · exact ⟨node, hmost, fun other hother => hother.unique hmost,
        route_of_bestHolder henabled hcovered.ne_nil hbest⟩
    · exact absurd hcovered huncovered
  · have hnone : bestHolder snapshot (inOrder (coverage index req.prefixKeys)) = none := by
      rcases bestHolder_coverage index snapshot req.prefixKeys with
        ⟨_, -, -, hcovered⟩ | ⟨hnone, -⟩
      · exact absurd hcovered huncovered
      · exact hnone
    rw [route, hnone, ite_self]
  · rw [route, route, hdisabled, Bool.false_and]
    rfl

end

end TieredKVCache.Scheduler
