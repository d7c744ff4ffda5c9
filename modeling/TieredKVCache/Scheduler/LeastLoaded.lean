import Mathlib.Data.Prod.Lex
import TieredKVCache.Lib.Extremum
import TieredKVCache.Scheduler.Route

/-!
# The least loaded node

`PickLeastLoaded` compares occupancies and leaves a tie to the ids, in exact arithmetic here: the
node it returns is the least one for the lexicographic order on both (`pickLeastLoaded_eq`). Ids
that differ make this order a strict one, so that neither a placement nor a failover depends on
the order in which the snapshot lists its nodes (`choices_orderless`). The answer for an
unreachable cluster is the empty id, which a node of the cluster may bear too
(`namelessNode_placed`).
-/

namespace TieredKVCache.Scheduler

open Lib

/-- What `PickLeastLoaded` compares. -/
def NodeState.load (node : NodeState ℚ) : ℚ ×ₗ NodeId :=
  toLex (node.occupancyRatio, node.id)

theorem lighter_iff {node best : NodeState ℚ} :
    node.lighter best = true ↔ node.load < best.load := by
  rw [NodeState.load, NodeState.load, Prod.Lex.toLex_lt_toLex, NodeState.lighter]
  simp only [Bool.or_eq_true, Bool.and_eq_true, decide_eq_true_eq, beq_iff_eq]

/-- The loop keeps the first of the least nodes. -/
theorem pickLeastLoaded_eq (nodes : List (NodeState ℚ)) :
    pickLeastLoaded nodes = nodes.argmin NodeState.load := by
  have hstep : ∀ (best : Option (NodeState ℚ)) (node : NodeState ℚ), pickStep best node =
      List.argAux (fun node best => node.load < best.load) best node := by
    intro best node
    cases best with
    | none => rfl
    | some best =>
      show (if node.lighter best = true then some node else some best) =
        if node.load < best.load then some node else some best
      simp only [lighter_iff]
  rw [pickLeastLoaded, funext fun best => funext (hstep best)]
  rfl

theorem leastIn_of_pickLeastLoaded {nodes : List (NodeState ℚ)} {node : NodeState ℚ}
    (h : pickLeastLoaded nodes = some node) : LeastIn NodeState.load nodes node :=
  leastIn_of_argmin ((pickLeastLoaded_eq nodes).symm.trans h)

/-- Distinct ids give distinct loads. -/
theorem injOn_load {nodes : List (NodeState ℚ)} (hids : (nodes.map NodeState.id).Nodup) :
    Set.InjOn NodeState.load {node | node ∈ nodes} := by
  intro node hnode other hother heq
  have hid : node.id = other.id := congrArg (fun load => (ofLex load).2) heq
  exact List.inj_on_of_nodup_map hids hnode hother hid

theorem pickLeastLoaded_perm {nodes nodes' : List (NodeState ℚ)}
    (hids : (nodes.map NodeState.id).Nodup) (hperm : nodes.Perm nodes') :
    pickLeastLoaded nodes' = pickLeastLoaded nodes := by
  rw [pickLeastLoaded_eq, pickLeastLoaded_eq]
  exact argmin_perm (injOn_load hids) hperm

/-! ## Placements -/

/-- Strictly below its own high-water ratio. -/
def NodeState.HasRoom (node : NodeState ℚ) : Prop :=
  node.occupancyRatio < node.highWaterRatio

theorem not_overloaded {node : NodeState ℚ} : (!node.overloaded) = true ↔ node.HasRoom := by
  rw [NodeState.overloaded, NodeState.HasRoom, Bool.not_eq_true', decide_eq_false_iff_not]
  exact not_le

/-- `reachable` of `ChoosePlacementNode`. -/
def reachableNodes (nodes : List (NodeState ℚ)) : List (NodeState ℚ) :=
  nodes.filter fun node => node.reachable

/-- `below_water` of `ChoosePlacementNode`. -/
def roomyNodes (nodes : List (NodeState ℚ)) : List (NodeState ℚ) :=
  (reachableNodes nodes).filter fun node => !node.overloaded

/-- The nodes that a placement chooses among. -/
def offered (nodes : List (NodeState ℚ)) : List (NodeState ℚ) :=
  if roomyNodes nodes = [] then reachableNodes nodes else roomyNodes nodes

theorem choosePlacementNode_eq (state : ClusterState ℚ) :
    choosePlacementNode state =
      ((pickLeastLoaded (offered state.nodes)).map NodeState.id).getD {} := by
  unfold choosePlacementNode
  extract_lets reachable belowWater
  have hoffered : (if belowWater = [] then reachable else belowWater) = offered state.nodes := rfl
  rw [hoffered]
  cases pickLeastLoaded (offered state.nodes) with
  | none => rfl
  | some chosen => rfl

variable {nodes nodes' : List (NodeState ℚ)} {node : NodeState ℚ}

theorem mem_reachableNodes :
    node ∈ reachableNodes nodes ↔ node ∈ nodes ∧ node.reachable = true :=
  List.mem_filter

theorem mem_roomyNodes :
    node ∈ roomyNodes nodes ↔ node ∈ nodes ∧ node.reachable = true ∧ node.HasRoom := by
  rw [roomyNodes, List.mem_filter, mem_reachableNodes, not_overloaded, and_assoc]

theorem offered_sublist (nodes : List (NodeState ℚ)) : (offered nodes).Sublist nodes := by
  unfold offered
  split
  · exact List.filter_sublist
  · exact List.filter_sublist.trans List.filter_sublist

theorem offered_eq_nil : offered nodes = [] ↔ ∀ node ∈ nodes, node.reachable = false := by
  have hreachable : reachableNodes nodes = [] ↔ ∀ node ∈ nodes, node.reachable = false := by
    rw [reachableNodes, List.filter_eq_nil_iff]
    exact forall₂_congr fun _ _ => Bool.not_eq_true _ ▸ Iff.rfl
  unfold offered
  split
  next => exact hreachable
  next hroomy =>
    refine iff_of_false hroomy fun hnone => hroomy ?_
    rw [roomyNodes, hreachable.mpr hnone, List.filter_nil]

theorem perm_offered (hperm : nodes.Perm nodes') : (offered nodes).Perm (offered nodes') := by
  have hreachable : (reachableNodes nodes).Perm (reachableNodes nodes') := hperm.filter _
  have hroomy : (roomyNodes nodes).Perm (roomyNodes nodes') := hreachable.filter _
  unfold offered
  by_cases hnil : roomyNodes nodes = []
  · have hnil' : roomyNodes nodes' = [] := by
      rw [hnil] at hroomy
      exact hroomy.nil_eq.symm
    rw [if_pos hnil, if_pos hnil']
    exact hreachable
  · have hnil' : roomyNodes nodes' ≠ [] := by
      intro heq
      rw [heq] at hroomy
      exact hnil hroomy.eq_nil
    rw [if_neg hnil, if_neg hnil']
    exact hroomy

/-- The least of the nodes on offer is chosen, and the empty id where there is none. -/
theorem choosePlacementNode_least (state : ClusterState ℚ) :
    (∃ node, LeastIn NodeState.load (offered state.nodes) node ∧
        choosePlacementNode state = node.id) ∨
      (∀ node ∈ state.nodes, node.reachable = false) ∧ choosePlacementNode state = {} := by
  rw [choosePlacementNode_eq]
  cases hpick : pickLeastLoaded (offered state.nodes) with
  | none =>
    rw [pickLeastLoaded_eq, List.argmin_eq_none, offered_eq_nil] at hpick
    exact .inr ⟨hpick, rfl⟩
  | some node => exact .inl ⟨node, leastIn_of_pickLeastLoaded hpick, rfl⟩

theorem choosePlacementNode_perm (hids : (nodes.map NodeState.id).Nodup)
    (hperm : nodes.Perm nodes') :
    choosePlacementNode ⟨nodes'⟩ = choosePlacementNode ⟨nodes⟩ := by
  have hoffered : ((offered nodes).map NodeState.id).Nodup :=
    hids.sublist ((offered_sublist nodes).map _)
  rw [choosePlacementNode_eq, choosePlacementNode_eq,
    pickLeastLoaded_perm hoffered (perm_offered hperm)]

/-! ## Failovers -/

/-- `reachable_holders` of `ResolveOnFailure`. -/
def reachableHolders (index : CrossNodeIndex) (key : BlockKey) (state : ClusterState ℚ) :
    List (NodeState ℚ) :=
  (index.lookup key).filterMap fun holder =>
    (state.find holder).filter fun entry => entry.reachable

theorem resolveOnFailure_eq (index : CrossNodeIndex) (key : BlockKey) (state : ClusterState ℚ) :
    resolveOnFailure index key state =
      ((pickLeastLoaded (reachableHolders index key state)).map fun chosen =>
        { node := chosen.id, reusePrefix := true, recompute := false }).getD
        { node := {}, reusePrefix := false, recompute := true } := by
  unfold resolveOnFailure
  extract_lets holders
  have hholders : holders = reachableHolders index key state := by
    refine congrArg (fun f => (index.lookup key).filterMap f) (funext fun holder => ?_)
    cases state.find holder with
    | none => rfl
    | some entry => rfl
  rw [hholders]
  cases pickLeastLoaded (reachableHolders index key state) with
  | none => rfl
  | some chosen => rfl

/-- Where the ids differ, the first entry for a node is the entry for this node. -/
theorem find_eq_some_iff (state : ClusterState ℚ) {holder : NodeId}
    (hids : (state.nodes.map NodeState.id).Nodup) :
    state.find holder = some node ↔ node ∈ state.nodes ∧ node.id = holder := by
  constructor
  · intro hfind
    exact ⟨List.mem_of_find?_eq_some hfind, ClusterState.id_of_find hfind⟩
  · rintro ⟨hmem, hid⟩
    cases hfind : state.find holder with
    | none =>
      have hno := List.find?_eq_none.mp hfind node hmem
      exact absurd (decide_eq_true hid) hno
    | some entry =>
      have hentry : entry.id = node.id := (ClusterState.id_of_find hfind).trans hid.symm
      have hsame := List.inj_on_of_nodup_map hids (List.mem_of_find?_eq_some hfind) hmem hentry
      exact congrArg some hsame

theorem find_perm (hids : (nodes.map NodeState.id).Nodup) (hperm : nodes.Perm nodes')
    (holder : NodeId) :
    ClusterState.find ⟨nodes'⟩ holder = ClusterState.find ⟨nodes⟩ holder := by
  have hids' : (nodes'.map NodeState.id).Nodup := (hperm.map _).nodup hids
  ext entry
  rw [find_eq_some_iff ⟨nodes'⟩ hids', find_eq_some_iff ⟨nodes⟩ hids]
  exact and_congr_left fun _ => hperm.mem_iff.symm

theorem mem_reachableHolders {index : CrossNodeIndex} {key : BlockKey} (state : ClusterState ℚ)
    (hids : (state.nodes.map NodeState.id).Nodup) :
    node ∈ reachableHolders index key state ↔
      node ∈ state.nodes ∧ node.reachable = true ∧ node.id ∈ index.lookup key := by
  unfold reachableHolders
  rw [List.mem_filterMap]
  constructor
  · rintro ⟨holder, hholder, hentry⟩
    obtain ⟨hfind, hreachable⟩ := Option.filter_eq_some_iff.mp hentry
    obtain ⟨hmem, hid⟩ := (find_eq_some_iff state hids).mp hfind
    exact ⟨hmem, hreachable, hid ▸ hholder⟩
  · rintro ⟨hmem, hreachable, hholder⟩
    refine ⟨node.id, hholder, Option.filter_eq_some_iff.mpr ⟨?_, hreachable⟩⟩
    exact (find_eq_some_iff state hids).mpr ⟨hmem, rfl⟩

theorem resolveOnFailure_perm (hids : (nodes.map NodeState.id).Nodup)
    (hperm : nodes.Perm nodes') (index : CrossNodeIndex) (key : BlockKey) :
    resolveOnFailure index key ⟨nodes'⟩ = resolveOnFailure index key ⟨nodes⟩ := by
  have hsame : reachableHolders index key ⟨nodes'⟩ = reachableHolders index key ⟨nodes⟩ := by
    unfold reachableHolders
    rw [funext (find_perm hids hperm)]
  rw [resolveOnFailure_eq, resolveOnFailure_eq, hsame]

theorem resolveOnFailure_least (index : CrossNodeIndex) (key : BlockKey) (state : ClusterState ℚ) :
    (∃ node, LeastIn NodeState.load (reachableHolders index key state) node ∧
        resolveOnFailure index key state =
          { node := node.id, reusePrefix := true, recompute := false }) ∨
      reachableHolders index key state = [] ∧ resolveOnFailure index key state =
        { node := {}, reusePrefix := false, recompute := true } := by
  rw [resolveOnFailure_eq]
  cases hpick : pickLeastLoaded (reachableHolders index key state) with
  | none =>
    rw [pickLeastLoaded_eq, List.argmin_eq_none] at hpick
    exact .inr ⟨hpick, rfl⟩
  | some node => exact .inl ⟨node, leastIn_of_pickLeastLoaded hpick, rfl⟩

/-! ## Both -/

/-- The least node by occupancy and id of those with a property. -/
def LeastOf (P : NodeState ℚ → Prop) (node : NodeState ℚ) : Prop :=
  P node ∧ ∀ other, P other → node.load ≤ other.load

/-- What the choices on a snapshot are, and that its order does not matter. -/
structure ChoicesOrderless (nodes : List (NodeState ℚ)) : Prop where
  placement_perm : ∀ nodes', nodes.Perm nodes' →
    choosePlacementNode ⟨nodes'⟩ = choosePlacementNode ⟨nodes⟩
  roomy : (∃ node ∈ nodes, node.reachable = true ∧ node.HasRoom) →
    ∃ node, LeastOf (fun node => node ∈ nodes ∧ node.reachable = true ∧ node.HasRoom) node ∧
      choosePlacementNode ⟨nodes⟩ = node.id
  full : (∃ node ∈ nodes, node.reachable = true) →
    (¬ ∃ node ∈ nodes, node.reachable = true ∧ node.HasRoom) →
    ∃ node, LeastOf (fun node => node ∈ nodes ∧ node.reachable = true) node ∧
      choosePlacementNode ⟨nodes⟩ = node.id
  unreachable : (∀ node ∈ nodes, node.reachable = false) → choosePlacementNode ⟨nodes⟩ = {}
  empty : choosePlacementNode ⟨nodes⟩ = {} → (∀ node ∈ nodes, node.reachable = false) ∨
    ∃ node ∈ nodes, node.reachable = true ∧ node.id = {}
  failover_perm : ∀ nodes', nodes.Perm nodes' → ∀ index key,
    resolveOnFailure index key ⟨nodes'⟩ = resolveOnFailure index key ⟨nodes⟩
  recompute_iff : ∀ index key, (resolveOnFailure index key ⟨nodes⟩).recompute = true ↔
    ¬ ∃ node ∈ nodes, node.reachable = true ∧ node.id ∈ index.lookup key
  failover : ∀ index key,
    (∃ node ∈ nodes, node.reachable = true ∧ node.id ∈ index.lookup key) →
    ∃ node, LeastOf (fun node => node ∈ nodes ∧ node.reachable = true ∧
        node.id ∈ index.lookup key) node ∧
      resolveOnFailure index key ⟨nodes⟩ =
        { node := node.id, reusePrefix := true, recompute := false }

theorem LeastOf.of_leastIn {P : NodeState ℚ → Prop} (h : LeastIn NodeState.load nodes node)
    (hP : ∀ node, node ∈ nodes ↔ P node) : LeastOf P node :=
  ⟨(hP node).mp h.1, fun other hother => h.2 other ((hP other).mpr hother)⟩

/-- Where the nodes on offer are those with a property and there is one, a least one is chosen. -/
theorem choosePlacementNode_of_offered {P : NodeState ℚ → Prop}
    (hoffered : ∀ node, node ∈ offered nodes ↔ P node) (hsome : ∃ node, P node) :
    ∃ node, LeastOf P node ∧ choosePlacementNode ⟨nodes⟩ = node.id := by
  rcases choosePlacementNode_least ⟨nodes⟩ with ⟨node, hleast, hnode⟩ | ⟨hnone, -⟩
  · exact ⟨node, .of_leastIn hleast hoffered, hnode⟩
  · obtain ⟨node, hnode⟩ := hsome
    have hmem : node ∈ offered nodes := (hoffered node).mpr hnode
    rw [offered_eq_nil.mpr hnone] at hmem
    cases hmem

/-- **Choices without order.** Where the ids of the nodes differ, a placement and a failover name
the least loaded of the nodes they may choose, in whichever order the snapshot lists them. -/
theorem choices_orderless (hids : (nodes.map NodeState.id).Nodup) : ChoicesOrderless nodes := by
  have hholders : ∀ (index : CrossNodeIndex) (key : BlockKey) (node : NodeState ℚ),
      node ∈ reachableHolders index key ⟨nodes⟩ ↔
        node ∈ nodes ∧ node.reachable = true ∧ node.id ∈ index.lookup key :=
    fun _ _ _ => mem_reachableHolders ⟨nodes⟩ hids
  refine ⟨fun _ hperm => choosePlacementNode_perm hids hperm, ?_, ?_, ?_, ?_,
    fun _ hperm => resolveOnFailure_perm hids hperm, ?_, ?_⟩
  · rintro ⟨roomy, hroomy⟩
    have hmem : roomy ∈ roomyNodes nodes := mem_roomyNodes.mpr hroomy
    have hoffered : offered nodes = roomyNodes nodes := if_neg (List.ne_nil_of_mem hmem)
    exact choosePlacementNode_of_offered (fun _ => hoffered ▸ mem_roomyNodes) ⟨roomy, hroomy⟩
  · intro hreachable hfull
    have hnil : roomyNodes nodes = [] :=
      List.eq_nil_iff_forall_not_mem.mpr fun node hmem => hfull ⟨node, mem_roomyNodes.mp hmem⟩
    have hoffered : offered nodes = reachableNodes nodes := if_pos hnil
    exact choosePlacementNode_of_offered (fun _ => hoffered ▸ mem_reachableNodes) hreachable
  · intro hnone
    rcases choosePlacementNode_least ⟨nodes⟩ with ⟨node, hleast, -⟩ | ⟨-, hempty⟩
    · rw [LeastIn, offered_eq_nil.mpr hnone] at hleast
      cases hleast.1
    · exact hempty
  · intro hempty
    rcases choosePlacementNode_spec ⟨nodes⟩ with ⟨node, hmem, hreachable, hnode⟩ | ⟨hnone, -⟩
    · exact .inr ⟨node, hmem, hreachable, hnode.symm.trans hempty⟩
    · exact .inl hnone
  · intro index key
    rcases resolveOnFailure_least index key ⟨nodes⟩ with ⟨node, hleast, hrun⟩ | ⟨hnil, hrun⟩
    · rw [hrun]
      have hnode := (hholders index key node).mp hleast.1
      exact iff_of_false Bool.false_ne_true fun hno => hno ⟨node, hnode⟩
    · rw [hrun]
      refine iff_of_true rfl ?_
      rintro ⟨node, hnode⟩
      have hmem := (hholders index key node).mpr hnode
      rw [hnil] at hmem
      cases hmem
  · rintro index key ⟨holder, hholder⟩
    rcases resolveOnFailure_least index key ⟨nodes⟩ with ⟨node, hleast, hrun⟩ | ⟨hnil, -⟩
    · exact ⟨node, .of_leastIn hleast (hholders index key), hrun⟩
    · have hmem := (hholders index key holder).mpr hholder
      rw [hnil] at hmem
      cases hmem

/-- Two reachable nodes with room, of the same occupancy. -/
def evenNodes : List (NodeState ℚ) :=
  [⟨⟨"b"⟩, true, 1 / 2, 1⟩, ⟨⟨"a"⟩, true, 1 / 2, 1⟩]

theorem evenNodes_orderless : (evenNodes.map NodeState.id).Nodup ∧ ChoicesOrderless evenNodes :=
  ⟨by decide +kernel, choices_orderless (by decide +kernel)⟩

/-- One reachable node with room, whose id is empty. -/
def namelessNode : ClusterState ℚ := ⟨[⟨{}, true, 0, 1⟩]⟩

/-- The placement is the empty id though a node is reachable. -/
theorem namelessNode_placed :
    (namelessNode.nodes.map NodeState.id).Nodup ∧
      ¬ (choosePlacementNode namelessNode = {} ↔
        ∀ node ∈ namelessNode.nodes, node.reachable = false) := by
  decide +kernel

end TieredKVCache.Scheduler
