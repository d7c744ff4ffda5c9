import TieredKVCache.Core.Types
import TieredKVCache.Lib.AssocSum
import TieredKVCache.Lib.BoundedFifo

/-!
# The prefix prefetcher

`PrefixPrefetcher` of `prefix_prefetcher.cpp`: the successors of the blocks in the sequences seen so
far, and predictions along them. Edges roll out in the order in which their `from` keys came in: an
edge that is overwritten keeps its place. So the queue of the edges is a bounded queue of keys
(`insertEdgeLocked_spec`), and a sequence is predicted as it was recorded unless its own new edges
roll out one that it overwrote (`recordSequence_predicts`).
-/

namespace TieredKVCache.Storage

open Lib

structure PrefixPrefetcher where
  maxEdges : Nat
  successor : AList fun _ : BlockKey => BlockKey
  fifo : List BlockKey

namespace PrefixPrefetcher

/-- `kDefaultMaxEdges`. -/
def defaultMaxEdges : Nat := 2 ^ 16

/-- The constructor; at least one edge has room. -/
def new (maxEdges : Nat := defaultMaxEdges) : PrefixPrefetcher where
  maxEdges := if maxEdges = 0 then 1 else maxEdges
  successor := ∅
  fifo := []

def edgeCount (p : PrefixPrefetcher) : Nat := p.successor.keys.length

/-- The loop of `InsertEdgeLocked` that rolls the oldest edges out. -/
def rollOut (maxEdges : Nat) : (AList fun _ : BlockKey => BlockKey) → List BlockKey →
    (AList fun _ : BlockKey => BlockKey) × List BlockKey
  | successor, [] => (successor, [])
  | successor, front :: fifo =>
    if successor.keys.length > maxEdges then rollOut maxEdges (successor.erase front) fifo
    else (successor, front :: fifo)

def insertEdgeLocked (fromKey toKey : BlockKey) (p : PrefixPrefetcher) : PrefixPrefetcher :=
  let inserted := decide (fromKey ∉ p.successor)
  let p := { p with successor := p.successor.insert fromKey toKey }
  if !inserted then p
  else
    let (successor, fifo) := rollOut p.maxEdges p.successor (p.fifo ++ [fromKey])
    { p with successor, fifo }

/-- The loop of `RecordSequence` over the adjacent keys. -/
def recordPairs : List BlockKey → PrefixPrefetcher → PrefixPrefetcher
  | [], p => p
  | [_], p => p
  | key :: next :: keys, p => recordPairs (next :: keys) (p.insertEdgeLocked key next)

def recordSequence (keys : List BlockKey) (p : PrefixPrefetcher) : PrefixPrefetcher :=
  if keys.length < 2 then p else recordPairs keys p

/-- The loop of `PredictChain`. -/
def follow (successor : AList fun _ : BlockKey => BlockKey) (head : BlockKey) :
    Nat → BlockKey → List BlockKey
  | 0, _ => []
  | budget + 1, cursor =>
    match successor.lookup cursor with
    | none => []
    | some next => if next = head then [] else next :: follow successor head budget next

/-- `reserve` changes nothing of the result where it succeeds. -/
def predictChain (head : BlockKey) (budget : Nat) (p : PrefixPrefetcher) : List BlockKey :=
  follow p.successor head budget head

/-- The inner loop of `PredictChainMulti`; `merged` holds the keys that `seen` holds. -/
def followMerged (successor : AList fun _ : BlockKey => BlockKey) (anchor : BlockKey) :
    Nat → BlockKey → List BlockKey → List BlockKey
  | 0, _, merged => merged
  | budget + 1, cursor, merged =>
    match successor.lookup cursor with
    | none => merged
    | some next =>
      if next = anchor then merged
      else
        let merged := if next ∈ merged then merged else merged ++ [next]
        followMerged successor anchor budget next merged

def predictChainMulti (anchors : List BlockKey) (budget : Nat) (p : PrefixPrefetcher) :
    List BlockKey :=
  anchors.foldl (fun merged anchor => followMerged p.successor anchor budget anchor merged) []

/-! ## The invariant -/

/-- The queue lists the edges, each once, and keeps within its bound. -/
structure Inv (p : PrefixPrefetcher) : Prop where
  pos : 0 < p.maxEdges
  nodup : p.fifo.Nodup
  mem_iff : ∀ key, key ∈ p.fifo ↔ key ∈ p.successor
  length_le : p.fifo.length ≤ p.maxEdges

theorem inv_new (maxEdges : Nat) : (new maxEdges).Inv where
  pos := by
    unfold new
    dsimp only
    split <;> omega
  nodup := List.nodup_nil
  mem_iff key := by simp [new]
  length_le := Nat.zero_le _

variable {p : PrefixPrefetcher} {fromKey toKey : BlockKey}

theorem length_keys {successor : AList fun _ : BlockKey => BlockKey} {fifo : List BlockKey}
    (hnodup : fifo.Nodup) (hmem : ∀ key, key ∈ fifo ↔ key ∈ successor) :
    successor.keys.length = fifo.length :=
  ((List.perm_ext_iff_of_nodup successor.keys_nodup hnodup).mpr fun key =>
    (AList.mem_keys.symm.trans (hmem key).symm)).length_eq

theorem Inv.edgeCount_eq (h : p.Inv) : p.edgeCount = p.fifo.length := length_keys h.nodup h.mem_iff

/-- The loop rolls out the head of the queue, with its edges. -/
theorem rollOut_spec (maxEdges : Nat) {successor : AList fun _ : BlockKey => BlockKey}
    {fifo : List BlockKey} (hnodup : fifo.Nodup) (hmem : ∀ key, key ∈ fifo ↔ key ∈ successor) :
    (rollOut maxEdges successor fifo).2 = fifo.drop (fifo.length - maxEdges) ∧
      (∀ key, key ∈ (rollOut maxEdges successor fifo).2 ↔
        key ∈ (rollOut maxEdges successor fifo).1) ∧
      ∀ key ∈ (rollOut maxEdges successor fifo).2,
        (rollOut maxEdges successor fifo).1.lookup key = successor.lookup key := by
  induction fifo generalizing successor with
  | nil => exact ⟨by simp [rollOut], hmem, fun _ _ => rfl⟩
  | cons front fifo ih =>
    have hlength := length_keys hnodup hmem
    obtain ⟨hfront, hrest⟩ := List.nodup_cons.mp hnodup
    rw [rollOut]
    by_cases hlong : successor.keys.length > maxEdges
    · have hmem' : ∀ key, key ∈ fifo ↔ key ∈ successor.erase front := by
        intro key
        rw [AList.mem_erase, ← hmem, List.mem_cons]
        by_cases hkey : key = front
        · subst hkey
          simp [hfront]
        · simp [hkey]
      obtain ⟨hqueue, hkeys, hlookup⟩ := ih hrest hmem'
      rw [if_pos hlong]
      refine ⟨?_, hkeys, fun key hkey => ?_⟩
      · rw [hqueue, List.length_cons,
          show fifo.length + 1 - maxEdges = fifo.length - maxEdges + 1 by
            rw [List.length_cons] at hlength
            omega, List.drop_succ_cons]
      · have hne : key ≠ front := by
          rintro rfl
          rw [hqueue] at hkey
          exact hfront (List.mem_of_mem_drop hkey)
        rw [hlookup key hkey, AList.lookup_erase_ne hne]
    · rw [if_neg hlong]
      refine ⟨?_, hmem, fun _ _ => rfl⟩
      rw [Nat.sub_eq_zero_of_le (by omega), List.drop_zero]

/-- What an edge changes: the queue is joined by its key, and the edges in it are the old ones but
for this one. -/
theorem insertEdgeLocked_spec (fromKey toKey : BlockKey) (h : p.Inv) :
    (p.insertEdgeLocked fromKey toKey).Inv ∧
      (p.insertEdgeLocked fromKey toKey).maxEdges = p.maxEdges ∧
      (p.insertEdgeLocked fromKey toKey).fifo = join p.maxEdges p.fifo fromKey ∧
      ∀ key ∈ (p.insertEdgeLocked fromKey toKey).fifo,
        (p.insertEdgeLocked fromKey toKey).successor.lookup key =
          if key = fromKey then some toKey else p.successor.lookup key := by
  have hlookup : ∀ key, (p.successor.insert fromKey toKey).lookup key =
      if key = fromKey then some toKey else p.successor.lookup key := by
    intro key
    split
    next heq =>
      rw [heq]
      exact AList.lookup_insert _
    next hne => exact AList.lookup_insert_ne hne
  by_cases hfrom : fromKey ∈ p.fifo
  · have hin := (h.mem_iff fromKey).mp hfrom
    have hrun : p.insertEdgeLocked fromKey toKey =
        { p with successor := p.successor.insert fromKey toKey } := by
      simp [insertEdgeLocked, hin]
    rw [hrun, join, if_pos hfrom]
    refine ⟨⟨h.pos, h.nodup, fun key => ?_, h.length_le⟩, rfl, rfl, fun key _ => hlookup key⟩
    rw [AList.mem_insert, h.mem_iff]
    exact ⟨.inr, fun hkey => hkey.elim (fun heq => heq ▸ hin) id⟩
  · have hout : fromKey ∉ p.successor := fun hin => hfrom ((h.mem_iff fromKey).mpr hin)
    set rolled := rollOut p.maxEdges (p.successor.insert fromKey toKey) (p.fifo ++ [fromKey])
      with hrolled
    have hrun : p.insertEdgeLocked fromKey toKey =
        { p with successor := rolled.1, fifo := rolled.2 } := by
      simp [insertEdgeLocked, hout, hrolled]
    have hmem : ∀ key, key ∈ p.fifo ++ [fromKey] ↔ key ∈ p.successor.insert fromKey toKey := by
      intro key
      rw [AList.mem_insert, List.mem_append, List.mem_singleton, h.mem_iff, or_comm]
    have hnodup : (p.fifo ++ [fromKey]).Nodup :=
      List.nodup_append.mpr ⟨h.nodup, List.nodup_singleton _, fun a ha b hb heq =>
        hfrom (List.mem_singleton.mp hb ▸ heq ▸ ha)⟩
    obtain ⟨hqueue, hkeys, hold⟩ := rollOut_spec p.maxEdges hnodup hmem
    have hjoin : rolled.2 = join p.maxEdges p.fifo fromKey := by
      rw [hrolled, hqueue, join, if_neg hfrom, List.length_append, List.length_singleton]
    rw [hrun]
    refine ⟨⟨h.pos, ?_, hkeys, ?_⟩, rfl, hjoin, fun key hkey => (hold key hkey).trans (hlookup key)⟩
    · rw [hjoin]
      exact nodup_join h.nodup
    · rw [hjoin]
      exact length_join_le h.length_le

/-! ## Recording a sequence -/

/-- After a sequence of distinct keys: the queue is joined by their edges, an edge that is still
there leads on along the sequence, and the other edges in the queue are as before. -/
theorem recordPairs_spec (keys : List BlockKey) (hnodup : keys.Nodup) (h : p.Inv) :
    (recordPairs keys p).Inv ∧
      (recordPairs keys p).fifo = keys.dropLast.foldl (join p.maxEdges) p.fifo ∧
      keys.IsChain (fun key next => key ∈ (recordPairs keys p).fifo →
        (recordPairs keys p).successor.lookup key = some next) ∧
      ∀ key ∈ (recordPairs keys p).fifo, key ∉ keys.dropLast →
        (recordPairs keys p).successor.lookup key = p.successor.lookup key := by
  induction keys generalizing p with
  | nil => exact ⟨h, rfl, .nil, fun _ _ _ => rfl⟩
  | cons first keys ih =>
    cases keys with
    | nil => exact ⟨h, rfl, .singleton _, fun _ _ _ => rfl⟩
    | cons second keys =>
      obtain ⟨hfirst, hrest⟩ := List.nodup_cons.mp hnodup
      obtain ⟨hinv, hmax, hfifo, hlookup⟩ := insertEdgeLocked_spec first second h
      obtain ⟨hinv', hfifo', hchain, hframe⟩ := ih hrest hinv
      rw [hmax] at hfifo'
      have hout : first ∉ (second :: keys).dropLast := fun hmem =>
        hfirst (List.dropLast_subset _ hmem)
      -- an edge in the final queue that the rest of the sequence does not write was there before
      have hbefore : ∀ key ∈ (recordPairs (second :: keys) (p.insertEdgeLocked first second)).fifo,
          key ∉ (second :: keys).dropLast → key ∈ (p.insertEdgeLocked first second).fifo := by
        intro key hkey hkeys
        rw [hfifo'] at hkey
        exact (mem_of_mem_joinAll hkey).resolve_right hkeys
      refine ⟨hinv', ?_, ?_, fun key hkey hkeys => ?_⟩
      · rw [List.dropLast_cons_cons, List.foldl_cons, ← hfifo]
        exact hfifo'
      · refine .cons_cons (fun hin => ?_) hchain
        rw [recordPairs, hframe first hin hout, hlookup first (hbefore first hin hout), if_pos rfl]
      · rw [List.dropLast_cons_cons, List.mem_cons, not_or] at hkeys
        rw [recordPairs, hframe key hkey hkeys.2, hlookup key (hbefore key hkey hkeys.2),
          if_neg hkeys.1]

/-- A chain of which every link holds where its first element satisfies `P`. -/
theorem isChain_iff {α : Type} {P : α → Prop} {R : α → α → Prop} {l : List α}
    (h : l.IsChain fun a b => P a → R a b) (hP : ∀ a b, R a b → P a) :
    l.IsChain R ↔ ∀ a ∈ l.dropLast, P a := by
  induction l with
  | nil => simp
  | cons a l ih =>
    cases l with
    | nil => simp
    | cons b l =>
      obtain ⟨hfirst, hrest⟩ := List.isChain_cons_cons.mp h
      rw [List.isChain_cons_cons, List.dropLast_cons_cons, List.forall_mem_cons, ih hrest]
      exact and_congr_left fun _ => ⟨hP a b, hfirst⟩

/-- A prediction follows a sequence if and only if every key of the sequence leads to the next. -/
theorem follow_iff {successor : AList fun _ : BlockKey => BlockKey} {head cursor : BlockKey}
    {keys : List BlockKey} (hhead : head ∉ keys) :
    (∀ budget, keys.take budget <+: follow successor head budget cursor) ↔
      (cursor :: keys).IsChain fun key next => successor.lookup key = some next := by
  induction keys generalizing cursor with
  | nil => simp
  | cons next keys ih =>
    obtain ⟨hne, hkeys⟩ := not_or.mp (mt List.mem_cons.mpr hhead)
    rw [List.isChain_cons_cons, ← ih hkeys]
    constructor
    · intro hfollows
      have hlookup : successor.lookup cursor = some next := by
        have hone := hfollows 1
        rw [List.take_succ_cons, follow] at hone
        split at hone
        next => cases List.prefix_nil.mp hone
        next found hfound =>
          split at hone
          next => cases List.prefix_nil.mp hone
          next => rw [hfound, (List.cons_prefix_cons.mp hone).1]
      refine ⟨hlookup, fun budget => ?_⟩
      have hmore := hfollows (budget + 1)
      rw [follow, hlookup] at hmore
      simpa [Ne.symm hne] using hmore
    · rintro ⟨hlookup, hrest⟩ budget
      cases budget with
      | zero => exact List.nil_prefix
      | succ budget =>
        rw [follow, hlookup]
        simpa [Ne.symm hne] using hrest budget

/-- No edge that the call overwrites in its place is among the oldest ones, which the new edges of
the call roll out. -/
def Undisturbed (keys : List BlockKey) (p : PrefixPrefetcher) : Prop :=
  ∀ key ∈ keys.dropLast, key ∉ newcomers p.maxEdges p.fifo keys.dropLast →
    key ∉ p.fifo.take
      (p.edgeCount + (newcomers p.maxEdges p.fifo keys.dropLast).length - p.maxEdges)

/-- The state after the calls. -/
def recorded (maxEdges : Nat) (history : List (List BlockKey)) : PrefixPrefetcher :=
  history.foldl (fun p keys => p.recordSequence keys) (new maxEdges)

theorem inv_recordPairs (keys : List BlockKey) (h : p.Inv) : (recordPairs keys p).Inv := by
  induction keys generalizing p with
  | nil => exact h
  | cons first keys ih =>
    cases keys with
    | nil => exact h
    | cons second keys => exact ih (insertEdgeLocked_spec first second h).1

theorem inv_recorded (maxEdges : Nat) (history : List (List BlockKey)) :
    (recorded maxEdges history).Inv := by
  refine List.foldlRecOn history _ (inv_new maxEdges) fun p h keys _ => ?_
  unfold recordSequence
  split
  · exact h
  · exact inv_recordPairs keys h

/-- **Predictions.** After any calls, a sequence of distinct keys whose edges fit is predicted as it
was just recorded if and only if none of its new edges rolls out an edge that it overwrote. -/
theorem recordSequence_predicts (maxEdges : Nat) (history : List (List BlockKey))
    (first second : BlockKey) (rest : List BlockKey) (hnodup : (first :: second :: rest).Nodup)
    (hfit : (first :: second :: rest).length - 1 ≤ (recorded maxEdges history).maxEdges) :
    (∀ budget, (second :: rest).take budget <+:
      ((recorded maxEdges history).recordSequence (first :: second :: rest)).predictChain first
        budget) ↔ (recorded maxEdges history).Undisturbed (first :: second :: rest) := by
  have hinv := inv_recorded maxEdges history
  set p := recorded maxEdges history
  set keys := first :: second :: rest with hkeys
  have hrun : p.recordSequence keys = recordPairs keys p := if_neg (by simp [hkeys])
  obtain ⟨hinv', hfifo, hchain, -⟩ := recordPairs_spec keys hnodup hinv
  have hhead : first ∉ second :: rest := (List.nodup_cons.mp hnodup).1
  have hlength : keys.dropLast.length ≤ p.maxEdges := by rwa [List.length_dropLast]
  rw [hrun]
  calc (∀ budget, (second :: rest).take budget <+: (recordPairs keys p).predictChain first budget) ↔
        keys.IsChain fun key next => (recordPairs keys p).successor.lookup key = some next :=
        follow_iff hhead
    _ ↔ ∀ key ∈ keys.dropLast, key ∈ (recordPairs keys p).fifo :=
        isChain_iff hchain fun key next hnext =>
          (hinv'.mem_iff key).mpr (mem_of_lookup hnext)
    _ ↔ p.Undisturbed keys := by
        unfold Undisturbed
        rw [hfifo, hinv.edgeCount_eq]
        exact forall₂_congr fun key hkey =>
          mem_joinAll_iff hinv.nodup hinv.length_le hlength hkey

theorem recordSequence_predicts_three : [BlockKey.mk 2 0 1, BlockKey.mk 3 0 1].take 2 <+:
    ((recorded 2 [[⟨7, 0, 1⟩, ⟨8, 0, 1⟩]]).recordSequence
      [⟨1, 0, 1⟩, ⟨2, 0, 1⟩, ⟨3, 0, 1⟩]).predictChain ⟨1, 0, 1⟩ 2 :=
  (recordSequence_predicts 2 [[⟨7, 0, 1⟩, ⟨8, 0, 1⟩]] ⟨1, 0, 1⟩ ⟨2, 0, 1⟩ [⟨3, 0, 1⟩] (by decide)
    (by decide)).mpr (by unfold Undisturbed; decide) 2

/-- Room for two edges, and the edge of the first key is the older of two. The call overwrites it in
its place, and its second edge rolls it out. -/
theorem overwritten_rolledOut :
    ¬ ∀ (maxEdges : Nat) (history : List (List BlockKey)) (first second : BlockKey)
      (rest : List BlockKey), (first :: second :: rest).Nodup →
      (first :: second :: rest).length - 1 ≤ (recorded maxEdges history).maxEdges →
      ∀ budget, (second :: rest).take budget <+:
        ((recorded maxEdges history).recordSequence (first :: second :: rest)).predictChain first
          budget := by
  intro hpredicts
  have hempty := hpredicts 2 [[⟨1, 0, 1⟩, ⟨7, 0, 1⟩], [⟨8, 0, 1⟩, ⟨9, 0, 1⟩]] ⟨1, 0, 1⟩ ⟨2, 0, 1⟩
    [⟨3, 0, 1⟩] (by decide) (by decide) 2
  revert hempty
  decide

end PrefixPrefetcher

end TieredKVCache.Storage
