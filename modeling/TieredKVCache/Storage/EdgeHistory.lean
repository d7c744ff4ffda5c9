import TieredKVCache.Lib.LastChange
import TieredKVCache.Storage.PrefixPrefetcher

/-!
# The history of the edges

What the calls of `RecordSequence` have left of the edges they recorded. All calls together record
a list of edges, one after the other (`recorded_eq_foldl`). The queue then holds the last keys that
came in while they had no edge (`fifo_recordEdges`), and an edge that is still there is the last one
recorded for its key (`Newest`). The bound is that of the constructor, which makes room for one
edge where none is asked for (`noRoom_retained`).
-/

namespace TieredKVCache.Storage.PrefixPrefetcher

open Lib

/-- The adjacent keys of a sequence. -/
def adjacent (keys : List BlockKey) : List (BlockKey × BlockKey) := keys.zip keys.tail

def recordEdges (edges : List (BlockKey × BlockKey)) (p : PrefixPrefetcher) : PrefixPrefetcher :=
  edges.foldl (fun p edge => p.insertEdgeLocked edge.1 edge.2) p

/-- All edges that the calls record. -/
def edgesOf (history : List (List BlockKey)) : List (BlockKey × BlockKey) :=
  history.flatMap adjacent

/-- The keys that come in while they have no edge. -/
def insertions : List (BlockKey × BlockKey) → PrefixPrefetcher → List BlockKey
  | [], _ => []
  | edge :: edges, p =>
    let rest := insertions edges (p.insertEdgeLocked edge.1 edge.2)
    if edge.1 ∈ p.successor then rest else edge.1 :: rest

/-- The last edge recorded for a key. -/
def lastRecorded (edges : List (BlockKey × BlockKey)) (key : BlockKey) :
    Option (BlockKey × BlockKey) :=
  (edges.filter fun edge => edge.1 = key).getLast?

theorem lastRecorded_snoc (edges : List (BlockKey × BlockKey)) (fromKey toKey key : BlockKey) :
    lastRecorded (edges ++ [(fromKey, toKey)]) key =
      if key = fromKey then some (key, toKey) else lastRecorded edges key := by
  unfold lastRecorded
  rw [getLast?_filter_snoc]
  by_cases h : key = fromKey
  · subst h
    rw [if_pos rfl]
  · rw [if_neg h, if_neg (Ne.symm h)]

theorem recordPairs_eq (keys : List BlockKey) (p : PrefixPrefetcher) :
    recordPairs keys p = recordEdges (adjacent keys) p := by
  induction keys generalizing p with
  | nil => rfl
  | cons first keys ih =>
    cases keys with
    | nil => rfl
    | cons second keys => exact ih (p.insertEdgeLocked first second)

theorem recordSequence_eq (keys : List BlockKey) (p : PrefixPrefetcher) :
    p.recordSequence keys = recordEdges (adjacent keys) p := by
  unfold recordSequence
  split
  next hshort =>
    match keys with
    | [] => rfl
    | [_] => rfl
    | _ :: _ :: keys =>
      rw [List.length_cons, List.length_cons] at hshort
      omega
  next => exact recordPairs_eq keys p

theorem recorded_eq_foldl (maxEdges : Nat) (history : List (List BlockKey)) :
    recorded maxEdges history = recordEdges (edgesOf history) (new maxEdges) := by
  rw [recorded, recordEdges, edgesOf, List.foldl_flatMap]
  simp only [recordSequence_eq]
  rfl

variable {p : PrefixPrefetcher} {edges : List (BlockKey × BlockKey)}

/-! ## What is left of the edges -/

theorem inv_recordEdges (edges : List (BlockKey × BlockKey)) (h : p.Inv) :
    (recordEdges edges p).Inv ∧ (recordEdges edges p).maxEdges = p.maxEdges := by
  induction edges generalizing p with
  | nil => exact ⟨h, rfl⟩
  | cons edge edges ih =>
    obtain ⟨hinv, hmax, -⟩ := insertEdgeLocked_spec edge.1 edge.2 h
    obtain ⟨hinv', hmax'⟩ := ih hinv
    exact ⟨hinv', hmax'.trans hmax⟩

theorem fifo_recordEdges (edges : List (BlockKey × BlockKey)) (h : p.Inv) :
    (recordEdges edges p).fifo = (p.fifo ++ insertions edges p).rtake p.maxEdges := by
  induction edges generalizing p with
  | nil =>
    rw [insertions, List.append_nil, List.rtake, Nat.sub_eq_zero_of_le h.length_le, List.drop_zero]
    rfl
  | cons edge edges ih =>
    obtain ⟨hinv, hmax, hfifo, -⟩ := insertEdgeLocked_spec edge.1 edge.2 h
    have hrest := ih hinv
    rw [hfifo, hmax] at hrest
    rw [recordEdges, List.foldl_cons, ← recordEdges, hrest, insertions]
    by_cases hedge : edge.1 ∈ p.fifo
    · rw [join, if_pos hedge, if_pos ((h.mem_iff _).mp hedge)]
    · have hjoin : join p.maxEdges p.fifo edge.1 = (p.fifo ++ [edge.1]).rtake p.maxEdges := by
        rw [join, if_neg hedge, List.rtake, List.length_append, List.length_singleton]
      rw [hjoin, if_neg fun hmem => hedge ((h.mem_iff _).mpr hmem), rtake_rtake_append,
        List.append_assoc, List.singleton_append]

/-- Every edge that is there is the last one recorded for its key. -/
def Newest (edges : List (BlockKey × BlockKey)) (p : PrefixPrefetcher) : Prop :=
  ∀ key toKey, p.successor.lookup key = some toKey → lastRecorded edges key = some (key, toKey)

theorem Newest.insertEdgeLocked (hnewest : Newest edges p) (h : p.Inv) (fromKey toKey : BlockKey) :
    Newest (edges ++ [(fromKey, toKey)]) (p.insertEdgeLocked fromKey toKey) := by
  obtain ⟨hinv, -, hfifo, hlookup⟩ := insertEdgeLocked_spec fromKey toKey h
  intro key toKey' hkey
  have hqueued : key ∈ (p.insertEdgeLocked fromKey toKey).fifo :=
    (hinv.mem_iff key).mpr (mem_of_lookup hkey)
  rw [hlookup key hqueued] at hkey
  rw [lastRecorded_snoc]
  split
  next heq =>
    rw [if_pos heq] at hkey
    rw [Option.some.inj hkey]
  next hne =>
    rw [if_neg hne] at hkey
    exact hnewest key toKey' hkey

theorem newest_recordEdges (edges : List (BlockKey × BlockKey)) (h : p.Inv)
    (hempty : p.successor = ∅) : Newest edges (recordEdges edges p) := by
  induction edges using List.reverseRecOn with
  | nil =>
    intro key toKey hkey
    rw [recordEdges, List.foldl_nil, hempty] at hkey
    cases hkey
  | append_singleton edges edge ih =>
    rw [recordEdges, List.foldl_append, List.foldl_cons, List.foldl_nil, ← recordEdges]
    exact ih.insertEdgeLocked (inv_recordEdges edges h).1 edge.1 edge.2

/-! ## The calls -/

/-- What the calls leave, with room for so many edges. -/
structure Retains (room : Nat) (history : List (List BlockKey)) (p start : PrefixPrefetcher) :
    Prop where
  nodup : p.fifo.Nodup
  mem_iff : ∀ key, key ∈ p.fifo ↔ key ∈ p.successor
  bounded : p.edgeCount ≤ room
  newest : Newest (edgesOf history) p
  retained : ∀ key, key ∈ p.successor ↔ key ∈ (insertions (edgesOf history) start).rtake room

theorem maxEdges_new (maxEdges : Nat) : (new maxEdges).maxEdges = max 1 maxEdges := by
  unfold new
  dsimp only
  split <;> omega

/-- **Edges.** After any calls, the queue lists the keys of the edges, each once, the edges are the
last ones recorded for their keys, and these keys are the last ones that came in without an edge. -/
theorem recorded_retains (maxEdges : Nat) (history : List (List BlockKey)) :
    Retains (max 1 maxEdges) history (recorded maxEdges history) (new maxEdges) := by
  have hinv := inv_recorded maxEdges history
  have hnew := inv_new maxEdges
  have hrun := recorded_eq_foldl maxEdges history
  have hmax : (recorded maxEdges history).maxEdges = max 1 maxEdges := by
    rw [hrun, (inv_recordEdges _ hnew).2, maxEdges_new]
  have hfifo : (recorded maxEdges history).fifo =
      (insertions (edgesOf history) (new maxEdges)).rtake (max 1 maxEdges) := by
    rw [hrun, fifo_recordEdges _ hnew, maxEdges_new]
    rfl
  refine ⟨hinv.nodup, hinv.mem_iff, ?_, ?_, fun key => ?_⟩
  · rw [hinv.edgeCount_eq, ← hmax]
    exact hinv.length_le
  · rw [hrun]
    exact newest_recordEdges _ hnew rfl
  · rw [← hinv.mem_iff, hfifo]

/-- One edge has room, though none is asked for. -/
theorem noRoom_retained : ¬ ∀ (maxEdges : Nat) (history : List (List BlockKey)) (key : BlockKey),
    key ∈ (recorded maxEdges history).successor ↔
      key ∈ (insertions (edgesOf history) (new maxEdges)).rtake maxEdges := by
  intro hretained
  have hkey := hretained 0 [[⟨1, 0, 1⟩, ⟨2, 0, 1⟩]] ⟨1, 0, 1⟩
  revert hkey
  decide

end TieredKVCache.Storage.PrefixPrefetcher
