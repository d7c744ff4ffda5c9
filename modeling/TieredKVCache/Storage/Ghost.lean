import TieredKVCache.Lib.BoundedFifo
import TieredKVCache.Lib.LastChange
import TieredKVCache.Storage.State

/-!
# The ghost queue

`ghost_` and `ghost_fifo_` under sequences of `GhostInsertLocked` and `GhostConsumeLocked`, for any
capacity. The queue consists of the keys inserted last (`fifo_eq`), and a key that leaves it leaves
the set. `GhostConsumeLocked` takes a key from the set and leaves its entry in the queue. While no
key is inserted that still has such an entry, each key has one entry, so that a ghost stays for as
many other keys as the capacity (`ghosts_lawful`). A key that is inserted while it has an old entry
leaves with the old one, and the law fails.
-/

namespace TieredKVCache.Storage

open Lib

/-! ## Definitions -/

/-- `ghost_` and `ghost_fifo_`. -/
structure Ghosts where
  ghost : Finset BlockKey := ∅
  fifo : List BlockKey := []
deriving DecidableEq

namespace Ghosts

/-- `GhostInsertLocked`, for any value of `kGhostCapacity`. -/
def insertKey (capacity : Nat) (key : BlockKey) (s : Ghosts) : Ghosts :=
  if key ∈ s.ghost then s
  else
    let (ghost, fifo) := ghostTrim capacity (insert key s.ghost) (s.fifo ++ [key])
    { ghost, fifo }

/-- `GhostConsumeLocked`. -/
def consume (key : BlockKey) (s : Ghosts) : Bool × Ghosts :=
  if key ∈ s.ghost then (true, { s with ghost := s.ghost.erase key }) else (false, s)

end Ghosts

def State.ghosts (s : State) : Ghosts := ⟨s.ghost, s.ghostFifo⟩

theorem ghosts_ghostInsertLocked (key : BlockKey) (s : State) :
    (ghostInsertLocked key s).ghosts = s.ghosts.insertKey ghostCapacity key := by
  unfold ghostInsertLocked Ghosts.insertKey State.ghosts
  by_cases h : key ∈ s.ghost
  · simp only [if_pos h]
  · simp only [if_neg h]

theorem ghosts_ghostConsumeLocked (key : BlockKey) (s : State) :
    ((ghostConsumeLocked key s).1, (ghostConsumeLocked key s).2.ghosts) = s.ghosts.consume key := by
  unfold ghostConsumeLocked Ghosts.consume State.ghosts
  by_cases h : key ∈ s.ghost
  · simp only [if_pos h]
  · simp only [if_neg h]

inductive GhostOp where
  | insert (key : BlockKey)
  | consume (key : BlockKey)
deriving DecidableEq

namespace GhostOp

def run (capacity : Nat) (s : Ghosts) : GhostOp → Ghosts
  | insert key => s.insertKey capacity key
  | consume key => (s.consume key).2

/-- The key that a call inserts or takes from the set; a call that finds nothing to do has none. -/
def change (s : Ghosts) : GhostOp → Option (BlockKey × Bool)
  | insert key => if key ∈ s.ghost then none else some (key, true)
  | consume key => if key ∈ s.ghost then some (key, false) else none

end GhostOp

/-- The state after a sequence of calls. -/
def ghostsAfter (capacity : Nat) (ops : List GhostOp) : Ghosts :=
  ops.foldl (GhostOp.run capacity) {}

/-- The changes of a sequence of calls, oldest first. -/
def ghostChanges (capacity : Nat) (s : Ghosts) : List GhostOp → List (BlockKey × Bool)
  | [] => []
  | op :: ops => (op.change s).toList ++ ghostChanges capacity (op.run capacity s) ops

/-- The keys that were inserted, oldest first. -/
def insertedKeys (changes : List (BlockKey × Bool)) : List BlockKey :=
  (changes.filter fun change => change.2).map Prod.fst

/-- A key stays a ghost until it is consumed or `capacity` other keys were inserted after it. -/
def GhostLaw (capacity : Nat) (ops : List GhostOp) : Prop :=
  ∀ before key after, ghostChanges capacity {} ops = before ++ (key, true) :: after →
    (∀ inserts, (key, inserts) ∉ after) →
    key ∈ (ghostsAfter capacity ops).ghost ∨ capacity ≤ (insertedKeys after).toFinset.card

/-- No call inserts a key that has an entry left in the queue. -/
def FreshInserts (capacity : Nat) (ops : List GhostOp) : Prop :=
  ∀ before key after, ops = before ++ .insert key :: after →
    key ∉ (ghostsAfter capacity before).ghost → key ∉ (ghostsAfter capacity before).fifo

/-! ## One call -/

theorem ghostTrim_eq (capacity : Nat) (ghost : Finset BlockKey) (fifo : List BlockKey) :
    ghostTrim capacity ghost fifo =
      (ghost \ (fifo.rdrop capacity).toFinset, fifo.rtake capacity) := by
  induction fifo generalizing ghost with
  | nil => simp [ghostTrim]
  | cons key fifo ih =>
    rw [ghostTrim]
    by_cases h : (key :: fifo).length > capacity
    · have hlength : (key :: fifo).length - capacity = (fifo.length - capacity) + 1 := by
        rw [List.length_cons] at h ⊢
        omega
      rw [if_pos h, ih, List.rdrop, List.rdrop, List.rtake, List.rtake, hlength,
        List.take_succ_cons, List.drop_succ_cons, List.toFinset_cons]
      refine Prod.ext ?_ rfl
      ext other
      simp only [Finset.mem_sdiff, Finset.mem_erase, Finset.mem_insert]
      tauto
    · have hlength : (key :: fifo).length - capacity = 0 := by omega
      rw [if_neg h, List.rdrop, List.rtake, hlength, List.take_zero, List.drop_zero]
      simp

variable {capacity : Nat} {key key' : BlockKey} {s : Ghosts} {ops : List GhostOp}

theorem insertKey_of_mem (h : key ∈ s.ghost) : s.insertKey capacity key = s :=
  if_pos h

theorem insertKey_of_notMem (h : key ∉ s.ghost) :
    s.insertKey capacity key =
      { ghost := insert key s.ghost \ ((s.fifo ++ [key]).rdrop capacity).toFinset
        fifo := (s.fifo ++ [key]).rtake capacity } := by
  rw [Ghosts.insertKey, if_neg h, ghostTrim_eq]

theorem consume_fifo : (s.consume key).2.fifo = s.fifo := by
  unfold Ghosts.consume
  split
  · rfl
  · rfl

theorem mem_consume : key' ∈ (s.consume key).2.ghost ↔ key' ≠ key ∧ key' ∈ s.ghost := by
  unfold Ghosts.consume
  split
  · exact Finset.mem_erase
  next h =>
    refine (and_iff_right_of_imp fun hkey' heq => ?_).symm
    exact h (heq ▸ hkey')

/-! ## Sequences of calls -/

theorem ghostsAfter_append (ops ops' : List GhostOp) :
    ghostsAfter capacity (ops ++ ops') =
      ops'.foldl (GhostOp.run capacity) (ghostsAfter capacity ops) :=
  List.foldl_append

theorem ghostsAfter_snoc (ops : List GhostOp) (op : GhostOp) :
    ghostsAfter capacity (ops ++ [op]) = op.run capacity (ghostsAfter capacity ops) :=
  ghostsAfter_append ops [op]

theorem ghostChanges_append (s : Ghosts) (ops ops' : List GhostOp) :
    ghostChanges capacity s (ops ++ ops') =
      ghostChanges capacity s ops ++
        ghostChanges capacity (ops.foldl (GhostOp.run capacity) s) ops' := by
  induction ops generalizing s with
  | nil => rfl
  | cons op ops ih =>
    rw [List.cons_append, ghostChanges, ghostChanges, ih, List.append_assoc, List.foldl_cons]

theorem ghostChanges_snoc (ops : List GhostOp) (op : GhostOp) :
    ghostChanges capacity {} (ops ++ [op]) =
      ghostChanges capacity {} ops ++ (op.change (ghostsAfter capacity ops)).toList := by
  rw [ghostChanges_append, ghostChanges, ghostChanges, List.append_nil]
  rfl

theorem insertedKeys_append (changes changes' : List (BlockKey × Bool)) :
    insertedKeys (changes ++ changes') = insertedKeys changes ++ insertedKeys changes' := by
  rw [insertedKeys, List.filter_append, List.map_append]
  rfl

theorem insertedKeys_cons (key : BlockKey) (changes : List (BlockKey × Bool)) :
    insertedKeys ((key, true) :: changes) = key :: insertedKeys changes :=
  rfl

/-- The queue consists of the last keys that were inserted. -/
theorem fifo_eq (capacity : Nat) (ops : List GhostOp) :
    (ghostsAfter capacity ops).fifo =
      (insertedKeys (ghostChanges capacity {} ops)).rtake capacity := by
  induction ops using List.reverseRecOn with
  | nil => exact List.drop_nil.symm
  | append_singleton ops op ih =>
    rw [ghostsAfter_snoc, ghostChanges_snoc]
    cases op with
    | insert key =>
      rw [GhostOp.run, GhostOp.change]
      by_cases h : key ∈ (ghostsAfter capacity ops).ghost
      · rw [insertKey_of_mem h, if_pos h, Option.toList_none, List.append_nil, ih]
      · rw [insertKey_of_notMem h, if_neg h, Option.toList_some, insertedKeys_append, ih]
        exact rtake_rtake_concat _ capacity key
    | consume key =>
      have hnone : insertedKeys
          (GhostOp.change (ghostsAfter capacity ops) (.consume key)).toList = [] := by
        rw [GhostOp.change]
        split
        · rfl
        · rfl
      rw [GhostOp.run, consume_fifo, ih, insertedKeys_append, hnone, List.append_nil]

theorem length_fifo_le (capacity : Nat) (ops : List GhostOp) :
    (ghostsAfter capacity ops).fifo.length ≤ capacity := by
  rw [fifo_eq]
  exact length_rtake_le _ capacity

/-! ## The law -/

/-- Each key has one entry, and the ghosts are the queued keys that were not consumed. -/
structure OneEntry (changes : List (BlockKey × Bool)) (s : Ghosts) : Prop where
  nodup : s.fifo.Nodup
  mem_iff : ∀ key, key ∈ s.ghost ↔ key ∈ s.fifo ∧ LastSet changes key

theorem OneEntry.insertKey {changes : List (BlockKey × Bool)} (h : OneEntry changes s)
    (hghost : key ∉ s.ghost) (hfifo : key ∉ s.fifo) :
    OneEntry (changes ++ [(key, true)]) (s.insertKey capacity key) := by
  rw [insertKey_of_notMem hghost]
  have hnodup : (s.fifo ++ [key]).Nodup :=
    List.nodup_append.mpr ⟨h.nodup, List.nodup_singleton key, fun a ha b hb heq =>
      hfifo (List.mem_singleton.mp hb ▸ heq ▸ ha)⟩
  have hsplit := rdrop_append_rtake (s.fifo ++ [key]) capacity
  refine ⟨(List.drop_sublist _ _).nodup hnodup, fun other => ?_⟩
  have hstays : other ∈ s.fifo ++ [key] →
      (other ∉ (s.fifo ++ [key]).rdrop capacity ↔ other ∈ (s.fifo ++ [key]).rtake capacity) := by
    intro hother
    have hparts : other ∈ (s.fifo ++ [key]).rdrop capacity ∨
        other ∈ (s.fifo ++ [key]).rtake capacity := by
      rw [← List.mem_append, hsplit]
      exact hother
    refine ⟨hparts.resolve_left, fun hkept hgone => ?_⟩
    rw [← hsplit] at hnodup
    exact (List.nodup_append.mp hnodup).2.2 other hgone other hkept rfl
  rw [Finset.mem_sdiff, List.mem_toFinset, Finset.mem_insert, lastSet_snoc]
  by_cases heq : other = key
  · subst heq
    have hin : other ∈ s.fifo ++ [other] := List.mem_append_right _ List.mem_cons_self
    rw [hstays hin]
    simp
  · rw [if_neg heq, or_iff_right heq, h.mem_iff]
    constructor
    · rintro ⟨⟨hold, hset⟩, hkept⟩
      exact ⟨(hstays (List.mem_append_left _ hold)).mp hkept, hset⟩
    · rintro ⟨hkept, hset⟩
      have hin : other ∈ s.fifo ++ [key] := List.mem_of_mem_drop hkept
      have hold : other ∈ s.fifo := by simpa [heq] using hin
      exact ⟨⟨hold, hset⟩, (hstays hin).mpr hkept⟩

theorem OneEntry.consume {changes : List (BlockKey × Bool)} (h : OneEntry changes s) :
    OneEntry (changes ++ [(key, false)]) (s.consume key).2 := by
  refine ⟨?_, fun other => ?_⟩
  · rw [consume_fifo]
    exact h.nodup
  rw [mem_consume, consume_fifo, lastSet_snoc, h.mem_iff]
  by_cases heq : other = key
  · simp [heq]
  · simp [heq]

theorem FreshInserts.of_append {more : List GhostOp} (h : FreshInserts capacity (ops ++ more)) :
    FreshInserts capacity ops := by
  intro before key after heq
  refine h before key (after ++ more) ?_
  rw [heq, List.append_assoc, List.cons_append]

theorem oneEntry_of_fresh (hfresh : FreshInserts capacity ops) :
    OneEntry (ghostChanges capacity {} ops) (ghostsAfter capacity ops) := by
  induction ops using List.reverseRecOn with
  | nil =>
    refine ⟨List.nodup_nil, fun key => iff_of_false (Finset.notMem_empty key) ?_⟩
    exact fun h => List.not_mem_nil h.1
  | append_singleton ops op ih =>
    have hbefore := ih hfresh.of_append
    rw [ghostsAfter_snoc, ghostChanges_snoc]
    cases op with
    | insert key =>
      rw [GhostOp.run, GhostOp.change]
      by_cases h : key ∈ (ghostsAfter capacity ops).ghost
      · rw [insertKey_of_mem h, if_pos h, Option.toList_none, List.append_nil]
        exact hbefore
      · rw [if_neg h, Option.toList_some]
        exact hbefore.insertKey h (hfresh ops key [] rfl h)
    | consume key =>
      rw [GhostOp.run, GhostOp.change]
      by_cases h : key ∈ (ghostsAfter capacity ops).ghost
      · rw [if_pos h, Option.toList_some]
        exact hbefore.consume
      · rw [if_neg h, Option.toList_none, List.append_nil, Ghosts.consume, if_neg h]
        exact hbefore

theorem ghostLaw_of_fresh (hfresh : FreshInserts capacity ops) : GhostLaw capacity ops := by
  intro before key after hchanges hlast
  have hone := oneEntry_of_fresh hfresh
  have hfifo := fifo_eq capacity ops
  rw [hchanges, insertedKeys_append, insertedKeys_cons] at hfifo
  by_cases hfew : (insertedKeys after).length < capacity
  · refine .inl ((hone.mem_iff key).mpr ⟨?_, ?_⟩)
    · -- fewer keys follow than there are places in the queue
      have hdrop : (insertedKeys before ++ key :: insertedKeys after).length - capacity ≤
          (insertedKeys before).length := by
        rw [List.length_append, List.length_cons]
        omega
      rw [hfifo, List.rtake, List.drop_append_of_le_length hdrop]
      exact List.mem_append_right _ List.mem_cons_self
    · rw [hchanges]
      exact lastSet_of_split hlast
  · -- the queue consists of keys inserted later, each once
    right
    have hsub : (ghostsAfter capacity ops).fifo ⊆ insertedKeys after := by
      have hdrop : (insertedKeys before ++ [key]).length ≤
          (insertedKeys before ++ key :: insertedKeys after).length - capacity := by
        rw [List.length_append, List.length_append, List.length_singleton, List.length_cons]
        omega
      have hsplit : insertedKeys before ++ key :: insertedKeys after =
          (insertedKeys before ++ [key]) ++ insertedKeys after := by simp
      rw [hfifo, List.rtake, hsplit, List.drop_append, List.drop_eq_nil_of_le (hsplit ▸ hdrop),
        List.nil_append]
      exact List.drop_subset _ _
    have hlength : (ghostsAfter capacity ops).fifo.length = capacity := by
      rw [hfifo, List.rtake, List.length_drop, List.length_append, List.length_cons]
      omega
    calc capacity = (ghostsAfter capacity ops).fifo.toFinset.card := by
          rw [List.toFinset_card_of_nodup hone.nodup, hlength]
      _ ≤ (insertedKeys after).toFinset.card :=
          Finset.card_le_card fun other hother =>
            List.mem_toFinset.mpr (hsub (List.mem_toFinset.mp hother))

/-! ## A key with an old entry -/

/-- `rounds` times, the key is consumed and inserted again. -/
def rollOut (key : BlockKey) : Nat → List GhostOp
  | 0 => []
  | rounds + 1 => rollOut key rounds ++ [.consume key, .insert key]

/-- If the key is a ghost, it has an entry before the one that only the keys of `tail` follow. -/
def Outdated (key : BlockKey) (tail : List BlockKey) (s : Ghosts) : Prop :=
  key ∈ s.ghost → ∃ older, s.fifo = older ++ key :: tail ∧ key ∈ older

/-- An insertion rolls the older entry out first, and with it the key. -/
theorem outdated_insertKey {older rest : List BlockKey} (hghost : key' ∉ s.ghost)
    (hfifo : s.fifo ++ [key'] = older ++ rest) (hold : key ∈ older)
    (hkey : key ∈ (s.insertKey capacity key').ghost) :
    ∃ older', (s.insertKey capacity key').fifo = older' ++ rest ∧ key ∈ older' := by
  rw [insertKey_of_notMem hghost] at hkey ⊢
  rw [Finset.mem_sdiff, List.mem_toFinset, hfifo] at hkey
  show ∃ older', (s.fifo ++ [key']).rtake capacity = older' ++ rest ∧ key ∈ older'
  rw [hfifo]
  exact rtake_of_notMem_rdrop hold hkey.2

theorem outdated_stale (hghost : key ∉ s.ghost) (hstale : key ∈ s.fifo) :
    Outdated key [] (s.insertKey capacity key) :=
  fun hkey => outdated_insertKey hghost rfl hstale hkey

theorem Outdated.consume_insert {tail : List BlockKey} (h : Outdated key tail s)
    (hne : key ≠ key') :
    Outdated key (tail ++ [key']) ((s.consume key').2.insertKey capacity key') := by
  intro hkey
  have hconsumed : key' ∉ (s.consume key').2.ghost := fun hmem => (mem_consume.mp hmem).1 rfl
  have hkey' := hkey
  rw [insertKey_of_notMem hconsumed, Finset.mem_sdiff, Finset.mem_insert, mem_consume] at hkey'
  obtain ⟨older, hfifo, hold⟩ := h (hkey'.1.resolve_left hne).2
  refine outdated_insertKey hconsumed ?_ hold hkey
  rw [consume_fifo, hfifo, List.append_assoc, List.cons_append]

theorem outdated_rollOut {tail : List BlockKey} (h : Outdated key tail s) (hne : key ≠ key')
    (rounds : Nat) : Outdated key (tail ++ List.replicate rounds key')
      ((rollOut key' rounds).foldl (GhostOp.run capacity) s) := by
  induction rounds with
  | zero =>
    rw [List.replicate_zero, List.append_nil]
    exact h
  | succ rounds ih =>
    rw [rollOut, List.foldl_append, List.replicate_succ', ← List.append_assoc]
    exact ih.consume_insert hne

/-- The rounds change no other key, and each of them inserts one key. -/
theorem ghostChanges_rollOut (capacity : Nat) (s : Ghosts) (key : BlockKey) (rounds : Nat) :
    (∀ change ∈ ghostChanges capacity s (rollOut key rounds), change.1 = key) ∧
      (insertedKeys (ghostChanges capacity s (rollOut key rounds))).length ≤ rounds := by
  induction rounds with
  | zero => exact ⟨fun _ h => absurd h List.not_mem_nil, Nat.le_refl 0⟩
  | succ rounds ih =>
    obtain ⟨hkeys, hlength⟩ := ih
    rw [rollOut, ghostChanges_append, insertedKeys_append, List.length_append]
    set s' := (rollOut key rounds).foldl (GhostOp.run capacity) s
    have hinsert : GhostOp.change (GhostOp.run capacity s' (.consume key)) (.insert key) =
        some (key, true) :=
      if_neg fun hmem => (mem_consume.mp hmem).1 rfl
    have hround : ghostChanges capacity s' [.consume key, .insert key] =
        (if key ∈ s'.ghost then some (key, false) else none).toList ++ [(key, true)] := by
      rw [ghostChanges, ghostChanges, ghostChanges, hinsert, List.append_nil]
      rfl
    rw [hround]
    refine ⟨fun change hchange => ?_, ?_⟩
    · rcases List.mem_append.mp hchange with hbefore | hlast
      · exact hkeys change hbefore
      · split at hlast
        · rcases List.mem_pair.mp hlast with rfl | rfl
          · rfl
          · rfl
        · cases List.mem_singleton.mp hlast
          rfl
    · split
      · exact Nat.succ_le_succ hlength
      · exact Nat.succ_le_succ hlength

/-- The key leaves with its old entry, when fewer than `capacity` other keys have followed it. -/
theorem not_ghostLaw_of_stale (hcapacity : 0 < capacity)
    (hghost : key ∉ (ghostsAfter capacity ops).ghost)
    (hstale : key ∈ (ghostsAfter capacity ops).fifo) (hne : key ≠ key') :
    ¬ GhostLaw capacity (ops ++ .insert key :: rollOut key' (capacity - 1)) := by
  intro hlaw
  set more := rollOut key' (capacity - 1)
  have hsplit : ops ++ .insert key :: more = (ops ++ [.insert key]) ++ more := by simp
  have hchange : ghostChanges capacity {} (ops ++ .insert key :: more) =
      ghostChanges capacity {} ops ++ (key, true) ::
        ghostChanges capacity (ghostsAfter capacity (ops ++ [.insert key])) more := by
    rw [hsplit, ghostChanges_append, ghostChanges_snoc, GhostOp.change, if_neg hghost,
      Option.toList_some, List.append_assoc]
    rfl
  obtain ⟨hkeys, hlength⟩ := ghostChanges_rollOut capacity
    (ghostsAfter capacity (ops ++ [.insert key])) key' (capacity - 1)
  rcases hlaw _ _ _ hchange fun inserts hmem => hne (hkeys _ hmem) with hkept | hmany
  · -- the old entry is still queued, and too many keys with it
    have hafter : Outdated key ([] ++ List.replicate (capacity - 1) key')
        (ghostsAfter capacity (ops ++ .insert key :: more)) := by
      rw [hsplit, ghostsAfter_append, ghostsAfter_snoc]
      exact outdated_rollOut (outdated_stale hghost hstale) hne (capacity - 1)
    obtain ⟨older, hfifo, hold⟩ := hafter hkept
    have hle := length_fifo_le capacity (ops ++ .insert key :: more)
    have hpos : 0 < older.length := List.length_pos_of_mem hold
    rw [hfifo, List.nil_append, List.length_append, List.length_cons,
      List.length_replicate] at hle
    omega
  · have hcard : (insertedKeys (ghostChanges capacity
        (ghostsAfter capacity (ops ++ [.insert key])) more)).toFinset.card ≤ capacity - 1 :=
      (List.toFinset_card_le _).trans hlength
    omega

/-- When the ghosts of a capacity obey the law. -/
structure GhostsLawful (capacity : Nat) : Prop where
  law : ∀ ops, FreshInserts capacity ops → ∀ before after, ops = before ++ after →
    GhostLaw capacity before
  /-- Every call that misses the condition can be followed by calls that break the law. -/
  sharp : ∀ ops key, key ∉ (ghostsAfter capacity ops).ghost →
    key ∈ (ghostsAfter capacity ops).fifo →
    ∃ more, ¬ GhostLaw capacity (ops ++ .insert key :: more)

/-- **Ghosts.** While no key is inserted that still has an entry in the queue, a ghost stays until
it is consumed or as many other keys as the capacity are inserted after it. -/
theorem ghosts_lawful (hcapacity : 0 < capacity) : GhostsLawful capacity := by
  refine ⟨fun ops hfresh before after hsplit => ?_, fun ops key hghost hstale => ?_⟩
  · subst hsplit
    exact ghostLaw_of_fresh hfresh.of_append
  · have hother : ∃ other : BlockKey, key ≠ other := by
      by_cases h : key = {}
      · exact ⟨{ hashId := 1 }, by rw [h]; decide⟩
      · exact ⟨{}, h⟩
    obtain ⟨other, hne⟩ := hother
    exact ⟨_, not_ghostLaw_of_stale hcapacity hghost hstale hne⟩

theorem ghosts_lawful_ghostCapacity : 0 < ghostCapacity ∧ GhostsLawful ghostCapacity :=
  ⟨by decide, ghosts_lawful (by decide)⟩

/-- A key is inserted, consumed and inserted again: at capacity two the next key rolls it out, and
at the capacity of the code so do 8191 insertions of one other key. -/
theorem reinserted_rolls_out :
    ¬ GhostLaw 2 [.insert {}, .consume {}, .insert {}, .insert { hashId := 1 }] ∧
      ¬ GhostLaw ghostCapacity
        ([.insert {}, .consume {}] ++ .insert {} :: rollOut { hashId := 1 } (ghostCapacity - 1)) := by
  constructor
  · intro hlaw
    rcases hlaw [({}, true), ({}, false)] {} [({ hashId := 1 }, true)] (by decide) (by decide) with
      hkept | hmany
    · exact absurd hkept (by decide)
    · exact absurd hmany (by decide)
  · exact not_ghostLaw_of_stale (by decide) (by decide) (by decide) (by decide)

end TieredKVCache.Storage
