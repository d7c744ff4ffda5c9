import Mathlib.Data.List.DropRight
import Mathlib.Data.List.Nodup

/-!
# Bounded queues of keys

A queue of at most `bound` keys: a key that is present keeps its place, a new key joins the tail,
and the head leaves when the queue is too long. What a sequence of keys makes of a queue has a
closed form (`joinAll_eq`): the newcomers follow the queue, and the last `bound` keys stay. So a
sequence of at most `bound` keys keeps all its newcomers, and `mem_joinAll_iff` says which of its
other keys stay. A queue that every key joins, whether it is there or not, consists of the last
`bound` keys: `rtake`.
-/

namespace TieredKVCache.Lib

variable {α : Type}

/-! ## The last keys -/

theorem rdrop_append_rtake (queue : List α) (bound : Nat) :
    queue.rdrop bound ++ queue.rtake bound = queue :=
  List.take_append_drop _ queue

theorem length_rtake_le (queue : List α) (bound : Nat) : (queue.rtake bound).length ≤ bound := by
  rw [List.rtake, List.length_drop]
  omega

/-- What has left the queue does not come back. -/
theorem rtake_rtake_concat (queue : List α) (bound : Nat) (key : α) :
    (queue.rtake bound ++ [key]).rtake bound = (queue ++ [key]).rtake bound := by
  cases bound with
  | zero => rw [List.rtake_zero, List.rtake_zero]
  | succ bound =>
    rw [List.rtake_concat_succ, List.rtake_concat_succ, List.rtake, List.rtake, List.rtake,
      List.drop_drop, List.length_drop]
    congr 2
    omega

theorem rtake_rtake_append (queue rest : List α) (bound : Nat) :
    (queue.rtake bound ++ rest).rtake bound = (queue ++ rest).rtake bound := by
  induction rest using List.reverseRecOn with
  | nil =>
    rw [List.append_nil, List.append_nil]
    show (queue.rtake bound).drop ((queue.rtake bound).length - bound) = queue.rtake bound
    rw [Nat.sub_eq_zero_of_le (length_rtake_le queue bound), List.drop_zero]
  | append_singleton rest key ih =>
    rw [← List.append_assoc, ← List.append_assoc, ← rtake_rtake_concat, ih, rtake_rtake_concat]

/-- The keys before one that is still queued are all that can leave. -/
theorem rtake_of_notMem_rdrop {bound : Nat} {key : α} {older rest : List α} (hkey : key ∈ older)
    (hkept : key ∉ (older ++ rest).rdrop bound) :
    ∃ older', (older ++ rest).rtake bound = older' ++ rest ∧ key ∈ older' := by
  have hsplit := rdrop_append_rtake (older ++ rest) bound
  rcases List.append_eq_append_iff.mp hsplit with ⟨older', holder, hrest⟩ | ⟨gone, hgone, -⟩
  · refine ⟨older', hrest, ?_⟩
    rw [holder, List.mem_append] at hkey
    exact hkey.resolve_left hkept
  · rw [hgone, List.mem_append, not_or] at hkept
    exact absurd hkey hkept.1

/-! ## Keys that keep their place -/

variable [DecidableEq α]

/-- A key joins the queue unless it is there. -/
def join (bound : Nat) (queue : List α) (key : α) : List α :=
  if key ∈ queue then queue else (queue ++ [key]).drop (queue.length + 1 - bound)

/-- The keys of a sequence that join the queue, each in its turn. -/
def newcomers (bound : Nat) : List α → List α → List α
  | _, [] => []
  | queue, key :: keys =>
    if key ∈ queue then newcomers bound queue keys
    else key :: newcomers bound (join bound queue key) keys

variable {bound : Nat} {queue keys : List α} {key : α}

theorem length_join_le (h : queue.length ≤ bound) : (join bound queue key).length ≤ bound := by
  unfold join
  split
  · exact h
  · rw [List.length_drop, List.length_append, List.length_singleton]
    omega

theorem nodup_join (h : queue.Nodup) : (join bound queue key).Nodup := by
  unfold join
  split
  · exact h
  next hkey =>
    refine (List.drop_sublist _ _).nodup ?_
    exact List.nodup_append.mpr ⟨h, List.nodup_singleton key, fun a ha b hb heq =>
      hkey (List.mem_singleton.mp hb ▸ heq ▸ ha)⟩

theorem mem_of_mem_join {x : α} (h : x ∈ join bound queue key) : x ∈ queue ∨ x = key := by
  unfold join at h
  split at h
  · exact .inl h
  · simpa using List.mem_of_mem_drop h

theorem mem_of_mem_joinAll {x : α} (h : x ∈ keys.foldl (join bound) queue) :
    x ∈ queue ∨ x ∈ keys := by
  induction keys generalizing queue with
  | nil => exact .inl h
  | cons key keys ih =>
    rcases ih h with hqueue | hkeys
    · rcases mem_of_mem_join hqueue with hold | rfl
      · exact .inl hold
      · exact .inr List.mem_cons_self
    · exact .inr (List.mem_cons_of_mem _ hkeys)

theorem length_newcomers_le : (newcomers bound queue keys).length ≤ keys.length := by
  induction keys generalizing queue with
  | nil => exact Nat.le_refl _
  | cons key keys ih =>
    rw [newcomers]
    split
    · exact Nat.le_trans ih (Nat.le_succ _)
    · exact Nat.succ_le_succ ih

/-- A key of the sequence is a newcomer or was in the queue from the start. -/
theorem mem_newcomers_or (hkey : key ∈ keys) :
    key ∈ newcomers bound queue keys ∨ key ∈ queue := by
  induction keys generalizing queue with
  | nil => cases hkey
  | cons first keys ih =>
    rw [newcomers]
    split
    next hfirst =>
      rcases List.mem_cons.mp hkey with rfl | hrest
      · exact .inr hfirst
      · exact ih hrest
    next hfirst =>
      rcases List.mem_cons.mp hkey with rfl | hrest
      · exact .inl List.mem_cons_self
      · have hnext : key ∈ newcomers bound (join bound queue first) keys ∨
            key ∈ join bound queue first := ih hrest
        rcases hnext with hnew | hold
        · exact .inl (List.mem_cons_of_mem _ hnew)
        · rcases mem_of_mem_join hold with hqueue | rfl
          · exact .inr hqueue
          · exact .inl List.mem_cons_self

/-- The newcomers follow the queue, and the last keys stay. -/
theorem joinAll_eq (h : queue.length ≤ bound) : keys.foldl (join bound) queue =
    (queue ++ newcomers bound queue keys).drop
      (queue.length + (newcomers bound queue keys).length - bound) := by
  induction keys generalizing queue with
  | nil => simp [newcomers, Nat.sub_eq_zero_of_le h]
  | cons key keys ih =>
    rw [List.foldl_cons, ih (length_join_le h), newcomers]
    by_cases hkey : key ∈ queue
    · rw [if_pos hkey, join, if_pos hkey]
    · rw [if_neg hkey]
      set rest := newcomers bound (join bound queue key) keys
      rw [join, if_neg hkey]
      have hdrop : queue.length + 1 - bound ≤ (queue ++ [key]).length := by
        rw [List.length_append, List.length_singleton]
        omega
      rw [← List.drop_append_of_le_length hdrop, List.drop_drop, List.append_assoc,
        List.singleton_append, List.length_drop, List.length_append, List.length_singleton,
        List.length_cons]
      congr 1
      omega

/-- A sequence that fits into the queue keeps its newcomers; a key that kept its place stays unless
it is among the oldest keys, for which the newcomers leave no room. -/
theorem mem_joinAll_iff (hnodup : queue.Nodup) (h : queue.length ≤ bound)
    (hfit : keys.length ≤ bound) (hkey : key ∈ keys) : key ∈ keys.foldl (join bound) queue ↔
      (key ∉ newcomers bound queue keys →
        key ∉ queue.take (queue.length + (newcomers bound queue keys).length - bound)) := by
  have hle : queue.length + (newcomers bound queue keys).length - bound ≤ queue.length := by
    have hlength : (newcomers bound queue keys).length ≤ keys.length := length_newcomers_le
    omega
  rw [joinAll_eq h, List.drop_append_of_le_length hle, List.mem_append]
  by_cases hnew : key ∈ newcomers bound queue keys
  · simp [hnew]
  · have hqueue := (mem_newcomers_or hkey).resolve_left hnew
    rw [or_iff_left hnew, imp_iff_right hnew]
    set rolled := queue.length + (newcomers bound queue keys).length - bound
    constructor
    · exact fun hstays hrolled => List.disjoint_take_drop hnodup (Nat.le_refl _) hrolled hstays
    · intro hkept
      rw [← List.take_append_drop rolled queue, List.mem_append] at hqueue
      exact hqueue.resolve_left hkept

end TieredKVCache.Lib
