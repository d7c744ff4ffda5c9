import Mathlib.Data.Finset.Card
import Mathlib.Data.Finset.Dedup
import TieredKVCache.Lib.BoundedFifo

/-!
# Order of last use

A sequence of uses of keys orders the keys by their last use: `List.dedup`, which keeps last
occurrences, lists the least recently used key first. To use a key moves it to the end
(`dedup_concat`). A list that is cut to its last `n` keys after every use holds the last `n` keys of
the whole order at all times (`rtake_use`), so that a key is in it if and only if fewer than `n`
other keys have been used since its last use (`mem_rtake_dedup_iff`).
-/

namespace TieredKVCache.Lib

variable {α : Type}

/-! ## The last elements of a list -/

theorem rtake_suffix (n : Nat) (l : List α) : l.rtake n <:+ l := List.drop_suffix _ _

theorem length_rtake (n : Nat) (l : List α) : (l.rtake n).length = min n l.length := by
  rw [List.rtake, List.length_drop]
  omega

theorem rtake_of_length_le {n : Nat} {l : List α} (h : l.length ≤ n) : l.rtake n = l := by
  rw [List.rtake, Nat.sub_eq_zero_of_le h, List.drop_zero]

/-- The last elements are found in a suffix that is long enough. -/
theorem rtake_append_of_le {n : Nat} (older : List α) {l : List α} (h : n ≤ l.length) :
    (older ++ l).rtake n = l.rtake n := by
  rw [List.rtake, List.rtake, List.length_append, Nat.add_sub_assoc h, List.drop_append]
  simp

theorem rtake_rtake {n m : Nat} (l : List α) (h : n ≤ m) : (l.rtake m).rtake n = l.rtake n := by
  by_cases hm : l.length ≤ m
  · rw [rtake_of_length_le hm]
  · obtain ⟨older, hl⟩ := rtake_suffix m l
    have hlength := length_rtake m l
    have hfound := rtake_append_of_le older (l := l.rtake m) (n := n) (by omega)
    rw [← hfound, hl]

theorem rtake_append_length (l l' : List α) (n : Nat) :
    (l ++ l').rtake (l'.length + n) = l.rtake n ++ l' := by
  rw [List.rtake, List.rtake, List.length_append, List.drop_append_of_le_length (by omega)]
  congr 2
  omega

variable [DecidableEq α]

/-! ## Uses -/

theorem erase_append_of_notMem {l l' : List α} {k : α} (h : k ∉ l') :
    (l ++ l').erase k = l.erase k ++ l' := by
  by_cases hk : k ∈ l
  · exact List.erase_append_left _ hk
  · rw [List.erase_of_not_mem hk, List.erase_of_not_mem]
    exact fun hmem => (List.mem_append.mp hmem).elim hk h

/-- The last use of a key counts. -/
theorem dedup_concat (uses : List α) (k : α) :
    (uses ++ [k]).dedup = uses.dedup.erase k ++ [k] := by
  induction uses with
  | nil => simp
  | cons a uses ih =>
    rw [List.cons_append]
    by_cases ha : a ∈ uses
    · rw [List.dedup_cons_of_mem (List.mem_append_left _ ha), ih, List.dedup_cons_of_mem ha]
    · rw [List.dedup_cons_of_notMem ha]
      by_cases hk : a = k
      · subst hk
        rw [List.dedup_cons_of_mem (by simp), ih, List.erase_cons_head,
          List.erase_of_not_mem (mt List.mem_dedup.mp ha)]
      · have hout : a ∉ uses ++ [k] := by simp [ha, hk]
        rw [List.dedup_cons_of_notMem hout, ih, List.erase_cons_tail (by simpa using hk),
          List.cons_append]

/-- To cut the list before a use loses nothing that a cut after the use would keep. -/
theorem rtake_use {n : Nat} {keys : List α} (k : α) (h : keys.Nodup) :
    ((keys.rtake n).erase k ++ [k]).rtake n = (keys.erase k ++ [k]).rtake n := by
  cases n with
  | zero => rw [List.rtake_zero, List.rtake_zero]
  | succ n =>
    rw [List.rtake_concat_succ, List.rtake_concat_succ]
    congr 1
    by_cases hall : keys.length ≤ n + 1
    · rw [rtake_of_length_le hall]
    · obtain ⟨older, hkeys⟩ := rtake_suffix (n + 1) keys
      have hlength := length_rtake (n + 1) keys
      have hlong : n ≤ ((keys.rtake (n + 1)).erase k).length := by
        have herase := List.le_length_erase (l := keys.rtake (n + 1)) (a := k)
        omega
      generalize keys.rtake (n + 1) = newest at hkeys hlength hlong
      subst hkeys
      by_cases hk : k ∈ older
      · have hout : k ∉ newest := List.disjoint_of_nodup_append h hk
        rw [List.erase_append_left _ hk, List.erase_of_not_mem hout,
          rtake_append_of_le _ (by omega)]
      · rw [List.erase_append_right _ hk, rtake_append_of_le _ hlong]

/-- The keys that are used in the second part come after all others. -/
theorem dedup_append_eq (uses since : List α) :
    (uses ++ since).dedup = uses.dedup.filter (· ∉ since) ++ since.dedup := by
  induction uses with
  | nil => simp
  | cons a uses ih =>
    rw [List.cons_append]
    by_cases ha : a ∈ uses
    · rw [List.dedup_cons_of_mem (List.mem_append_left _ ha), ih, List.dedup_cons_of_mem ha]
    · rw [List.dedup_cons_of_notMem ha]
      by_cases hsince : a ∈ since
      · rw [List.dedup_cons_of_mem (List.mem_append_right _ hsince), ih,
          List.filter_cons_of_neg (by simpa using hsince)]
      · have hout : a ∉ uses ++ since := by simp [ha, hsince]
        rw [List.dedup_cons_of_notMem hout, ih, List.filter_cons_of_pos (by simpa using hsince),
          List.cons_append]

omit [DecidableEq α] in
/-- The last use of a key. -/
theorem exists_lastUse {uses : List α} {k : α} (h : k ∈ uses) :
    ∃ before since, uses = before ++ k :: since ∧ k ∉ since := by
  obtain ⟨since, before, huses, hout⟩ := List.eq_append_cons_of_mem (List.mem_reverse.mpr h)
  refine ⟨before.reverse, since.reverse, ?_, mt List.mem_reverse.mp hout⟩
  rw [← uses.reverse_reverse, huses]
  simp

theorem mem_rtake_of_lastUse {n : Nat} {before since : List α} {k : α} (h : k ∉ since) :
    k ∈ (before ++ k :: since).dedup.rtake n ↔ since.toFinset.card < n := by
  have hsplit : (before ++ k :: since).dedup =
      before.dedup.filter (· ∉ k :: since) ++ k :: since.dedup := by
    rw [dedup_append_eq, List.dedup_cons_of_notMem h]
  have hnodup := (before ++ k :: since).nodup_dedup
  rw [hsplit] at hnodup ⊢
  rw [List.card_toFinset]
  by_cases hshort : since.dedup.length < n
  · refine iff_of_true ?_ hshort
    obtain ⟨older, hlist⟩ := rtake_suffix n
      (before.dedup.filter (· ∉ k :: since) ++ k :: since.dedup)
    have hlength := length_rtake n (before.dedup.filter (· ∉ k :: since) ++ k :: since.dedup)
    have hsuffix : k :: since.dedup <:+
        (before.dedup.filter (· ∉ k :: since) ++ k :: since.dedup).rtake n := by
      refine List.suffix_of_suffix_length_le (List.suffix_append _ _) (rtake_suffix n _) ?_
      rw [hlength, List.length_append, List.length_cons]
      omega
    exact hsuffix.subset List.mem_cons_self
  · refine iff_of_false (fun hk => ?_) hshort
    have hrecent : (before.dedup.filter (· ∉ k :: since) ++ k :: since.dedup).rtake n =
        since.dedup.rtake n := by
      rw [← List.singleton_append (l := since.dedup), ← List.append_assoc,
        rtake_append_of_le _ (by omega)]
    rw [hrecent] at hk
    exact h (List.mem_dedup.mp ((rtake_suffix n _).subset hk))

/-- A key is among the last `n` if and only if it has been used and fewer than `n` keys have been
used since. -/
theorem mem_rtake_dedup_iff {n : Nat} {uses : List α} {k : α} :
    k ∈ uses.dedup.rtake n ↔
      ∃ before since, uses = before ++ k :: since ∧ since.toFinset.card < n := by
  constructor
  · intro hk
    obtain ⟨before, since, rfl, hlast⟩ :=
      exists_lastUse (List.mem_dedup.mp ((rtake_suffix n _).subset hk))
    exact ⟨before, since, rfl, (mem_rtake_of_lastUse hlast).mp hk⟩
  · rintro ⟨before, since, rfl, hfew⟩
    by_cases hk : k ∈ since
    · obtain ⟨first, last, rfl, hlast⟩ := exists_lastUse hk
      have hle : last.toFinset.card ≤ (first ++ k :: last).toFinset.card :=
        Finset.card_le_card fun x hx => by
          simp only [List.mem_toFinset, List.mem_append, List.mem_cons] at hx ⊢
          exact .inr (.inr hx)
      have hlist : before ++ k :: (first ++ k :: last) = (before ++ k :: first) ++ k :: last := by
        simp
      rw [hlist]
      exact (mem_rtake_of_lastUse hlast).mpr (hle.trans_lt hfew)
    · exact (mem_rtake_of_lastUse hk).mpr hfew

end TieredKVCache.Lib
