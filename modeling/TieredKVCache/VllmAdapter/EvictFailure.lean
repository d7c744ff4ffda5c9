import TieredKVCache.VllmAdapter.PolicyRuns

/-!
# An eviction that fails

`evict` returns `None` when it has looked at every key and has not found enough victims. It puts the
keys it took out back, the ones it skipped before the ones it had chosen, and keeps the frequencies
as the loop left them. So it leaves the policy as it was if and only if no frequency is positive and
in both queues the keys that may be evicted come last (`run_failure`).
-/

namespace TieredKVCache.VllmAdapter.S3FIFOCachePolicy

open Lib

variable {Key BlockStatus : Type} [DecidableEq Key] {smallBudget n : Nat}
  {evictable isProtected : Finset Key} {l l' : Scan Key} {p p' : S3FIFOCachePolicy Key BlockStatus}

instance : DecidablePred (Candidate evictable isProtected) :=
  fun _ => inferInstanceAs (Decidable (_ ∧ _))

/-! ## Definitions -/

/-- The containers of the policy are the same. The order of a `dict` has no meaning here. -/
structure Unchanged (p p' : S3FIFOCachePolicy Key BlockStatus) : Prop where
  blocks : ∀ key, p'.blocks.lookup key = p.blocks.lookup key
  freq : ∀ key, p'.freq.lookup key = p.freq.lookup key
  evictable : p'.evictable = p.evictable
  ghost : p'.ghost = p.ghost
  small : p'.small = p.small
  main : p'.main = p.main

/-- No key has been used since it was inserted or last looked at. -/
def Unused (p : S3FIFOCachePolicy Key BlockStatus) : Prop :=
  ∀ key freq, p.freq.lookup key = some freq → freq = 0

/-- The keys of the queue that may be evicted come after the others. -/
def CandidatesLast (evictable isProtected : Finset Key) (queue : KeyQueue Key) : Prop :=
  queue.toList.Pairwise fun key later =>
    Candidate evictable isProtected key → Candidate evictable isProtected later

/-! ## Keys that were looked at -/

/-- The keys that have left the queues. -/
def Scan.settled (l : Scan Key) : List Key :=
  l.victims.map Prod.fst ++ l.skippedSmall ++ l.skippedMain

omit [DecidableEq Key] in
theorem Scan.keys_eq (l : Scan Key) :
    l.keys = (l.small.toList ++ l.main.toList) ++ l.settled := by
  rw [Scan.keys, Scan.settled, List.append_assoc, List.append_assoc, List.append_assoc]
  simp only [List.append_assoc]

omit [DecidableEq Key] in
/-- A key of a queue has not left it. -/
theorem Scan.notMem_settled (hnodup : l.keys.Nodup) {key : Key}
    (hkey : key ∈ l.small.toList ∨ key ∈ l.main.toList) : key ∉ l.settled := by
  rw [Scan.keys_eq] at hnodup
  exact fun hmem => (List.nodup_append.mp hnodup).2.2 key (List.mem_append.mpr hkey) key hmem rfl

theorem Scan.freqOf_insert (l : Scan Key) (key key' : Key) (f : Int) :
    ((l.freq.insert key f).lookup key').getD 0 = if key' = key then f else l.freqOf key' := by
  by_cases h : key' = key
  · subst h
    rw [AList.lookup_insert, if_pos rfl]
    rfl
  · rw [AList.lookup_insert_ne h, if_neg h]
    rfl

/-- The keys that have left the queues have no frequency left. -/
def Spent (l : Scan Key) : Prop := ∀ key ∈ l.settled, l.freqOf key ≤ 0

theorem ScanStep.spent (h : ScanStep smallBudget evictable isProtected l l')
    (hnodup : l.keys.Nodup) (hspent : Spent l) : Spent l' := by
  cases h with
  | @promote key small hfrom hpop hfreq =>
    have hmem : key ∈ l.small.toList := by
      rw [KeyQueue.popFront_eq_some.mp hpop]
      exact List.mem_cons_self
    intro key' hkey'
    have hne : key' ≠ key := fun heq => Scan.notMem_settled hnodup (.inl hmem) (heq ▸ hkey')
    show ((l.freq.insert key 0).lookup key').getD 0 ≤ 0
    rw [Scan.freqOf_insert, if_neg hne]
    exact hspent key' hkey'
  | @requeue key main hfrom hpop hfreq =>
    have hmem : key ∈ l.main.toList := by
      rw [KeyQueue.popFront_eq_some.mp hpop]
      exact List.mem_cons_self
    intro key' hkey'
    have hne : key' ≠ key := fun heq => Scan.notMem_settled hnodup (.inr hmem) (heq ▸ hkey')
    show ((l.freq.insert key (l.freqOf key - 1)).lookup key').getD 0 ≤ 0
    rw [Scan.freqOf_insert, if_neg hne]
    exact hspent key' hkey'
  | @skipSmall key small hfrom hpop hfreq hkey | @takeSmall key small hfrom hpop hfreq hkey
  | @skipMain key main hfrom hpop hfreq hkey | @takeMain key main hfrom hpop hfreq hkey =>
    intro key' hkey'
    have hcases : key' = key ∨ key' ∈ l.settled := by
      simp only [Scan.settled, List.map_append, List.map_cons, List.map_nil, List.mem_append,
        List.mem_singleton] at hkey' ⊢
      tauto
    rcases hcases with rfl | hold
    · exact not_lt.mp hfreq
    · exact hspent key' hold

/-! ## A loop over keys without frequency -/

/-- The keys that have left a queue: `skipped` and `chosen` are those that may not and may be
evicted, each in the order of the queue. -/
def Parted (evictable isProtected : Finset Key) (queue : List Key) (rest skipped chosen : List Key) :
    Prop :=
  ∃ seen, queue = seen ++ rest ∧
    skipped = seen.filter (fun key => decide ¬ Candidate evictable isProtected key) ∧
    chosen = seen.filter fun key => decide (Candidate evictable isProtected key)

theorem parted_start (queue : List Key) : Parted evictable isProtected queue queue [] [] :=
  ⟨[], rfl, rfl, rfl⟩

section

variable {queue rest skipped chosen : List Key} {key : Key}

/-- The first key of the rest leaves the queue. -/
theorem Parted.next (h : Parted evictable isProtected queue (key :: rest) skipped chosen) :
    Parted evictable isProtected queue rest
      (skipped ++ [key].filter fun key => decide ¬ Candidate evictable isProtected key)
      (chosen ++ [key].filter fun key => decide (Candidate evictable isProtected key)) := by
  obtain ⟨seen, hqueue, hskipped, hchosen⟩ := h
  refine ⟨seen ++ [key], ?_, ?_, ?_⟩
  · rw [hqueue, List.append_assoc, List.singleton_append]
  · rw [List.filter_append, hskipped]
  · rw [List.filter_append, hchosen]

theorem Parted.skip (h : Parted evictable isProtected queue (key :: rest) skipped chosen)
    (hkey : ¬ Candidate evictable isProtected key) :
    Parted evictable isProtected queue rest (skipped ++ [key]) chosen := by
  simpa [hkey] using h.next

theorem Parted.take (h : Parted evictable isProtected queue (key :: rest) skipped chosen)
    (hkey : Candidate evictable isProtected key) :
    Parted evictable isProtected queue rest skipped (chosen ++ [key]) := by
  simpa [hkey] using h.next

/-- What was skipped, put before what was chosen, is the queue again if it was in this order. -/
theorem Parted.restored_iff (h : Parted evictable isProtected queue [] skipped chosen) :
    skipped ++ chosen = queue ↔ queue.Pairwise fun key later =>
      Candidate evictable isProtected key → Candidate evictable isProtected later := by
  obtain ⟨seen, hqueue, rfl, rfl⟩ := h
  rw [List.append_nil] at hqueue
  subst hqueue
  constructor
  · intro heq
    rw [← heq, List.pairwise_append]
    refine ⟨List.pairwise_of_forall_mem_list ?_, List.pairwise_of_forall_mem_list ?_, ?_⟩
    · intro a ha b _ hcandidate
      exact absurd hcandidate (by simpa using (List.mem_filter.mp ha).2)
    · intro a _ b hb _
      simpa using (List.mem_filter.mp hb).2
    · intro a ha b _ hcandidate
      exact absurd hcandidate (by simpa using (List.mem_filter.mp ha).2)
  · intro hlast
    induction queue with
    | nil => rfl
    | cons key rest ih =>
      obtain ⟨hkey, hrest⟩ := List.pairwise_cons.mp hlast
      by_cases hcandidate : Candidate evictable isProtected key
      · have hall : ∀ later ∈ rest, Candidate evictable isProtected later :=
          fun later hlater => hkey later hlater hcandidate
        have hnone : (rest.filter fun key => decide ¬ Candidate evictable isProtected key) = [] :=
          List.filter_eq_nil_iff.mpr fun later hlater => by simpa using hall later hlater
        have hself : (rest.filter fun key => decide (Candidate evictable isProtected key)) = rest :=
          List.filter_eq_self.mpr fun later hlater => by simpa using hall later hlater
        rw [List.filter_cons_of_neg (by simpa using hcandidate),
          List.filter_cons_of_pos (by simpa using hcandidate), hnone, hself]
        rfl
      · rw [List.filter_cons_of_pos (by simpa using hcandidate),
          List.filter_cons_of_neg (by simpa using hcandidate), List.cons_append, ih hrest]

end

/-- The victims of a queue. -/
def Scan.victimsFrom (fromSmall : Bool) (l : Scan Key) : List Key :=
  (l.victims.filter fun v => v.2 == fromSmall).map Prod.fst

/-- A loop over keys without frequency parts the queues. -/
structure PartedScan (p : S3FIFOCachePolicy Key BlockStatus) (isProtected : Finset Key)
    (l : Scan Key) : Prop where
  freq : l.freq = p.freq
  small : Parted p.evictable isProtected p.small.toList l.small.toList l.skippedSmall
    (l.victimsFrom true)
  main : Parted p.evictable isProtected p.main.toList l.main.toList l.skippedMain
    (l.victimsFrom false)

theorem ScanStep.partedScan (h : ScanStep smallBudget p.evictable isProtected l l')
    (hunused : Unused p) (hparted : PartedScan p isProtected l) : PartedScan p isProtected l' := by
  have hzero : ∀ key, ¬ l.freqOf key > 0 := by
    intro key hpos
    have hlookup := Scan.lookup_of_freqOf_pos hpos
    rw [hparted.freq] at hlookup
    rw [hunused key _ hlookup] at hpos
    exact absurd hpos (lt_irrefl 0)
  obtain ⟨hfreq, hsmall, hmain⟩ := hparted
  cases h with
  | promote _ _ hpos => exact absurd hpos (hzero _)
  | requeue _ _ hpos => exact absurd hpos (hzero _)
  | skipSmall _ hpop _ hkey =>
    rw [KeyQueue.popFront_eq_some.mp hpop] at hsmall
    exact ⟨hfreq, hsmall.skip hkey, hmain⟩
  | skipMain _ hpop _ hkey =>
    rw [KeyQueue.popFront_eq_some.mp hpop] at hmain
    exact ⟨hfreq, hsmall, hmain.skip hkey⟩
  | takeSmall _ hpop _ hkey =>
    rw [KeyQueue.popFront_eq_some.mp hpop] at hsmall
    refine ⟨hfreq, ?_, ?_⟩
    · simpa [Scan.victimsFrom] using hsmall.take hkey
    · simpa [Scan.victimsFrom] using hmain
  | takeMain _ hpop _ hkey =>
    rw [KeyQueue.popFront_eq_some.mp hpop] at hmain
    refine ⟨hfreq, ?_, ?_⟩
    · simpa [Scan.victimsFrom] using hsmall
    · simpa [Scan.victimsFrom] using hmain.take hkey

/-! ## A loop that does not find enough -/

/-- What a failing loop has done, and what it has done to keys without frequency. -/
structure Failed (p : S3FIFOCachePolicy Key BlockStatus) (n : Nat) (isProtected : Finset Key)
    (l : Scan Key) : Prop where
  scan : ScanInv p n isProtected l
  spent : Spent l
  parted : Unused p → PartedScan p isProtected l
  empty : l.small.toList = [] ∧ l.main.toList = []

theorem evict_fails (hrep : RepInv p)
    (hfew : {key ∈ p.evictable | key ∈ p.blocks ∧ key ∉ isProtected}.card < n) :
    ∃ l, p.evict n isProtected = .ok (none, restore false l p) ∧ Failed p n isProtected l := by
  obtain ⟨l, hloop, ⟨hscan, hspent, hparted⟩, hend⟩ := scanQueues_invariant
    (P := fun l => Spent l ∧ (Unused p → PartedScan p isProtected l)) hrep.nodup hrep.freqRange n
    isProtected ⟨fun key hkey => absurd hkey List.not_mem_nil,
      fun _ => ⟨rfl, parted_start _, parted_start _⟩⟩
    fun l l' hinv hP hstep => ⟨hstep.spent (hinv.keys.nodup_iff.mpr hrep.nodup) hP.1,
      fun hunused => hstep.partedScan hunused (hP.2 hunused)⟩
  have hle := le_card_candidates hrep hscan
  have hempty : l.small.toList = [] ∧ l.main.toList = [] := by
    refine hend.resolve_left ?_
    omega
  exact ⟨l, evict_of_few hloop (by omega), hscan, hspent, hparted, hempty⟩

theorem Failed.toList_small (hrep : RepInv p) (h : Failed p n isProtected l) :
    (restore false l p).small.toList = l.skippedSmall ++ l.victimsFrom true := by
  rw [toList_restore_small false (h.scan.keys.nodup_iff.mpr hrep.nodup), h.empty.1,
    List.append_nil, Scan.victimsFrom]
  simp [Scan.returned]

theorem Failed.toList_main (hrep : RepInv p) (h : Failed p n isProtected l) :
    (restore false l p).main.toList = l.skippedMain ++ l.victimsFrom false := by
  rw [toList_restore_main false (h.scan.keys.nodup_iff.mpr hrep.nodup), h.empty.2,
    List.append_nil, Scan.victimsFrom]
  simp [Scan.returned]

/-- Every key ends without frequency: an unchanged policy had none before. -/
theorem Failed.unused (hrep : RepInv p) (h : Failed p n isProtected l)
    (hsame : Unchanged p (restore false l p)) : Unused p := by
  intro key freq hfreq
  have hresident : key ∈ p.blocks := by
    rw [← hrep.counted, ← AList.lookup_isSome, hfreq]
    rfl
  have hsettled : key ∈ l.settled := by
    have hmem : key ∈ l.keys := by
      rw [h.scan.keys.mem_iff, List.mem_append]
      exact (hrep.queued key).mpr hresident
    rw [Scan.keys_eq, h.empty.1, h.empty.2] at hmem
    exact hmem
  have hle := h.spent key hsettled
  have hlookup : l.freq.lookup key = some freq := (hsame.freq key).trans hfreq
  rw [Scan.freqOf, hlookup, Option.getD_some] at hle
  have hrange := hrep.freqRange key freq hfreq
  omega

/-- A failed eviction leaves the policy as it was when nothing was used and the candidates come
last in both queues, and only then. -/
theorem Failed.unchanged_iff (hrep : RepInv p) (h : Failed p n isProtected l) :
    Unchanged p (restore false l p) ↔ Unused p ∧
      CandidatesLast p.evictable isProtected p.small ∧
      CandidatesLast p.evictable isProtected p.main := by
  have hqueues : Unused p →
      ((restore false l p).small = p.small ↔ CandidatesLast p.evictable isProtected p.small) ∧
        ((restore false l p).main = p.main ↔ CandidatesLast p.evictable isProtected p.main) := by
    intro hunused
    obtain ⟨-, hsmall, hmain⟩ := h.parted hunused
    rw [h.empty.1] at hsmall
    rw [h.empty.2] at hmain
    rw [KeyQueue.ext_iff, KeyQueue.ext_iff, h.toList_small hrep, h.toList_main hrep]
    exact ⟨hsmall.restored_iff, hmain.restored_iff⟩
  constructor
  · intro hsame
    have hunused := h.unused hrep hsame
    obtain ⟨hsmall, hmain⟩ := hqueues hunused
    exact ⟨hunused, hsmall.mp hsame.small, hmain.mp hsame.main⟩
  · rintro ⟨hunused, hlastSmall, hlastMain⟩
    obtain ⟨hsmall, hmain⟩ := hqueues hunused
    have hfreq : l.freq = p.freq := (h.parted hunused).freq
    exact ⟨fun _ => rfl, fun key => congrArg (fun freq => freq.lookup key) hfreq, rfl, rfl,
      hsmall.mpr hlastSmall, hmain.mpr hlastMain⟩

/-- **Failing evictions.** After every run, an eviction that returns `None` leaves the policy as it
was if and only if there are enough candidates, so that it does not fail, or no key has a frequency
and the candidates come last in both queues. -/
theorem run_failure (refCnt : BlockStatus → Int) (cacheCapacity : Nat)
    (ops : List (Op Key BlockStatus)) (p : S3FIFOCachePolicy Key BlockStatus)
    (h : Run (Step refCnt) (init cacheCapacity) ops p) (n : Nat) (isProtected : Finset Key) :
    (∀ p', p.evict n isProtected = .ok (none, p') → Unchanged p p') ↔
      n ≤ {key ∈ p.evictable | key ∈ p.blocks ∧ key ∉ isProtected}.card ∨
        Unused p ∧ CandidatesLast p.evictable isProtected p.small ∧
          CandidatesLast p.evictable isProtected p.main := by
  have hrep := repInv_of_run h
  by_cases henough : n ≤ {key ∈ p.evictable | key ∈ p.blocks ∧ key ∉ isProtected}.card
  · refine iff_of_true (fun p' hfails => ?_) (.inl henough)
    have hsome := ((evict_returns n isProtected hrep).of_eq hfails).1.isSome_iff.mpr henough
    cases hsome
  · obtain ⟨l, hfails, hfailed⟩ := evict_fails hrep (Nat.lt_of_not_le henough)
    rw [or_iff_right henough, ← hfailed.unchanged_iff hrep]
    constructor
    · exact fun hall => hall _ hfails
    · intro hsame p' hfails'
      cases hfails.symm.trans hfails'
      exact hsame

/-- Two blocks are wanted, and the second of the two is protected. -/
def protectedSecond : S3FIFOCachePolicy Nat Int :=
  ((init 10).insert id 1 0).insert id 2 0

theorem protectedSecond_run :
    Run (Step id) (init 10) [.insert 1 0, .insert 2 0] protectedSecond := by
  have hstart : Run (Step id) (init 10 : S3FIFOCachePolicy Nat Int) [] _ := .nil
  exact hstart |>.snoc (.insert 1 0 (by decide)) |>.snoc (.insert 2 0 (by decide))

theorem run_failure_protectedSecond :
    (∀ p', protectedSecond.evict 2 {2} = .ok (none, p') → Unchanged protectedSecond p') ↔
      2 ≤ {key ∈ protectedSecond.evictable | key ∈ protectedSecond.blocks ∧
          key ∉ ({2} : Finset Nat)}.card ∨
        Unused protectedSecond ∧
          CandidatesLast protectedSecond.evictable {2} protectedSecond.small ∧
          CandidatesLast protectedSecond.evictable {2} protectedSecond.main :=
  run_failure id 10 _ _ protectedSecond_run 2 {2}

/-- The eviction fails, and the two keys come back in the other order. -/
theorem protectedSecond_reordered :
    Run (Step id) (init 10) [.insert 1 0, .insert 2 0] protectedSecond ∧
      ∃ p', protectedSecond.evict 2 {2} = .ok (none, p') ∧ ¬ Unchanged protectedSecond p' := by
  refine ⟨protectedSecond_run, _, rfl, fun hsame => ?_⟩
  have hsmall := hsame.small
  exact absurd hsmall (by decide)

end TieredKVCache.VllmAdapter.S3FIFOCachePolicy
