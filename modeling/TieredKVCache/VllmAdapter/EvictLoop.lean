import Mathlib.Data.List.Count
import Mathlib.Data.List.Perm.Subperm
import TieredKVCache.VllmAdapter.OffloadingSpec

/-!
# The loop of `evict`

`ScanStep` says what one round of the loop can do. The six ways to move a key keep the keys that
the loop works on, up to their order (`ScanStep.keys`), and lower `scanMeasure`. `ScanInv` is the
invariant of the loop, and `scanQueues_returns` what it has found when it ends: enough victims, or
two empty queues.
-/

namespace TieredKVCache.VllmAdapter.S3FIFOCachePolicy

open Lib

variable {Key BlockStatus : Type} [DecidableEq Key] {smallBudget n : Nat}
  {evictable isProtected : Finset Key} {l l' : Scan Key} {p : S3FIFOCachePolicy Key BlockStatus}

/-! ## One round -/

/-- The key may be evicted. -/
def Candidate (evictable isProtected : Finset Key) (key : Key) : Prop :=
  key ∉ isProtected ∧ key ∈ evictable

theorem candidate_iff {key : Key} :
    Candidate evictable isProtected key ↔ ¬ (key ∈ isProtected ∨ key ∉ evictable) := by
  simp [Candidate]

inductive ScanStep (smallBudget : Nat) (evictable isProtected : Finset Key) (l : Scan Key) :
    Scan Key → Prop
  | promote {key : Key} {small : KeyQueue Key} (hfrom : l.fromSmall smallBudget = true)
      (hpop : l.small.popFront = some (key, small)) (hfreq : l.freqOf key > 0) :
      ScanStep smallBudget evictable isProtected l
        { l with small, freq := l.freq.insert key 0, main := l.main.push key }
  | skipSmall {key : Key} {small : KeyQueue Key} (hfrom : l.fromSmall smallBudget = true)
      (hpop : l.small.popFront = some (key, small)) (hfreq : ¬ l.freqOf key > 0)
      (hkey : ¬ Candidate evictable isProtected key) :
      ScanStep smallBudget evictable isProtected l
        { l with small, skippedSmall := l.skippedSmall ++ [key] }
  | takeSmall {key : Key} {small : KeyQueue Key} (hfrom : l.fromSmall smallBudget = true)
      (hpop : l.small.popFront = some (key, small)) (hfreq : ¬ l.freqOf key > 0)
      (hkey : Candidate evictable isProtected key) :
      ScanStep smallBudget evictable isProtected l
        { l with small, victims := l.victims ++ [(key, true)] }
  | requeue {key : Key} {main : KeyQueue Key} (hfrom : ¬ l.fromSmall smallBudget = true)
      (hpop : l.main.popFront = some (key, main)) (hfreq : l.freqOf key > 0) :
      ScanStep smallBudget evictable isProtected l
        { l with main := main.push key, freq := l.freq.insert key (l.freqOf key - 1) }
  | skipMain {key : Key} {main : KeyQueue Key} (hfrom : ¬ l.fromSmall smallBudget = true)
      (hpop : l.main.popFront = some (key, main)) (hfreq : ¬ l.freqOf key > 0)
      (hkey : ¬ Candidate evictable isProtected key) :
      ScanStep smallBudget evictable isProtected l
        { l with main, skippedMain := l.skippedMain ++ [key] }
  | takeMain {key : Key} {main : KeyQueue Key} (hfrom : ¬ l.fromSmall smallBudget = true)
      (hpop : l.main.popFront = some (key, main)) (hfreq : ¬ l.freqOf key > 0)
      (hkey : Candidate evictable isProtected key) :
      ScanStep smallBudget evictable isProtected l
        { l with main, victims := l.victims ++ [(key, false)] }

theorem evictBody_of_enough (h : n ≤ l.victims.length) :
    evictBody smallBudget evictable n isProtected l = .ok (.inr l) := by
  rw [evictBody, if_neg (by omega)]

theorem evictBody_of_empty (hsmall : l.small.toList = []) (hmain : l.main.toList = []) :
    evictBody smallBudget evictable n isProtected l = .ok (.inr l) := by
  by_cases h : l.victims.length < n
  · have hfrom : l.fromSmall smallBudget = true := by
      simp [Scan.fromSmall, KeyQueue.length, hmain]
    rw [evictBody, if_pos h, if_pos hfrom, KeyQueue.popFront_eq_none.mpr hsmall]
  · exact evictBody_of_enough (Nat.not_lt.mp h)

/-- A round that finds a key takes a step. -/
theorem evictBody_step (smallBudget : Nat) (evictable isProtected : Finset Key)
    (h : l.victims.length < n)
    (hkeys : l.small.toList ≠ [] ∨ l.main.toList ≠ []) :
    ∃ l', evictBody smallBudget evictable n isProtected l = .ok (.inl l') ∧
      ScanStep smallBudget evictable isProtected l l' := by
  rw [evictBody, if_pos h]
  by_cases hfrom : l.fromSmall smallBudget = true
  · rw [if_pos hfrom]
    cases hpop : l.small.popFront with
    | none =>
      have hsmall := KeyQueue.popFront_eq_none.mp hpop
      have hmain : l.main.toList = [] := by
        simpa [Scan.fromSmall, KeyQueue.length, hsmall] using hfrom
      exact absurd ⟨hsmall, hmain⟩ (not_and_or.mpr hkeys)
    | some popped =>
      obtain ⟨key, small⟩ := popped
      by_cases hfreq : l.freqOf key > 0
      · exact ⟨_, if_pos hfreq, .promote hfrom hpop hfreq⟩
      · by_cases hkey : key ∈ isProtected ∨ key ∉ evictable
        · exact ⟨_, (if_neg hfreq).trans (if_pos hkey),
            .skipSmall hfrom hpop hfreq fun h => candidate_iff.mp h hkey⟩
        · exact ⟨_, (if_neg hfreq).trans (if_neg hkey),
            .takeSmall hfrom hpop hfreq (candidate_iff.mpr hkey)⟩
  · rw [if_neg hfrom]
    cases hpop : l.main.popFront with
    | none =>
      have hmain := KeyQueue.popFront_eq_none.mp hpop
      simp [Scan.fromSmall, KeyQueue.length, hmain] at hfrom
    | some popped =>
      obtain ⟨key, main⟩ := popped
      by_cases hfreq : l.freqOf key > 0
      · exact ⟨_, if_pos hfreq, .requeue hfrom hpop hfreq⟩
      · by_cases hkey : key ∈ isProtected ∨ key ∉ evictable
        · exact ⟨_, (if_neg hfreq).trans (if_pos hkey),
            .skipMain hfrom hpop hfreq fun h => candidate_iff.mp h hkey⟩
        · exact ⟨_, (if_neg hfreq).trans (if_neg hkey),
            .takeMain hfrom hpop hfreq (candidate_iff.mpr hkey)⟩

/-- A step is what the round does. -/
theorem ScanStep.body (h : ScanStep smallBudget evictable isProtected l l')
    (hfew : l.victims.length < n) :
    evictBody smallBudget evictable n isProtected l = .ok (.inl l') := by
  rw [evictBody, if_pos hfew]
  cases h with
  | promote hfrom hpop hfreq =>
    rw [if_pos hfrom, hpop]
    exact if_pos hfreq
  | skipSmall hfrom hpop hfreq hkey =>
    rw [if_pos hfrom, hpop]
    exact (if_neg hfreq).trans (if_pos (not_not.mp fun h => hkey (candidate_iff.mpr h)))
  | takeSmall hfrom hpop hfreq hkey =>
    rw [if_pos hfrom, hpop]
    exact (if_neg hfreq).trans (if_neg (candidate_iff.mp hkey))
  | requeue hfrom hpop hfreq =>
    rw [if_neg hfrom, hpop]
    exact if_pos hfreq
  | skipMain hfrom hpop hfreq hkey =>
    rw [if_neg hfrom, hpop]
    exact (if_neg hfreq).trans (if_pos (not_not.mp fun h => hkey (candidate_iff.mpr h)))
  | takeMain hfrom hpop hfreq hkey =>
    rw [if_neg hfrom, hpop]
    exact (if_neg hfreq).trans (if_neg (candidate_iff.mp hkey))

/-! ## What a round keeps, and what it lowers -/

/-- The keys the loop works on. -/
def Scan.keys (l : Scan Key) : List Key :=
  l.small.toList ++ l.main.toList ++ l.victims.map Prod.fst ++ l.skippedSmall ++ l.skippedMain

theorem ScanStep.keys (h : ScanStep smallBudget evictable isProtected l l')
    (hnodup : l.keys.Nodup) : l'.keys.Perm l.keys := by
  have hcount (key : Key) := List.nodup_iff_count_le_one.mp hnodup key
  simp only [Scan.keys, List.count_append] at hcount
  rw [List.perm_iff_count]
  intro k
  cases h with
  | @promote key small hfrom hpop hfreq =>
    have hkey : key ∉ l.main := by
      have hkey := hcount key
      rw [KeyQueue.popFront_eq_some.mp hpop, List.count_cons_self] at hkey
      exact List.count_eq_zero.mp (by omega)
    simp only [Scan.keys, List.count_append, KeyQueue.popFront_eq_some.mp hpop,
      KeyQueue.toList_push hkey, List.count_cons, List.count_nil]
    omega
  | @requeue key main hfrom hpop hfreq =>
    have hnodup' : (key :: main.toList).Nodup := KeyQueue.popFront_eq_some.mp hpop ▸ l.main.nodup
    have hkey : key ∉ main := (List.nodup_cons.mp hnodup').1
    simp only [Scan.keys, List.count_append, KeyQueue.popFront_eq_some.mp hpop,
      KeyQueue.toList_push hkey, List.count_cons, List.count_nil]
    omega
  | skipSmall hfrom hpop | takeSmall hfrom hpop | skipMain hfrom hpop | takeMain hfrom hpop =>
    simp only [Scan.keys, List.count_append, List.map_append, List.map_cons, List.map_nil,
      KeyQueue.popFront_eq_some.mp hpop, List.count_cons, List.count_nil]
    omega

/-- A positive frequency is bound. -/
theorem Scan.lookup_of_freqOf_pos {key : Key} (h : l.freqOf key > 0) :
    l.freq.lookup key = some (l.freqOf key) := by
  unfold Scan.freqOf at h ⊢
  cases hfreq : l.freq.lookup key with
  | none => simp [hfreq] at h
  | some freq => rfl

theorem freqOf_eq {key : Key} {freq : Int} (h : l.freq.lookup key = some freq) :
    l.freqOf key = freq := by
  rw [Scan.freqOf, h]
  rfl

theorem Scan.sumOver_insert {key : Key} (h : l.freqOf key > 0) (freq : Int) :
    sumOver (fun _ freq => freq.toNat) (l.freq.insert key freq) + (l.freqOf key).toNat =
      sumOver (fun _ freq => freq.toNat) l.freq + freq.toNat := by
  rw [Lib.sumOver_insert, sumOver_erase (Scan.lookup_of_freqOf_pos h)]
  omega

theorem ScanStep.scanMeasure_lt (h : ScanStep smallBudget evictable isProtected l l') :
    scanMeasure l' < scanMeasure l := by
  cases h with
  | @promote key small hfrom hpop hfreq =>
    have hsmall := KeyQueue.length_of_popFront hpop
    have hmain : (l.main.push key).length ≤ l.main.length + 1 := KeyQueue.length_push_le
    have hsum := Scan.sumOver_insert hfreq 0
    simp only [scanMeasure]
    omega
  | @requeue key main hfrom hpop hfreq =>
    have hmain := KeyQueue.length_of_popFront hpop
    have hpush : (main.push key).length ≤ main.length + 1 := KeyQueue.length_push_le
    have hsum := Scan.sumOver_insert hfreq (l.freqOf key - 1)
    simp only [scanMeasure]
    omega
  | skipSmall hfrom hpop | takeSmall hfrom hpop | skipMain hfrom hpop | takeMain hfrom hpop =>
    have hlen := KeyQueue.length_of_popFront hpop
    simp only [scanMeasure]
    omega

/-! ## The loop -/

/-- After a round that has found the only victim asked for the loop ends. -/
theorem evictLoop_of_step (hstep : ScanStep smallBudget evictable isProtected l l')
    (hfew : l.victims.length < 1) (henough : 1 ≤ l'.victims.length) {n : Nat}
    (hn : scanMeasure l < n) :
    iterate (evictBody smallBudget evictable 1 isProtected) .diverged n l = .ok l' := by
  have hlt := hstep.scanMeasure_lt
  obtain ⟨n, rfl⟩ : ∃ k, n = k + 2 := ⟨n - 2, by omega⟩
  rw [iterate_of_inl (hstep.body hfew), iterate_of_inr (evictBody_of_enough henough)]

/-- Every frequency is in the range of the counter. -/
def FreqRange (freq : AList fun _ : Key => Int) : Prop :=
  ∀ key f, freq.lookup key = some f → 0 ≤ f ∧ f ≤ freqCap

theorem FreqRange.insert {freq : AList fun _ : Key => Int} (h : FreqRange freq) {key : Key}
    {f : Int} (hf : 0 ≤ f ∧ f ≤ freqCap) : FreqRange (freq.insert key f) := by
  intro key' f' hlookup
  rcases lookup_insert_eq_some.mp hlookup with ⟨rfl, rfl⟩ | ⟨_, hlookup⟩
  · exact hf
  · exact h key' f' hlookup

theorem Scan.mem_insert {key key' : Key} (h : l.freqOf key > 0) (f : Int) :
    key' ∈ l.freq.insert key f ↔ key' ∈ l.freq := by
  have hkey : key ∈ l.freq := by
    rw [← AList.lookup_isSome, Scan.lookup_of_freqOf_pos h]
    rfl
  rw [AList.mem_insert]
  exact ⟨fun hmem => hmem.elim (fun heq => heq ▸ hkey) id, .inr⟩

structure ScanInv (p : S3FIFOCachePolicy Key BlockStatus) (n : Nat) (isProtected : Finset Key)
    (l : Scan Key) : Prop where
  keys : l.keys.Perm (p.small.toList ++ p.main.toList)
  counted : ∀ key, key ∈ l.freq ↔ key ∈ p.freq
  freqRange : FreqRange l.freq
  chosen : ∀ v ∈ l.victims, Candidate p.evictable isProtected v.1
  skipped : ∀ key ∈ l.skippedSmall ++ l.skippedMain, ¬ Candidate p.evictable isProtected key
  enough : l.victims.length ≤ n

theorem ScanStep.scanInv (h : ScanStep smallBudget p.evictable isProtected l l')
    (hnodup : (p.small.toList ++ p.main.toList).Nodup) (hfew : l.victims.length < n)
    (hinv : ScanInv p n isProtected l) : ScanInv p n isProtected l' := by
  have hkeys : l'.keys.Perm (p.small.toList ++ p.main.toList) :=
    (h.keys (hinv.keys.nodup_iff.mpr hnodup)).trans hinv.keys
  obtain ⟨-, hcounted, hrange, hchosen, hskipped, henough⟩ := hinv
  cases h with
  | promote hfrom hpop hfreq =>
    refine ⟨hkeys, ?_, hrange.insert (by decide), hchosen, hskipped, henough⟩
    exact fun key => (Scan.mem_insert hfreq 0).trans (hcounted key)
  | @requeue key main hfrom hpop hfreq =>
    refine ⟨hkeys, ?_, hrange.insert ?_, hchosen, hskipped, henough⟩
    · exact fun key => (Scan.mem_insert hfreq _).trans (hcounted key)
    · have hold := hrange key _ (Scan.lookup_of_freqOf_pos hfreq)
      omega
  | skipSmall hfrom hpop hfreq hkey | skipMain hfrom hpop hfreq hkey =>
    refine ⟨hkeys, hcounted, hrange, hchosen, ?_, henough⟩
    intro key' hmem
    simp only [List.mem_append, List.mem_singleton] at hmem hskipped
    grind
  | takeSmall hfrom hpop hfreq hkey | takeMain hfrom hpop hfreq hkey =>
    refine ⟨hkeys, hcounted, hrange, ?_, hskipped, ?_⟩
    · intro v hmem
      rcases List.mem_append.mp hmem with hmem | hmem
      · exact hchosen v hmem
      · rw [List.mem_singleton.mp hmem]
        exact hkey
    · rw [List.length_append, List.length_singleton]
      omega

/-- The loop ends with enough victims, or when it has looked at every key. What every round keeps
holds at its end. -/
theorem scanQueues_invariant {P : Scan Key → Prop}
    (hnodup : (p.small.toList ++ p.main.toList).Nodup) (hrange : FreqRange p.freq) (n : Nat)
    (isProtected : Finset Key)
    (hstart : P { small := p.small, main := p.main, freq := p.freq })
    (hstep : ∀ l l', ScanInv p n isProtected l → P l →
      ScanStep p.smallBudget p.evictable isProtected l l' → P l') :
    Returns (p.scanQueues n isProtected) fun l => (ScanInv p n isProtected l ∧ P l) ∧
      (l.victims.length = n ∨ l.small.toList = [] ∧ l.main.toList = []) := by
  let scan : Scan Key := { small := p.small, main := p.main, freq := p.freq }
  have hscan : ScanInv p n isProtected scan := by
    refine ⟨?_, fun _ => .rfl, hrange, by simp [scan], by simp [scan], Nat.zero_le _⟩
    simp [Scan.keys, scan]
  refine iterate_returns (fun l => ScanInv p n isProtected l ∧ P l) scanMeasure ?_
    ⟨hscan, hstart⟩ (Nat.lt_succ_self _)
  rintro l ⟨hinv, hP⟩
  by_cases hfew : l.victims.length < n
  · by_cases hempty : l.small.toList = [] ∧ l.main.toList = []
    · exact .inr ⟨l, evictBody_of_empty hempty.1 hempty.2, ⟨hinv, hP⟩, .inr hempty⟩
    · obtain ⟨l', hbody, hround⟩ := evictBody_step p.smallBudget p.evictable isProtected hfew
        (not_and_or.mp hempty)
      exact .inl ⟨l', hbody, ⟨hround.scanInv hnodup hfew hinv, hstep l l' hinv hP hround⟩,
        hround.scanMeasure_lt⟩
  · have henough := hinv.enough
    exact .inr ⟨l, evictBody_of_enough (Nat.not_lt.mp hfew), ⟨hinv, hP⟩, .inl (by omega)⟩

theorem scanQueues_returns (hnodup : (p.small.toList ++ p.main.toList).Nodup)
    (hrange : FreqRange p.freq) (n : Nat) (isProtected : Finset Key) :
    Returns (p.scanQueues n isProtected) fun l => ScanInv p n isProtected l ∧
      (l.victims.length = n ∨ l.small.toList = [] ∧ l.main.toList = []) :=
  (scanQueues_invariant (P := fun _ => True) hnodup hrange n isProtected trivial
    fun _ _ _ _ _ => trivial).mono fun _ h => ⟨h.1.1, h.2⟩

end TieredKVCache.VllmAdapter.S3FIFOCachePolicy
