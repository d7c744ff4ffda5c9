import TieredKVCache.Lib.SecondChance
import TieredKVCache.VllmAdapter.PolicyRuns

/-!
# The victim of the main queue

What `evict(1, {})` does when all keys are evictable and the small queue is within its budget: the
loop looks at the main queue alone, and gives second chances until a key has no frequency left
(`loop_returns_of_counts`). How many laps that takes depends on the frequencies; the victim is the
first key with the least one, and what is left of the queue starts after it (`evict_firstLeast`).
-/

namespace TieredKVCache.VllmAdapter.S3FIFOCachePolicy

open Lib

variable {Key BlockStatus : Type} [DecidableEq Key] {smallBudget : Nat} {evictable : Finset Key}
  {l : Scan Key} {p : S3FIFOCachePolicy Key BlockStatus}

/-! ## The loop on the main queue -/

/-- The keys of the main queue with their frequencies. -/
structure Counts (l : Scan Key) (entries : List (Key × Nat)) : Prop where
  keys : l.main.toList = entries.map Prod.fst
  freq : ∀ entry ∈ entries, l.freq.lookup entry.1 = some (entry.2 : Int)

/-- The loop has found nothing so far, and looks for a victim in the main queue. -/
structure Searching (smallBudget : Nat) (evictable : Finset Key) (l : Scan Key) : Prop where
  small_le : l.small.length ≤ smallBudget
  evictable : ∀ key ∈ l.main, key ∈ evictable
  victims : l.victims = []
  skipped : l.skippedSmall = [] ∧ l.skippedMain = []

/-- The loop has ended with a victim from the main queue; the small queue is as it was. -/
structure Found (l : Scan Key) (victim : Key) (rest : List (Key × Nat)) (l' : Scan Key) :
    Prop where
  counts : Counts l' rest
  small : l'.small = l.small
  victims : l'.victims = [(victim, false)]
  skipped : l'.skippedSmall = [] ∧ l'.skippedMain = []
  others : ∀ key ∉ l.main, l'.freq.lookup key = l.freq.lookup key

omit [DecidableEq Key] in
theorem Searching.not_fromSmall (h : Searching smallBudget evictable l) {key : Key}
    {main : KeyQueue Key} (hpop : l.main.popFront = some (key, main)) :
    ¬ l.fromSmall smallBudget = true := by
  have hle := h.small_le
  have hlength := KeyQueue.length_of_popFront hpop
  simp [Scan.fromSmall]
  omega

theorem Counts.nodup {entries : List (Key × Nat)} (h : Counts l entries) :
    (entries.map Prod.fst).Nodup := by
  rw [← h.keys]
  exact l.main.nodup

/-- The head of the main queue. -/
theorem Counts.popFront {key : Key} {count : Nat} {entries : List (Key × Nat)}
    (h : Counts l ((key, count) :: entries)) : ∃ main, l.main.popFront = some (key, main) ∧
      main.toList = entries.map Prod.fst ∧ l.freqOf key = count := by
  have hnodup : (entries.map Prod.fst).Nodup := (List.nodup_cons.mp h.nodup).2
  exact ⟨⟨entries.map Prod.fst, hnodup⟩, KeyQueue.popFront_eq_some.mpr h.keys, rfl,
    freqOf_eq (h.freq _ List.mem_cons_self)⟩

/-- A key with a frequency goes to the end. -/
theorem Counts.turn {key : Key} {count : Nat} {entries : List (Key × Nat)} {main : KeyQueue Key}
    (h : Counts l ((key, count + 1) :: entries)) (hkeys : main.toList = entries.map Prod.fst) :
    Counts { l with main := main.push key, freq := l.freq.insert key (l.freqOf key - 1) }
      (entries ++ [(key, count)]) := by
  have hfreq : l.freqOf key = (count + 1 : Nat) := freqOf_eq (h.freq _ List.mem_cons_self)
  have hkey : key ∉ entries.map Prod.fst := (List.nodup_cons.mp h.nodup).1
  have hout : key ∉ main := fun hmem => hkey (hkeys ▸ hmem)
  refine ⟨?_, fun entry hentry => ?_⟩
  · show (main.push key).toList = _
    rw [KeyQueue.toList_push hout, hkeys, List.map_append]
    rfl
  · rcases List.mem_append.mp hentry with hold | hlast
    · have hne : entry.1 ≠ key := fun heq => hkey (heq ▸ List.mem_map_of_mem hold)
      exact (AList.lookup_insert_ne hne).trans (h.freq entry (List.mem_cons_of_mem _ hold))
    · rw [List.mem_singleton.mp hlast]
      refine (AList.lookup_insert _).trans (congrArg some ?_)
      omega

/-- The frequencies of keys that have turned so often. -/
theorem Counts.lowered {entries rest part : List (Key × Nat)} {laps : Nat} {l' : Scan Key}
    (h : Counts l entries) (h' : Counts l' rest) (hpart : part ⊆ entries)
    (hrest : part.map (Lib.lowered laps) ⊆ rest) (hle : ∀ entry ∈ part, laps ≤ entry.2) {key : Key}
    (hkey : key ∈ part.map Prod.fst) :
    ∃ freq : Int, l.freq.lookup key = some freq ∧ laps ≤ freq ∧
      l'.freq.lookup key = some (freq - laps) := by
  obtain ⟨entry, hentry, rfl⟩ := List.mem_map.mp hkey
  have hlaps := hle entry hentry
  have hturned : l'.freq.lookup entry.1 = some ((entry.2 - laps : Nat) : Int) :=
    h'.freq _ (hrest (List.mem_map_of_mem hentry))
  exact ⟨entry.2, h.freq entry (hpart hentry), Int.ofNat_le.mpr hlaps,
    hturned.trans (congrArg some (Int.ofNat_sub hlaps))⟩

/-- The loop gives second chances, and takes the key that leaves. -/
theorem loop_returns_of_counts {entries rest : List (Key × Nat)} {victim : Key}
    (hleaves : SecondChance entries victim rest) (hcounts : Counts l entries)
    (hsearching : Searching smallBudget evictable l) {n : Nat} (hn : scanMeasure l < n) :
    Returns (iterate (evictBody smallBudget evictable 1 ∅) .diverged n l)
      (Found l victim rest) := by
  have hfew : l.victims.length < 1 := by
    rw [hsearching.victims]
    exact Nat.one_pos
  induction hleaves generalizing l n with
  | leave victim rest =>
    obtain ⟨main, hpop, hkeys, hfreq⟩ := hcounts.popFront
    have hvictim : victim ∈ l.main := by
      rw [← KeyQueue.mem_toList, hcounts.keys]
      exact List.mem_cons_self
    have hstep : ScanStep smallBudget evictable ∅ l
        { l with main, victims := l.victims ++ [(victim, false)] } :=
      .takeMain (hsearching.not_fromSmall hpop) hpop (by omega)
        ⟨Finset.notMem_empty _, hsearching.evictable victim hvictim⟩
    refine ⟨_, evictLoop_of_step hstep hfew (by simp) hn, ⟨hkeys, fun entry hentry =>
      hcounts.freq entry (List.mem_cons_of_mem _ hentry)⟩, rfl, ?_, hsearching.skipped,
      fun _ _ => rfl⟩
    show l.victims ++ [(victim, false)] = [(victim, false)]
    rw [hsearching.victims, List.nil_append]
  | @turn key victim count queue rest _ ih =>
    obtain ⟨main, hpop, hkeys, hfreq⟩ := hcounts.popFront
    have hstep : ScanStep smallBudget evictable ∅ l
        { l with main := main.push key, freq := l.freq.insert key (l.freqOf key - 1) } :=
      .requeue (hsearching.not_fromSmall hpop) hpop (by omega)
    have hlt := hstep.scanMeasure_lt
    obtain ⟨n, rfl⟩ : ∃ k, n = k + 1 := ⟨n - 1, by omega⟩
    have hmain : l.main.toList = key :: main.toList := KeyQueue.popFront_eq_some.mp hpop
    have hsame (k : Key) : k ∈ main.push key ↔ k ∈ l.main := by
      rw [KeyQueue.mem_push, ← KeyQueue.mem_toList (q := l.main), hmain, List.mem_cons, or_comm]
      exact Iff.rfl
    rw [iterate_of_inl (hstep.body hfew)]
    refine (ih (hcounts.turn hkeys) ⟨hsearching.small_le, fun k hk =>
      hsearching.evictable k ((hsame k).mp hk), hsearching.victims, hsearching.skipped⟩
      (by omega) hfew).mono fun l' hfound => ?_
    refine ⟨hfound.counts, hfound.small, hfound.victims, hfound.skipped, fun k hk => ?_⟩
    have hne : k ≠ key := by
      rintro rfl
      exact hk ((hsame k).mp (KeyQueue.mem_push.mpr (.inr rfl)))
    exact (hfound.others k fun hin => hk ((hsame k).mp hin)).trans (AList.lookup_insert_ne hne)

/-! ## `evict` -/

/-- What the eviction of one key from the main queue makes of a policy. -/
structure EvictsFirstLeast (p : S3FIFOCachePolicy Key BlockStatus) (before : List Key)
    (victim : Key) (after : List Key) (least : Int) (block : BlockStatus)
    (p' : S3FIFOCachePolicy Key BlockStatus) : Prop where
  main_eq : p.main.toList = before ++ victim :: after
  victim_freq : p.freq.lookup victim = some least
  block_eq : p.blocks.lookup victim = some block
  small_eq : p'.small = p.small
  small_freq : ∀ key ∈ p.small, p'.freq.lookup key = p.freq.lookup key
  main_after : p'.main.toList = after ++ before
  before_freq : ∀ key ∈ before, ∃ freq, p.freq.lookup key = some freq ∧ least < freq ∧
    p'.freq.lookup key = some (freq - (least + 1))
  after_freq : ∀ key ∈ after, ∃ freq, p.freq.lookup key = some freq ∧ least ≤ freq ∧
    p'.freq.lookup key = some (freq - least)
  /-- No key of a lower frequency stays. -/
  stays : ∀ key ∈ p'.main, ∃ freq, p.freq.lookup key = some freq ∧ least ≤ freq

/-- The main queue of a policy, with the frequencies. -/
theorem RepInv.counts (h : RepInv p) : ∃ entries,
    Counts { small := p.small, main := p.main, freq := p.freq } entries := by
  refine ⟨p.main.toList.map fun key => (key, ((p.freq.lookup key).getD 0).toNat), ?_, ?_⟩
  · rw [List.map_map]
    exact (List.map_id _).symm
  · intro entry hentry
    obtain ⟨key, hkey, rfl⟩ := List.mem_map.mp hentry
    have hblock : key ∈ p.blocks := (h.queued key).mp (.inr hkey)
    obtain ⟨freq, hfreq⟩ := mem_iff_lookup.mp ((h.counted key).mpr hblock)
    have hrange := h.freqRange key freq hfreq
    show p.freq.lookup key = some (((p.freq.lookup key).getD 0).toNat : Int)
    rw [hfreq, Option.getD_some, Int.toNat_of_nonneg hrange.1]

/-- The victim leaves the policy; the queues are those that the loop has left. -/
theorem Found.evict {start : Scan Key} {victim : Key} {rest : List (Key × Nat)}
    (h : Found start victim rest l) (hsmall : start.small = p.small)
    (hscan : p.scanQueues 1 ∅ = .ok l) (hresident : victim ∈ p.blocks) : ∃ block p',
      p.evict 1 ∅ = .ok (some [(victim, block)], p') ∧ p.blocks.lookup victim = some block ∧
        p'.small = p.small ∧ p'.main.toList = rest.map Prod.fst ∧
          ∀ key ≠ victim, p'.freq.lookup key = l.freq.lookup key := by
  obtain ⟨block, hblock⟩ := mem_iff_lookup.mp hresident
  have hdropped := dropped_dropVictim victim false (restore true l p)
  have hrestored : (restore true l p).small = l.small ∧ (restore true l p).main = l.main := by
    simp [restore, restoreQueue, h.skipped]
  refine ⟨block, _, evict_of_victim hscan h.victims hblock, hblock, ?_, ?_, fun key hne => ?_⟩
  · exact hdropped.small.trans (hrestored.1.trans (h.small.trans hsmall))
  · rw [hdropped.main, hrestored.2, h.counts.keys]
  · rw [hdropped.freq, if_neg (mt List.mem_singleton.mp hne)]
    rfl

/-- **The victim.** With all keys evictable and the small queue within its budget, `evict(1, {})`
takes the first key of the main queue with the least frequency, and the queue goes on after it. -/
theorem evict_firstLeast (p : S3FIFOCachePolicy Key BlockStatus) (hrep : RepInv p)
    (hall : ∀ key ∈ p.blocks, key ∈ p.evictable) (hsmall : p.small.length ≤ p.smallBudget)
    (hmain : p.main.toList ≠ []) : Returns (p.evict 1 ∅) fun r =>
      ∃ before victim after least block, r.1 = some [(victim, block)] ∧
        EvictsFirstLeast p before victim after least block r.2 := by
  obtain ⟨entries, hcounts⟩ := hrep.counts
  have hentries : entries ≠ [] := fun hnil => hmain (by rw [hcounts.keys, hnil]; rfl)
  obtain ⟨victim, rest, hleaves⟩ := exists_secondChance hentries
  have hsearching : Searching p.smallBudget p.evictable
      { small := p.small, main := p.main, freq := p.freq } :=
    ⟨hsmall, fun key hkey => hall key ((hrep.queued key).mp (.inr hkey)), rfl, rfl, rfl⟩
  obtain ⟨l, hscan, hfound⟩ := loop_returns_of_counts hleaves hcounts hsearching
    (Nat.lt_succ_self _)
  obtain ⟨before, after, least, ⟨hqueue, hbefore, hafter⟩, hrest⟩ := hleaves.split
  have hkeys : p.main.toList = before.map Prod.fst ++ victim :: after.map Prod.fst := by
    rw [hcounts.keys, hqueue, List.map_append]
    rfl
  have hvictim : victim ∈ p.main := by
    rw [← KeyQueue.mem_toList, hkeys]
    simp
  have hnodup : (before.map Prod.fst ++ victim :: after.map Prod.fst).Nodup := by
    rw [← hkeys]
    exact p.main.nodup
  obtain ⟨-, hvictimOnce, hapart⟩ := List.nodup_append.mp hnodup
  obtain ⟨block, p', hevict, hblock, hsmall', hmain', hfreq⟩ :=
    hfound.evict rfl hscan ((hrep.queued victim).mp (.inr hvictim))
  have hmainAfter : p'.main.toList = after.map Prod.fst ++ before.map Prod.fst := by
    rw [hmain', hrest, List.map_append, map_fst_lowered, map_fst_lowered]
  have hbeforeFreq : ∀ key ∈ before.map Prod.fst, ∃ freq, p.freq.lookup key = some freq ∧
      least < freq ∧ p'.freq.lookup key = some (freq - (least + 1)) := by
    intro key hkey
    obtain ⟨freq, hold, hle, hnew⟩ := hcounts.lowered hfound.counts (by simp [hqueue])
      (hrest ▸ List.subset_append_right _ _) hbefore hkey
    have hne : key ≠ victim := hapart key hkey victim List.mem_cons_self
    exact ⟨freq, hold, by omega, (hfreq key hne).trans hnew⟩
  have hafterFreq : ∀ key ∈ after.map Prod.fst, ∃ freq, p.freq.lookup key = some freq ∧
      least ≤ freq ∧ p'.freq.lookup key = some (freq - least) := by
    intro key hkey
    obtain ⟨freq, hold, hle, hnew⟩ := hcounts.lowered hfound.counts (by simp [hqueue])
      (hrest ▸ List.subset_append_left _ _) hafter hkey
    have hne : key ≠ victim := fun heq => (List.nodup_cons.mp hvictimOnce).1 (heq ▸ hkey)
    exact ⟨freq, hold, hle, (hfreq key hne).trans hnew⟩
  refine ⟨_, hevict, before.map Prod.fst, victim, after.map Prod.fst, least, block, rfl, hkeys,
    ?victim_freq, hblock, hsmall', ?small_freq, hmainAfter, hbeforeFreq, hafterFreq, ?stays⟩
  case victim_freq => exact hcounts.freq (victim, least) (by simp [hqueue])
  case small_freq =>
    intro key hkey
    have hout : key ∉ p.main := hrep.disjoint key hkey
    have hne : key ≠ victim := fun heq => hout (heq ▸ hvictim)
    exact (hfreq key hne).trans (hfound.others key hout)
  case stays =>
    intro key hkey
    rw [← KeyQueue.mem_toList, hmainAfter, List.mem_append] at hkey
    rcases hkey with hafterKey | hbeforeKey
    · obtain ⟨freq, hold, hle, -⟩ := hafterFreq key hafterKey
      exact ⟨freq, hold, hle⟩
    · obtain ⟨freq, hold, hlt, -⟩ := hbeforeFreq key hbeforeKey
      exact ⟨freq, hold, le_of_lt hlt⟩

/-- Two keys in the main queue, of which the first was used. -/
def usedFirst : S3FIFOCachePolicy Nat Int where
  smallBudget := 1
  ghostCapacity := 2
  blocks := ((∅ : AList fun _ : Nat => Int).insert 1 0).insert 2 0
  main := ⟨[1, 2], by decide⟩
  freq := ((∅ : AList fun _ : Nat => Int).insert 1 1).insert 2 0
  evictable := {1, 2}

theorem evict_firstLeast_usedFirst : Returns (usedFirst.evict 1 ∅) fun r =>
    ∃ before victim after least block, r.1 = some [(victim, block)] ∧
      EvictsFirstLeast usedFirst before victim after least block r.2 := by
  have hqueued (key : Nat) : key ∈ usedFirst.main ↔ key = 1 ∨ key = 2 := by
    show key ∈ [1, 2] ↔ _
    simp
  have hinserted (a b : Int) (key : Nat) :
      key ∈ ((∅ : AList fun _ : Nat => Int).insert 1 a).insert 2 b ↔ key = 1 ∨ key = 2 := by
    rw [AList.mem_insert, AList.mem_insert, or_iff_left (AList.notMem_empty key), or_comm]
  have hblocks : ∀ key, key ∈ usedFirst.blocks ↔ key = 1 ∨ key = 2 := hinserted 0 0
  have hfreq : ∀ key, key ∈ usedFirst.freq ↔ key = 1 ∨ key = 2 := hinserted 1 0
  have hempty (key : Nat) : key ∉ usedFirst.small := KeyQueue.notMem_empty key
  have hrep : RepInv usedFirst := by
    refine ⟨fun key hkey => absurd hkey (hempty key), fun key => ?_, fun key => ?_,
      fun key freq hlookup => ?_, fun key hkey => ?_,
      fun key hkey => absurd hkey (KeyQueue.notMem_empty key), Nat.zero_le _⟩
    · rw [hqueued, hblocks, or_iff_right (hempty key)]
    · rw [hfreq, hblocks]
    · rcases lookup_insert_eq_some.mp hlookup with ⟨rfl, rfl⟩ | ⟨-, hlookup⟩
      · decide
      · rcases lookup_insert_eq_some.mp hlookup with ⟨rfl, rfl⟩ | ⟨-, hlookup⟩
        · decide
        · cases hlookup
    · rw [hblocks]
      simpa [usedFirst] using hkey
  exact evict_firstLeast usedFirst hrep (fun key hkey => by
    simpa [usedFirst] using (hblocks key).mp hkey) (Nat.zero_le _) (by decide)

end TieredKVCache.VllmAdapter.S3FIFOCachePolicy
