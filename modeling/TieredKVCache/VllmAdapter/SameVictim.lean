import TieredKVCache.Storage.Compaction
import TieredKVCache.Storage.Runs
import TieredKVCache.VllmAdapter.PolicyRuns

/-!
# One victim, two implementations

`PickS3VictimLocked` of the storage manager and `evict(1, {})` of the plugin scan the same two
queues. `Matching` says that a manager and a policy are in the same state, with blocks of one size
and a fastest tier of `N` of them. Each round of one loop is a round of the other
(`SameQueues.round`), so that both find the same victim, and leave the same queues.
-/

namespace TieredKVCache.VllmAdapter

open Lib Storage S3FIFOCachePolicy

section

variable {D BlockStatus : Type} (config : TierConfig D) (size : Nat)

/-- A manager and a policy for `blockCount` blocks with the same queues and frequencies; every key
is evictable. -/
structure Matching (blockCount : Nat) (s : State)
    (p : S3FIFOCachePolicy BlockKey BlockStatus) : Prop where
  budget : p.smallBudget = max 1 (blockCount / 10)
  repInv : RepInv p
  exact : QueuesExact config s
  smallUsed : s.s3SmallUsedBytes = bytesOf (fun _ it => InSmall config it) s.blocks
  uniform : ∀ key it, s.blocks.lookup key = some it →
    config.fastestTierCache = some it.entry.tier → it.entry.sizeBytes = size
  small : p.small.toList = s.s3SmallFifo
  main : p.main.toList = s.s3MainFifo
  freq : ∀ key it, s.blocks.lookup key = some it →
    config.fastestTierCache = some it.entry.tier → p.freq.lookup key = some (it.s3Freq : Int)
  evictable : ∀ key ∈ p.blocks, key ∈ p.evictable

/-- The queues hold the same keys in the same order, with the same frequencies. -/
structure SameOrder (s : State) (l : Scan BlockKey) : Prop where
  small : l.small.toList = s.s3SmallFifo
  main : l.main.toList = s.s3MainFifo
  counted : ∀ key, key ∈ l.small ∨ key ∈ l.main →
    ∃ it, s.blocks.lookup key = some it ∧ l.freq.lookup key = some (it.s3Freq : Int)
  skipped : l.skippedSmall = [] ∧ l.skippedMain = []

/-- What the two loops have in common while they run. -/
structure SameQueues (evictable : Finset BlockKey) (s : State) (l : Scan BlockKey) : Prop
    extends SameOrder s l where
  smallUsed : s.s3SmallUsedBytes = s.s3SmallFifo.length * size
  inSmall : ∀ key ∈ l.small, key ∈ evictable ∧
    ∃ it, s.blocks.lookup key = some it ∧ InSmall config it ∧ it.entry.sizeBytes = size
  inMain : ∀ key ∈ l.main, key ∈ evictable ∧
    ∃ it, s.blocks.lookup key = some it ∧ InMain config it
  searching : l.victims = []

/-- What the two loops have in common when they end: the same victim, from the same queue, or
none. -/
structure SameChoice (r : Option BlockKey × State) (l : Scan BlockKey) : Prop
    extends SameOrder r.2 l where
  victim : (r.1 = none ∧ l.victims = []) ∨ ∃ key it fromSmall, r.1 = some key ∧
    l.victims = [(key, fromSmall)] ∧ r.2.blocks.lookup key = some it ∧
      config.fastestTierCache = some it.entry.tier ∧ it.s3InMain = !fromSmall

end

section

variable {D : Type} {config : TierConfig D} {fast : Tier} {size blockCount smallBudget : Nat}
  {evictable : Finset BlockKey} {s s' : State} {l l' : Scan BlockKey} {key : BlockKey}
  {it : StoredBlock} {rest : List BlockKey} {small main : KeyQueue BlockKey}

/-- The budget in bytes and the budget in blocks are exceeded together. -/
theorem budget_lt_iff (hsize : 0 < size) (n : Nat) :
    blockCount * size / 10 < n * size ↔ blockCount / 10 < n := by
  rw [Nat.div_lt_iff_lt_mul (by omega), Nat.div_lt_iff_lt_mul (by omega), Nat.mul_right_comm,
    Nat.mul_lt_mul_right hsize]

theorem SameQueues.fromSmall_iff (h : SameQueues config size evictable s l) (hsize : 0 < size)
    (hcapacity : config.capacityOf fast = blockCount * size) :
    l.fromSmall (blockCount / 10) = true ↔ FromSmall config fast s := by
  unfold FromSmall Scan.fromSmall
  rw [h.smallUsed, hcapacity, budget_lt_iff hsize, ← h.small, ← h.main]
  simp [KeyQueue.length]

theorem SameOrder.popSmall (h : SameOrder s l) (hq : s.s3SmallFifo = key :: rest) :
    ∃ small, l.small.popFront = some (key, small) ∧ small.toList = rest := by
  have hnodup : (key :: rest).Nodup := hq ▸ h.small ▸ l.small.nodup
  refine ⟨⟨rest, (List.nodup_cons.mp hnodup).2⟩, ?_, rfl⟩
  rw [KeyQueue.popFront_eq_some, h.small, hq]

theorem SameOrder.popMain (h : SameOrder s l) (hq : s.s3MainFifo = key :: rest) :
    ∃ main, l.main.popFront = some (key, main) ∧ main.toList = rest := by
  have hnodup : (key :: rest).Nodup := hq ▸ h.main ▸ l.main.nodup
  refine ⟨⟨rest, (List.nodup_cons.mp hnodup).2⟩, ?_, rfl⟩
  rw [KeyQueue.popFront_eq_some, h.main, hq]

theorem SameOrder.freq (h : SameOrder s l) (hkey : key ∈ l.small ∨ key ∈ l.main)
    (hit : s.blocks.lookup key = some it) : l.freq.lookup key = some (it.s3Freq : Int) := by
  obtain ⟨it', hit', hfreq⟩ := h.counted key hkey
  obtain rfl : it' = it := Option.some.inj (hit'.symm.trans hit)
  exact hfreq

theorem mem_of_popFront {q r : KeyQueue BlockKey} (h : q.popFront = some (key, r)) :
    key ∈ q ∧ key ∉ r ∧ ∀ k ∈ r, k ∈ q := by
  have hq := KeyQueue.popFront_eq_some.mp h
  have hnodup : (key :: r.toList).Nodup := hq ▸ q.nodup
  refine ⟨?_, (List.nodup_cons.mp hnodup).1, fun k hk => ?_⟩ <;> rw [← KeyQueue.mem_toList, hq]
  · exact List.mem_cons_self
  · exact List.mem_cons_of_mem _ hk

/-! ## One round -/

theorem SameQueues.promote (h : SameQueues config size evictable s l)
    (hq : s.s3SmallFifo = key :: small.toList) (hpop : l.small.popFront = some (key, small))
    (hit : s.blocks.lookup key = some it) (hlive : InSmall config it) :
    SameQueues config size evictable (promoteToMain key it { s with s3SmallFifo := small.toList })
      { l with small, freq := l.freq.insert key 0, main := l.main.push key } := by
  obtain ⟨hmem, hrest, hsub⟩ := mem_of_popFront hpop
  obtain ⟨hevictable, it', hit', -, hsize⟩ := h.inSmall key hmem
  obtain rfl : it' = it := Option.some.inj (hit'.symm.trans hit)
  have hmain : key ∉ l.main := by
    intro hmain
    obtain ⟨-, it'', hit'', hlive'⟩ := h.inMain key hmain
    obtain rfl : it'' = it' := Option.some.inj (hit''.symm.trans hit)
    cases hlive.2.symm.trans hlive'.2
  refine ⟨⟨rfl, ?_, ?_, h.skipped⟩, ?_, ?_, ?_, h.searching⟩
  · show (l.main.push key).toList = s.s3MainFifo ++ [key]
    rw [KeyQueue.toList_push hmain, h.main]
  · intro k hk
    by_cases hne : k = key
    · subst hne
      exact ⟨_, AList.lookup_insert _, AList.lookup_insert _⟩
    · obtain ⟨it₁, hit₁, hfreq₁⟩ := h.counted k
        (hk.imp (hsub k) fun hk => (KeyQueue.mem_push.mp hk).resolve_right hne)
      exact ⟨it₁, (AList.lookup_insert_ne hne).trans hit₁,
        (AList.lookup_insert_ne hne).trans hfreq₁⟩
  · show s.s3SmallUsedBytes - it'.entry.sizeBytes = small.toList.length * size
    rw [h.smallUsed, hq, hsize, List.length_cons, Nat.succ_mul, Nat.add_sub_cancel]
  · intro k hk
    have hne : k ≠ key := fun heq => hrest (heq ▸ hk)
    obtain ⟨hk', it₁, hit₁, hlive₁, hsize₁⟩ := h.inSmall k (hsub k hk)
    exact ⟨hk', it₁, (AList.lookup_insert_ne hne).trans hit₁, hlive₁, hsize₁⟩
  · intro k hk
    by_cases hne : k = key
    · subst hne
      exact ⟨hevictable, _, AList.lookup_insert _, hlive.1, rfl⟩
    · obtain ⟨hk', it₁, hit₁, hlive₁⟩ :=
        h.inMain k ((KeyQueue.mem_push.mp hk).resolve_right hne)
      exact ⟨hk', it₁, (AList.lookup_insert_ne hne).trans hit₁, hlive₁⟩

theorem SameQueues.secondChance (h : SameQueues config size evictable s l)
    (hpop : l.main.popFront = some (key, main)) (hit : s.blocks.lookup key = some it)
    (hlive : InMain config it) (hfreq : 0 < it.s3Freq) :
    SameQueues config size evictable (secondChance key it { s with s3MainFifo := main.toList })
      { l with main := main.push key, freq := l.freq.insert key (l.freqOf key - 1) } := by
  obtain ⟨hmem, hrest, hsub⟩ := mem_of_popFront hpop
  have hold : l.freq.lookup key = some (it.s3Freq : Int) := h.freq (.inr hmem) hit
  have hsub' (k : BlockKey) (hk : k ∈ main.push key) : k ∈ l.main :=
    (KeyQueue.mem_push.mp hk).elim (hsub k) fun heq => heq ▸ hmem
  refine ⟨⟨h.small, KeyQueue.toList_push hrest, ?_, h.skipped⟩, h.smallUsed, ?_, ?_, h.searching⟩
  · intro k hk
    by_cases hne : k = key
    · subst hne
      refine ⟨_, AList.lookup_insert _, (AList.lookup_insert _).trans ?_⟩
      rw [freqOf_eq hold]
      exact congrArg some (Int.natCast_pred_of_pos hfreq).symm
    · obtain ⟨it₁, hit₁, hfreq₁⟩ := h.counted k (hk.imp id (hsub' k))
      exact ⟨it₁, (AList.lookup_insert_ne hne).trans hit₁,
        (AList.lookup_insert_ne hne).trans hfreq₁⟩
  · intro k hk
    obtain ⟨hk', it₁, hit₁, hlive₁, hsize₁⟩ := h.inSmall k hk
    have hne : k ≠ key := by
      rintro rfl
      obtain rfl : it₁ = it := Option.some.inj (hit₁.symm.trans hit)
      cases hlive.2.symm.trans hlive₁.2
    exact ⟨hk', it₁, (AList.lookup_insert_ne hne).trans hit₁, hlive₁, hsize₁⟩
  · intro k hk
    obtain ⟨hk', it₁, hit₁, hlive₁⟩ := h.inMain k (hsub' k hk)
    by_cases hne : k = key
    · subst hne
      exact ⟨hk', _, AList.lookup_insert _, hlive⟩
    · exact ⟨hk', it₁, (AList.lookup_insert_ne hne).trans hit₁, hlive₁⟩

theorem SameQueues.round (h : SameQueues config size evictable s l)
    (hfast : config.fastestTierCache = some fast) (hsize : 0 < size)
    (hcapacity : config.capacityOf fast = blockCount * size) :
    (∃ s' l', s3Body config fast s = .ok (.inl s') ∧
      evictBody (blockCount / 10) evictable 1 ∅ l = .ok (.inl l') ∧
      SameQueues config size evictable s' l' ∧ s3Measure s' < s3Measure s ∧
      scanMeasure l' < scanMeasure l) ∨
    ∃ r, s3Body config fast s = .ok (.inr r) ∧ ∀ n, scanMeasure l < n →
      Returns (iterate (evictBody (blockCount / 10) evictable 1 ∅) .diverged n l)
        (SameChoice config r) := by
  have hfew : l.victims.length < 1 := by rw [h.searching]; exact Nat.one_pos
  have hiff := h.fromSmall_iff hsize hcapacity
  obtain ⟨r, hbody, hstep⟩ := s3Body_spec hfast s
  cases hstep with
  | empty hsmall hmain =>
    refine .inr ⟨_, hbody, fun n hn => ⟨l, ?_, h.toSameOrder, .inl ⟨rfl, h.searching⟩⟩⟩
    obtain ⟨n, rfl⟩ : ∃ k, n = k + 1 := ⟨n - 1, by omega⟩
    exact iterate_of_inr (evictBody_of_empty (h.small.trans hsmall) (h.main.trans hmain))
  | @staleSmall key rest hfrom hq hstale =>
    obtain ⟨small, hpop, rfl⟩ := h.popSmall hq
    obtain ⟨-, it, hit, hlive, -⟩ := h.inSmall key (mem_of_popFront hpop).1
    exact absurd hlive (hstale it hit)
  | @staleMain key rest hfrom hq hstale =>
    obtain ⟨main, hpop, rfl⟩ := h.popMain hq
    obtain ⟨-, it, hit, hlive⟩ := h.inMain key (mem_of_popFront hpop).1
    exact absurd hlive (hstale it hit)
  | @promote key rest it hfrom hq hit hlive hfreq =>
    obtain ⟨small, hpop, rfl⟩ := h.popSmall hq
    have hfreq' := freqOf_eq (h.freq (.inl (mem_of_popFront hpop).1) hit)
    have hstep' : ScanStep (blockCount / 10) evictable ∅ l _ :=
      .promote (hiff.mpr hfrom) hpop (by omega)
    exact .inl ⟨_, _, hbody, hstep'.body hfew, h.promote hq hpop hit hlive,
      (S3Step.promote hfrom hq hit hlive hfreq).measure_lt, hstep'.scanMeasure_lt⟩
  | @second key rest it hfrom hq hit hlive hfreq =>
    obtain ⟨main, hpop, rfl⟩ := h.popMain hq
    have hfreq' := freqOf_eq (h.freq (.inr (mem_of_popFront hpop).1) hit)
    have hstep' : ScanStep (blockCount / 10) evictable ∅ l _ :=
      .requeue (fun h => hfrom (hiff.mp h)) hpop (by omega)
    exact .inl ⟨_, _, hbody, hstep'.body hfew, h.secondChance hpop hit hlive hfreq,
      (S3Step.second hfrom hq hit hlive hfreq).measure_lt, hstep'.scanMeasure_lt⟩
  | @victimSmall key rest it hfrom hq hit hlive hfreq =>
    obtain ⟨small, hpop, rfl⟩ := h.popSmall hq
    obtain ⟨hmem, -, hsub⟩ := mem_of_popFront hpop
    have hfreq' := freqOf_eq (h.freq (.inl hmem) hit)
    have hstep' : ScanStep (blockCount / 10) evictable ∅ l _ :=
      .takeSmall (hiff.mpr hfrom) hpop (by omega) ⟨Finset.notMem_empty _, (h.inSmall key hmem).1⟩
    refine .inr ⟨_, hbody, fun n hn => ⟨_, evictLoop_of_step hstep' hfew (by simp) hn, ?_⟩⟩
    refine ⟨⟨?_, ?_, ?_, h.skipped⟩, .inr ⟨key, it, true, rfl, by rw [h.searching]; rfl, ?_⟩⟩
    all_goals rw [ghostInsertLocked_eq]
    · exact h.main
    · exact fun k hk => h.counted k (hk.imp (hsub k) id)
    · exact ⟨hit, hlive.1, hlive.2⟩
  | @victimMain key rest it hfrom hq hit hlive hfreq =>
    obtain ⟨main, hpop, rfl⟩ := h.popMain hq
    obtain ⟨hmem, -, hsub⟩ := mem_of_popFront hpop
    have hfreq' := freqOf_eq (h.freq (.inr hmem) hit)
    have hstep' : ScanStep (blockCount / 10) evictable ∅ l _ :=
      .takeMain (fun h => hfrom (hiff.mp h)) hpop (by omega)
        ⟨Finset.notMem_empty _, (h.inMain key hmem).1⟩
    refine .inr ⟨_, hbody, fun n hn => ⟨_, evictLoop_of_step hstep' hfew (by simp) hn, ?_⟩⟩
    refine ⟨⟨h.small, rfl, ?_, h.skipped⟩, .inr ⟨key, it, false, rfl, by rw [h.searching]; rfl,
      hit, hlive.1, hlive.2⟩⟩
    exact fun k hk => h.counted k (hk.imp id (hsub k))

end

/-! ## The two operations -/

/-- The two operations report the same victim from the same queue, or none, and leave the same
queues. -/
structure Agrees {D BlockStatus : Type} (config : TierConfig D) (r : Option BlockKey × State)
    (l : Scan BlockKey) (result : Option (List (BlockKey × BlockStatus)))
    (p : S3FIFOCachePolicy BlockKey BlockStatus) : Prop where
  victim : (r.1 = none ∧ result = none) ∨ ∃ key it block fromSmall, r.1 = some key ∧
    result = some [(key, block)] ∧ l.victims = [(key, fromSmall)] ∧
      r.2.blocks.lookup key = some it ∧ config.fastestTierCache = some it.entry.tier ∧
      it.s3InMain = !fromSmall
  small : p.small.toList = r.2.s3SmallFifo
  main : p.main.toList = r.2.s3MainFifo
  counted : ∀ key ∈ p.blocks, ∃ it, r.2.blocks.lookup key = some it ∧
    p.freq.lookup key = some (it.s3Freq : Int)

section

variable {D BlockStatus : Type} {config : TierConfig D} {fast : Tier} {size blockCount : Nat}
  {s : State} {p : S3FIFOCachePolicy BlockKey BlockStatus} {l : Scan BlockKey}
  {r : Option BlockKey × State}

theorem Matching.sameQueues (h : Matching config size blockCount s p) :
    SameQueues config size p.evictable s { small := p.small, main := p.main, freq := p.freq } := by
  have hsmall (key : BlockKey) : key ∈ p.small ↔ IsLive (InSmall config) s.blocks key := by
    rw [← KeyQueue.mem_toList, h.small, h.exact.small]
  have hmain (key : BlockKey) : key ∈ p.main ↔ IsLive (InMain config) s.blocks key := by
    rw [← KeyQueue.mem_toList, h.main, h.exact.main]
  have hqueued (key : BlockKey) (hkey : key ∈ p.small ∨ key ∈ p.main) : key ∈ p.evictable :=
    h.evictable key ((h.repInv.queued key).mp hkey)
  refine ⟨⟨h.small, h.main, ?_, rfl, rfl⟩, ?_, ?_, ?_, rfl⟩
  · rintro key (hkey | hkey)
    · obtain ⟨it, hit, hlive⟩ := (hsmall key).mp hkey
      exact ⟨it, hit, h.freq key it hit hlive.1⟩
    · obtain ⟨it, hit, hlive⟩ := (hmain key).mp hkey
      exact ⟨it, hit, h.freq key it hit hlive.1⟩
  · rw [h.smallUsed]
    exact bytesOf_eq_length_mul h.exact.tidy.small h.exact.small fun key it hit hlive =>
      h.uniform key it hit hlive.1
  · intro key hkey
    obtain ⟨it, hit, hlive⟩ := (hsmall key).mp hkey
    exact ⟨hqueued key (.inl hkey), it, hit, hlive, h.uniform key it hit hlive.1⟩
  · intro key hkey
    exact ⟨hqueued key (.inr hkey), (hmain key).mp hkey⟩

/-- Nothing was skipped, and what the loop leaves in the queues stays there. -/
theorem SameOrder.restore_small (h : SameOrder s l) (succeeded : Bool)
    (hvictims : succeeded = false → l.victims = []) :
    (restore succeeded l p).small = l.small ∧ (restore succeeded l p).main = l.main := by
  cases succeeded with
  | true => simp [restore, restoreQueue, h.skipped]
  | false => simp [restore, restoreQueue, h.skipped, hvictims]

/-- What is left of the blocks is in the queues, which the two loops have left the same. -/
theorem SameOrder.agrees {p' : S3FIFOCachePolicy BlockKey BlockStatus} (h : SameOrder s l)
    (hrep : RepInv p') (hsmall : p'.small = l.small) (hmain : p'.main = l.main)
    (hfreq : ∀ key ∈ p'.blocks, p'.freq.lookup key = l.freq.lookup key) :
    p'.small.toList = s.s3SmallFifo ∧ p'.main.toList = s.s3MainFifo ∧
      ∀ key ∈ p'.blocks, ∃ it, s.blocks.lookup key = some it ∧
        p'.freq.lookup key = some (it.s3Freq : Int) := by
  refine ⟨hsmall ▸ h.small, hmain ▸ h.main, fun key hkey => ?_⟩
  obtain ⟨it, hit, hcounted⟩ := h.counted key (hsmall ▸ hmain ▸ (hrep.queued key).mpr hkey)
  exact ⟨it, hit, (hfreq key hkey).trans hcounted⟩

theorem SameChoice.agrees (h : SameChoice config r l) (hrep : RepInv p)
    (hscan : p.scanQueues 1 ∅ = .ok l) :
    Returns (p.evict 1 ∅) fun r' => Agrees config r l r'.1 r'.2 := by
  rcases h.victim with ⟨hnone, hvictims⟩ | ⟨key, it, fromSmall, hsome, hvictims, hit, hlive⟩
  · have hevict : p.evict 1 ∅ = .ok (none, restore false l p) :=
      evict_of_few hscan (by simp [hvictims])
    obtain ⟨hsmall, hmain⟩ := h.restore_small (p := p) _ fun _ => hvictims
    obtain ⟨hsmall, hmain, hcounted⟩ := h.toSameOrder.agrees
      ((evict_returns 1 ∅ hrep).of_eq hevict).2 hsmall hmain fun _ _ => rfl
    exact ⟨_, hevict, .inl ⟨hnone, rfl⟩, hsmall, hmain, hcounted⟩
  · have hscanned := (scanQueues_returns hrep.nodup hrep.freqRange 1 ∅).of_eq hscan
    have hresident : key ∈ p.blocks :=
      victim_resident hrep hscanned.1 (v := (key, fromSmall)) (by simp [hvictims])
    obtain ⟨block, hblock⟩ := mem_iff_lookup.mp hresident
    have hevict : p.evict 1 ∅ =
        .ok (some [(key, block)], (restore true l p).dropVictim key fromSmall) :=
      evict_of_victim hscan hvictims hblock
    have hdropped := dropped_dropVictim key fromSmall (restore true l p)
    obtain ⟨hsmall, hmain⟩ := h.restore_small (p := p) true (by simp)
    obtain ⟨hsmall, hmain, hcounted⟩ := h.toSameOrder.agrees
      ((evict_returns 1 ∅ hrep).of_eq hevict).2 (hdropped.small.trans hsmall)
      (hdropped.main.trans hmain) fun key' hkey' => by
        rw [hdropped.freq, if_neg ((hdropped.mem_blocks key').mp hkey').1]
        rfl
    exact ⟨_, hevict, .inr ⟨key, it, block, fromSmall, hsome, rfl, hvictims, hit, hlive⟩, hsmall,
      hmain, hcounted⟩

/-- `PickS3VictimLocked` and `evict(1, {})` agree. -/
theorem pickS3VictimLocked_agrees (config : TierConfig D) (fast : Tier) (size blockCount : Nat)
    (s : State) (p : S3FIFOCachePolicy BlockKey BlockStatus)
    (hfast : config.fastestTierCache = some fast) (hsize : 0 < size) (hcount : 10 ≤ blockCount)
    (hcapacity : config.capacityOf fast = blockCount * size)
    (h : Matching config size blockCount s p) :
    Returns (pickS3VictimLocked config s) fun r => Returns (p.scanQueues 1 ∅) fun l =>
      Returns (p.evict 1 ∅) fun r' => Agrees config r l r'.1 r'.2 := by
  have hbudget : p.smallBudget = blockCount / 10 := by
    rw [h.budget]
    omega
  rw [pickS3VictimLocked, hfast, scanQueues, hbudget]
  refine (iterate_lockstep (SameQueues config size p.evictable) s3Measure scanMeasure
    (fun s l hsame => hsame.round hfast hsize hcapacity) h.sameQueues (Nat.lt_succ_self _)
    (Nat.lt_succ_self _)).bind ?_
  rintro ⟨victim, s'⟩ ⟨l, hscan, hchoice⟩
  refine returns_ok ⟨l, hscan, SameChoice.agrees ?_ h.repInv ?_⟩
  · exact ⟨⟨hchoice.small, hchoice.main, hchoice.counted, hchoice.skipped⟩, hchoice.victim⟩
  · rw [scanQueues, hbudget]
    exact hscan

end

/-! ## Three blocks -/

/-- A used block and a new one in the small queue, and one with a second chance in the main
queue. -/
def threeBlocks : State where
  blocks := (((∅ : AList fun _ : BlockKey => StoredBlock).insert (plainKey 1)
      ⟨plainBlock 1 1, ⟨plainKey 1, .hbm, 1, {}, 0⟩, 1, false⟩).insert (plainKey 2)
      ⟨plainBlock 2 1, ⟨plainKey 2, .hbm, 1, {}, 0⟩, 0, false⟩).insert (plainKey 3)
      ⟨plainBlock 3 1, ⟨plainKey 3, .hbm, 1, {}, 0⟩, 2, true⟩
  s3SmallFifo := [plainKey 1, plainKey 2]
  s3MainFifo := [plainKey 3]
  s3SmallUsedBytes := 2

def threeKeys : S3FIFOCachePolicy BlockKey Int where
  smallBudget := 1
  ghostCapacity := 20
  blocks := (((∅ : AList fun _ : BlockKey => Int).insert (plainKey 1) 0).insert
    (plainKey 2) 0).insert (plainKey 3) 0
  small := ⟨[plainKey 1, plainKey 2], by decide⟩
  main := ⟨[plainKey 3], by decide⟩
  freq := (((∅ : AList fun _ : BlockKey => Int).insert (plainKey 1) 1).insert
    (plainKey 2) 0).insert (plainKey 3) 2
  evictable := {plainKey 1, plainKey 2, plainKey 3}

theorem threeKeys_repInv : RepInv threeKeys where
  disjoint := show ∀ key ∈ [plainKey 1, plainKey 2], key ∉ [plainKey 3] by decide
  queued key := by
    show key ∈ [plainKey 1, plainKey 2] ∨ key ∈ [plainKey 3] ↔
      key ∈ [plainKey 3, plainKey 2, plainKey 1]
    simp only [List.mem_cons, List.not_mem_nil, or_false]
    tauto
  counted _ := .rfl
  freqRange key freq h := by
    have hall : ∀ e ∈ threeKeys.freq.entries, 0 ≤ e.2 ∧ e.2 ≤ 3 := by decide
    exact hall ⟨key, freq⟩ (AList.mem_lookup_iff.mp h)
  evictable := show ∀ key ∈ ({plainKey 1, plainKey 2, plainKey 3} : Finset BlockKey), _ by decide
  ghostAbsent key h := absurd h List.not_mem_nil
  ghostBounded := Nat.zero_le _

theorem threeBlocks_matching : Matching oneTier 1 10 threeBlocks threeKeys := by
  have hblocks {P : BlockKey → StoredBlock → Prop}
      (h : ∀ e ∈ threeBlocks.blocks.entries, P e.1 e.2) (key : BlockKey) (it : StoredBlock)
      (hit : threeBlocks.blocks.lookup key = some it) : P key it :=
    h ⟨key, it⟩ (AList.mem_lookup_iff.mp hit)
  have hexact : QueuesExact oneTier threeBlocks := by
    refine ⟨⟨by decide, by decide⟩, fun key => ⟨?_, ?_⟩, fun key => ⟨?_, ?_⟩⟩
    · revert key
      decide
    · rintro ⟨it, hit, hlive⟩
      exact hblocks (P := fun key it => InSmall oneTier it → key ∈ threeBlocks.s3SmallFifo)
        (by decide) key it hit hlive
    · revert key
      decide
    · rintro ⟨it, hit, hlive⟩
      exact hblocks (P := fun key it => InMain oneTier it → key ∈ threeBlocks.s3MainFifo)
        (by decide) key it hit hlive
  refine ⟨rfl, threeKeys_repInv, hexact, rfl, ?_, rfl, rfl, ?_, ?_⟩
  · exact hblocks (P := fun _ it => _ → it.entry.sizeBytes = 1) (by decide)
  · exact hblocks (P := fun key it => _ → threeKeys.freq.lookup key = some (it.s3Freq : Int))
      (by decide)
  · intro key hkey
    exact (threeKeys_repInv.queued key).mpr hkey |>.elim (by decide +revert) (by decide +revert)

/-- The used block moves to the main queue and the one there has its second chance, in both. -/
theorem pickS3VictimLocked_agrees_threeBlocks :
    Returns (pickS3VictimLocked oneTier threeBlocks) fun r =>
      Returns (threeKeys.scanQueues 1 ∅) fun l => Returns (threeKeys.evict 1 ∅) fun r' =>
        Agrees oneTier r l r'.1 r'.2 :=
  pickS3VictimLocked_agrees oneTier .hbm 1 10 threeBlocks threeKeys rfl (by decide) (by decide) rfl
    threeBlocks_matching

end TieredKVCache.VllmAdapter
