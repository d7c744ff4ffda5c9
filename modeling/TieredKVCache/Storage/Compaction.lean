import TieredKVCache.Lib.LazyQueue
import TieredKVCache.Storage.Fresh

/-!
# Lazy and eager invalidation

The eager variant deletes the entries of a key when its block leaves the fastest tier, so
that its queues hold every resident block once. `compact` takes the entries to be skipped
out of the queues of a lazy state. The parts of the operations commute with it, where they
append no key to a queue that still has an entry of it: a lazy step followed by compaction is
the eager step from the compacted state. A round of the lazy scan that skips an entry is no
round of the eager one, and every other round is the same round.
-/

namespace TieredKVCache.Storage

open Lib

section

variable {D : Type} (config : TierConfig D)

/-- The state without the queue entries that the scan would skip. -/
def compact (s : State) : State :=
  { s with
    s3SmallFifo := liveEntries (InSmall config) s.blocks s.s3SmallFifo
    s3MainFifo := liveEntries (InMain config) s.blocks s.s3MainFifo }

end

section

variable {D : Type} {config : TierConfig D} {fast t : Tier} {key : BlockKey} {it it' : StoredBlock}
  {rest : List BlockKey} {s s' : State}

theorem not_isLive_of_stale {p : StoredBlock → Prop}
    (hstale : ∀ it, s.blocks.lookup key = some it → ¬ p it) : ¬ IsLive p s.blocks key := by
  rintro ⟨it, h, hp⟩
  exact hstale it h hp

/-! ## The scan -/

theorem compact_popSmall (hstale : ∀ it, s.blocks.lookup key = some it → ¬ InSmall config it)
    (hq : s.s3SmallFifo = key :: rest) :
    compact config { s with s3SmallFifo := rest } = compact config s := by
  unfold compact
  rw [hq, liveEntries_cons_of_stale (not_isLive_of_stale hstale)]

theorem compact_popMain (hstale : ∀ it, s.blocks.lookup key = some it → ¬ InMain config it)
    (hq : s.s3MainFifo = key :: rest) :
    compact config { s with s3MainFifo := rest } = compact config s := by
  unfold compact
  rw [hq, liveEntries_cons_of_stale (not_isLive_of_stale hstale)]

theorem compact_headSmall (h : s.blocks.lookup key = some it) (hlive : InSmall config it)
    (hq : s.s3SmallFifo = key :: rest) :
    (compact config s).s3SmallFifo = key :: liveEntries (InSmall config) s.blocks rest := by
  unfold compact
  rw [hq]
  exact liveEntries_cons_of_live ((isLive_of_lookup h).mpr hlive) rest

theorem compact_headMain (h : s.blocks.lookup key = some it) (hlive : InMain config it)
    (hq : s.s3MainFifo = key :: rest) :
    (compact config s).s3MainFifo = key :: liveEntries (InMain config) s.blocks rest := by
  unfold compact
  rw [hq]
  exact liveEntries_cons_of_live ((isLive_of_lookup h).mpr hlive) rest

theorem compact_main_nil (hq : s.s3MainFifo = []) : (compact config s).s3MainFifo = [] := by
  unfold compact
  rw [hq]
  rfl

theorem compact_small_nil (hq : s.s3SmallFifo = []) : (compact config s).s3SmallFifo = [] := by
  unfold compact
  rw [hq]
  rfl

/-- Where a live entry of the small queue is served, the compacted state serves it too. -/
theorem fromSmall_compact (hfrom : FromSmall config fast s) (h : s.blocks.lookup key = some it)
    (hlive : InSmall config it) (hq : s.s3SmallFifo = key :: rest) :
    FromSmall config fast (compact config s) := by
  rcases hfrom with ⟨hover, _⟩ | hmain
  · refine .inl ⟨hover, ?_⟩
    rw [compact_headSmall h hlive hq]
    simp
  · exact .inr (compact_main_nil hmain)

theorem not_fromSmall_compact (hfrom : ¬ FromSmall config fast s)
    (h : s.blocks.lookup key = some it) (hlive : InMain config it)
    (hq : s.s3MainFifo = key :: rest) : ¬ FromSmall config fast (compact config s) := by
  rintro (⟨hover, hsmall⟩ | hmain)
  · refine hfrom (.inl ⟨hover, fun hnil => hsmall (compact_small_nil hnil)⟩)
  · rw [compact_headMain h hlive hq] at hmain
    cases hmain

theorem compact_promoteToMain (hlive : InSmall config it) (hrest : key ∉ rest)
    (hmain : key ∉ s.s3MainFifo) :
    compact config (promoteToMain key it { s with s3SmallFifo := rest }) =
      promoteToMain key it
        { compact config s with s3SmallFifo := liveEntries (InSmall config) s.blocks rest } := by
  simp only [compact, promoteToMain]
  rw [liveEntries_insert_of_not_mem _ hrest, liveEntries_push ⟨hlive.1, rfl⟩ hmain]

theorem compact_secondChance (h : s.blocks.lookup key = some it) (hlive : InMain config it)
    (hrest : key ∉ rest) :
    compact config (secondChance key it { s with s3MainFifo := rest }) =
      secondChance key it
        { compact config s with s3MainFifo := liveEntries (InMain config) s.blocks rest } := by
  have hlive' : InMain config { it with s3Freq := it.s3Freq - 1 } := hlive
  simp only [compact, secondChance]
  rw [liveEntries_push hlive' hrest, liveEntries_insert_of_iff]
  rw [isLive_of_lookup h]
  exact Iff.rfl

theorem compact_ghostInsertLocked (key : BlockKey) (s : State) :
    compact config (ghostInsertLocked key s) = ghostInsertLocked key (compact config s) := by
  unfold ghostInsertLocked
  show compact config (if key ∈ s.ghost then _ else _) = if key ∈ s.ghost then _ else _
  split <;> rfl

/-- A round of the scan either skips an entry, which does not show after compaction, or it is
a round of the compacted state. -/
theorem S3Step.compacted {r : State ⊕ (Option BlockKey × State)} (h : S3Step config fast s r)
    (htidy : Tidy s) (hfresh : freshRound config fast s = true) :
    (∃ s', r = .inl s' ∧ compact config s' = compact config s) ∨
      S3Step config fast (compact config s)
        (r.map (compact config) (Prod.map id (compact config))) := by
  have hsmall := htidy.small
  have hmain := htidy.main
  cases h with
  | empty hsmall hmain =>
    exact .inr (.empty (compact_small_nil hsmall) (compact_main_nil hmain))
  | staleSmall hfrom hq hstale => exact .inl ⟨_, rfl, compact_popSmall hstale hq⟩
  | promote hfrom hq h hlive hfreq =>
    have hnew := freshRound_spec hfresh hfrom hq h hlive hfreq
    rw [hq, List.nodup_cons] at hsmall
    refine .inr ?_
    rw [Sum.map_inl, compact_promoteToMain hlive hsmall.1 hnew]
    exact .promote (fromSmall_compact hfrom h hlive hq) (compact_headSmall h hlive hq) h hlive hfreq
  | victimSmall hfrom hq h hlive hfreq =>
    refine .inr ?_
    rw [Sum.map_inr, Prod.map_apply, compact_ghostInsertLocked]
    exact .victimSmall (fromSmall_compact hfrom h hlive hq) (compact_headSmall h hlive hq) h hlive
      hfreq
  | staleMain hfrom hq hstale => exact .inl ⟨_, rfl, compact_popMain hstale hq⟩
  | second hfrom hq h hlive hfreq =>
    rw [hq, List.nodup_cons] at hmain
    refine .inr ?_
    rw [Sum.map_inl, compact_secondChance h hlive hmain.1]
    exact .second (not_fromSmall_compact hfrom h hlive hq) (compact_headMain h hlive hq) h hlive
      hfreq
  | victimMain hfrom hq h hlive hfreq =>
    exact .inr (.victimMain (not_fromSmall_compact hfrom h hlive hq)
      (compact_headMain h hlive hq) h hlive hfreq)

/-- The scans of the two states end with the same victim. -/
theorem pickS3VictimLocked_compact {v : Option BlockKey}
    (hfast : config.fastestTierCache = some fast) (htidy : Tidy s)
    (hfresh : freshScan config fast s = true) (h : pickS3VictimLocked config s = .ok (v, s')) :
    pickS3VictimLocked config (compact config s) = .ok (v, compact config s') ∧ Tidy s' := by
  unfold pickS3VictimLocked at h ⊢
  rw [hfast] at h ⊢
  dsimp only at h ⊢
  cases hscan : iterate (s3Body config fast) .diverged (s3Measure s + 1) s with
  | error e =>
    rw [hscan] at h
    cases h
  | ok r =>
    rw [hscan] at h
    cases h
    have hsim : ∃ r', iterate (s3Body config fast) .diverged (s3Measure s + 1)
        (compact config s) = .ok r' ∧ r' = Prod.map id (compact config) r ∧ Tidy r.2 := by
      refine iterate_simulation (fun a b => b = compact config a ∧ Tidy a)
        (Q := fun r r' => r' = Prod.map id (compact config) r ∧ Tidy r.2) ?_ ?_ hfresh
        ⟨rfl, htidy⟩ hscan
      · rintro a b a' hround ⟨rfl, htidy⟩ hbody
        obtain ⟨_, hr, hstep⟩ := s3Body_spec hfast a
        cases hbody.symm.trans hr
        rcases hstep.compacted htidy hround with ⟨a'', heq, hskip⟩ | hstep'
        · cases heq
          exact .inl ⟨hskip.symm, hstep.tidy htidy hround⟩
        · exact .inr ⟨_, hstep'.body hfast, rfl, hstep.tidy htidy hround⟩
      · rintro a b r hround ⟨rfl, htidy⟩ hbody
        obtain ⟨_, hr, hstep⟩ := s3Body_spec hfast a
        cases hbody.symm.trans hr
        rcases hstep.compacted htidy hround with ⟨a'', heq, _⟩ | hstep'
        · cases heq
        · exact ⟨_, hstep'.body hfast, rfl, hstep.tidy htidy hround⟩
    obtain ⟨_, hscan', rfl, htidy'⟩ := hsim
    -- The compacted state has a smaller bound of its own, which is enough as well.
    obtain ⟨r', hown⟩ := s3Scan_terminates hfast (compact config s)
    cases iterate_unique hscan' hown
    rw [hown]
    exact ⟨rfl, htidy'.small, htidy'.main⟩

/-! ## Blocks that leave and enter -/

theorem accountInsertLocked_compact (entry : TierEntry) :
    accountInsertLocked config entry (compact config s) =
      compact config (accountInsertLocked config entry s) := by
  unfold accountInsertLocked
  split <;> rfl

theorem accountEraseLocked_compact (entry : TierEntry) :
    accountEraseLocked config entry (compact config s) =
      compact config (accountEraseLocked config entry s) := by
  unfold accountEraseLocked
  split <;> rfl

theorem compact_removeLocked (config : TierConfig D) (key : BlockKey) (s : State) :
    compact config (removeLocked config .lazy key s) =
      removeLocked config .eager key (compact config s) := by
  cases h : s.blocks.lookup key with
  | none =>
    rw [removeLocked_of_none h]
    exact (removeLocked_of_none (s := compact config s) h).symm
  | some it =>
    have hleave (p : StoredBlock → Prop) [DecidablePred p] (q : List BlockKey)
        (hp : p it → config.fastestTierCache = some it.entry.tier) :
        liveEntries p (s.blocks.erase key) q =
          leaveQueue config .eager key it (liveEntries p s.blocks q) := by
      unfold leaveQueue
      split
      next => exact liveEntries_erase
      next hslow =>
        apply liveEntries_erase_of_stale
        rw [isLive_of_lookup h]
        exact fun hlive => hslow ⟨rfl, hp hlive⟩
    rw [removeLocked_eq h, removeLocked_eq (s := compact config s) h, accountEraseLocked_compact]
    simp only [compact, leaveQueue_lazy]
    rw [hleave _ _ fun hlive => hlive.1, hleave _ _ fun hlive => hlive.1]
    rfl

/-- An absent block enters a queue that has no entry of its key. -/
theorem compact_enter (habsent : s.blocks.lookup it.entry.key = none)
    (hsmall : InSmall config it → it.entry.key ∉ s.s3SmallFifo)
    (hmain : InMain config it → it.entry.key ∉ s.s3MainFifo) :
    compact config (enter config it s) = enter config it (compact config s) := by
  have hjoin (p : StoredBlock → Prop) [DecidablePred p] (q : List BlockKey)
      (hnew : p it → it.entry.key ∉ q) :
      liveEntries p (s.blocks.insert it.entry.key it)
          (if p it then q ++ [it.entry.key] else q) =
        if p it then liveEntries p s.blocks q ++ [it.entry.key] else liveEntries p s.blocks q := by
    split
    next hlive => exact liveEntries_push hlive (hnew hlive)
    next hnot =>
      refine liveEntries_insert_of_iff (iff_of_false hnot ?_)
      rintro ⟨it', h, _⟩
      cases habsent.symm.trans h
  simp only [enter, accountInsertLocked_compact]
  simp only [compact]
  rw [hjoin _ _ hsmall, hjoin _ _ hmain]
  rfl

/-- A hit changes no queue. -/
theorem compact_retouch (it' : StoredBlock) (h : s.blocks.lookup key = some it)
    (htier : it'.entry.tier = it.entry.tier) (hin : it'.s3InMain = it.s3InMain) :
    compact config (retouch config key it it' s) =
      retouch config key it it' (compact config s) := by
  simp only [retouch, accountEraseLocked_compact, accountInsertLocked_compact]
  simp only [compact]
  rw [liveEntries_insert_of_iff, liveEntries_insert_of_iff]
  · rfl
  · rw [isLive_of_lookup h, InMain, InMain, htier, hin]
  · rw [isLive_of_lookup h, InSmall, InSmall, htier, hin]

theorem Tidy.retouch (htidy : Tidy s) (config : TierConfig D) (key : BlockKey)
    (it it' : StoredBlock) : Tidy (retouch config key it it' s) := ⟨htidy.small, htidy.main⟩

theorem compact_evicted (hkey : it.block.key = key) (hplaced : config.configured t = true) :
    compact config (evicted .lazy config t key it s) =
      evicted .eager config t key it (compact config s) := by
  unfold evicted
  rw [← compact_removeLocked]
  cases hslower : config.nextSlowerConfigured t with
  | none => rfl
  | some slower =>
    have hslow := fastestTierCache_ne_of_nextSlower hslower hplaced
    dsimp only
    split
    next =>
      rw [demoteLocked_eq hslow, demoteLocked_eq hslow, compact_enter ?absent ?small ?main]
      case absent =>
        rw [removeLocked_blocks]
        exact hkey ▸ AList.lookup_erase key s.blocks
      case small => exact fun hsmall => absurd hsmall.1 hslow
      case main => exact fun hmain => absurd hmain.1 hslow
      rfl
    next => rfl

theorem Tidy.evicted (htidy : Tidy s) (h : s.blocks.lookup key = some it)
    (hplaced : config.configured t = true) : Tidy (evicted .lazy config t key it s) := by
  obtain ⟨hsmall, hmain⟩ := evicted_queues .lazy h hplaced
  constructor
  · rw [hsmall, leaveQueue_lazy]
    exact htidy.small
  · rw [hmain, leaveQueue_lazy]
    exact htidy.main

theorem admitLocked_compact {block : KVCacheBlock} {tenantId : UInt32}
    (hsmall : InSmall config (admitted config block t tenantId s) → block.key ∉ s.s3SmallFifo)
    (hmain : InMain config (admitted config block t tenantId s) → block.key ∉ s.s3MainFifo) :
    admitLocked .eager config block t tenantId (compact config s) =
        compact config (admitLocked .lazy config block t tenantId s) ∧
      (Tidy s → Tidy (admitLocked .lazy config block t tenantId s)) := by
  rw [admitLocked_eq, admitLocked_eq, ← compact_removeLocked]
  constructor
  · rw [compact_enter ?absent ?small ?main]
    case absent =>
      show (removeLocked config .lazy block.key s).blocks.lookup block.key = none
      rw [removeLocked_blocks, AList.lookup_erase]
    case small =>
      show _ → block.key ∉ (removeLocked config .lazy block.key s).s3SmallFifo
      rwa [removeLocked_s3SmallFifo_lazy]
    case main =>
      show _ → block.key ∉ (removeLocked config .lazy block.key s).s3MainFifo
      rwa [removeLocked_s3MainFifo_lazy]
    rfl
  · intro htidy
    have hleft := htidy.removeLocked config block.key
    refine Tidy.enter ⟨hleft.small, hleft.main⟩ ?_ ?_
    · show _ → block.key ∉ (removeLocked config .lazy block.key s).s3SmallFifo
      rwa [removeLocked_s3SmallFifo_lazy]
    · show _ → block.key ∉ (removeLocked config .lazy block.key s).s3MainFifo
      rwa [removeLocked_s3MainFifo_lazy]

theorem touchedState_compact (h : s.blocks.lookup key = some it) :
    touchedState config key it (compact config s) = compact config (touchedState config key it s) :=
  (compact_retouch (touched it s.logicalClock) h rfl rfl).symm

theorem promotedState_compact (hfast : config.fastestTierCache = some fast)
    (h : s.blocks.lookup key = some it) (hnew : key ∉ s.s3MainFifo) :
    promotedState .eager config key it fast (compact config s) =
        compact config (promotedState .lazy config key it fast s) ∧
      (Tidy s → Tidy (promotedState .lazy config key it fast s)) := by
  have hnew' : key ∉ (removeLocked config .lazy key (touchedState config key it s)).s3MainFifo := by
    rwa [removeLocked_s3MainFifo_lazy]
  unfold promotedState
  rw [promoteLocked_eq hfast, promoteLocked_eq hfast, touchedState_compact h,
    ← compact_removeLocked]
  constructor
  · rw [compact_enter ?absent ?small ?main]
    case absent =>
      rw [removeLocked_blocks]
      exact AList.lookup_erase key _
    case small =>
      intro hsmall
      cases hsmall.2
    case main => exact fun _ => hnew'
    rfl
  · intro htidy
    refine Tidy.enter ?_ ?_ fun _ => hnew'
    · exact (htidy.retouch config key it _).removeLocked config key
    · intro hsmall
      cases hsmall.2

/-! ## The queues of the eager variant -/

/-- Every block of the fastest tier is in its queue once, and nothing else is. -/
structure QueuesExact (config : TierConfig D) (s : State) : Prop where
  tidy : Tidy s
  small : ∀ k, k ∈ s.s3SmallFifo ↔ IsLive (InSmall config) s.blocks k
  main : ∀ k, k ∈ s.s3MainFifo ↔ IsLive (InMain config) s.blocks k

theorem compact_queuesExact (hinv : RepInv config s) (htidy : Tidy s) :
    QueuesExact config (compact config s) := by
  refine ⟨⟨liveEntries_nodup htidy.small, liveEntries_nodup htidy.main⟩, fun k => ?_, fun k => ?_⟩
  · refine mem_liveEntries.trans (and_iff_right_of_imp ?_)
    rintro ⟨it, h, hsmall⟩
    exact hinv.mem_small h hsmall (by simp)
  · refine mem_liveEntries.trans (and_iff_right_of_imp ?_)
    rintro ⟨it, h, hmain⟩
    exact hinv.mem_main h hmain (by simp)

end

end TieredKVCache.Storage
