import TieredKVCache.Bench.LruReplay

/-!
# LRU against larger pools and other policies

Replays of one trace that differ in the pool. A larger LRU pool keeps every hit, so that no request
waits longer and no percentile grows (`lruReplay_growth`). And no policy does much better than LRU:
while LRU has at most `pool + 1` misses until `pool + 1` different ids have been accessed, any policy
that holds fewer ids has to miss some of them (`lruReplay_competitive`).
-/

namespace TieredKVCache.Bench

open Lib CachePolicy LawfulPolicy LRUPolicy

variable {α : Type} [DecidableEq α]

/-! ## Percentiles of smaller samples -/

omit [DecidableEq α] in
theorem countP_le_of_forall₂ {β : Type} {R : α → β → Prop} {P : α → Bool} {Q : β → Bool}
    {xs : List α} {ys : List β} (h : List.Forall₂ R xs ys)
    (himp : ∀ x y, R x y → Q y = true → P x = true) : ys.countP Q ≤ xs.countP P := by
  induction h with
  | nil => exact Nat.le_refl _
  | @cons x y _ _ hxy _ ih =>
    rw [List.countP_cons, List.countP_cons]
    have hstep := himp x y hxy
    split
    next hQ =>
      rw [if_pos (hstep hQ)]
      omega
    next => omega

/-- Smaller samples have smaller percentiles. -/
theorem IsPercentile.le_of_forall₂ {β : Type} [LinearOrder β] {p : ℚ} {xs ys : List β} {v w : β}
    (h : List.Forall₂ (· ≤ ·) xs ys) (hv : IsPercentile p xs v) (hw : IsPercentile p ys w) :
    v ≤ w := by
  obtain ⟨hmem, hcount⟩ := hw.1
  have hle : ys.countP (· ≤ w) ≤ xs.countP (· ≤ w) := by
    refine countP_le_of_forall₂ h fun x y hxy hy => ?_
    exact decide_eq_true (hxy.trans (of_decide_eq_true hy))
  -- the largest of the smaller samples up to `w`
  have hpos : 0 < xs.countP (· ≤ w) :=
    (List.countP_pos_iff.mpr ⟨w, hmem, decide_eq_true (le_refl w)⟩).trans_le hle
  obtain ⟨x, hx, hxw⟩ := List.countP_pos_iff.mp hpos
  obtain ⟨u, hu, hmax⟩ := (xs.filter (· ≤ w)).toFinset.exists_max_image id
    ⟨x, List.mem_toFinset.mpr (List.mem_filter.mpr ⟨hx, hxw⟩)⟩
  obtain ⟨huxs, huw⟩ := List.mem_filter.mp (List.mem_toFinset.mp hu)
  have hsame : xs.countP (· ≤ w) ≤ xs.countP (· ≤ u) :=
    List.countP_mono_left fun y hy hyw =>
      decide_eq_true (hmax y (List.mem_toFinset.mpr (List.mem_filter.mpr ⟨hy, hyw⟩)))
  have hlength := h.length_eq
  have hshare : p / 100 * xs.length ≤ xs.countP (· ≤ u) := by
    rw [hlength]
    exact hcount.trans (by exact_mod_cast hle.trans hsame)
  exact (hv.2 ⟨huxs, hshare⟩).trans (of_decide_eq_true huw)

/-- The percentiles are no larger. -/
def Percentiles.NoLarger (r r' : Percentiles ℚ) : Prop :=
  r'.p50 ≤ r.p50 ∧ r'.p90 ≤ r.p90 ∧ r'.p99 ≤ r.p99

theorem percentiles_noLarger {xs ys : List ℚ} {r r' : Percentiles ℚ}
    (h : List.Forall₂ (· ≤ ·) ys xs) (hr : percentiles xs = .ok r) (hr' : percentiles ys = .ok r') :
    r.NoLarger r' := by
  have hne : xs ≠ [] := by
    rintro rfl
    cases hr
  have hne' : ys ≠ [] := by
    rintro rfl
    cases hr'
  obtain ⟨h50, h90, h99⟩ := (percentiles_returns hne).of_eq hr
  obtain ⟨h50', h90', h99'⟩ := (percentiles_returns hne').of_eq hr'
  exact ⟨h50'.le_of_forall₂ h h50, h90'.le_of_forall₂ h h90, h99'.le_of_forall₂ h h99⟩

/-! ## Latencies -/

theorem ofInt_nonneg {n : Int} (h : 0 ≤ n) : 0 ≤ (ofInt n : ℚ) := by
  obtain ⟨m, rfl⟩ := Int.eq_ofNat_of_zero_le h
  exact Nat.cast_nonneg m

/-- The latencies of a request: a block at least, and the tokens that are decoded. -/
def Timed (step : ReplayStep α) (result : StepResult α ℚ) : Prop :=
  4 ≤ result.ttftMs ∧
    result.e2eMs = result.ttftMs + ofInt step.record.outputLength * decodeMsPerToken

omit [DecidableEq α] in
theorem replaySteps_timed {P : Type} [CachePolicy P α] (plan : List (ReplayStep α)) (p : P) :
    List.Forall₂ Timed plan (replaySteps plan p) := by
  induction plan generalizing p with
  | nil => exact .nil
  | cons step plan ih =>
    rw [replaySteps_cons]
    refine .cons ⟨?_, rfl⟩ (ih _)
    show (4 : ℚ) ≤ ((max _ 1 : ℕ) : ℚ) * ((4 : ℕ) : ℚ)
    have hone : (1 : ℚ) ≤ ((max ((accessRecord 0 step.record.hashIds p).1.countP (!·.hit)) 1 : ℕ) :
        ℚ) := by
      exact_mod_cast le_max_right _ _
    push_cast at hone ⊢
    linarith

/-! ## A larger pool -/

/-- Two accesses to an id, of which the second hits where the first does. -/
def KeepsHit (event event' : AccessEvent α) : Prop :=
  event'.hashId = event.hashId ∧ (event.hit = true → event'.hit = true)

/-- A step of a replay goes no worse in the second one. -/
structure StepNoWorse (step step' : StepResult α ℚ) : Prop where
  events : List.Forall₂ KeepsHit step.events step'.events
  ttftMs : step'.ttftMs ≤ step.ttftMs
  e2eMs : step'.e2eMs ≤ step.e2eMs
  tokens : step'.tokens = step.tokens

variable {pool pool' : Nat} {uses : List α} {p q : LRUPolicy α}

theorem accessRecord_keepsHits (blockIndex : Nat) (hashIds : List α) (hp : p.Holds pool uses)
    (hq : q.Holds pool' uses) (hle : pool ≤ pool') :
    ∃ p' q' : LRUPolicy α,
      (accessRecord blockIndex hashIds (.inl p : Policy α)).2 = .inl p' ∧
      (accessRecord blockIndex hashIds (.inl q : Policy α)).2 = .inl q' ∧
      p'.Holds pool (uses ++ hashIds) ∧ q'.Holds pool' (uses ++ hashIds) ∧
      List.Forall₂ KeepsHit (accessRecord blockIndex hashIds (.inl p : Policy α)).1
        (accessRecord blockIndex hashIds (.inl q : Policy α)).1 := by
  induction hashIds generalizing blockIndex uses p q with
  | nil => exact ⟨p, q, rfl, rfl, by simpa using hp, by simpa using hq, .nil⟩
  | cons k hashIds ih =>
    obtain ⟨p', q', hp', hq', hholds, hholds', hrest⟩ := ih (blockIndex + 1)
      (hp.access k blockIndex) (hq.access k blockIndex)
    rw [List.append_assoc, List.singleton_append] at hholds hholds'
    refine ⟨p', q', hp', hq', hholds, hholds', .cons ⟨rfl, fun hhit => ?_⟩ hrest⟩
    have hrecent := hp.mem_iff.mp ((hit_access k blockIndex p).mp hhit)
    exact (hit_access k blockIndex q).mpr (hq.mem_iff.mpr (hrecent.mono hle))

omit [DecidableEq α] in
theorem misses_le_of_keepsHits {events events' : List (AccessEvent α)}
    (h : List.Forall₂ KeepsHit events events') :
    events'.countP (!·.hit) ≤ events.countP (!·.hit) := by
  refine countP_le_of_forall₂ h fun event event' hkeeps hmiss => ?_
  rw [Bool.not_eq_true', Bool.eq_false_iff] at hmiss ⊢
  exact fun hhit => hmiss (hkeeps.2 hhit)

theorem replaySteps_noWorse (plan : List (ReplayStep α)) (hp : p.Holds pool uses)
    (hq : q.Holds pool' uses) (hle : pool ≤ pool') :
    List.Forall₂ StepNoWorse (replaySteps plan (.inl p : Policy α))
      (replaySteps plan (.inl q : Policy α)) := by
  induction plan generalizing uses p q with
  | nil => exact .nil
  | cons step plan ih =>
    obtain ⟨p', q', hp', hq', hholds, hholds', hkeeps⟩ :=
      accessRecord_keepsHits 0 step.record.hashIds hp hq hle
    have hrest := ih hholds hholds'
    have hmisses := misses_le_of_keepsHits hkeeps
    rw [replaySteps_cons, replaySteps_cons, hp', hq']
    refine .cons ?_ hrest
    have httft : (DoubleArith.ofSize (max ((accessRecord 0 step.record.hashIds
        (.inl q : Policy α)).1.countP (!·.hit)) 1) : ℚ) * DoubleArith.ofSize 4 ≤
          DoubleArith.ofSize (max ((accessRecord 0 step.record.hashIds
            (.inl p : Policy α)).1.countP (!·.hit)) 1) * DoubleArith.ofSize 4 := by
      refine mul_le_mul_of_nonneg_right ?_ (Nat.cast_nonneg 4)
      exact Nat.cast_le.mpr (max_le_max hmisses (Nat.le_refl 1))
    exact ⟨hkeeps, httft, add_le_add_left httft _, rfl⟩

/-- The lengths of the requests are not negative. -/
def Lengths (plan : List (ReplayStep α)) : Prop :=
  ∀ step ∈ plan, 0 ≤ step.record.inputLength ∧ 0 ≤ step.record.outputLength

/-- The second replay keeps the hits of the first, and no reported figure is worse. -/
structure ReplayNoWorse (plan : List (ReplayStep α)) (r r' : ReplayResult α ℚ) : Prop where
  hits : List.Forall₂ KeepsHit r.accessLog.events r'.accessLog.events
  hitRate : (rates r.accessLog : ℚ × ℚ).1 ≤ (rates r'.accessLog : ℚ × ℚ).1
  reuseRate : (rates r.accessLog : ℚ × ℚ).2 ≤ (rates r'.accessLog : ℚ × ℚ).2
  ttft : ∀ t t', percentiles r.ttftSamples = .ok t → percentiles r'.ttftSamples = .ok t' →
    t.NoLarger t'
  e2e : ∀ t t', percentiles r.e2eSamples = .ok t → percentiles r'.e2eSamples = .ok t' →
    t.NoLarger t'
  throughput : Lengths plan → r.throughput ≤ r'.throughput

omit [DecidableEq α] in
theorem forall₂_flatMap_events {steps steps' : List (StepResult α ℚ)}
    (h : List.Forall₂ StepNoWorse steps steps') :
    List.Forall₂ KeepsHit (steps.flatMap (·.events)) (steps'.flatMap (·.events)) := by
  induction h with
  | nil => exact .nil
  | cons hstep _ ih => exact List.rel_append hstep.events ih

theorem rates_le {events events' : List (AccessEvent α)}
    (h : List.Forall₂ KeepsHit events events') :
    (rates ⟨events⟩ : ℚ × ℚ).1 ≤ (rates ⟨events'⟩ : ℚ × ℚ).1 ∧
      (rates ⟨events⟩ : ℚ × ℚ).2 ≤ (rates ⟨events'⟩ : ℚ × ℚ).2 := by
  have hlength := h.length_eq
  have hids : idsOf events' = idsOf events := by
    clear hlength
    induction h with
    | nil => rfl
    | cons hkeeps _ ih => exact congrArg₂ List.cons hkeeps.1 ih
  have hhits : hitsOf events ≤ hitsOf events' :=
    countP_le_of_forall₂ h.flip fun _ _ hkeeps hhit => hkeeps.2 hhit
  have hreused : reusedIds events ⊆ reusedIds events' := by
    clear hlength hids hhits
    induction h with
    | nil => exact Finset.Subset.refl _
    | @cons event event' _ _ hkeeps _ ih =>
      intro k hk
      simp only [reusedIds, idsOf, List.mem_toFinset, List.mem_map, List.mem_filter,
        List.mem_cons] at hk ih ⊢
      obtain ⟨e, ⟨rfl | he, hhit⟩, rfl⟩ := hk
      · exact ⟨event', ⟨.inl rfl, hkeeps.2 hhit⟩, hkeeps.1⟩
      · have hin := ih (List.mem_toFinset.mpr
          (List.mem_map_of_mem (List.mem_filter.mpr ⟨he, hhit⟩)))
        obtain ⟨e', he', hid⟩ := List.mem_map.mp (List.mem_toFinset.mp hin)
        obtain ⟨hmem, hhit'⟩ := List.mem_filter.mp he'
        exact ⟨e', ⟨.inr hmem, hhit'⟩, hid⟩
  by_cases hne : events = []
  · subst hne
    rw [List.length_nil] at hlength
    rw [List.eq_nil_of_length_eq_zero hlength.symm]
    exact ⟨le_refl _, le_refl _⟩
  · have hne' : events' ≠ [] := fun hnil => hne (by
      rw [hnil, List.length_nil] at hlength
      exact List.eq_nil_of_length_eq_zero hlength)
    rw [rates_of_ne hne, rates_of_ne hne']
    dsimp only
    rw [distinctIds, distinctIds, hids, ← hlength]
    exact ⟨div_le_div_of_nonneg_right (Nat.cast_le.mpr hhits) (Nat.cast_nonneg _),
      div_le_div_of_nonneg_right (Nat.cast_le.mpr (Finset.card_le_card hreused))
        (Nat.cast_nonneg _)⟩

omit [DecidableEq α] in
theorem forall₂_map {f : StepResult α ℚ → ℚ} {steps steps' : List (StepResult α ℚ)}
    (h : List.Forall₂ StepNoWorse steps steps') (hf : ∀ s s', StepNoWorse s s' → f s' ≤ f s) :
    List.Forall₂ (· ≤ ·) (steps'.map f) (steps.map f) := by
  induction h with
  | nil => exact .nil
  | cons hstep _ ih => exact .cons (hf _ _ hstep) ih

section

variable {steps steps' : List (StepResult α ℚ)}

/-- The time that the steps take, after some time already. -/
def totalTime (start : ℚ) (steps : List (StepResult α ℚ)) : ℚ :=
  steps.foldl (fun total step => total + step.e2eMs / DoubleArith.ofSize 1000) start

omit [DecidableEq α] in
theorem totalTime_le {start start' : ℚ} (h : List.Forall₂ StepNoWorse steps steps')
    (hstart : start' ≤ start) : totalTime start' steps' ≤ totalTime start steps := by
  induction h generalizing start start' with
  | nil => exact hstart
  | cons hstep _ ih =>
    refine ih (add_le_add hstart ?_)
    exact div_le_div_of_nonneg_right hstep.e2eMs (Nat.cast_nonneg 1000)

omit [DecidableEq α] in
theorem le_totalTime {start : ℚ} (h : ∀ step ∈ steps, 0 < step.e2eMs) :
    start ≤ totalTime start steps := by
  induction steps generalizing start with
  | nil => exact le_refl _
  | cons step steps ih =>
    obtain ⟨hstep, hrest⟩ := List.forall_mem_cons.mp h
    refine le_trans ?_ (ih hrest)
    exact le_add_of_nonneg_right (div_nonneg hstep.le (Nat.cast_nonneg 1000))

omit [DecidableEq α] in
theorem totalTime_pos (hne : steps ≠ []) (h : ∀ step ∈ steps, 0 < step.e2eMs) :
    0 < totalTime 0 steps := by
  cases steps with
  | nil => exact absurd rfl hne
  | cons step steps =>
    obtain ⟨hstep, hrest⟩ := List.forall_mem_cons.mp h
    have hfirst : (0 : ℚ) < 0 + step.e2eMs / DoubleArith.ofSize 1000 := by
      rw [zero_add]
      exact div_pos hstep (Nat.cast_pos.mpr (by decide))
    exact hfirst.trans_le (le_totalTime hrest)

omit [DecidableEq α] in
/-- The same tokens in no more time. -/
theorem throughput_le (h : List.Forall₂ StepNoWorse steps steps')
    (htokens : 0 ≤ (steps.map (·.tokens)).sum) (hpos : ∀ step ∈ steps', 0 < step.e2eMs) :
    (summarize steps).throughput ≤ (summarize steps').throughput := by
  have hsame : steps'.map (·.tokens) = steps.map (·.tokens) := by
    clear htokens hpos
    induction h with
    | nil => rfl
    | cons hstep _ ih => exact congrArg₂ List.cons hstep.tokens ih
  have hle := totalTime_le h (le_refl 0)
  show (if 0 < totalTime 0 steps then ofInt (steps.map (·.tokens)).sum / totalTime 0 steps else 0) ≤
    if 0 < totalTime 0 steps' then ofInt (steps'.map (·.tokens)).sum / totalTime 0 steps' else 0
  rw [hsame]
  by_cases hempty : steps' = []
  · subst hempty
    cases h
    exact le_refl _
  · have htime := totalTime_pos hempty hpos
    rw [if_pos htime, if_pos (htime.trans_le hle)]
    exact div_le_div_of_nonneg_left (ofInt_nonneg htokens) htime hle

omit [DecidableEq α] in
theorem Timed.e2eMs_pos {step : ReplayStep α} {result : StepResult α ℚ} (h : Timed step result)
    (hlength : 0 ≤ step.record.outputLength) : 0 < result.e2eMs := by
  rw [h.2]
  have hdecode : (0 : ℚ) ≤ decodeMsPerToken := by
    rw [decodeMsPerToken]
    exact div_nonneg (Nat.cast_nonneg 1) (Nat.cast_nonneg 20)
  have htokens := mul_nonneg (ofInt_nonneg hlength) hdecode
  linarith [h.1]

omit [DecidableEq α] in
theorem Lengths.e2eMs_pos {plan : List (ReplayStep α)} (hlengths : Lengths plan)
    (h : List.Forall₂ Timed plan steps) : ∀ result ∈ steps, 0 < result.e2eMs := by
  induction h with
  | nil => exact fun _ hmem => absurd hmem List.not_mem_nil
  | cons hstep _ ih =>
    obtain ⟨hfirst, hrest⟩ := List.forall_mem_cons.mp hlengths
    exact List.forall_mem_cons.mpr ⟨hstep.e2eMs_pos hfirst.2, ih hrest⟩

omit [DecidableEq α] in
theorem Lengths.sum_tokens {P : Type} [CachePolicy P α] {plan : List (ReplayStep α)}
    (hlengths : Lengths plan) (policy : P) :
    0 ≤ ((replaySteps plan policy : List (StepResult α ℚ)).map (·.tokens)).sum := by
  induction plan generalizing policy with
  | nil => exact le_refl _
  | cons step plan ih =>
    obtain ⟨⟨hinput, houtput⟩, hrest⟩ := List.forall_mem_cons.mp hlengths
    rw [replaySteps_cons, List.map_cons, List.sum_cons]
    exact add_nonneg (add_nonneg hinput houtput) (ih hrest _)

end

/-- **Growth of an LRU pool.** A larger LRU pool keeps every hit, and no rate or percentile gets
worse; nor does the throughput, where no length is negative. -/
theorem lruReplay_growth (α : Type) [DecidableEq α] (plan : List (ReplayStep α))
    (pool pool' : Nat) (hpool : 1 ≤ pool) (hle : pool ≤ pool') :
    Returns (simulateReplay plan pool "lru" : Except String (ReplayResult α ℚ)) fun r =>
      Returns (simulateReplay plan pool' "lru" : Except String (ReplayResult α ℚ)) fun r' =>
        ReplayNoWorse plan r r' := by
  refine (makePolicy_lru_holds hpool).bind fun policy ⟨p, hpolicy, hp⟩ => returns_ok ?_
  refine (makePolicy_lru_holds (hpool.trans hle)).bind fun policy' ⟨q, hpolicy', hq⟩ =>
    returns_ok ?_
  subst hpolicy hpolicy'
  have hsteps := replaySteps_noWorse plan hp hq hle
  have hevents := forall₂_flatMap_events hsteps
  obtain ⟨hhitRate, hreuseRate⟩ := rates_le hevents
  exact ⟨hevents, hhitRate, hreuseRate,
    fun _ _ => percentiles_noLarger (forall₂_map hsteps fun _ _ hstep => hstep.ttftMs),
    fun _ _ => percentiles_noLarger (forall₂_map hsteps fun _ _ hstep => hstep.e2eMs),
    fun hlengths => throughput_le hsteps (hlengths.sum_tokens _)
      (hlengths.e2eMs_pos (replaySteps_timed plan _))⟩

theorem lruReplay_growth_twoRequests :
    Returns (simulateReplay twoRequests (1 : Nat) "lru" :
      Except String (ReplayResult Nat ℚ)) fun r =>
      Returns (simulateReplay twoRequests (2 : Nat) "lru" : Except String (ReplayResult Nat ℚ))
        fun r' => ReplayNoWorse twoRequests r r' :=
  lruReplay_growth Nat twoRequests 1 2 (by decide) (by decide)

/-! ## Other policies -/

/-- The misses of a log. -/
def missesOf (events : List (AccessEvent α)) : Nat := events.countP (!·.hit)

omit [DecidableEq α] in
theorem missesOf_snoc (events : List (AccessEvent α)) (event : AccessEvent α) :
    missesOf (events ++ [event]) = missesOf events + if event.hit = true then 0 else 1 := by
  rw [missesOf, List.countP_append, List.countP_singleton]
  cases event.hit <;> rfl

/-- An id that is accessed again before `pool` other ones is still in an LRU pool. -/
theorem recent_of_mem {older segment : List α} {k : α} {pool : Nat} (hk : k ∈ segment)
    (hfew : segment.toFinset.card ≤ pool) : Recent pool (older ++ segment) k := by
  obtain ⟨first, since, rfl, hlast⟩ := exists_lastUse hk
  refine ⟨older ++ first, since, by simp, Nat.lt_of_lt_of_le ?_ hfew⟩
  refine Finset.card_lt_card (Finset.ssubset_iff_subset_ne.mpr ⟨fun x hx => ?_, fun heq => ?_⟩)
  · simp only [List.mem_toFinset, List.mem_append, List.mem_cons] at hx ⊢
    exact .inr (.inr hx)
  · have hmem : k ∈ (first ++ k :: since).toFinset := by simp
    rw [← heq, List.mem_toFinset] at hmem
    exact hlast hmem

/-- The trace so far consists of complete segments, each with `pool + 1` different ids, and a last
one. LRU has at most `pool + 1` misses in a segment; the other policy, which holds at most `capacity`
ids, has at least `pool + 1 - capacity`, and `start` before the last one. -/
structure Segmented {P : Type} [CachePolicy P α] (pool capacity : Nat) (past : List (AccessEvent α))
    (policy : P) (segments start : Nat) (older segment : List α) (bound : Finset α) : Prop where
  ids : idsOf past = older ++ segment
  lru : ∀ log, idsOf log = idsOf past → HitsWhere (Recent pool) log →
    missesOf log ≤ (pool + 1) * segments + segment.toFinset.card
  inBound : segment.toFinset ⊆ bound ∧ (residents policy).toFinset ⊆ bound
  other : (pool + 1 - capacity) * segments ≤ start ∧ start ≤ missesOf past ∧
    bound.card + start ≤ missesOf past + capacity

variable {P : Type} [CachePolicy P α] [LawfulPolicy P] {capacity : Nat} {policy : P}

namespace Segmented

variable {past : List (AccessEvent α)} {segments start : Nat} {older segment : List α}
  {bound : Finset α}

/-- One more access in the last segment. -/
theorem extend (k : α) (blockIndex : Int) (hvalid : Valid capacity policy)
    (hshort : segment.toFinset.card ≤ pool)
    (h : Segmented pool capacity past policy segments start older segment bound) :
    ∃ bound', Segmented pool capacity (past ++ [⟨k, (access k blockIndex policy).1⟩])
      (access k blockIndex policy).2.2 segments start older (segment ++ [k]) bound' := by
  obtain ⟨hhit, -, hresidents⟩ := access_spec k blockIndex hvalid
  have hsegment : (segment ++ [k]).toFinset = insert k segment.toFinset := by
    ext x
    simp
  have hlru : ∀ log, idsOf log = idsOf (past ++ [⟨k, (access k blockIndex policy).1⟩]) →
      HitsWhere (Recent pool) log →
        missesOf log ≤ (pool + 1) * segments + (segment ++ [k]).toFinset.card := by
    intro log hids hhits
    rcases List.eq_nil_or_concat log with rfl | ⟨init, last, rfl⟩
    · simp at hids
    · rw [List.concat_eq_append] at hids hhits ⊢
      rw [idsOf_append, idsOf_append] at hids
      obtain ⟨hinit, hlast⟩ := List.append_inj' hids rfl
      obtain ⟨hbefore, hevent⟩ := atEvery_snoc.mp hhits
      have hrest := h.lru init hinit hbefore
      have hid : last.hashId = k := List.singleton_inj.mp hlast
      rw [missesOf_snoc, hsegment]
      by_cases hk : k ∈ segment
      · have hrecent : last.hit = true := by
          rw [hevent, hinit, h.ids, hid]
          exact recent_of_mem hk hshort
        rw [if_pos hrecent, Finset.insert_eq_of_mem (List.mem_toFinset.mpr hk)]
        exact hrest
      · rw [Finset.card_insert_of_notMem (mt List.mem_toFinset.mp hk)]
        split <;> omega
  have hids : idsOf (past ++ [⟨k, (access k blockIndex policy).1⟩]) =
        older ++ (segment ++ [k]) := by
    rw [idsOf_append, h.ids, List.append_assoc]
    rfl
  have hother := h.other
  by_cases hk : (access k blockIndex policy).1 = true
  · have hbound : k ∈ bound := h.inBound.2 (List.mem_toFinset.mpr (hhit.mp hk))
    refine ⟨bound, hids, hlru, ⟨?_, fun x hx => ?_⟩, ?_⟩
    · rw [hsegment]
      exact Finset.insert_subset hbound h.inBound.1
    · rcases hresidents x (List.mem_toFinset.mp hx) with rfl | hx
      · exact hbound
      · exact h.inBound.2 (List.mem_toFinset.mpr hx)
    · rw [missesOf_snoc, if_pos hk]
      exact hother
  · refine ⟨insert k bound, hids, hlru, ⟨?_, fun x hx => ?_⟩, ?_⟩
    · rw [hsegment]
      exact Finset.insert_subset_insert k h.inBound.1
    · rcases hresidents x (List.mem_toFinset.mp hx) with rfl | hx
      · exact Finset.mem_insert_self _ _
      · exact Finset.mem_insert_of_mem (h.inBound.2 (List.mem_toFinset.mpr hx))
    · have hcard := Finset.card_insert_le k bound
      rw [missesOf_snoc, if_neg hk]
      omega

/-- A segment with `pool + 1` different ids is complete. -/
theorem complete (hvalid : Valid capacity policy) (hle : capacity ≤ pool)
    (hlong : segment.toFinset.card = pool + 1)
    (h : Segmented pool capacity past policy segments start older segment bound) :
    Segmented pool capacity past policy (segments + 1) (missesOf past) (older ++ segment) []
      (residents policy).toFinset where
  ids := by rw [h.ids, List.append_nil]
  lru log hids hhits := by
    have hmisses := h.lru log hids hhits
    rw [Nat.mul_succ, List.toFinset_nil, Finset.card_empty]
    omega
  inBound := ⟨by simp, Finset.Subset.refl _⟩
  other := by
    have hother := h.other
    have hbound := Finset.card_le_card h.inBound.1
    have hresidents := List.toFinset_card_le (residents policy)
    have hlength := length_le hvalid
    rw [Nat.mul_succ]
    omega

theorem access (k : α) (blockIndex : Int) (hvalid : Valid capacity policy) (hle : capacity ≤ pool)
    (hshort : segment.toFinset.card ≤ pool)
    (h : Segmented pool capacity past policy segments start older segment bound) :
    ∃ segments' start' older' segment' bound', segment'.toFinset.card ≤ pool ∧
      Segmented pool capacity (past ++ [⟨k, (CachePolicy.access k blockIndex policy).1⟩])
        (CachePolicy.access k blockIndex policy).2.2 segments' start' older' segment' bound' := by
  obtain ⟨bound', hextended⟩ := h.extend k blockIndex hvalid hshort
  by_cases hfits : (segment ++ [k]).toFinset.card ≤ pool
  · exact ⟨_, _, _, _, _, hfits, hextended⟩
  · have hlong : (segment ++ [k]).toFinset.card = pool + 1 := by
      have hcard : (segment ++ [k]).toFinset.card ≤ segment.toFinset.card + 1 := by
        rw [List.toFinset_append]
        exact (Finset.card_union_le _ _).trans (Nat.add_le_add_left (List.toFinset_card_le _) _)
      omega
    have hafter := (access_spec k blockIndex hvalid).2.1
    exact ⟨_, _, _, [], _, by simp, hextended.complete hafter hle hlong⟩

end Segmented

/-- **LRU is competitive.** On a pool that is no smaller, LRU has at most
`(pool + 1) / (pool + 1 - capacity)` times the misses of any other policy, and `pool` more. -/
theorem lruReplay_competitive (α D : Type) [DecidableEq α] [DoubleArith D] (name : String)
    (plan : List (ReplayStep α)) (capacity pool : Nat) (hname : name ∈ (POLICIES α).map Prod.fst)
    (hcapacity : 1 ≤ capacity) (hle : capacity ≤ pool) :
    Returns (simulateReplay plan capacity name : Except String (ReplayResult α D)) fun other =>
      Returns (simulateReplay plan pool "lru" : Except String (ReplayResult α D)) fun lru =>
        (pool + 1 - capacity) * missesOf lru.accessLog.events ≤
          (pool + 1) * missesOf other.accessLog.events + (pool + 1 - capacity) * pool := by
  refine simulateReplay_returns hname hcapacity fun policy hpolicy => ?_
  refine (simulateReplay_lru plan (hcapacity.trans hle)).mono fun lru ⟨hids, hhits⟩ => ?_
  show _ ≤ (pool + 1) * missesOf ((replaySteps plan policy).flatMap (·.events)) + _
  rw [events_replaySteps]
  obtain ⟨-, segments, start, older, segment, bound, hshort, hsegmented⟩ := runAccesses_invariant
    (I := fun past (policy : Policy α) => Valid capacity policy ∧
      ∃ segments start older segment bound,
      segment.toFinset.card ≤ pool ∧
        Segmented pool capacity past policy segments start older segment bound)
    (fun k blockIndex ⟨hvalid, _, _, _, _, _, hshort, h⟩ =>
      ⟨(access_spec k (blockIndex : Int) hvalid).2.1, h.access k blockIndex hvalid hle hshort⟩)
    (accesses plan) (p := policy) ⟨hpolicy.1, 0, 0, [], [], ∅, by simp, rfl, fun log hlog _ => by
      rw [List.map_eq_nil_iff.mp hlog]
      exact Nat.zero_le _, by simp [hpolicy.2], by simp⟩
  have hlru := hsegmented.lru lru.accessLog.events (by
    rw [hids, idsOf_runAccesses, map_fst_accesses]) hhits
  obtain ⟨hsegments, hstart, -⟩ := hsegmented.other
  calc (pool + 1 - capacity) * missesOf lru.accessLog.events
      ≤ (pool + 1 - capacity) * ((pool + 1) * segments + pool) :=
        Nat.mul_le_mul_left _ (hlru.trans (Nat.add_le_add_left hshort _))
    _ = (pool + 1) * ((pool + 1 - capacity) * segments) + (pool + 1 - capacity) * pool := by ring
    _ ≤ (pool + 1) * missesOf (runAccesses (accesses plan) policy).1 +
          (pool + 1 - capacity) * pool :=
        Nat.add_le_add_right (Nat.mul_le_mul_left _ (hsegments.trans hstart)) _

theorem lruReplay_competitive_sieve :
    Returns (simulateReplay twoRequests (1 : Nat) "sieve" : Except String (ReplayResult Nat ℚ))
      fun other => Returns (simulateReplay twoRequests (2 : Nat) "lru" :
        Except String (ReplayResult Nat ℚ)) fun lru =>
          (2 + 1 - 1) * missesOf lru.accessLog.events ≤
            (2 + 1) * missesOf other.accessLog.events + (2 + 1 - 1) * 2 :=
  lruReplay_competitive Nat ℚ "sieve" twoRequests 1 2 (by decide) (by decide) (by decide)

end TieredKVCache.Bench
