import TieredKVCache.Bench.PoolSizes

/-!
# The reports of the benchmark

A run of `BenchmarkFramework.replay` with a known policy and a known commit reports, whatever the
trace is. Its rates are shares, its percentiles ascend, and at each percentile the time to the first
token is at least that of one block and at most the latency of the whole request
(`replay_answers`).
-/

namespace TieredKVCache.Bench

open Lib CachePolicy

variable {α : Type} [DecidableEq α]

/-! ## Latencies -/

namespace TieredSimulator

variable {D : Type} {sim : TieredSimulator α D}

theorem costs_accessBlock (k : α) (sim : TieredSimulator α D) :
    (sim.accessBlock k).2.costs = sim.costs := by
  unfold accessBlock
  split
  next => rfl
  next => split <;> rfl

theorem costs_accessBlocks (prev : Option α) (hashIds : List α) (sim : TieredSimulator α D) :
    (accessBlocks prev hashIds sim).2.costs = sim.costs := by
  induction hashIds generalizing prev sim with
  | nil => rfl
  | cons k hashIds ih =>
    have hlink : ((sim.accessBlock k).2.link prev k).costs = (sim.accessBlock k).2.costs := by
      cases prev <;> rfl
    exact (ih (some k) _).trans (hlink.trans (costs_accessBlock k sim))

theorem costs_followChain (budget : Nat) (cursor : α) (p : Nat × TieredSimulator α D) :
    (followChain budget cursor p).2.costs = p.2.costs := by
  induction budget generalizing cursor p with
  | zero => rfl
  | succ budget ih =>
    obtain ⟨promoted, sim⟩ := p
    rw [followChain]
    split
    next => rfl
    next =>
      refine (ih _ _).trans ?_
      split <;> rfl

theorem costs_followAnchors (budget : Nat) (anchors : List α) (p : Nat × TieredSimulator α D) :
    (followAnchors budget anchors p).2.costs = p.2.costs := by
  induction anchors generalizing p with
  | nil => rfl
  | cons anchor anchors ih =>
    rw [followAnchors]
    split
    next => exact (ih _).trans (costs_followChain budget anchor p)
    next => exact ih p

theorem costs_prefetchForRequest (hashIds : List α) (sim : TieredSimulator α D) :
    (sim.prefetchForRequest hashIds).2.costs = sim.costs := by
  rw [prefetchForRequest]
  split
  next => rfl
  next => exact costs_followAnchors _ hashIds (0, sim)

theorem four_le_outcome (kinds : List AccessKind) :
    4 ≤ (outcome (TieredCosts.standard : TieredCosts ℚ) kinds).ttftMs := by
  unfold outcome
  dsimp only
  split
  next => exact le_refl _
  next hge => exact not_lt.mp hge

theorem costs_processRequest (hashIds : List α) (sim : TieredSimulator α ℚ) :
    (sim.processRequest hashIds).2.costs = sim.costs :=
  (costs_accessBlocks none hashIds _).trans (costs_prefetchForRequest hashIds sim)

theorem outcome_processRequest (hashIds : List α) (sim : TieredSimulator α ℚ) :
    ∃ kinds, (sim.processRequest hashIds).1 = outcome sim.costs kinds :=
  ⟨_, congrArg (outcome · _) (costs_processRequest hashIds sim)⟩

theorem tieredSteps_timed (plan : List (ReplayStep α)) {sim : TieredSimulator α ℚ}
    (h : sim.costs = TieredCosts.standard) : List.Forall₂ Timed plan (tieredSteps plan sim) := by
  induction plan generalizing sim with
  | nil => exact .nil
  | cons step plan ih =>
    obtain ⟨kinds, hkinds⟩ := outcome_processRequest step.record.hashIds sim
    have hleast : 4 ≤ (sim.processRequest step.record.hashIds).1.ttftMs := by
      rw [hkinds, h]
      exact four_le_outcome kinds
    exact .cons ⟨hleast, rfl⟩ (ih ((costs_processRequest _ sim).trans h))

end TieredSimulator

/-! ## Rates -/

/-- The rates are shares, and there is reuse where there are hits. -/
structure Shares (hitRate reuseRate : ℚ) : Prop where
  hits : 0 ≤ hitRate ∧ hitRate ≤ 1
  reuses : 0 ≤ reuseRate ∧ reuseRate ≤ 1
  reused : hitRate = 0 ↔ reuseRate = 0

theorem rates_shares (log : AccessLog α) :
    Shares (rates log : ℚ × ℚ).1 (rates log : ℚ × ℚ).2 := by
  by_cases hne : log.events = []
  · have hrates : (rates log : ℚ × ℚ) = (0, 0) := by
      rw [rates, if_pos (by simpa using hne)]
    rw [hrates]
    exact ⟨⟨le_refl _, zero_le_one⟩, ⟨le_refl _, zero_le_one⟩, .rfl⟩
  · have hevents : log.events.length ≠ 0 := fun hzero => hne (List.length_eq_zero_iff.mp hzero)
    have hseen : (distinctIds log.events).card ≠ 0 := by
      rw [Finset.card_ne_zero, distinctIds, List.toFinset_nonempty_iff]
      exact fun hnil => hne (List.map_eq_nil_iff.mp hnil)
    have hsubset : reusedIds log.events ⊆ distinctIds log.events := by
      intro k hk
      obtain ⟨event, hevent, rfl⟩ := List.mem_map.mp (List.mem_toFinset.mp hk)
      exact List.mem_toFinset.mpr (List.mem_map_of_mem (List.mem_of_mem_filter hevent))
    have hnone : hitsOf log.events = 0 ↔ (reusedIds log.events).card = 0 := by
      rw [hitsOf, List.countP_eq_zero, Finset.card_eq_zero, reusedIds, List.toFinset_eq_empty_iff,
        idsOf, List.map_eq_nil_iff, List.filter_eq_nil_iff]
    have hshare : ∀ {a b : ℕ}, a ≤ b → 0 ≤ (a : ℚ) / b ∧ (a : ℚ) / b ≤ 1 := fun hab =>
      ⟨div_nonneg (Nat.cast_nonneg _) (Nat.cast_nonneg _),
        div_le_one_of_le₀ (Nat.cast_le.mpr hab) (Nat.cast_nonneg _)⟩
    rw [rates_of_ne hne]
    refine ⟨hshare List.countP_le_length, hshare (Finset.card_le_card hsubset), ?_⟩
    simp only [div_eq_zero_iff, Nat.cast_eq_zero, hevents, hseen, or_false]
    exact hnone

/-! ## Reports -/

omit [DecidableEq α] in
theorem makePolicy_unknown {name : String} (capacity : Int)
    (hname : name ∉ (POLICIES α).map Prod.fst) :
    ∃ message, (makePolicy name capacity : Except String (Policy α)) = .error message := by
  have hnone : (POLICIES α).lookup name = none := by
    rw [List.lookup_eq_none_iff]
    intro p hp
    have hne : name ≠ p.1 := fun heq => hname (heq.symm ▸ List.mem_map_of_mem hp)
    simpa using hne
  exact ⟨_, by rw [makePolicy, hnone]⟩

theorem TieredSimulator.new_costs {name : String} {fastBlocks slowBlocks : Nat}
    {prefetchDepth : Int} {costs : TieredCosts ℚ} (hname : name ∈ (POLICIES α).map Prod.fst)
    (hfast : 1 ≤ fastBlocks) (hslow : 1 ≤ slowBlocks) :
    Returns (new fastBlocks slowBlocks name prefetchDepth costs "lru" :
      Except String (TieredSimulator α ℚ)) (·.costs = costs) :=
  (makePolicy_fresh hname hfast).bind fun _ _ => (makePolicy_lru hslow).bind fun _ _ =>
    returns_ok rfl

namespace BenchmarkFramework

/-- The policy that the run uses. -/
def policyName (cfg : RunConfig) : String :=
  if cfg.policy = "" then defaultPolicy cfg.target else cfg.policy

/-- The commit that the report names: the one of the configuration, or else the one of the lock. -/
def commitOf (env : Environment) (cfg : RunConfig) : Except LockError (List Char) :=
  if cfg.mooncakeCommit ≠ [] then .ok cfg.mooncakeCommit
  else (readMooncakeLock env.lockPath env.lockText).map (·.commit)

/-- What every result of a simulation satisfies. -/
def Simulated (records : List (TraceRecord α)) (result : ReplayResult α ℚ) : Prop :=
  ∃ steps, List.Forall₂ Timed (buildReplayPlan records) steps ∧ result = summarize steps

theorem simulate_returns (records : List (TraceRecord α)) {cfg : RunConfig}
    (hname : policyName cfg ∈ (POLICIES α).map Prod.fst) :
    Returns (simulate records cfg) (Simulated records) := by
  unfold simulate
  cases htarget : cfg.target with
  | project =>
    rw [policyName, htarget] at hname
    exact (TieredSimulator.new_costs hname (show 1 ≤ 4096 by decide)
      (show 1 ≤ 16384 by decide)).bind fun sim hsim =>
        returns_ok ⟨_, sim.tieredSteps_timed _ hsim, rfl⟩
  | baseline =>
    rw [policyName, htarget] at hname
    exact (makePolicy_fresh hname (show 1 ≤ 1024 by decide)).bind fun p _ =>
      returns_ok ⟨_, replaySteps_timed _ p, rfl⟩

theorem simulate_unknown (records : List (TraceRecord α)) {cfg : RunConfig}
    (hname : policyName cfg ∉ (POLICIES α).map Prod.fst) :
    ∃ message, simulate records cfg = .error message := by
  unfold simulate
  cases htarget : cfg.target with
  | project =>
    rw [policyName, htarget] at hname
    obtain ⟨message, hmessage⟩ := makePolicy_unknown 4096 hname
    refine ⟨message, ?_⟩
    dsimp only [simulateTieredReplay, TieredSimulator.new, poolBlocks]
    rw [hmessage]
    rfl
  | baseline =>
    rw [policyName, htarget] at hname
    obtain ⟨message, hmessage⟩ := makePolicy_unknown 1024 hname
    refine ⟨message, ?_⟩
    dsimp only [simulateReplay, poolBlocks]
    rw [hmessage]
    rfl

/-- What a report says of a run: where the requests have no negative number of tokens to decode, the
percentiles of the latency are no smaller than those of the time to the first token, and this is
the one of a block at least. -/
structure ReportSound (records : List (TraceRecord α)) (cfg : RunConfig) (commit : List Char)
    (report : RunReport) : Prop where
  config : report.config = cfg
  mooncakeCommit : report.mooncakeCommit = commit
  rates : Shares report.cacheHitRate report.reuseRate
  ttftAscends : report.ttftMs.p50 ≤ report.ttftMs.p90 ∧ report.ttftMs.p90 ≤ report.ttftMs.p99
  e2eAscends : report.e2eLatencyMs.p50 ≤ report.e2eLatencyMs.p90 ∧
    report.e2eLatencyMs.p90 ≤ report.e2eLatencyMs.p99
  ttftLeast : records ≠ [] → 4 ≤ report.ttftMs.p50
  latency : (∀ record ∈ records, 0 ≤ record.outputLength) →
    report.e2eLatencyMs.NoLarger report.ttftMs
  skipped : ∀ name, name ∈ report.skipped ↔
    ∃ capability, (name, capability) ∈ requiredCapabilities ∧ capability cfg.hardware = false

omit [DecidableEq α] in
theorem mem_skipped (hardware : HardwareProfile) (name : String) : name ∈ skipped hardware ↔
    ∃ capability, (name, capability) ∈ requiredCapabilities ∧ capability hardware = false := by
  have hsorted := List.mergeSort_perm requiredCapabilities fun c c' => decide (c.1 ≤ c'.1)
  simp only [skipped, List.mem_map, List.mem_filter, hsorted.mem_iff, Bool.not_eq_true',
    Prod.exists, exists_and_right, exists_eq_right]

omit [DecidableEq α] in
theorem samplePercentiles_returns (samples : List ℚ) :
    Returns (samplePercentiles samples) fun r =>
      (samples = [] → r = ⟨0, 0, 0⟩) ∧ (samples ≠ [] → percentiles samples = .ok r) := by
  by_cases hne : samples = []
  · rw [samplePercentiles, if_pos (by simpa using hne)]
    exact returns_ok ⟨fun _ => rfl, fun h => absurd hne h⟩
  · rw [samplePercentiles, if_neg (by simpa using hne)]
    obtain ⟨r, hr, _⟩ := percentiles_returns hne
    exact ⟨r, hr, fun h => absurd h hne, fun _ => hr⟩

variable {records : List (TraceRecord α)} {steps : List (StepResult α ℚ)}

omit [DecidableEq α] in
theorem forall_timed (h : List.Forall₂ Timed (buildReplayPlan records) steps) :
    steps.length = records.length ∧ ∀ result ∈ steps, 4 ≤ result.ttftMs ∧
      ((∀ record ∈ records, 0 ≤ record.outputLength) → result.ttftMs ≤ result.e2eMs) := by
  constructor
  · rw [← h.length_eq, buildReplayPlan, List.length_mapIdx]
  · intro result hresult
    obtain ⟨i, hi, rfl⟩ := List.mem_iff_getElem.mp hresult
    have hplan : i < (buildReplayPlan records).length := h.length_eq ▸ hi
    obtain ⟨hleast, hsum⟩ := h.get hplan hi
    refine ⟨hleast, fun hoff => ?_⟩
    have hmem : ((buildReplayPlan records)[i]).record ∈ records := by
      simp only [buildReplayPlan, List.getElem_mapIdx]
      exact List.getElem_mem _
    have hdecode : (0 : ℚ) ≤ ofInt ((buildReplayPlan records)[i]).record.outputLength *
        decodeMsPerToken :=
      mul_nonneg (ofInt_nonneg (hoff _ hmem)) (by norm_num [decodeMsPerToken, DoubleArith.ofSize])
    have hsum' : steps[i].e2eMs = _ := hsum
    rw [hsum']
    exact le_add_of_nonneg_right hdecode

/-- The report of a simulation with the commit and the percentiles. -/
def reportOf (env : Environment) (cfg : RunConfig) (commit : List Char) (result : ReplayResult α ℚ)
    (ttftMs e2eLatencyMs : Percentiles ℚ) : RunReport where
  config := cfg
  softwareVersions := softwareVersions env
  mooncakeCommit := commit
  throughputTokS := result.throughput
  ttftMs
  e2eLatencyMs
  cacheHitRate := (rates result.accessLog).1
  reuseRate := (rates result.accessLog).2
  skipped := skipped cfg.hardware

theorem replay_eq {env : Environment} {cfg : RunConfig} {result : ReplayResult α ℚ}
    (h : simulate records cfg = .ok result) : replay records env cfg = (do
      let commit ← (commitOf env cfg).mapError .lock
      let ttftMs ← (samplePercentiles result.ttftSamples).mapError .valueError
      let e2eLatencyMs ← (samplePercentiles result.e2eSamples).mapError .valueError
      return reportOf env cfg commit result ttftMs e2eLatencyMs) := by
  unfold replay commitOf
  rw [h]
  split <;> rfl

theorem reportOf_sound {env : Environment} {cfg : RunConfig} {commit : List Char}
    {ttftMs e2eLatencyMs : Percentiles ℚ}
    (h : List.Forall₂ Timed (buildReplayPlan records) steps)
    (httft : records ≠ [] → percentiles (summarize steps).ttftSamples = .ok ttftMs)
    (he2e : records ≠ [] → percentiles (summarize steps).e2eSamples = .ok e2eLatencyMs)
    (hnone : records = [] → ttftMs = ⟨0, 0, 0⟩ ∧ e2eLatencyMs = ⟨0, 0, 0⟩) :
    ReportSound records cfg commit
      (reportOf env cfg commit (summarize steps) ttftMs e2eLatencyMs) := by
  obtain ⟨hlength, htimes⟩ := forall_timed h
  have hshares : Shares (rates (summarize steps).accessLog : ℚ × ℚ).1
      (rates (summarize steps).accessLog : ℚ × ℚ).2 := rates_shares _
  by_cases hempty : records = []
  · obtain ⟨rfl, rfl⟩ := hnone hempty
    exact ⟨rfl, rfl, hshares, ⟨le_refl _, le_refl _⟩, ⟨le_refl _, le_refl _⟩,
      fun hne => absurd hempty hne, fun _ => ⟨le_refl _, le_refl _, le_refl _⟩,
      mem_skipped cfg.hardware⟩
  · have hsteps : steps ≠ [] := by
      rintro rfl
      exact hempty (List.length_eq_zero_iff.mp hlength.symm)
    have hsamples : ∀ f : StepResult α ℚ → ℚ, steps.map f ≠ [] := fun f hnil =>
      hsteps (List.map_eq_nil_iff.mp hnil)
    obtain ⟨h50, h90, h99⟩ := (percentiles_returns (hsamples _)).of_eq (httft hempty)
    obtain ⟨h50', h90', h99'⟩ := (percentiles_returns (hsamples _)).of_eq (he2e hempty)
    refine ⟨rfl, rfl, hshares, ⟨h50.mono h90 (by norm_num), h90.mono h99 (by norm_num)⟩,
      ⟨h50'.mono h90' (by norm_num), h90'.mono h99' (by norm_num)⟩, fun _ => ?_, fun hoff => ?_,
      mem_skipped cfg.hardware⟩
    · obtain ⟨result, hresult, hvalue⟩ := List.mem_map.mp h50.1.1
      exact (htimes result hresult).1.trans_eq hvalue
    · have hle : List.Forall₂ (· ≤ ·) (steps.map (·.ttftMs)) (steps.map (·.e2eMs)) := by
        rw [List.forall₂_map_left_iff, List.forall₂_map_right_iff, List.forall₂_same]
        exact fun result hresult => (htimes result hresult).2 hoff
      exact percentiles_noLarger hle (he2e hempty) (httft hempty)

/-- **Reports.** A replay fails where the policy is unknown, and else where it takes the commit from
the lock and cannot read it. In every other case it reports, whatever the trace is. -/
theorem replay_answers (α : Type) [DecidableEq α] (records : List (TraceRecord α))
    (env : Environment) (cfg : RunConfig) :
    (policyName cfg ∉ (POLICIES α).map Prod.fst →
        ∃ message, replay records env cfg = .error (.valueError message)) ∧
      (policyName cfg ∈ (POLICIES α).map Prod.fst →
        (∀ error, commitOf env cfg = .error error →
            replay records env cfg = .error (.lock error)) ∧
          ∀ commit, commitOf env cfg = .ok commit →
            Returns (replay records env cfg) (ReportSound records cfg commit)) := by
  refine ⟨fun hname => ?unknown, fun hname => ?known⟩
  case unknown =>
    obtain ⟨message, hmessage⟩ := simulate_unknown records hname
    exact ⟨message, by rw [replay, hmessage]; rfl⟩
  case known =>
    obtain ⟨result, hresult, steps, htimed, rfl⟩ := simulate_returns records hname
    rw [replay_eq hresult]
    refine ⟨fun error herror => ?_, fun commit hcommit => ?_⟩
    · rw [herror]
      rfl
    · obtain ⟨ttftMs, httft, httftNone, httftSome⟩ :=
        samplePercentiles_returns (summarize steps).ttftSamples
      obtain ⟨e2eLatencyMs, he2e, he2eNone, he2eSome⟩ :=
        samplePercentiles_returns (summarize steps).e2eSamples
      rw [hcommit, httft, he2e]
      have hempty : steps = [] ↔ records = [] := by
        rw [← List.length_eq_zero_iff, (forall_timed htimed).1, List.length_eq_zero_iff]
      have hsamples : ∀ f : StepResult α ℚ → ℚ, steps.map f = [] ↔ records = [] := fun f => by
        rw [List.map_eq_nil_iff, hempty]
      refine returns_ok (reportOf_sound htimed (fun hne => httftSome fun hnil => ?_)
        (fun hne => he2eSome fun hnil => ?_) fun hnil => ⟨httftNone ?_, he2eNone ?_⟩)
      · exact hne ((hsamples _).mp hnil)
      · exact hne ((hsamples _).mp hnil)
      · exact (hsamples _).mpr hnil
      · exact (hsamples _).mpr hnil

end BenchmarkFramework

end TieredKVCache.Bench
