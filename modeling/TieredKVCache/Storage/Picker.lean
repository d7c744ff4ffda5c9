import Mathlib.Logic.Relation
import TieredKVCache.Storage.RepInv

/-!
# The victim pickers

`S3Step` says once what a round of `PickS3VictimLocked` can do; every fact about the
S3-FIFO scan is read off it. The scan terminates in any state (`S3Step.measure_lt`), it
keeps the representation invariant, and where the fastest tier holds a block it ends with
a victim that is resident there. `chooseVictim_returns` is the same for all three pickers
together.
-/

namespace TieredKVCache.Storage

open Lib Relation

/-! ## One round of the S3-FIFO scan -/

section

variable {D : Type} (config : TierConfig D) (fast : Tier)

/-- The condition under which the small queue is served. -/
def FromSmall (s : State) : Prop :=
  config.capacityOf fast / 10 < s.s3SmallUsedBytes ∧ s.s3SmallFifo ≠ [] ∨ s.s3MainFifo = []

instance (s : State) : Decidable (FromSmall config fast s) :=
  inferInstanceAs (Decidable (_ ∧ _ ∨ _))

inductive S3Step (s : State) : State ⊕ (Option BlockKey × State) → Prop
  | empty (hsmall : s.s3SmallFifo = []) (hmain : s.s3MainFifo = []) : S3Step s (.inr (none, s))
  | staleSmall {key : BlockKey} {rest : List BlockKey} (hfrom : FromSmall config fast s)
      (hq : s.s3SmallFifo = key :: rest)
      (hstale : ∀ it, s.blocks.lookup key = some it → ¬ InSmall config it) :
      S3Step s (.inl { s with s3SmallFifo := rest })
  | promote {key : BlockKey} {rest : List BlockKey} {it : StoredBlock}
      (hfrom : FromSmall config fast s) (hq : s.s3SmallFifo = key :: rest)
      (h : s.blocks.lookup key = some it) (hlive : InSmall config it) (hfreq : 0 < it.s3Freq) :
      S3Step s (.inl (promoteToMain key it { s with s3SmallFifo := rest }))
  | victimSmall {key : BlockKey} {rest : List BlockKey} {it : StoredBlock}
      (hfrom : FromSmall config fast s) (hq : s.s3SmallFifo = key :: rest)
      (h : s.blocks.lookup key = some it) (hlive : InSmall config it) (hfreq : it.s3Freq = 0) :
      S3Step s (.inr (some key, ghostInsertLocked key { s with s3SmallFifo := rest }))
  | staleMain {key : BlockKey} {rest : List BlockKey} (hfrom : ¬ FromSmall config fast s)
      (hq : s.s3MainFifo = key :: rest)
      (hstale : ∀ it, s.blocks.lookup key = some it → ¬ InMain config it) :
      S3Step s (.inl { s with s3MainFifo := rest })
  | second {key : BlockKey} {rest : List BlockKey} {it : StoredBlock}
      (hfrom : ¬ FromSmall config fast s) (hq : s.s3MainFifo = key :: rest)
      (h : s.blocks.lookup key = some it) (hlive : InMain config it) (hfreq : 0 < it.s3Freq) :
      S3Step s (.inl (secondChance key it { s with s3MainFifo := rest }))
  | victimMain {key : BlockKey} {rest : List BlockKey} {it : StoredBlock}
      (hfrom : ¬ FromSmall config fast s) (hq : s.s3MainFifo = key :: rest)
      (h : s.blocks.lookup key = some it) (hlive : InMain config it) (hfreq : it.s3Freq = 0) :
      S3Step s (.inr (some key, { s with s3MainFifo := rest }))

end

section

variable {D : Type} {config : TierConfig D} {fast : Tier} {s s' s₁ s₂ : State}

private theorem fromSmall_iff (s : State) :
    ((s.s3SmallUsedBytes > config.capacityOf fast / 10 && !s.s3SmallFifo.isEmpty) ||
      s.s3MainFifo.isEmpty) = true ↔ FromSmall config fast s := by
  unfold FromSmall
  simp [List.isEmpty_iff]

theorem s3Body_spec (hfast : config.fastestTierCache = some fast) (s : State) :
    ∃ r, s3Body config fast s = .ok r ∧ S3Step config fast s r := by
  have hlive {it : StoredBlock} : ¬ (it.entry.tier ≠ fast ∨ it.s3InMain = true) ↔
      InSmall config it := by
    rw [InSmall, hfast, Option.some.injEq, eq_comm (a := fast)]
    simp
  have hlive' {it : StoredBlock} : ¬ (it.entry.tier ≠ fast ∨ (!it.s3InMain) = true) ↔
      InMain config it := by
    rw [InMain, hfast, Option.some.injEq, eq_comm (a := fast)]
    simp
  unfold s3Body
  dsimp only
  by_cases hfrom : FromSmall config fast s
  · rw [if_pos ((fromSmall_iff s).mpr hfrom)]
    cases hq : s.s3SmallFifo with
    | nil =>
      refine ⟨_, rfl, .empty hq ?_⟩
      rcases hfrom with hover | hmain
      · exact absurd hq hover.2
      · exact hmain
    | cons key rest =>
      dsimp only
      cases h : s.blocks.lookup key with
      | none => exact ⟨_, rfl, .staleSmall hfrom hq (by simp [h])⟩
      | some it =>
        dsimp only
        by_cases hit : it.entry.tier ≠ fast ∨ it.s3InMain = true
        · rw [if_pos hit]
          refine ⟨_, rfl, .staleSmall hfrom hq ?_⟩
          intro it' h' hsmall
          cases h.symm.trans h'
          exact hlive.mpr hsmall hit
        · rw [if_neg hit]
          by_cases hfreq : it.s3Freq > 0
          · rw [if_pos hfreq]
            exact ⟨_, rfl, .promote hfrom hq h (hlive.mp hit) hfreq⟩
          · rw [if_neg hfreq]
            exact ⟨_, rfl, .victimSmall hfrom hq h (hlive.mp hit) (by omega)⟩
  · rw [if_neg (fun h => hfrom ((fromSmall_iff s).mp h))]
    cases hq : s.s3MainFifo with
    | nil => exact absurd (.inr hq) hfrom
    | cons key rest =>
      dsimp only
      cases h : s.blocks.lookup key with
      | none => exact ⟨_, rfl, .staleMain hfrom hq (by simp [h])⟩
      | some it =>
        dsimp only
        by_cases hit : it.entry.tier ≠ fast ∨ (!it.s3InMain) = true
        · rw [if_pos hit]
          refine ⟨_, rfl, .staleMain hfrom hq ?_⟩
          intro it' h' hmain
          cases h.symm.trans h'
          exact hlive'.mpr hmain hit
        · rw [if_neg hit]
          by_cases hfreq : it.s3Freq > 0
          · rw [if_pos hfreq]
            exact ⟨_, rfl, .second hfrom hq h (hlive'.mp hit) hfreq⟩
          · rw [if_neg hfreq]
            exact ⟨_, rfl, .victimMain hfrom hq h (hlive'.mp hit) (by omega)⟩

/-- The head of the queue that is served decides which step it is. -/
theorem S3Step.unique {r r' : State ⊕ (Option BlockKey × State)} (h : S3Step config fast s r)
    (h' : S3Step config fast s r') : r = r' := by
  cases h <;> cases h' <;> grind

theorem S3Step.body (hfast : config.fastestTierCache = some fast)
    {r : State ⊕ (Option BlockKey × State)} (h : S3Step config fast s r) :
    s3Body config fast s = .ok r := by
  obtain ⟨r', hr', h'⟩ := s3Body_spec hfast s
  rw [h.unique h', hr']

/-! ## What a round preserves -/

theorem S3Step.measure_lt (h : S3Step config fast s (.inl s')) : s3Measure s' < s3Measure s := by
  cases h with
  | staleSmall hfrom hq hstale =>
    simp only [s3Measure, hq, List.length_cons]
    omega
  | @promote key rest it hfrom hq h hlive hfreq =>
    simp only [s3Measure, promoteToMain, hq, List.length_cons, List.length_append,
      List.length_nil, sumOver_insert, sumOver_erase h]
    omega
  | staleMain hfrom hq hstale =>
    simp only [s3Measure, hq, List.length_cons]
    omega
  | @second key rest it hfrom hq h hlive hfreq =>
    simp only [s3Measure, secondChance, hq, List.length_cons, List.length_append,
      List.length_nil, sumOver_insert, sumOver_erase h]
    omega

/-- The scan returns in any state. -/
theorem s3Scan_terminates (hfast : config.fastestTierCache = some fast) (s : State) :
    ∃ r, iterate (s3Body config fast) .diverged (s3Measure s + 1) s = .ok r := by
  have hloop : Returns (iterate (s3Body config fast) .diverged (s3Measure s + 1) s)
      fun _ => True := by
    refine iterate_returns (fun _ => True) s3Measure ?_ trivial (Nat.lt_succ_self _)
    intro a _
    obtain ⟨r, hr, hstep⟩ := s3Body_spec hfast a
    rcases r with a' | r
    · exact .inl ⟨a', hr, trivial, hstep.measure_lt⟩
    · exact .inr ⟨r, hr, trivial⟩
  obtain ⟨r, hr, _⟩ := hloop
  exact ⟨r, hr⟩

/-- Popping an entry changes the clause about the queues only. -/
theorem RepInvExcept.pop {except : Option BlockKey} (hinv : RepInv config s)
    {small main : List BlockKey}
    (hq : ∀ {k it}, s.blocks.lookup k = some it → config.fastestTierCache = some it.entry.tier →
      except ≠ some k → k ∈ if it.s3InMain then main else small) :
    RepInvExcept config except { s with s3SmallFifo := small, s3MainFifo := main } :=
  { hinv with queued := hq }

theorem RepInvExcept.mem_small {except : Option BlockKey} {k : BlockKey} {it : StoredBlock}
    (hinv : RepInvExcept config except s) (h : s.blocks.lookup k = some it)
    (hsmall : InSmall config it) (hne : except ≠ some k) : k ∈ s.s3SmallFifo := by
  have hmem := hinv.queued h hsmall.1 hne
  rwa [if_neg (by simp [hsmall.2])] at hmem

theorem RepInvExcept.mem_main {except : Option BlockKey} {k : BlockKey} {it : StoredBlock}
    (hinv : RepInvExcept config except s) (h : s.blocks.lookup k = some it)
    (hmain : InMain config it) (hne : except ≠ some k) : k ∈ s.s3MainFifo := by
  have hmem := hinv.queued h hmain.1 hne
  rwa [if_pos hmain.2] at hmem

/-- The scan replaces a block by one that differs in its S3-FIFO state alone. -/
theorem RepInvExcept.requeue {key : BlockKey} {it it' : StoredBlock}
    (hinv : RepInv config s) (h : s.blocks.lookup key = some it) (hblock : it'.block = it.block)
    (hentry : it'.entry = it.entry) {small main : List BlockKey}
    (hsmall : ∀ {k it}, s.blocks.lookup k = some it → InSmall config it → k ≠ key → k ∈ small)
    (hmain : ∀ {k it}, s.blocks.lookup k = some it → InMain config it → k ≠ key → k ∈ main)
    (hkey : key ∈ if it'.s3InMain then main else small) {smallUsed : Nat}
    (hused : smallUsed = bytesOf (fun _ it => InSmall config it) (s.blocks.insert key it')) :
    RepInv config
      { s with
        blocks := s.blocks.insert key it', s3SmallFifo := small, s3MainFifo := main
        s3SmallUsedBytes := smallUsed } := by
  have hstamped {k : BlockKey} {it₀ : StoredBlock}
      (hk : (s.blocks.insert key it').lookup k = some it₀) :
      ∃ it₁, s.blocks.lookup k = some it₁ ∧ it₀.entry = it₁.entry :=
    of_lookup_insert hk ⟨it, h, hentry⟩ fun hk => ⟨_, hk, rfl⟩
  refine
    { keyed := fun hk => of_lookup_insert hk (by rw [hblock, hentry]; exact hinv.keyed h) hinv.keyed
      placed := fun hk => of_lookup_insert hk (by rw [hentry]; exact hinv.placed h) hinv.placed
      sized := fun hk => of_lookup_insert hk (by rw [hblock, hentry]; exact hinv.sized h) hinv.sized
      counted := fun hk => of_lookup_insert hk (by rw [hentry]; exact hinv.counted h) hinv.counted
      used := ?used
      index := ?index
      smallUsed := hused
      queued := ?queued
      tenantUsed := ?tenantUsed
      tenantIndex := ?tenantIndex
      stampLe := fun hk => of_lookup_insert hk (by rw [hentry]; exact hinv.stampLe h) hinv.stampLe
      stampInj := ?stampInj }
  case used =>
    intro t
    dsimp only
    rw [bytesOf_insert_of_iff h (by rw [hentry]) (by rw [hentry])]
    exact hinv.used t
  case index =>
    intro t
    exact (hinv.index t).replace h (by rw [hentry]) (by rw [hentry])
  case queued =>
    intro k it₀ hk hfast _
    rcases lookup_insert_eq_some.mp hk with ⟨rfl, rfl⟩ | ⟨hne, hk⟩
    · exact hkey
    · cases hin : it₀.s3InMain with
      | true => exact hmain hk ⟨hfast, hin⟩ hne
      | false => exact hsmall hk ⟨hfast, hin⟩ hne
  case tenantUsed =>
    intro hq t tenant
    dsimp only
    rw [bytesOf_insert_of_iff h (by rw [hentry]) (by rw [hentry])]
    exact hinv.tenantUsed hq t tenant
  case tenantIndex =>
    intro hq t tenant
    exact (hinv.tenantIndex hq t tenant).replace h (by rw [hentry]) (by rw [hentry])
  case stampInj =>
    intro k k' it₀ it₀' hk hk' hts
    obtain ⟨it₁, hk, he⟩ := hstamped hk
    obtain ⟨it₁', hk', he'⟩ := hstamped hk'
    rw [he, he'] at hts
    exact hinv.stampInj hk hk' hts

theorem S3Step.repInv (h : S3Step config fast s (.inl s')) (hinv : RepInv config s) :
    RepInv config s' := by
  cases h with
  | @staleSmall key rest hfrom hq hstale =>
    apply hinv.pop
    intro k it hk hfast _
    cases hin : it.s3InMain with
    | true => exact hinv.mem_main hk ⟨hfast, hin⟩ (by simp)
    | false =>
      have hmem := hinv.mem_small hk ⟨hfast, hin⟩ (by simp)
      rw [hq] at hmem
      rcases List.mem_cons.mp hmem with rfl | hmem
      · exact absurd ⟨hfast, hin⟩ (hstale it hk)
      · exact hmem
  | @promote key rest it hfrom hq h hlive hfreq =>
    have hbytes := hinv.smallUsed.trans (bytesOf_erase h)
    unfold promoteToMain
    refine RepInvExcept.requeue hinv h ?_ ?_ ?_ ?_ ?_ ?_
    · rfl
    · rfl
    · intro k it₀ hk hsmall hne
      have hmem := hinv.mem_small hk hsmall (by simp)
      rw [hq] at hmem
      exact (List.mem_cons.mp hmem).resolve_left hne
    · intro k it₀ hk hmain _
      exact List.mem_append_left _ (hinv.mem_main hk hmain (by simp))
    · simp
    · rw [bytesOf_insert, if_neg (by simp [InSmall]), Nat.zero_add]
      rw [if_pos hlive] at hbytes
      exact Nat.sub_eq_of_eq_add' hbytes
  | @staleMain key rest hfrom hq hstale =>
    apply hinv.pop
    intro k it hk hfast _
    cases hin : it.s3InMain with
    | false => exact hinv.mem_small hk ⟨hfast, hin⟩ (by simp)
    | true =>
      have hmem := hinv.mem_main hk ⟨hfast, hin⟩ (by simp)
      rw [hq] at hmem
      rcases List.mem_cons.mp hmem with rfl | hmem
      · exact absurd ⟨hfast, hin⟩ (hstale it hk)
      · exact hmem
  | @second key rest it hfrom hq h hlive hfreq =>
    unfold secondChance
    refine RepInvExcept.requeue hinv h ?_ ?_ ?_ ?_ ?_ ?_
    · rfl
    · rfl
    · intro k it₀ hk hsmall _
      exact hinv.mem_small hk hsmall (by simp)
    · intro k it₀ hk hmain hne
      have hmem := hinv.mem_main hk hmain (by simp)
      rw [hq] at hmem
      exact List.mem_append_left _ ((List.mem_cons.mp hmem).resolve_left hne)
    · simp [hlive.2]
    · exact hinv.smallUsed.trans (bytesOf_insert_of_iff h Iff.rfl rfl).symm

theorem ghostInsertLocked_eq (key : BlockKey) (s : State) :
    ghostInsertLocked key s =
      { s with
        ghost := (ghostInsertLocked key s).ghost
        ghostFifo := (ghostInsertLocked key s).ghostFifo } := by
  unfold ghostInsertLocked
  split <;> rfl

/-- After a victim is popped, at most the victim is missing from its queue. -/
theorem S3Step.repInv_victim {key : BlockKey} (h : S3Step config fast s (.inr (some key, s')))
    (hinv : RepInv config s) : RepInvExcept config (some key) s' := by
  cases h with
  | @victimSmall _ rest it hfrom hq h hlive hfreq =>
    rw [ghostInsertLocked_eq]
    refine RepInvExcept.tick (RepInvExcept.pop hinv ?_) _ (Nat.le_refl _) _ _ _
    intro k it hk hfast hne
    cases hin : it.s3InMain with
    | true => exact hinv.mem_main hk ⟨hfast, hin⟩ (by simp)
    | false =>
      have hmem := hinv.mem_small hk ⟨hfast, hin⟩ (by simp)
      rw [hq] at hmem
      exact (List.mem_cons.mp hmem).resolve_left (fun heq => hne (heq ▸ rfl))
  | @victimMain _ rest it hfrom hq h hlive hfreq =>
    apply hinv.pop
    intro k it hk hfast hne
    cases hin : it.s3InMain with
    | false => exact hinv.mem_small hk ⟨hfast, hin⟩ (by simp)
    | true =>
      have hmem := hinv.mem_main hk ⟨hfast, hin⟩ (by simp)
      rw [hq] at hmem
      exact (List.mem_cons.mp hmem).resolve_left (fun heq => hne (heq ▸ rfl))

/-! ## The pickers -/

/-- Tenant quotas, if there are any, name no victim. -/
def NoQuotaVictim [DoubleArith D] (config : TierConfig D) (t : Tier) (s : State) : Prop :=
  config.quotaEnabledLocked = true → pickQuotaVictimLocked config t s = none

/-- A victim is taken out of a tier by one of the pickers; the state is the one in which
`EnforceCapacityLocked` looks the victim up. -/
inductive Picked [DoubleArith D] (config : TierConfig D) (t : Tier) (s : State) :
    BlockKey → State → Prop
  | quota {key : BlockKey} (hq : config.quotaEnabledLocked = true)
      (hpick : pickQuotaVictimLocked config t s = some key) : Picked config t s key s
  | oldest {key : BlockKey} (hslow : config.fastestTierCache ≠ some t)
      (hold : ∀ {it k it'}, s.blocks.lookup key = some it → s.blocks.lookup k = some it' →
        it'.entry.tier = t → it.entry.stats.lastAccessTs ≤ it'.entry.stats.lastAccessTs) :
      Picked config t s key s
  | popped {key : BlockKey} {s' : State} (hfast : config.fastestTierCache = some t)
      (hpop : S3Step config t s (.inr (some key, s'))) (hunder : NoQuotaVictim config t s) :
      Picked config t s key { s' with s3Victims := some key :: s.s3Victims }

/-- Rounds of the S3-FIFO scan that end with `continue`. -/
def Scans [DoubleArith D] (config : TierConfig D) (t : Tier) : State → State → Prop :=
  ReflTransGen fun s s' =>
    (config.fastestTierCache = some t ∧ NoQuotaVictim config t s) ∧ S3Step config t s (.inl s')

/-- Some block is in the tier. -/
def Occupied (t : Tier) (s : State) : Prop :=
  ∃ k it, s.blocks.lookup k = some it ∧ it.entry.tier = t

/-- A round of the scan keeps every block and its entry. -/
theorem S3Step.lookup_entry {k : BlockKey} {it : StoredBlock}
    (h : S3Step config fast s (.inl s')) (hk : s.blocks.lookup k = some it) :
    ∃ it', s'.blocks.lookup k = some it' ∧ it'.block = it.block ∧ it'.entry = it.entry := by
  have hinsert {key : BlockKey} {it₀ it' : StoredBlock} (h : s.blocks.lookup key = some it₀)
      (hblock : it'.block = it₀.block) (hentry : it'.entry = it₀.entry) :
      ∃ it₁, (s.blocks.insert key it').lookup k = some it₁ ∧ it₁.block = it.block ∧
        it₁.entry = it.entry := by
    by_cases hkey : k = key
    · subst hkey
      cases h.symm.trans hk
      exact ⟨it', AList.lookup_insert _, hblock, hentry⟩
    · exact ⟨it, (AList.lookup_insert_ne hkey).trans hk, rfl, rfl⟩
  cases h with
  | staleSmall hfrom hq hstale => exact ⟨it, hk, rfl, rfl⟩
  | promote hfrom hq h hlive hfreq => exact hinsert h rfl rfl
  | staleMain hfrom hq hstale => exact ⟨it, hk, rfl, rfl⟩
  | second hfrom hq h hlive hfreq => exact hinsert h rfl rfl

/-- What is added up over the entries is the same after a round. -/
theorem S3Step.sumOver_entry (f : TierEntry → Nat) (h : S3Step config fast s (.inl s')) :
    sumOver (fun _ it => f it.entry) s'.blocks = sumOver (fun _ it => f it.entry) s.blocks := by
  cases h with
  | staleSmall => rfl
  | staleMain => rfl
  | promote hfrom hq h hlive hfreq => exact sumOver_insert_of_eq h rfl
  | second hfrom hq h hlive hfreq => exact sumOver_insert_of_eq h rfl

theorem S3Step.bytesOf_entry {p : TierEntry → Prop} [DecidablePred p]
    (h : S3Step config fast s (.inl s')) :
    bytesOf (fun _ it => p it.entry) s'.blocks = bytesOf (fun _ it => p it.entry) s.blocks :=
  h.sumOver_entry fun entry => if p entry then entry.sizeBytes else 0

theorem S3Step.occupied {t : Tier} (h : S3Step config fast s (.inl s')) (hocc : Occupied t s) :
    Occupied t s' := by
  obtain ⟨k, it, hk, ht⟩ := hocc
  obtain ⟨it', hk', _, hentry⟩ := h.lookup_entry hk
  exact ⟨k, it', hk', hentry ▸ ht⟩

theorem S3Step.noQuotaVictim [DoubleArith D] {t : Tier} (h : S3Step config fast s (.inl s'))
    (hunder : NoQuotaVictim config t s) : NoQuotaVictim config t s' := by
  cases h <;> exact hunder

theorem S3Step.s3Victims (h : S3Step config fast s (.inl s')) : s'.s3Victims = s.s3Victims := by
  cases h <;> rfl

theorem S3Step.s3Victims_victim {v : Option BlockKey} (h : S3Step config fast s (.inr (v, s'))) :
    s'.s3Victims = s.s3Victims := by
  cases h with
  | empty => rfl
  | victimSmall => rw [ghostInsertLocked_eq]
  | victimMain => rfl

/-- The scan returns a victim where the fastest tier holds a block: the block keeps its
queue from running empty. -/
theorem pickS3VictimLocked_returns [DoubleArith D] (hfast : config.fastestTierCache = some fast)
    (hinv : RepInv config s) (hocc : Occupied fast s) (hunder : NoQuotaVictim config fast s) :
    Returns (pickS3VictimLocked config s) fun r => ∃ key s₁, r.1 = some key ∧
      Scans config fast s s₁ ∧ RepInv config s₁ ∧ Picked config fast s₁ key r.2 ∧
      ∃ it, r.2.blocks.lookup key = some it ∧ it.entry.tier = fast := by
  have hloop : Returns (iterate (s3Body config fast) .diverged (s3Measure s + 1) s) fun r =>
      ∃ key s₁ s₂, r = (some key, s₂) ∧ Scans config fast s s₁ ∧ RepInv config s₁ ∧
        NoQuotaVictim config fast s₁ ∧ s₁.s3Victims = s.s3Victims ∧
          S3Step config fast s₁ (.inr (some key, s₂)) := by
    refine iterate_returns (fun s₁ => RepInv config s₁ ∧ Occupied fast s₁ ∧
      Scans config fast s s₁ ∧ NoQuotaVictim config fast s₁ ∧ s₁.s3Victims = s.s3Victims)
      s3Measure ?_ ⟨hinv, hocc, .refl, hunder, rfl⟩ (Nat.lt_succ_self _)
    intro s₁ ⟨hinv₁, hocc₁, hscans, hunder₁, hvictims⟩
    obtain ⟨r, hr, hstep⟩ := s3Body_spec hfast s₁
    rcases r with s₂ | ⟨v, s₂⟩
    · refine .inl ⟨s₂, hr, ⟨hstep.repInv hinv₁, hstep.occupied hocc₁, ?_, ?_, ?_⟩,
        hstep.measure_lt⟩
      · exact hscans.tail ⟨⟨hfast, hunder₁⟩, hstep⟩
      · exact hstep.noQuotaVictim hunder₁
      · exact hstep.s3Victims.trans hvictims
    · refine .inr ⟨(v, s₂), hr, ?_⟩
      cases v with
      | some key => exact ⟨key, s₁, s₂, rfl, hscans, hinv₁, hunder₁, hvictims, hstep⟩
      | none =>
        cases hstep with
        | empty hsmall hmain =>
          obtain ⟨k, it, hk, ht⟩ := hocc₁
          have hmem := hinv₁.queued hk (ht ▸ hfast) (by simp)
          rw [hsmall, hmain] at hmem
          simp at hmem
  obtain ⟨r, hr, key, s₁, s₂, rfl, hscans, hinv₁, hunder₁, hvictims, hpop⟩ := hloop
  have hpicked : Picked config fast s₁ key { s₂ with s3Victims := some key :: s.s3Victims } :=
    hvictims ▸ .popped hfast hpop hunder₁
  have hresident : ∃ it, s₂.blocks.lookup key = some it ∧ it.entry.tier = fast := by
    cases hpop with
    | victimSmall hfrom hq h hlive hfreq =>
      rw [ghostInsertLocked_eq]
      exact ⟨_, h, Option.some.inj (hlive.1.symm.trans hfast)⟩
    | victimMain hfrom hq h hlive hfreq =>
      exact ⟨_, h, Option.some.inj (hlive.1.symm.trans hfast)⟩
  have hvictims₂ : s₂.s3Victims = s.s3Victims := hpop.s3Victims_victim.trans hvictims
  refine ⟨(some key, { s₂ with s3Victims := some key :: s.s3Victims }), ?_,
    key, s₁, rfl, hscans, hinv₁, hpicked, hresident⟩
  simp only [pickS3VictimLocked, hfast, hr, bind, Except.bind, pure, Except.pure, hvictims₂]

theorem pickVictimLocked_spec {t : Tier} (hslow : config.fastestTierCache ≠ some t)
    (hinv : RepInv config s) (hocc : Occupied t s) :
    ∃ key it, pickVictimLocked t s = some key ∧ s.blocks.lookup key = some it ∧
      it.entry.tier = t ∧ ∀ {k it'}, s.blocks.lookup k = some it' → it'.entry.tier = t →
        it.entry.stats.lastAccessTs ≤ it'.entry.stats.lastAccessTs := by
  have hmem {k : BlockKey} {it : StoredBlock} (hk : s.blocks.lookup k = some it)
      (ht : it.entry.tier = t) :
      toLex (it.entry.stats.lastAccessTs, k) ∈ s.victimIndex t :=
    (hinv.index t _ k).mpr ⟨it, hk, ⟨hslow, ht⟩, rfl⟩
  obtain ⟨k₀, it₀, hk₀, ht₀⟩ := hocc
  have hne : (s.victimIndex t).Nonempty := ⟨_, hmem hk₀ ht₀⟩
  obtain ⟨it, hk, ⟨_, ht⟩, hts⟩ := (hinv.index t (ofLex ((s.victimIndex t).min' hne)).1
    (ofLex ((s.victimIndex t).min' hne)).2).mp ((s.victimIndex t).min'_mem hne)
  refine ⟨_, it, by rw [pickVictimLocked, dif_pos hne], hk, ht, ?_⟩
  intro k' it' hk' ht'
  rw [hts]
  exact Prod.Lex.monotone_fst _ _ ((s.victimIndex t).min'_le _ (hmem hk' ht'))

end

section

variable {D : Type} [DoubleArith D] {config : TierConfig D} {s : State}

/-- The fold over the tenants ends with the index of one of them, or with the initial one. -/
private theorem foldl_worst_mem {α β : Type}
    {f : β × Finset VictimOrder → α × Finset VictimOrder → β × Finset VictimOrder}
    {l : List (α × Finset VictimOrder)} {w worst : β × Finset VictimOrder}
    (hf : ∀ w e, (f w e).2 = w.2 ∨ (f w e).2 = e.2) (hfold : l.foldl f w = worst) :
    worst.2 = w.2 ∨ ∃ e ∈ l, worst.2 = e.2 := by
  induction l generalizing w with
  | nil => exact .inl (hfold ▸ rfl)
  | cons e l ih =>
    rcases ih hfold with h | ⟨e', he', h⟩
    · rcases hf w e with h' | h'
      · exact .inl (h.trans h')
      · exact .inr ⟨e, List.mem_cons_self, h.trans h'⟩
    · exact .inr ⟨e', List.mem_cons_of_mem e he', h⟩

theorem pickQuotaVictimLocked_spec {t : Tier} {key : BlockKey} (hinv : RepInv config s)
    (hq : config.quotaEnabledLocked = true) (h : pickQuotaVictimLocked config t s = some key) :
    ∃ it, s.blocks.lookup key = some it ∧ it.entry.tier = t := by
  unfold pickQuotaVictimLocked at h
  dsimp only at h
  generalize hfold : List.foldl _ _ (inOrder (s.tenantVictimIndex t)) = worst at h
  split at h
  next hne =>
    cases h
    have hworst := foldl_worst_mem (fun w e => by
      split
      · exact .inl rfl
      · split <;> split <;> simp) hfold
    rcases hworst with hworst | ⟨⟨tenant, index⟩, he, hworst⟩
    · exact absurd hworst hne.ne_empty
    · have hat : tenantIndexAt s.tenantVictimIndex t tenant = worst.2 := by
        rw [tenantIndexAt, mem_inOrder.mp he, Option.getD_some, hworst]
      obtain ⟨it, hk, ⟨ht, _⟩, _⟩ := (hinv.tenantIndex hq t tenant (ofLex (worst.2.min' hne)).1
        (ofLex (worst.2.min' hne)).2).mp (by rw [hat]; exact Finset.min'_mem _ hne)
      exact ⟨it, hk, ht⟩
  next => cases h

/-- Where a tier holds a block, the choice of the victim ends with a block of the tier. -/
theorem chooseVictim_returns {t : Tier} (hinv : RepInv config s) (hocc : Occupied t s) :
    Returns (chooseVictim config t s) fun r => ∃ key s₁, r.1 = some key ∧
      Scans config t s s₁ ∧ RepInv config s₁ ∧ Picked config t s₁ key r.2 ∧
      ∃ it, r.2.blocks.lookup key = some it ∧ it.entry.tier = t := by
  unfold chooseVictim
  cases hquota : (if config.quotaEnabledLocked then pickQuotaVictimLocked config t s else none) with
  | some key =>
    have hq : config.quotaEnabledLocked = true := by
      by_contra hq
      simp [hq] at hquota
    rw [if_pos hq] at hquota
    exact returns_ok ⟨key, s, rfl, .refl, hinv, .quota hq hquota,
      pickQuotaVictimLocked_spec hinv hq hquota⟩
  | none =>
    by_cases hfast : config.fastestTierCache = some t
    · simp only [hfast, if_true]
      exact pickS3VictimLocked_returns hfast hinv hocc fun hq => (if_pos hq).symm.trans hquota
    · simp only [hfast, if_false]
      obtain ⟨key, it, hpick, hk, ht, hold⟩ := pickVictimLocked_spec hfast hinv hocc
      rw [hpick]
      refine returns_ok ⟨key, s, rfl, .refl, hinv, .oldest hfast ?_, it, hk, ht⟩
      intro it₀ k it' hk₀ hk' ht'
      cases hk.symm.trans hk₀
      exact hold hk' ht'

end

end TieredKVCache.Storage
