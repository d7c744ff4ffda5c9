import Mathlib.Data.Finset.Max
import TieredKVCache.Bench.Exclusive
import TieredKVCache.Bench.Framework
import TieredKVCache.Lib.Transition

/-!
# The log of a replay

What holds of the accesses of a replay, in their order. Each replay has a rule of induction over its
log (`runAccesses_invariant` for one pool, `tieredSteps_invariant` for two tiers). Whatever the
policies are, the log follows the trace and an id hits only where it has been accessed before, so
that every id of the trace costs a miss (`replay_cold`, `tieredReplay_cold`).
-/

namespace TieredKVCache.Bench

open Lib CachePolicy LawfulPolicy

variable {α D : Type}

/-! ## Logs -/

/-- The ids that are accessed, in order. -/
def idsOf (events : List (AccessEvent α)) : List α := events.map (·.hashId)

@[simp]
theorem idsOf_nil : idsOf ([] : List (AccessEvent α)) = [] := rfl

@[simp]
theorem idsOf_append (events events' : List (AccessEvent α)) :
    idsOf (events ++ events') = idsOf events ++ idsOf events' := List.map_append

@[simp]
theorem idsOf_cons (event : AccessEvent α) (events : List (AccessEvent α)) :
    idsOf (event :: events) = event.hashId :: idsOf events := rfl

/-- The hits of a log are those of which `P` holds, given the ids that have been accessed before. -/
def HitsWhere (P : List α → α → Prop) (events : List (AccessEvent α)) : Prop :=
  AtEvery (fun before event => event.hit = true ↔ P (idsOf before) event.hashId) events

/-- Only ids that have been accessed before hit. -/
def Warm (events : List (AccessEvent α)) : Prop :=
  AtEvery (fun before event => event.hit = true → event.hashId ∈ idsOf before) events

/-- The ids and the rule for the hits determine a log. -/
theorem HitsWhere.unique {P : List α → α → Prop} {events events' : List (AccessEvent α)}
    (h : HitsWhere P events) (h' : HitsWhere P events') (hids : idsOf events = idsOf events') :
    events = events' := by
  induction events using List.reverseRecOn generalizing events' with
  | nil => exact (List.map_eq_nil_iff.mp hids.symm).symm
  | append_singleton events event ih =>
    rcases List.eq_nil_or_concat events' with rfl | ⟨init, last, rfl⟩
    · simp [idsOf] at hids
    · rw [List.concat_eq_append] at h' hids ⊢
      rw [idsOf_append, idsOf_append] at hids
      obtain ⟨hinit, hlast⟩ := List.append_inj' hids rfl
      obtain ⟨hbefore, hevent⟩ := atEvery_snoc.mp h
      obtain ⟨hbefore', hevent'⟩ := atEvery_snoc.mp h'
      have hsame := ih hbefore hbefore' hinit
      subst hsame
      have hid : event.hashId = last.hashId := List.singleton_inj.mp hlast
      have hhit : event.hit = last.hit := by
        rw [Bool.eq_iff_iff, hevent, hevent', hid]
      obtain ⟨hashId, hit⟩ := event
      obtain ⟨hashId', hit'⟩ := last
      cases hid
      cases hhit
      rfl

section

variable [DecidableEq α]

/-- The hits of a log, and its ids that have a hit. -/
def hitsOf (events : List (AccessEvent α)) : Nat := events.countP (·.hit)

def distinctIds (events : List (AccessEvent α)) : Finset α := (idsOf events).toFinset

def reusedIds (events : List (AccessEvent α)) : Finset α := (idsOf (events.filter (·.hit))).toFinset

/-- The ids that occur more than once. -/
def repeatedIds (events : List (AccessEvent α)) : Finset α :=
  (distinctIds events).filter fun k => 2 ≤ (idsOf events).count k

theorem distinctIds_snoc (events : List (AccessEvent α)) (event : AccessEvent α) :
    distinctIds (events ++ [event]) = insert event.hashId (distinctIds events) := by
  ext k
  simp [distinctIds]

/-- The first access to each id misses. -/
theorem Warm.hits_add_distinct_le {events : List (AccessEvent α)} (h : Warm events) :
    hitsOf events + (distinctIds events).card ≤ events.length := by
  induction events using List.reverseRecOn with
  | nil => exact Nat.le_refl _
  | append_singleton events event ih =>
    obtain ⟨hbefore, hevent⟩ := atEvery_snoc.mp h
    have hrest := ih hbefore
    rw [hitsOf, List.countP_append, distinctIds_snoc, List.length_append, List.length_singleton,
      List.countP_singleton]
    rw [hitsOf] at hrest
    split
    next hhit =>
      have hseen : event.hashId ∈ distinctIds events := List.mem_toFinset.mpr (hevent hhit)
      rw [Finset.insert_eq_of_mem hseen]
      omega
    next =>
      have hcard := Finset.card_insert_le event.hashId (distinctIds events)
      omega

/-- An id that has a hit occurs more than once. -/
theorem Warm.reused_subset {events : List (AccessEvent α)} (h : Warm events) :
    reusedIds events ⊆ repeatedIds events := by
  intro k hk
  obtain ⟨event, hevent, rfl⟩ := List.mem_map.mp (List.mem_toFinset.mp hk)
  obtain ⟨hmem, hhit⟩ := List.mem_filter.mp hevent
  obtain ⟨before, after, hsplit⟩ := List.append_of_mem hmem
  have hseen := List.count_pos_iff.mpr (h hsplit hhit)
  refine Finset.mem_filter.mpr ⟨List.mem_toFinset.mpr (List.mem_map_of_mem hmem), ?_⟩
  rw [hsplit, idsOf_append, idsOf_cons, List.count_append, List.count_cons_self]
  omega

/-- A log in which every id that has been accessed before hits has the most hits. -/
theorem HitsWhere.hits_add_distinct {events : List (AccessEvent α)}
    (h : HitsWhere (fun before k => k ∈ before) events) :
    hitsOf events + (distinctIds events).card = events.length := by
  induction events using List.reverseRecOn with
  | nil => rfl
  | append_singleton events event ih =>
    obtain ⟨hbefore, hevent⟩ := atEvery_snoc.mp h
    have hrest := ih hbefore
    rw [hitsOf, List.countP_append, distinctIds_snoc, List.length_append, List.length_singleton,
      List.countP_singleton]
    rw [hitsOf] at hrest
    split
    next hhit =>
      have hseen : event.hashId ∈ distinctIds events := List.mem_toFinset.mpr (hevent.mp hhit)
      rw [Finset.insert_eq_of_mem hseen]
      omega
    next hmiss =>
      have hnew : event.hashId ∉ distinctIds events := fun hmem =>
        hmiss (hevent.mpr (List.mem_toFinset.mp hmem))
      rw [Finset.card_insert_of_notMem hnew]
      omega

end

/-! ## One pool -/

section

variable {P : Type} [CachePolicy P α]

/-- The accesses of a plan, each with the index of its block in the record. -/
def accesses (plan : List (ReplayStep α)) : List (α × Nat) :=
  plan.flatMap fun step => step.record.hashIds.zipIdx

/-- Accesses one after the other. -/
def runAccesses : List (α × Nat) → P → List (AccessEvent α) × P
  | [], policy => ([], policy)
  | (hashId, blockIndex) :: rest, policy =>
    let (hit, _evicted, policy) := access hashId blockIndex policy
    let (events, policy) := runAccesses rest policy
    (⟨hashId, hit⟩ :: events, policy)

theorem runAccesses_append (accs accs' : List (α × Nat)) (p : P) :
    runAccesses (accs ++ accs') p = ((runAccesses accs p).1 ++
      (runAccesses accs' (runAccesses accs p).2).1,
      (runAccesses accs' (runAccesses accs p).2).2) := by
  induction accs generalizing p with
  | nil => rfl
  | cons acc accs ih => simp [runAccesses, ih]

theorem accessRecord_eq (blockIndex : Nat) (hashIds : List α) (p : P) :
    accessRecord blockIndex hashIds p = runAccesses (hashIds.zipIdx blockIndex) p := by
  induction hashIds generalizing blockIndex p with
  | nil => rfl
  | cons k hashIds ih => simp [accessRecord, runAccesses, ih]

theorem replaySteps_cons [DoubleArith D] (step : ReplayStep α) (plan : List (ReplayStep α))
    (p : P) : replaySteps (D := D) (step :: plan) p =
      stepResult step.record (accessRecord 0 step.record.hashIds p).1
        (DoubleArith.ofSize (max ((accessRecord 0 step.record.hashIds p).1.countP (!·.hit)) 1) *
          DoubleArith.ofSize 4) ::
        replaySteps plan (accessRecord 0 step.record.hashIds p).2 := rfl

/-- The log of a replay is that of its accesses. -/
theorem events_replaySteps [DoubleArith D] (plan : List (ReplayStep α)) (p : P) :
    (replaySteps (D := D) plan p).flatMap (·.events) = (runAccesses (accesses plan) p).1 := by
  induction plan generalizing p with
  | nil => rfl
  | cons step plan ih =>
    have hplan : accesses (step :: plan) = step.record.hashIds.zipIdx ++ accesses plan := rfl
    rw [replaySteps_cons, List.flatMap_cons, hplan, runAccesses_append, accessRecord_eq, ih]
    rfl

theorem idsOf_runAccesses (accs : List (α × Nat)) (p : P) :
    idsOf (runAccesses accs p).1 = accs.map Prod.fst := by
  induction accs generalizing p with
  | nil => rfl
  | cons acc accs ih => exact congrArg (acc.1 :: ·) (ih _)

theorem map_fst_accesses (plan : List (ReplayStep α)) :
    (accesses plan).map Prod.fst = plan.flatMap (·.record.hashIds) := by
  rw [accesses, List.map_flatMap]
  exact congrArg (plan.flatMap ·) (funext fun step => List.zipIdx_map_fst 0 step.record.hashIds)

/-- What every access preserves, given the log before it, holds after all accesses. -/
theorem runAccesses_invariant {I : List (AccessEvent α) → P → Prop}
    (hstep : ∀ {past p} (k : α) (blockIndex : Nat), I past p →
      I (past ++ [⟨k, (access k blockIndex p).1⟩]) (access k blockIndex p).2.2)
    (accs : List (α × Nat)) {p : P} (h : I [] p) :
    I (runAccesses accs p).1 (runAccesses accs p).2 := by
  suffices hall : ∀ past p, I past p →
      I (past ++ (runAccesses accs p).1) (runAccesses accs p).2 from hall [] p h
  clear h p
  intro past p h
  induction accs generalizing past p with
  | nil => rwa [runAccesses, List.append_nil]
  | cons acc accs ih =>
    obtain ⟨k, blockIndex⟩ := acc
    have hrest := ih _ _ (hstep k blockIndex h)
    rw [List.append_assoc, List.singleton_append] at hrest
    exact hrest

variable [DecidableEq α] [LawfulPolicy P] {capacity : Nat} {p : P}

/-- An access hits if and only if the key is resident, and lets no other key in. -/
theorem access_spec (k : α) (blockIndex : Int) (h : Valid capacity p) :
    ((access k blockIndex p).1 = true ↔ k ∈ residents p) ∧
      Valid capacity (access k blockIndex p).2.2 ∧
      ∀ x ∈ residents (access k blockIndex p).2.2, x = k ∨ x ∈ residents p := by
  cases hin : contains k p with
  | true =>
    obtain ⟨p', hrun, hvalid, hperm⟩ := access_hit blockIndex h hin
    rw [hrun]
    exact ⟨iff_of_true rfl (contains_iff.mp hin), hvalid, fun x hx => .inr (hperm.subset hx)⟩
  | false =>
    have hout := contains_eq_false.mp hin
    cases hskip : bypasses k blockIndex p with
    | true =>
      rw [access_bypassed hin hskip]
      exact ⟨iff_of_false Bool.false_ne_true hout, h, fun x hx => .inr hx⟩
    | false =>
      obtain ⟨es, p', hrun, hvalid, hadmission⟩ := access_admits h hin hskip
      rw [hrun]
      exact ⟨iff_of_false Bool.false_ne_true hout, hvalid, fun x hx => hadmission.mem_of_mem hx⟩

/-- Only keys that have been accessed are resident. -/
theorem Fresh.warm (h : Fresh capacity p) (accs : List (α × Nat)) :
    Warm (runAccesses accs p).1 := by
  have hinv := runAccesses_invariant
    (I := fun past p => (Valid capacity p ∧ ∀ x ∈ residents p, x ∈ idsOf past) ∧ Warm past)
    (fun {past p} k blockIndex ⟨⟨hvalid, hseen⟩, hwarm⟩ => by
      obtain ⟨hhit, hvalid', hmem⟩ := access_spec k (blockIndex : Int) hvalid
      refine ⟨⟨hvalid', fun x hx => ?_⟩, hwarm.snoc fun hevent => hseen k (hhit.mp hevent)⟩
      rw [idsOf_append]
      rcases hmem x hx with rfl | hx
      · exact List.mem_append_right _ List.mem_cons_self
      · exact List.mem_append_left _ (hseen x hx))
    accs ⟨⟨h.1, fun x hx => by simp [h.2] at hx⟩, atEvery_nil _⟩
  exact hinv.2

end

/-! ## Two tiers -/

namespace TieredSimulator

variable [DecidableEq α]

/-- The log of the accesses of a request. -/
def loggedBlocks (prev : Option α) (hashIds : List α) (sim : TieredSimulator α D) :
    List (AccessEvent α) :=
  hashIds.zipWith AccessEvent.mk ((accessBlocks prev hashIds sim).1.map (· ≠ .miss))

variable {I : List (AccessEvent α) → TieredSimulator α D → Prop} {ids : List α}

theorem accessBlocks_invariant
    (haccess : ∀ {past sim} (prev : Option α), ∀ k ∈ ids, I past sim →
      I (past ++ [⟨k, (sim.accessBlock k).1 ≠ .miss⟩]) ((sim.accessBlock k).2.link prev k))
    (prev : Option α) (hashIds : List α) (hids : ∀ k ∈ hashIds, k ∈ ids)
    {past : List (AccessEvent α)} {sim : TieredSimulator α D} (h : I past sim) :
    I (past ++ loggedBlocks prev hashIds sim) (accessBlocks prev hashIds sim).2 := by
  induction hashIds generalizing prev past sim with
  | nil => rwa [loggedBlocks, List.zipWith_nil_left, List.append_nil]
  | cons k hashIds ih =>
    obtain ⟨hk, hrest⟩ := List.forall_mem_cons.mp hids
    have hnext := ih (some k) hrest (haccess prev k hk h)
    rw [List.append_assoc, List.singleton_append] at hnext
    exact hnext

/-- What prefetching and every access preserve, given the log before them, holds after a replay. -/
theorem tieredSteps_invariant [DoubleArith D]
    (hprefetch : ∀ {past sim} (hashIds : List α), I past sim →
      I past (sim.prefetchForRequest hashIds).2)
    (haccess : ∀ {past sim} (prev : Option α), ∀ k ∈ ids, I past sim →
      I (past ++ [⟨k, (sim.accessBlock k).1 ≠ .miss⟩]) ((sim.accessBlock k).2.link prev k))
    (plan : List (ReplayStep α)) (hids : plan.flatMap (·.record.hashIds) ⊆ ids)
    {sim : TieredSimulator α D} (h : I [] sim) :
    ∃ sim', I ((tieredSteps plan sim).flatMap (·.events)) sim' := by
  suffices hall : ∀ past sim, I past sim →
      ∃ sim', I (past ++ (tieredSteps plan sim).flatMap (·.events)) sim' from hall [] sim h
  clear h sim
  intro past sim h
  induction plan generalizing past sim with
  | nil => exact ⟨sim, by rwa [tieredSteps, List.flatMap_nil, List.append_nil]⟩
  | cons step plan ih =>
    obtain ⟨hstep, hplan⟩ := List.append_subset.mp hids
    have hrequest := accessBlocks_invariant haccess none step.record.hashIds hstep
      (hprefetch step.record.hashIds h)
    obtain ⟨sim', hrest⟩ := ih hplan _ _ hrequest
    rw [List.append_assoc] at hrest
    exact ⟨sim', hrest⟩

theorem idsOf_loggedBlocks (prev : Option α) (hashIds : List α) (sim : TieredSimulator α D) :
    idsOf (loggedBlocks prev hashIds sim) = hashIds := by
  induction hashIds generalizing prev sim with
  | nil => rfl
  | cons k hashIds ih => exact congrArg (k :: ·) (ih _ _)

theorem idsOf_tieredSteps [DoubleArith D] (plan : List (ReplayStep α))
    (sim : TieredSimulator α D) :
    idsOf ((tieredSteps plan sim).flatMap (·.events)) = plan.flatMap (·.record.hashIds) := by
  induction plan generalizing sim with
  | nil => rfl
  | cons step plan ih =>
    rw [tieredSteps, List.flatMap_cons, idsOf_append, ih, List.flatMap_cons]
    exact congrArg (· ++ _) (idsOf_loggedBlocks none step.record.hashIds _)

variable {fastBlocks slowBlocks : Nat} {sim : TieredSimulator α D}

/-- An access hits if and only if the key is in a tier. -/
theorem accessBlock_ne_miss {k : α} : (sim.accessBlock k).1 ≠ .miss ↔ k ∈ sim.residents := by
  rw [residents, List.mem_append, ← contains_iff (p := sim.fast), ← contains_iff (p := sim.slow)]
  unfold accessBlock
  split
  next hfast => exact iff_of_true (by simp) (.inl hfast)
  next hfast =>
    split
    next hslow => exact iff_of_true (by simp) (.inr hslow)
    next hslow => exact iff_of_false (by simp) (by simp [hfast, hslow])

/-- An access brings in its key, unless it is there, and no other; where it loses a key, the slow
tier was full and the key is new. -/
theorem accessBlock_residents (k : α) (h : sim.Exclusive fastBlocks slowBlocks) :
    (∀ x ∈ (sim.accessBlock k).2.residents, x = k ∨ x ∈ sim.residents) ∧
      (k ∉ sim.residents ∧ sim.SlowFull slowBlocks ∨
        ∀ x, x ∈ (sim.accessBlock k).2.residents ↔ x = k ∨ x ∈ sim.residents) := by
  have hspec := (accessBlock_spec k h).2
  by_cases hk : k ∈ sim.residents
  · have hperm : (sim.accessBlock k).2.residents.Perm sim.residents := by
      split at hspec
      next => exact hspec
      next => exact hspec
      next => exact absurd hk hspec.1
    have hsame : ∀ x, x ∈ (sim.accessBlock k).2.residents ↔ x = k ∨ x ∈ sim.residents := by
      intro x
      rw [hperm.mem_iff]
      exact (or_iff_right_of_imp fun heq => heq ▸ hk).symm
    exact ⟨fun x hx => (hsame x).mp hx, .inr hsame⟩
  · rw [not_ne_iff.mp (mt accessBlock_ne_miss.mp hk)] at hspec
    cases hspec.2 with
    | kept hperm =>
      have hsame : ∀ x, x ∈ (sim.accessBlock k).2.residents ↔ x = k ∨ x ∈ sim.residents :=
        fun x => hperm.mem_iff.trans List.mem_cons
      exact ⟨fun x hx => (hsame x).mp hx, .inr hsame⟩
    | lost hfull hvictim hperm =>
      exact ⟨fun x hx => List.mem_cons.mp (hperm.subset (List.mem_cons_of_mem _ hx)),
        .inl ⟨hk, hfull⟩⟩

theorem residents_link (prev : Option α) (k : α) (sim : TieredSimulator α D) :
    (sim.link prev k).residents = sim.residents := by
  cases prev <;> rfl

theorem Exclusive.warm [DoubleArith D] (h : sim.Exclusive fastBlocks slowBlocks)
    (hempty : sim.residents = []) (plan : List (ReplayStep α)) :
    Warm ((tieredSteps plan sim).flatMap (·.events)) := by
  obtain ⟨_, hinv⟩ := tieredSteps_invariant
    (I := fun past sim => (sim.Exclusive fastBlocks slowBlocks ∧
      ∀ x ∈ sim.residents, x ∈ idsOf past) ∧ Warm past)
    (fun hashIds ⟨⟨hexclusive, hseen⟩, hwarm⟩ => by
      obtain ⟨hafter, hperm⟩ := prefetchForRequest_spec hashIds hexclusive
      exact ⟨⟨hafter, fun x hx => hseen x (hperm.subset hx)⟩, hwarm⟩)
    (fun {past sim} prev k _ ⟨⟨hexclusive, hseen⟩, hwarm⟩ => by
      have hafter := link_spec prev k (accessBlock_spec k hexclusive).1
      refine ⟨⟨hafter, fun x hx => ?_⟩, hwarm.snoc fun hhit =>
        hseen k (accessBlock_ne_miss.mp (of_decide_eq_true hhit))⟩
      rw [residents_link] at hx
      rw [idsOf_append]
      rcases (accessBlock_residents k hexclusive).1 x hx with rfl | hx
      · exact List.mem_append_right _ List.mem_cons_self
      · exact List.mem_append_left _ (hseen x hx))
    plan (List.Subset.refl _)
    ⟨⟨h, fun x hx => by simp [hempty] at hx⟩, atEvery_nil _⟩
  exact hinv.2

/-- While the slow tier has room for every id of the trace, no key is lost. -/
theorem Exclusive.hitsWhere [DoubleArith D] (h : sim.Exclusive fastBlocks slowBlocks)
    (hempty : sim.residents = []) (plan : List (ReplayStep α))
    (hroom : (plan.flatMap (·.record.hashIds)).toFinset.card ≤ slowBlocks) :
    HitsWhere (fun before k => k ∈ before) ((tieredSteps plan sim).flatMap (·.events)) := by
  obtain ⟨_, hinv⟩ := tieredSteps_invariant
    (I := fun past sim => (sim.Exclusive fastBlocks slowBlocks ∧
      (∀ x, x ∈ sim.residents ↔ x ∈ idsOf past) ∧ idsOf past ⊆ plan.flatMap (·.record.hashIds)) ∧
        HitsWhere (fun before k => k ∈ before) past)
    (fun hashIds ⟨⟨hexclusive, hseen, hids⟩, hhits⟩ => by
      obtain ⟨hafter, hperm⟩ := prefetchForRequest_spec hashIds hexclusive
      exact ⟨⟨hafter, fun x => hperm.mem_iff.trans (hseen x), hids⟩, hhits⟩)
    (fun {past sim} prev k hk ⟨⟨hexclusive, hseen, hids⟩, hhits⟩ => by
      have hafter := link_spec prev k (accessBlock_spec k hexclusive).1
      have hkept : ∀ x, x ∈ (sim.accessBlock k).2.residents ↔ x = k ∨ x ∈ sim.residents := by
        rcases (accessBlock_residents k hexclusive).2 with ⟨hnew, hfull⟩ | hkept
        · -- a full slow tier and the new key would be more ids than the trace has
          exfalso
          have hnodup : (k :: CachePolicy.residents sim.slow).Nodup := List.nodup_cons.mpr
            ⟨fun hmem => hnew (List.mem_append_right _ hmem), LawfulPolicy.nodup hexclusive.slow⟩
          have hsubset : (k :: CachePolicy.residents sim.slow).toFinset ⊆
              (plan.flatMap (·.record.hashIds)).toFinset := by
            intro x hx
            rw [List.mem_toFinset] at hx ⊢
            rcases List.mem_cons.mp hx with rfl | hx
            · exact hk
            · exact hids ((hseen x).mp (List.mem_append_right _ hx))
          have hcard := Finset.card_le_card hsubset
          rw [List.toFinset_card_of_nodup hnodup, List.length_cons] at hcard
          have hlength : (CachePolicy.residents sim.slow).length = slowBlocks := hfull
          omega
        · exact hkept
      refine ⟨⟨hafter, fun x => ?_, ?_⟩, hhits.snoc ?_⟩
      · rw [residents_link, hkept, hseen, idsOf_append, List.mem_append, idsOf_cons, idsOf_nil,
          List.mem_singleton, or_comm]
      · rw [idsOf_append]
        exact List.append_subset.mpr ⟨hids, List.cons_subset.mpr ⟨hk, List.nil_subset _⟩⟩
      · exact decide_eq_true_iff.trans (accessBlock_ne_miss.trans (hseen k)))
    plan (List.Subset.refl _)
    ⟨⟨h, fun x => by simp [hempty], List.nil_subset _⟩, atEvery_nil _⟩
  exact hinv.2

/-- A simulation starts without keys. -/
theorem new_empty {name : String} {prefetchDepth : Int} {costs : TieredCosts D}
    (hname : name ∈ (POLICIES α).map Prod.fst) (hfast : 1 ≤ fastBlocks) (hslow : 1 ≤ slowBlocks) :
    Returns (new fastBlocks slowBlocks name prefetchDepth costs "lru" :
      Except String (TieredSimulator α D)) fun sim =>
        sim.Exclusive fastBlocks slowBlocks ∧ sim.residents = [] := by
  refine (makePolicy_fresh hname hfast).bind fun fast ⟨hfastValid, hfastEmpty⟩ => ?_
  refine (makePolicy_lru hslow).bind fun slow ⟨⟨hslowValid, hslowEmpty⟩, hlru⟩ => ?_
  have hempty : residents ⟨fast, slow, ∅, prefetchDepth, costs⟩ = [] := by
    rw [residents, hfastEmpty, hslowEmpty]
    rfl
  exact returns_ok ⟨⟨hfastValid, hslowValid, hlru, hempty ▸ List.nodup_nil⟩, hempty⟩

end TieredSimulator

/-! ## Whole replays -/

section

variable [DecidableEq α] [DoubleArith D] {name : String} {plan : List (ReplayStep α)}

/-- The log follows the trace, an id hits only where it has been accessed before, and the rates keep
to what this leaves. -/
structure Cold (plan : List (ReplayStep α)) (log : AccessLog α) : Prop where
  order : idsOf log.events = plan.flatMap (·.record.hashIds)
  warm : Warm log.events
  hits_le : hitsOf log.events + (distinctIds log.events).card ≤ log.events.length
  hitRate : log.events ≠ [] →
    (rates log : ℚ × ℚ).1 ≤ 1 - (distinctIds log.events).card / log.events.length
  reuseRate : log.events ≠ [] →
    (rates log : ℚ × ℚ).2 ≤ (repeatedIds log.events).card / (distinctIds log.events).card

theorem rates_of_ne {log : AccessLog α} (h : log.events ≠ []) : (rates log : ℚ × ℚ) =
    ((hitsOf log.events : ℚ) / log.events.length,
      ((reusedIds log.events).card : ℚ) / (distinctIds log.events).card) := by
  rw [rates, if_neg (by simpa using h)]
  rfl

theorem Warm.cold {log : AccessLog α} (h : Warm log.events)
    (hids : idsOf log.events = plan.flatMap (·.record.hashIds)) : Cold plan log where
  order := hids
  warm := h
  hits_le := h.hits_add_distinct_le
  hitRate hne := by
    have hpos : (0 : ℚ) < log.events.length := Nat.cast_pos.mpr (List.length_pos_iff.mpr hne)
    have hle : (hitsOf log.events : ℚ) + (distinctIds log.events).card ≤ log.events.length := by
      exact_mod_cast h.hits_add_distinct_le
    rw [rates_of_ne hne, le_sub_iff_add_le, ← add_div, div_le_one hpos]
    exact hle
  reuseRate hne := by
    rw [rates_of_ne hne]
    exact div_le_div_of_nonneg_right (Nat.cast_le.mpr (Finset.card_le_card h.reused_subset))
      (Nat.cast_nonneg _)

theorem simulateReplay_returns {pool : Nat} {Q : ReplayResult α D → Prop}
    (hname : name ∈ (POLICIES α).map Prod.fst) (hpool : 1 ≤ pool)
    (h : ∀ p : Policy α, Fresh pool p → Q (summarize (replaySteps plan p))) :
    Returns (simulateReplay plan pool name) Q :=
  (makePolicy_fresh hname hpool).bind fun p hp => returns_ok (h p hp)

theorem simulateTieredReplay_returns {fastBlocks slowBlocks : Nat} {prefetch : Bool}
    {Q : ReplayResult α D → Prop} (hname : name ∈ (POLICIES α).map Prod.fst)
    (hfast : 1 ≤ fastBlocks) (hslow : 1 ≤ slowBlocks)
    (h : ∀ sim : TieredSimulator α D, sim.Exclusive fastBlocks slowBlocks → sim.residents = [] →
      Q (summarize (tieredSteps plan sim))) :
    Returns (simulateTieredReplay plan fastBlocks slowBlocks name prefetch) Q :=
  (TieredSimulator.new_empty hname hfast hslow).bind fun sim hsim =>
    returns_ok (h sim hsim.1 hsim.2)

/-- **Cold misses.** In a replay with any policies, on one pool or on two tiers, with or without
prefetching, the first access to every id misses. -/
theorem replays_cold (α D : Type) [DecidableEq α] [DoubleArith D] (name : String)
    (plan : List (ReplayStep α)) (pool fastBlocks slowBlocks : Nat) (prefetch : Bool)
    (hname : name ∈ (POLICIES α).map Prod.fst) (hpool : 1 ≤ pool) (hfast : 1 ≤ fastBlocks)
    (hslow : 1 ≤ slowBlocks) :
    (Returns (simulateReplay plan pool name : Except String (ReplayResult α D)) fun r =>
        Cold plan r.accessLog) ∧
      Returns (simulateTieredReplay plan fastBlocks slowBlocks name prefetch :
        Except String (ReplayResult α D)) fun r => Cold plan r.accessLog := by
  constructor
  · refine simulateReplay_returns hname hpool fun p hp => Warm.cold ?_ ?_
    · show Warm ((replaySteps plan p).flatMap (·.events))
      rw [events_replaySteps]
      exact hp.warm _
    · show idsOf ((replaySteps plan p).flatMap (·.events)) = _
      rw [events_replaySteps, idsOf_runAccesses, map_fst_accesses]
  · exact simulateTieredReplay_returns hname hfast hslow fun sim hsim hempty =>
      (hsim.warm hempty plan).cold (TieredSimulator.idsOf_tieredSteps plan sim)

/-- **A slow tier for the whole trace.** Where the slow tier has room for the ids of the trace, every
access but the first to an id hits, whatever the policy of the fast tier is. -/
theorem tieredReplay_lossless (α D : Type) [DecidableEq α] [DoubleArith D] (name : String)
    (plan : List (ReplayStep α)) (fastBlocks slowBlocks : Nat) (prefetch : Bool)
    (hname : name ∈ (POLICIES α).map Prod.fst) (hfast : 1 ≤ fastBlocks) (hslow : 1 ≤ slowBlocks)
    (hroom : (plan.flatMap (·.record.hashIds)).toFinset.card ≤ slowBlocks) :
    Returns (simulateTieredReplay plan fastBlocks slowBlocks name prefetch :
      Except String (ReplayResult α D)) fun r =>
        HitsWhere (fun before k => k ∈ before) r.accessLog.events ∧
          hitsOf r.accessLog.events + (distinctIds r.accessLog.events).card =
            r.accessLog.events.length :=
  simulateTieredReplay_returns hname hfast hslow fun _ hsim hempty =>
    have hhits := hsim.hitsWhere hempty plan hroom
    ⟨hhits, hhits.hits_add_distinct⟩

end

/-- Two requests that share a block. -/
def twoRequests : List (ReplayStep Nat) :=
  buildReplayPlan [⟨0, 1024, 8, [1, 2]⟩, ⟨5, 1536, 0, [1, 2, 3]⟩]

theorem replays_cold_twoRequests :
    (Returns (simulateReplay twoRequests 2 "sieve" : Except String (ReplayResult Nat ℚ)) fun r =>
        Cold twoRequests r.accessLog) ∧
      Returns (simulateTieredReplay twoRequests 1 3 "sieve" true :
        Except String (ReplayResult Nat ℚ)) fun r => Cold twoRequests r.accessLog :=
  replays_cold Nat ℚ "sieve" twoRequests 2 1 3 true (by decide) (by decide) (by decide) (by decide)

theorem tieredReplay_lossless_twoRequests :
    Returns (simulateTieredReplay twoRequests 1 3 "sieve" true :
      Except String (ReplayResult Nat ℚ)) fun r =>
        HitsWhere (fun before k => k ∈ before) r.accessLog.events ∧
          hitsOf r.accessLog.events + (distinctIds r.accessLog.events).card =
            r.accessLog.events.length :=
  tieredReplay_lossless Nat ℚ "sieve" twoRequests 1 3 true (by decide) (by decide) (by decide)
    (by decide)

end TieredKVCache.Bench
