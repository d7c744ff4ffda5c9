import TieredKVCache.Bench.Tiered
import Mathlib.Data.Finset.Dedup
import Mathlib.Data.Finset.Erase

/-!
# Exclusive tiers

The tiers of a simulation with an LRU policy in the slow tier share no key, and no key is lost
silently: an access or a promotion changes the keys in the two tiers by the key it lets in and, on a
miss with a full slow tier, by one key that leaves. What the fast tier evicts, at most one key an
admission, finds room in the slow tier that the key just promoted has left.
-/

namespace TieredKVCache.Bench

open Lib CachePolicy LawfulPolicy

variable {α D : Type} [DecidableEq α]

namespace TieredSimulator

/-- The keys of the two tiers. -/
def residents (sim : TieredSimulator α D) : List α :=
  CachePolicy.residents sim.fast ++ CachePolicy.residents sim.slow

/-- Both tiers keep within their capacities, the slow one is LRU, and no key is resident twice. -/
structure Exclusive (fastBlocks slowBlocks : Nat) (sim : TieredSimulator α D) : Prop where
  fast : Valid fastBlocks sim.fast
  slow : Valid slowBlocks sim.slow
  lru : ∃ q : LRUPolicy α, sim.slow = .inl q
  nodup : sim.residents.Nodup

/-- `k` joins `before`; one other key leaves, if `full`. -/
inductive Joined (full : Prop) (k : α) (before after : List α) : Prop
  | kept (h : after.Perm (k :: before))
  | lost {victim : α} (hfull : full) (hvictim : victim ∈ before)
      (h : (victim :: after).Perm (k :: before))

omit [DecidableEq α] in
theorem Joined.nodup {full : Prop} {k : α} {before after : List α}
    (h : Joined full k before after) (hbefore : (k :: before).Nodup) : after.Nodup := by
  cases h with
  | kept hperm => exact hperm.nodup_iff.mpr hbefore
  | lost _ _ hperm => exact (List.nodup_cons.mp (hperm.nodup_iff.mpr hbefore)).2

end TieredSimulator

open TieredSimulator

/-- The slow tier lets a key go only for another key, and only when it is full. -/
theorem joined_admitKey {slowBlocks : Nat} {slow : Policy α} {k : α}
    (hlru : ∃ q : LRUPolicy α, slow = .inl q) (h : Valid slowBlocks slow)
    (hk : k ∉ residents slow) :
    Joined ((residents slow).length = slowBlocks) k (residents slow)
      (residents (admitKey k slow).2) := by
  obtain ⟨q, rfl⟩ := hlru
  obtain ⟨rfl, hlength⟩ : q.Valid slowBlocks := h
  rcases q.admitKey_cases (k := k) hlength with
    ⟨hin, -⟩ | ⟨-, -, -, hstore⟩ | ⟨-, hfull, victim, rest, hlist, -, hstore⟩
  · exact absurd hin hk
  · refine .kept ?_
    show (q.admitKey k).2.store.toList.Perm (k :: q.store.toList)
    rw [hstore]
    exact List.perm_append_singleton _ _
  · have hvictim : victim ∈ CachePolicy.residents (.inl q : Policy α) := by
      show victim ∈ q.store.toList
      rw [hlist]
      exact List.mem_cons_self
    refine .lost hfull hvictim ?_
    show (victim :: (q.admitKey k).2.store.toList).Perm (k :: q.store.toList)
    rw [hstore, hlist]
    exact List.perm_append_singleton k (victim :: rest)

theorem lru_admitKey {slow : Policy α} (k : α) (hlru : ∃ q : LRUPolicy α, slow = .inl q) :
    ∃ q : LRUPolicy α, (admitKey k slow).2 = .inl q := by
  obtain ⟨q, rfl⟩ := hlru
  exact ⟨_, rfl⟩

theorem lru_remove {slow : Policy α} (k : α) (hlru : ∃ q : LRUPolicy α, slow = .inl q) :
    ∃ q : LRUPolicy α, (remove k slow).2 = .inl q := by
  obtain ⟨q, rfl⟩ := hlru
  exact ⟨_, rfl⟩

namespace TieredSimulator

variable {fastBlocks slowBlocks : Nat} {sim : TieredSimulator α D} {k : α}

/-- The slow tier is full. -/
def SlowFull (slowBlocks : Nat) (sim : TieredSimulator α D) : Prop :=
  (CachePolicy.residents sim.slow).length = slowBlocks

theorem admitFast_spec (h : sim.Exclusive fastBlocks slowBlocks) (hk : k ∉ sim.residents) :
    (sim.admitFast k).Exclusive fastBlocks slowBlocks ∧
      Joined (sim.SlowFull slowBlocks) k sim.residents (sim.admitFast k).residents := by
  obtain ⟨hfast, hadmission⟩ := admitKey_spec k h.fast
  have hall : (k :: sim.residents).Nodup := List.nodup_cons.mpr ⟨hk, h.nodup⟩
  obtain ⟨hkfast, hkslow⟩ := not_or.mp (mt List.mem_append.mpr hk)
  rw [admitFast]
  generalize admitKey k sim.fast = run at hfast hadmission
  obtain ⟨es, fast⟩ := run
  dsimp only at hfast hadmission ⊢
  cases hadmission with
  | resident hin => exact absurd hin hkfast
  | stored _ hperm =>
    have hjoined : Joined (sim.SlowFull slowBlocks) k sim.residents
        (residents { sim with fast }) := .kept (hperm.append_right _)
    exact ⟨⟨hfast, h.slow, h.lru, hjoined.nodup hall⟩, hjoined⟩
  | @displaced _ _ victim _ _ hperm =>
    have hvictim : victim ∉ CachePolicy.residents sim.slow := by
      intro hmem
      rcases List.mem_cons.mp (hperm.mem_iff.mp List.mem_cons_self) with rfl | hmemFast
      · exact hkslow hmem
      · exact List.disjoint_of_nodup_append h.nodup hmemFast hmem
    -- the key that leaves the fast tier joins the slow one
    have hswap : ∀ slow : List α, (CachePolicy.residents fast ++ victim :: slow).Perm
        (k :: (CachePolicy.residents sim.fast ++ slow)) := fun slow =>
      List.perm_middle.trans (hperm.append_right slow)
    have hjoined : Joined (sim.SlowFull slowBlocks) k sim.residents
        (residents { sim with fast, slow := (admitKey victim sim.slow).2 }) := by
      cases joined_admitKey h.lru h.slow hvictim with
      | kept hslow => exact .kept ((hslow.append_left _).trans (hswap _))
      | lost hfull hlost hslow =>
        refine .lost hfull (List.mem_append_right _ hlost) ?_
        exact List.perm_middle.symm.trans ((hslow.append_left _).trans (hswap _))
    exact ⟨⟨hfast, (admitKey_spec victim h.slow).1, lru_admitKey victim h.lru,
      hjoined.nodup hall⟩, hjoined⟩

/-- A promotion moves keys between the tiers: what the fast tier evicts takes the place that the
promoted key leaves. -/
theorem promote_spec (h : sim.Exclusive fastBlocks slowBlocks)
    (hk : k ∈ CachePolicy.residents sim.slow) :
    (sim.promote k).Exclusive fastBlocks slowBlocks ∧
      (sim.promote k).residents.Perm sim.residents := by
  obtain ⟨hslow, -, hperm⟩ := remove_spec k h.slow
  have hleft : (k :: residents { sim with slow := (remove k sim.slow).2 }).Perm sim.residents := by
    refine List.perm_middle.symm.trans (List.Perm.append_left _ ?_)
    exact (hperm.cons k).trans (List.perm_cons_erase hk).symm
  obtain ⟨hout, hnodup⟩ := List.nodup_cons.mp (hleft.nodup_iff.mpr h.nodup)
  have hremoved : Exclusive fastBlocks slowBlocks { sim with slow := (remove k sim.slow).2 } :=
    ⟨h.fast, hslow, lru_remove k h.lru, hnodup⟩
  obtain ⟨hexclusive, hjoined⟩ := admitFast_spec hremoved hout
  refine ⟨hexclusive, ?_⟩
  cases hjoined with
  | kept hafter => exact hafter.trans hleft
  | lost hfull =>
    have hshort := hperm.length_eq
    have hle := length_le h.slow
    have herase := List.length_erase_add_one hk
    have hlength : (CachePolicy.residents (remove k sim.slow).2).length = slowBlocks := hfull
    omega

/-- An access to a block, by its kind. -/
theorem accessBlock_spec (k : α) (h : sim.Exclusive fastBlocks slowBlocks) :
    (sim.accessBlock k).2.Exclusive fastBlocks slowBlocks ∧
      match (sim.accessBlock k).1 with
      | .fastHit => (sim.accessBlock k).2.residents.Perm sim.residents
      | .slowHit => (sim.accessBlock k).2.residents.Perm sim.residents
      | .miss => k ∉ sim.residents ∧
          Joined (sim.SlowFull slowBlocks) k sim.residents (sim.accessBlock k).2.residents := by
  unfold accessBlock
  split
  next hfast =>
    obtain ⟨hvalid, hperm⟩ := touch_spec k h.fast
    have hafter : (residents { sim with fast := touch k sim.fast }).Perm sim.residents :=
      hperm.append_right _
    exact ⟨⟨hvalid, h.slow, h.lru, hafter.nodup_iff.mpr h.nodup⟩, hafter⟩
  next hfast =>
    split
    next hslow => exact promote_spec h (contains_iff.mp hslow)
    next hslow =>
      have hk : k ∉ sim.residents := fun hmem =>
        (List.mem_append.mp hmem).elim (fun hin => hfast (contains_iff.mpr hin))
          fun hin => hslow (contains_iff.mpr hin)
      have hspec := admitFast_spec h hk
      exact ⟨hspec.1, hk, hspec.2⟩

theorem link_spec (prev : Option α) (k : α) (h : sim.Exclusive fastBlocks slowBlocks) :
    (sim.link prev k).Exclusive fastBlocks slowBlocks := by
  cases prev with
  | none => exact h
  | some prev => exact ⟨h.fast, h.slow, h.lru, h.nodup⟩

theorem accessBlocks_exclusive (prev : Option α) (hashIds : List α)
    (h : sim.Exclusive fastBlocks slowBlocks) :
    (accessBlocks prev hashIds sim).2.Exclusive fastBlocks slowBlocks := by
  induction hashIds generalizing prev sim with
  | nil => exact h
  | cons k hashIds ih => exact ih (some k) (link_spec prev k (accessBlock_spec k h).1)

/-! ## Prefetching -/

theorem followChain_spec (budget : Nat) (cursor : α) {p : Nat × TieredSimulator α D}
    (h : p.2.Exclusive fastBlocks slowBlocks) :
    (followChain budget cursor p).2.Exclusive fastBlocks slowBlocks ∧
      (followChain budget cursor p).2.residents.Perm p.2.residents := by
  induction budget generalizing cursor p with
  | zero => exact ⟨h, .rfl⟩
  | succ budget ih =>
    obtain ⟨promoted, sim⟩ := p
    rw [followChain]
    split
    next => exact ⟨h, .rfl⟩
    next nxt _ =>
      split
      next hin =>
        obtain ⟨hexclusive, hperm⟩ := promote_spec h (contains_iff.mp hin)
        obtain ⟨hfinal, hrest⟩ := ih nxt (p := (promoted + 1, sim.promote nxt)) hexclusive
        exact ⟨hfinal, hrest.trans hperm⟩
      next => exact ih nxt h

theorem followAnchors_spec (budget : Nat) (anchors : List α) {p : Nat × TieredSimulator α D}
    (h : p.2.Exclusive fastBlocks slowBlocks) :
    (followAnchors budget anchors p).2.Exclusive fastBlocks slowBlocks ∧
      (followAnchors budget anchors p).2.residents.Perm p.2.residents := by
  induction anchors generalizing p with
  | nil => exact ⟨h, .rfl⟩
  | cons anchor anchors ih =>
    rw [followAnchors]
    split
    next =>
      obtain ⟨hexclusive, hperm⟩ := followChain_spec budget anchor h
      obtain ⟨hfinal, hrest⟩ := ih hexclusive
      exact ⟨hfinal, hrest.trans hperm⟩
    next => exact ih h

theorem prefetchForRequest_spec (hashIds : List α) (h : sim.Exclusive fastBlocks slowBlocks) :
    (sim.prefetchForRequest hashIds).2.Exclusive fastBlocks slowBlocks ∧
      (sim.prefetchForRequest hashIds).2.residents.Perm sim.residents := by
  rw [prefetchForRequest]
  split
  next => exact ⟨h, .rfl⟩
  next => exact followAnchors_spec _ hashIds (p := (0, sim)) h

theorem processRequests_exclusive [DoubleArith D] (requests : List (List α))
    (h : sim.Exclusive fastBlocks slowBlocks) :
    (processRequests requests sim).2.Exclusive fastBlocks slowBlocks := by
  induction requests generalizing sim with
  | nil => exact h
  | cons hashIds requests ih =>
    exact ih (accessBlocks_exclusive none hashIds (prefetchForRequest_spec hashIds h).1)

/-! ## Runs -/

/-- The states of a simulation that starts in `sim`: between requests, between the promotions
before a request (here with any budget), and between the accesses of a request. -/
inductive Visits [DoubleArith D] (sim : TieredSimulator α D) : TieredSimulator α D → Prop
  | processed (requests : List (List α)) : Visits sim (processRequests requests sim).2
  | prefetching (requests : List (List α)) (budget depth : Nat) (anchors : List α) (anchor : α) :
      Visits sim (followChain depth anchor
        (followAnchors budget anchors (0, (processRequests requests sim).2))).2
  | accessing (requests : List (List α)) (hashIds rest : List α) :
      Visits sim (accessBlocks none hashIds
        (prefetchForRequest (hashIds ++ rest) (processRequests requests sim).2).2).2

theorem Visits.exclusive [DoubleArith D] {s : TieredSimulator α D} (hvisits : Visits sim s)
    (h : sim.Exclusive fastBlocks slowBlocks) : s.Exclusive fastBlocks slowBlocks := by
  have hprocessed := fun requests => processRequests_exclusive requests h
  cases hvisits with
  | processed requests => exact hprocessed requests
  | prefetching requests budget depth anchors anchor =>
    have hanchors := followAnchors_spec budget anchors
      (p := (0, (processRequests requests sim).2)) (hprocessed requests)
    exact (followChain_spec depth anchor hanchors.1).1
  | accessing requests hashIds rest =>
    exact accessBlocks_exclusive none hashIds (prefetchForRequest_spec _ (hprocessed requests)).1

/-- The keys of the two tiers, as a set. -/
def keys (sim : TieredSimulator α D) : Finset α := sim.residents.toFinset

/-- No key is in both tiers, and the next operation loses no key but the one that a full slow tier
lets go on a miss. -/
structure LosesNothing (slowBlocks : Nat) (s : TieredSimulator α D) : Prop where
  exclusive : ∀ k, ¬ (contains k s.fast = true ∧ contains k s.slow = true)
  prefetch : ∀ hashIds, (s.prefetchForRequest hashIds).2.keys = s.keys
  hit : ∀ k, (s.accessBlock k).1 ≠ .miss → (s.accessBlock k).2.keys = s.keys
  miss : ∀ k, (s.accessBlock k).1 = .miss → k ∉ s.keys ∧
    ((s.accessBlock k).2.keys = insert k s.keys ∨
      s.SlowFull slowBlocks ∧
        ∃ lost ∈ s.keys, (s.accessBlock k).2.keys = insert k (s.keys.erase lost))

theorem Joined.keys {full : Prop} {s s' : TieredSimulator α D}
    (h : Joined full k s.residents s'.residents) (hk : k ∉ s.residents)
    (hnodup : s.residents.Nodup) :
    s'.keys = insert k s.keys ∨ full ∧ ∃ lost ∈ s.keys, s'.keys = insert k (s.keys.erase lost) := by
  cases h with
  | kept hperm =>
    refine .inl (Finset.ext fun x => ?_)
    simpa [TieredSimulator.keys] using hperm.mem_iff
  | @lost victim hfull hvictim hperm =>
    refine .inr ⟨hfull, victim, List.mem_toFinset.mpr hvictim, Finset.ext fun x => ?_⟩
    have hall := hperm.nodup_iff.mpr (List.nodup_cons.mpr ⟨hk, hnodup⟩)
    have hgone := (List.nodup_cons.mp hall).1
    have hne : k ≠ victim := fun heq => hk (heq ▸ hvictim)
    have hmem := hperm.mem_iff (a := x)
    simp only [TieredSimulator.keys, List.mem_toFinset, Finset.mem_insert, Finset.mem_erase,
      List.mem_cons] at hmem ⊢
    by_cases hx : x = victim
    · subst hx
      simp [hgone, hne.symm]
    · simpa [hx] using hmem

theorem Exclusive.losesNothing (h : sim.Exclusive fastBlocks slowBlocks) :
    sim.LosesNothing slowBlocks where
  exclusive k hboth := List.disjoint_of_nodup_append h.nodup (contains_iff.mp hboth.1)
    (contains_iff.mp hboth.2)
  prefetch hashIds := List.toFinset_eq_of_perm _ _ (prefetchForRequest_spec hashIds h).2
  hit k hkind := by
    have hspec := (accessBlock_spec k h).2
    split at hspec
    next => exact List.toFinset_eq_of_perm _ _ hspec
    next => exact List.toFinset_eq_of_perm _ _ hspec
    next hmiss => exact absurd hmiss hkind
  miss k hkind := by
    have hspec := (accessBlock_spec k h).2
    rw [hkind] at hspec
    exact ⟨fun hmem => hspec.1 (List.mem_toFinset.mp hmem), hspec.2.keys hspec.1 h.nodup⟩

theorem new_exclusive {name : String} {prefetchDepth : Int} {costs : TieredCosts D}
    (hname : name ∈ (POLICIES α).map Prod.fst) (hfast : 1 ≤ fastBlocks) (hslow : 1 ≤ slowBlocks) :
    Returns (new fastBlocks slowBlocks name prefetchDepth costs "lru" :
      Except String (TieredSimulator α D)) (Exclusive fastBlocks slowBlocks) := by
  refine (makePolicy_fresh hname hfast).bind fun fast ⟨hfastValid, hfastEmpty⟩ => ?_
  refine (makePolicy_lru hslow).bind fun slow ⟨⟨hslowValid, hslowEmpty⟩, hlru⟩ => ?_
  refine returns_ok ⟨hfastValid, hslowValid, hlru, ?_⟩
  rw [residents, hfastEmpty, hslowEmpty]
  exact List.nodup_nil

/-- **Exclusive tiers.** Whatever the policy of the fast tier, a simulation with an LRU slow tier
holds no key in both tiers and loses nothing but on a miss with a full slow tier. -/
theorem tiers_exclusive (α : Type) {D : Type} [DecidableEq α] [DoubleArith D] (name : String)
    (fastBlocks slowBlocks : Nat) (prefetchDepth : Int) (costs : TieredCosts D)
    (hname : name ∈ (POLICIES α).map Prod.fst) (hfast : 1 ≤ fastBlocks) (hslow : 1 ≤ slowBlocks) :
    Returns (new fastBlocks slowBlocks name prefetchDepth costs "lru" :
      Except String (TieredSimulator α D)) fun sim =>
        ∀ s, Visits sim s → s.LosesNothing slowBlocks :=
  (new_exclusive hname hfast hslow).mono fun _ hsim _ hvisits =>
    (hvisits.exclusive hsim).losesNothing

theorem tiers_exclusive_s3fifo :
    Returns (new 4 6 "s3fifo" 8 TieredCosts.standard "lru" :
      Except String (TieredSimulator Nat ℚ)) fun sim => ∀ s, Visits sim s → s.LosesNothing 6 :=
  tiers_exclusive Nat "s3fifo" 4 6 8 TieredCosts.standard (by decide) (by decide) (by decide)

end TieredSimulator

end TieredKVCache.Bench
