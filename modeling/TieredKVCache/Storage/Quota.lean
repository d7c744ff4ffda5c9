import Mathlib.Algebra.Order.BigOperators.Group.Finset
import Mathlib.Algebra.BigOperators.Field
import Mathlib.Algebra.Order.Field.Rat
import Mathlib.Tactic.FieldSimp
import Mathlib.Tactic.Linarith
import Mathlib.Tactic.Positivity
import TieredKVCache.Storage.Rounds

/-!
# Tenant quotas

With tenant weights the victim of an iteration is the oldest block of a tenant that exceeds its
share by the most. `overage` is what a tenant holds in a tier beyond its share, computed from the
block map; `exists_overage` is the pigeonhole argument: the shares of all tenants together are
the capacity, so that a tier over its capacity has a tenant over its share. Between the
high-water mark and the capacity there may be none, and then the victim is chosen without regard
to the tenants.
-/

namespace TieredKVCache.Storage

open Lib

/-! ## Shares and overages -/

section

variable (config : TierConfig ℚ)

def totalWeight : ℚ := (config.tenantWeights.entries.map Sigma.snd).sum

/-- The weight of a tenant; a tenant without an entry has none. -/
def weightOf (tenant : UInt32) : ℚ := (config.tenantWeights.lookup tenant).getD 0

/-- The share of a tenant in a tier. -/
def shareOf (tenant : UInt32) (t : Tier) : ℚ :=
  if totalWeight config = 0 then 0
  else config.capacityOf t * weightOf config tenant / totalWeight config

/-- The bytes of a tenant in a tier. -/
def tenantBytes (t : Tier) (tenant : UInt32) (s : State) : Nat :=
  bytesOf (fun _ it => it.entry.tier = t ∧ it.entry.tenantId = tenant) s.blocks

/-- What a tenant holds beyond its share. -/
def overage (t : Tier) (tenant : UInt32) (s : State) : ℚ :=
  tenantBytes t tenant s - shareOf config tenant t

/-- No weight is negative. -/
def WeightsNonneg : Prop := ∀ tenant weight, config.tenantWeights.lookup tenant = some weight →
  0 ≤ weight

end

section

variable {config : TierConfig ℚ} {t : Tier} {tenant : UInt32} {s : State} {key : BlockKey}
  {it : StoredBlock}

theorem WeightsNonneg.weightOf (h : WeightsNonneg config) (tenant : UInt32) :
    0 ≤ weightOf config tenant := by
  unfold Storage.weightOf
  cases hw : config.tenantWeights.lookup tenant with
  | none => exact le_refl 0
  | some weight => exact h tenant weight hw

theorem weightOf_entry {e : Sigma fun _ : UInt32 => ℚ} (he : e ∈ config.tenantWeights.entries) :
    weightOf config e.1 = e.2 := by
  rw [weightOf, mem_entries_iff.mp he, Option.getD_some]

/-- The weights of the registered tenants. -/
theorem totalWeight_eq :
    totalWeight config = ∑ tenant ∈ config.tenantWeights.keys.toFinset, weightOf config tenant := by
  have hkeys : config.tenantWeights.keys.Nodup := config.tenantWeights.nodupKeys
  rw [List.sum_toFinset _ hkeys]
  show _ = ((config.tenantWeights.entries.map Sigma.fst).map (weightOf config)).sum
  rw [List.map_map]
  exact congrArg List.sum (List.map_congr_left fun e he => (weightOf_entry he).symm)

theorem WeightsNonneg.totalWeight (h : WeightsNonneg config) : 0 ≤ totalWeight config := by
  rw [totalWeight_eq]
  exact Finset.sum_nonneg fun tenant _ => h.weightOf tenant

theorem tenantShareOf_eq (h : WeightsNonneg config) (tenant : UInt32) (t : Tier) :
    config.tenantShareOf tenant t = shareOf config tenant t := by
  have htotal : (inOrder config.tenantWeights).foldl (fun sum e => sum + e.2) (0 : ℚ) =
      totalWeight config := by
    have hperm := (List.perm_insertionSort (fun a b : UInt32 × ℚ => a.1 ≤ b.1)
      (config.tenantWeights.entries.map fun e => (e.1, e.2))).map Prod.snd
    rw [← List.foldl_map (f := Prod.snd) (g := fun sum weight => sum + weight),
      ← List.sum_eq_foldl, totalWeight, inOrder, hperm.sum_eq, List.map_map]
    rfl
  have hnonneg := h.totalWeight
  show (if (inOrder config.tenantWeights).foldl (fun sum e => sum + e.2) (0 : ℚ) ≤ 0 then 0
    else (config.capacityOf t : ℚ) * weightOf config tenant /
      (inOrder config.tenantWeights).foldl (fun sum e => sum + e.2) (0 : ℚ)) = _
  rw [htotal, shareOf]
  by_cases hzero : totalWeight config = 0
  · rw [if_pos hzero.le, if_pos hzero]
  · rw [if_neg fun hle => hzero (le_antisymm hle hnonneg), if_neg hzero]

theorem WeightsNonneg.shareOf (h : WeightsNonneg config) (tenant : UInt32) (t : Tier) :
    0 ≤ shareOf config tenant t := by
  unfold Storage.shareOf
  split
  · exact le_refl 0
  · exact div_nonneg (mul_nonneg (Nat.cast_nonneg _) (h.weightOf tenant)) h.totalWeight

/-! ## The pigeonhole argument -/

/-- Together the shares are no more than the capacity. -/
theorem sum_shareOf_le (t : Tier) {tenants : Finset UInt32}
    (hall : config.tenantWeights.keys.toFinset ⊆ tenants) :
    ∑ tenant ∈ tenants, shareOf config tenant t ≤ config.capacityOf t := by
  by_cases hzero : totalWeight config = 0
  · simp [shareOf, hzero]
  · have hweights : ∑ tenant ∈ tenants, weightOf config tenant = totalWeight config := by
      rw [totalWeight_eq]
      refine (Finset.sum_subset hall fun tenant _ hnot => ?_).symm
      have hnone : config.tenantWeights.lookup tenant = none :=
        AList.lookup_eq_none.mpr fun hmem => hnot (List.mem_toFinset.mpr hmem)
      rw [weightOf, hnone, Option.getD_none]
    simp only [shareOf, if_neg hzero]
    rw [← Finset.sum_div, ← Finset.mul_sum, hweights, mul_div_assoc, div_self hzero, mul_one]

/-- A tier over its capacity has a tenant over its share. -/
theorem exists_overage (hinv : RepInv config s)
    (hover : config.capacityOf t < s.usedBytes t) : ∃ tenant, 0 < overage config t tenant s := by
  by_contra hnone
  push Not at hnone
  let tenants : Finset UInt32 := config.tenantWeights.keys.toFinset ∪
    (s.blocks.entries.map fun e => e.2.entry.tenantId).toFinset
  have hclass (tenant : UInt32) : sumOver (fun _ it => if it.entry.tenantId = tenant then
      if it.entry.tier = t then it.entry.sizeBytes else 0 else 0) s.blocks =
      tenantBytes t tenant s := by
    unfold tenantBytes bytesOf
    congr 1
    funext k it
    by_cases htenant : it.entry.tenantId = tenant <;> simp [htenant]
  have hsplit : s.usedBytes t = ∑ tenant ∈ tenants, tenantBytes t tenant s := by
    rw [hinv.used t, bytesOf, sumOver_fiberwise _ s.blocks (fun _ it => it.entry.tenantId) tenants]
    · exact Finset.sum_congr rfl fun tenant _ => hclass tenant
    · intro k it hk
      refine Finset.mem_union_right _ (List.mem_toFinset.mpr ?_)
      exact List.mem_map.mpr ⟨⟨k, it⟩, mem_entries_iff.mpr hk, rfl⟩
  have hle : (s.usedBytes t : ℚ) ≤ config.capacityOf t :=
    calc (s.usedBytes t : ℚ) = ∑ tenant ∈ tenants, (tenantBytes t tenant s : ℚ) := by
          rw [hsplit, Nat.cast_sum]
      _ ≤ ∑ tenant ∈ tenants, shareOf config tenant t :=
          Finset.sum_le_sum fun tenant _ => sub_nonpos.mp (hnone tenant)
      _ ≤ config.capacityOf t := sum_shareOf_le t Finset.subset_union_left
  exact absurd (Nat.cast_le.mp hle) (Nat.not_le_of_lt hover)

/-! ## The choice of the victim -/

/-- One round of the loop of `PickQuotaVictimLocked`, on the overages. -/
def worse (config : TierConfig ℚ) (t : Tier) (s : State) (worst : ℚ × Finset VictimOrder)
    (e : UInt32 × Finset VictimOrder) : ℚ × Finset VictimOrder :=
  if e.2 = ∅ then worst
  else if worst.1 < overage config t e.1 s then (overage config t e.1 s, e.2) else worst

variable (config t s) in
/-- The loop ends with a tenant whose overage is maximal, or as it started. -/
theorem foldl_worse (l : List (UInt32 × Finset VictimOrder)) (w : ℚ × Finset VictimOrder) :
    w.1 ≤ (l.foldl (worse config t s) w).1 ∧
      (∀ e ∈ l, e.2 ≠ ∅ → overage config t e.1 s ≤ (l.foldl (worse config t s) w).1) ∧
      (l.foldl (worse config t s) w = w ∨ ∃ e ∈ l, e.2 ≠ ∅ ∧
        l.foldl (worse config t s) w = (overage config t e.1 s, e.2)) := by
  induction l generalizing w with
  | nil => exact ⟨le_refl _, fun e he => absurd he List.not_mem_nil, .inl rfl⟩
  | cons e l ih =>
    obtain ⟨hle, hall, hfrom⟩ := ih (worse config t s w e)
    rw [List.foldl_cons]
    have hhead : w.1 ≤ (worse config t s w e).1 ∧
        (e.2 ≠ ∅ → overage config t e.1 s ≤ (worse config t s w e).1) ∧
        (worse config t s w e = w ∨ e.2 ≠ ∅ ∧
          worse config t s w e = (overage config t e.1 s, e.2)) := by
      unfold worse
      split
      next hempty => exact ⟨le_refl _, fun hne => absurd hempty hne, .inl rfl⟩
      next hne =>
        split
        next hlt => exact ⟨hlt.le, fun _ => le_refl _, .inr ⟨hne, rfl⟩⟩
        next hge => exact ⟨le_refl _, fun _ => not_lt.mp hge, .inl rfl⟩
    refine ⟨hhead.1.trans hle, ?_, ?_⟩
    · intro e' he' hne
      rcases List.mem_cons.mp he' with rfl | he'
      · exact (hhead.2.1 hne).trans hle
      · exact hall e' he' hne
    · rcases hfrom with hfrom | ⟨e', he', hne, hfrom⟩
      · rw [hfrom]
        exact hhead.2.2.imp id fun ⟨hne, h⟩ => ⟨e, List.mem_cons_self, hne, h⟩
      · exact .inr ⟨e', List.mem_cons_of_mem e he', hne, hfrom⟩

theorem pickQuotaVictimLocked_eq (hweights : WeightsNonneg config) (hinv : RepInv config s)
    (hquota : config.quotaEnabledLocked = true) (t : Tier) :
    pickQuotaVictimLocked config t s =
      let worst := (inOrder (s.tenantVictimIndex t)).foldl (worse config t s) (0, ∅)
      if h : worst.2.Nonempty then some (ofLex (worst.2.min' h)).2 else none := by
  have hbytes (tenant : UInt32) :
      tenantBytes t tenant s = ((s.tenantUsed t).lookup tenant).getD 0 := by
    rw [tenantBytes, ← hinv.tenantUsed hquota t tenant, tenantUsedAt]
  refine congrArg (fun worst : ℚ × Finset VictimOrder =>
    if h : worst.2.Nonempty then some (ofLex (worst.2.min' h)).2 else none) ?_
  congr 1
  funext worst e
  unfold worse overage
  rw [hbytes, ← tenantShareOf_eq hweights]
  cases (s.tenantUsed t).lookup e.1 <;> rfl

/-- A tenant over its share has a block in its index. -/
theorem tenantIndex_of_overage (hweights : WeightsNonneg config) (hinv : RepInv config s)
    (hquota : config.quotaEnabledLocked = true) (hover : 0 < overage config t tenant s) :
    ∃ index, (s.tenantVictimIndex t).lookup tenant = some index ∧ index ≠ ∅ := by
  have hbytes : 0 < tenantBytes t tenant s := by
    have hshare := hweights.shareOf tenant t
    have hpos : (0 : ℚ) < tenantBytes t tenant s := by
      unfold overage at hover
      linarith
    exact Nat.cast_pos.mp hpos
  unfold tenantBytes bytesOf at hbytes
  obtain ⟨k, it, hk, hsize⟩ := exists_pos_of_sumOver_pos hbytes
  have hit : it.entry.tier = t ∧ it.entry.tenantId = tenant := by
    by_contra hnot
    rw [if_neg hnot] at hsize
    exact Nat.lt_irrefl 0 hsize
  have hmem := (hinv.tenantIndex hquota t tenant _ k).mpr ⟨it, hk, hit, rfl⟩
  rw [tenantIndexAt] at hmem
  cases hindex : (s.tenantVictimIndex t).lookup tenant with
  | none =>
    rw [hindex] at hmem
    exact absurd hmem (Finset.notMem_empty _)
  | some index =>
    rw [hindex] at hmem
    exact ⟨index, rfl, Finset.ne_empty_of_mem hmem⟩

/-- A block of the tenant that is over its share by the most, and of its blocks in the tier the
oldest. -/
def QuotaVictim (config : TierConfig ℚ) (t : Tier) (key : BlockKey) (it : StoredBlock)
    (s : State) : Prop :=
  s.blocks.lookup key = some it ∧ it.entry.tier = t ∧
    0 < overage config t it.entry.tenantId s ∧
    (∀ tenant, overage config t tenant s ≤ overage config t it.entry.tenantId s) ∧
    ∀ k it', s.blocks.lookup k = some it' → it'.entry.tier = t →
      it'.entry.tenantId = it.entry.tenantId → k ≠ key →
      it.entry.stats.lastAccessTs < it'.entry.stats.lastAccessTs

theorem pickQuotaVictimLocked_of_overage (hweights : WeightsNonneg config) (hinv : RepInv config s)
    (hquota : config.quotaEnabledLocked = true) (hover : 0 < overage config t tenant s) :
    ∃ key it, pickQuotaVictimLocked config t s = some key ∧ QuotaVictim config t key it s := by
  rw [pickQuotaVictimLocked_eq hweights hinv hquota]
  dsimp only
  obtain ⟨-, hall, hfrom⟩ := foldl_worse config t s
    (inOrder (s.tenantVictimIndex t)) (0, ∅)
  generalize (inOrder (s.tenantVictimIndex t)).foldl (worse config t s) (0, ∅) = worst at hall hfrom
  have hle (tenant : UInt32) (h : 0 < overage config t tenant s) :
      overage config t tenant s ≤ worst.1 := by
    obtain ⟨index, hindex, hne⟩ := tenantIndex_of_overage hweights hinv hquota h
    exact hall (tenant, index) (mem_inOrder.mpr hindex) hne
  have hpos : 0 < worst.1 := hover.trans_le (hle tenant hover)
  rcases hfrom with rfl | ⟨⟨worstTenant, index⟩, hmem, hne, rfl⟩
  · exact absurd hpos (lt_irrefl 0)
  · have hnonempty : index.Nonempty := Finset.nonempty_iff_ne_empty.mpr hne
    have hat : tenantIndexAt s.tenantVictimIndex t worstTenant = index := by
      rw [tenantIndexAt, mem_inOrder.mp hmem, Option.getD_some]
    have hindexes := hinv.tenantIndex hquota t worstTenant
    rw [hat] at hindexes
    obtain ⟨it, hk, ⟨ht, rfl⟩, hts⟩ := (hindexes (ofLex (index.min' hnonempty)).1
      (ofLex (index.min' hnonempty)).2).mp (index.min'_mem hnonempty)
    refine ⟨_, it, dif_pos hnonempty, hk, ht, hpos, fun tenant => ?_, ?_⟩
    · rcases lt_or_ge 0 (overage config t tenant s) with h | h
      · exact hle tenant h
      · exact h.trans hpos.le
    · intro k it' hk' ht' htenant hne'
      have hle' := index.min'_le _ ((hindexes _ k).mpr ⟨it', hk', ⟨ht', htenant⟩, rfl⟩)
      have hts' := Prod.Lex.monotone_fst _ _ hle'
      refine lt_of_le_of_ne (hts.le.trans hts') fun heq => hne' ?_
      exact (hinv.stampInj hk hk' heq).symm

/-! ## Every iteration of every run -/

/-- The victim of an iteration in a tier with a tenant over its share. -/
theorem RoundInv.quotaVictim {a : State} {v : Victim} (h : RoundInv config t a)
    (hweights : WeightsNonneg config) (hquota : config.quotaEnabledLocked = true)
    (hover : 0 < overage config t tenant a) (hvictim : roundVictim config t a = some v) :
    QuotaVictim config t v.key v.it a := by
  obtain ⟨key, it, hpick, hq⟩ := pickQuotaVictimLocked_of_overage hweights h.inv hquota hover
  obtain ⟨hchoose, hit⟩ := roundVictim_chosen hvictim
  have hchosen : chooseVictim config t a = .ok (some key, a) := by
    rw [chooseVictim, if_pos hquota, hpick]
  obtain ⟨hkey, hstate⟩ : v.key = key ∧ v.state = a := by
    simpa using hchoose.symm.trans hchosen
  rw [hstate, hkey] at hit
  obtain rfl : v.it = it := Option.some.inj (hit.symm.trans hq.1)
  rw [hkey]
  exact hq

end

/-- In every iteration of every run with tenant weights: where some tenant is over its share, the
victim is the oldest block of a tenant that is over its share by the most; and there is such a
tenant where the tier is over its capacity. -/
theorem roundsOps_quotaVictim (config : TierConfig ℚ) (hquota : config.quotaEnabledLocked = true)
    (hweights : WeightsNonneg config) (ops : List Op) :
    ∀ round ∈ roundsOps config ops State.fresh,
      (config.evictionThresholdOf round.1 < round.2.usedBytes round.1 →
        (roundVictim config round.1 round.2).isSome = true) ∧
      (∀ v tenant, roundVictim config round.1 round.2 = some v →
        0 < overage config round.1 tenant round.2 →
        QuotaVictim config round.1 v.key v.it round.2) ∧
      (config.capacityOf round.1 < round.2.usedBytes round.1 →
        (∃ tenant, 0 < overage config round.1 tenant round.2) ∧
          (pickQuotaVictimLocked config round.1 round.2).isSome = true) := by
  intro ⟨t, a⟩ hround
  have hinv := roundsOps_inv ops (good_fresh config) _ hround
  refine ⟨fun hover => ?_, fun v tenant hvictim hover => ?_, fun hcapacity => ?_⟩
  · obtain ⟨v, hvictim, -⟩ := hinv.evicts hover
    exact Option.isSome_iff_exists.mpr ⟨v, hvictim⟩
  · exact hinv.quotaVictim hweights hquota hover hvictim
  · obtain ⟨tenant, hover⟩ := exists_overage hinv.inv hcapacity
    obtain ⟨key, it, hpick, -⟩ := pickQuotaVictimLocked_of_overage hweights hinv.inv hquota hover
    exact ⟨⟨tenant, hover⟩, Option.isSome_iff_exists.mpr ⟨key, hpick⟩⟩

/-- One tier, and two tenants of the same weight. -/
def twoTenants (capacity : Nat) (ratio : ℚ) : TierConfig ℚ where
  hbmCapacityBytes := some capacity
  dramCapacityBytes := none
  nvmeCapacityBytes := none
  highWaterRatio := ratio
  tenantWeights := ((∅ : AList fun _ : UInt32 => ℚ).insert 1 1).insert 2 1

def twoTenantsOps : List Op :=
  [.write (plainBlock 1 3) .hbm 1, .write (plainBlock 2 3) .hbm 2]

theorem twoTenants_weights (capacity : Nat) (ratio : ℚ) :
    WeightsNonneg (twoTenants capacity ratio) := by
  intro tenant weight h
  rcases lookup_insert_eq_some.mp h with ⟨_, rfl⟩ | ⟨_, h⟩
  · decide
  · rcases lookup_insert_eq_some.mp h with ⟨_, rfl⟩ | ⟨_, h⟩
    · decide
    · cases h

theorem roundsOps_quotaVictim_twoTenants :
    ∃ round ∈ roundsOps (twoTenants 5 1) twoTenantsOps State.fresh,
      (roundVictim (twoTenants 5 1) round.1 round.2).map Victim.key = some (plainKey 1) ∧
      ∀ v tenant, roundVictim (twoTenants 5 1) round.1 round.2 = some v →
        0 < overage (twoTenants 5 1) round.1 tenant round.2 →
        QuotaVictim (twoTenants 5 1) round.1 v.key v.it round.2 := by
  have hfound : ((roundsOps (twoTenants 5 1) twoTenantsOps State.fresh).find? fun round =>
      (roundVictim (twoTenants 5 1) round.1 round.2).map Victim.key = some (plainKey 1)).isSome :=
    by decide +kernel
  obtain ⟨round, hround⟩ := Option.isSome_iff_exists.mp hfound
  refine ⟨round, List.mem_of_find?_eq_some hround, ?_, ?_⟩
  · simpa using List.find?_some hround
  · exact (roundsOps_quotaVictim (twoTenants 5 1) rfl (twoTenants_weights 5 1) twoTenantsOps round
      (List.mem_of_find?_eq_some hround)).2.1

/-! ## Borrowed shares -/

/-- In every iteration of every run with tenant weights: the tenant of the victim is over its
share, or no tenant is, and the tier is between its threshold and its capacity. -/
theorem roundsOps_overShare (config : TierConfig ℚ) (hquota : config.quotaEnabledLocked = true)
    (hweights : WeightsNonneg config) (ops : List Op) :
    ∀ round ∈ roundsOps config ops State.fresh,
      ∀ v, roundVictim config round.1 round.2 = some v →
        (0 < overage config round.1 v.it.entry.tenantId round.2 ∨
          (∀ tenant, overage config round.1 tenant round.2 ≤ 0) ∧
            config.evictionThresholdOf round.1 < round.2.usedBytes round.1 ∧
            round.2.usedBytes round.1 ≤ config.capacityOf round.1) ∧
        (config.highWaterRatio = 1 →
          0 < overage config round.1 v.it.entry.tenantId round.2) := by
  intro ⟨t, a⟩ hround v hvictim
  have hinv := roundsOps_inv ops (good_fresh config) _ hround
  have hover := roundVictim_over hvictim
  have hsome (h : ∃ tenant, 0 < overage config t tenant a) :
      0 < overage config t v.it.entry.tenantId a := by
    obtain ⟨tenant, htenant⟩ := h
    exact (hinv.quotaVictim hweights hquota htenant hvictim).2.2.1
  constructor
  · by_cases h : ∃ tenant, 0 < overage config t tenant a
    · exact .inl (hsome h)
    · push Not at h
      refine .inr ⟨h, hover, Nat.le_of_not_lt fun hcapacity => ?_⟩
      obtain ⟨tenant, htenant⟩ := exists_overage hinv.inv hcapacity
      exact absurd htenant (not_lt.mpr (h tenant))
  · intro hratio
    have hthreshold : config.evictionThresholdOf t = config.capacityOf t := by
      rw [config.evictionThresholdOf_rat t, hratio, mul_one, Nat.floor_natCast, Nat.min_self]
    exact hsome (exists_overage hinv.inv (hthreshold ▸ hover))

/-- Half of the tier is the high-water mark, and half of it is the share of each tenant. -/
theorem twoTenants_round : ∃ round ∈ roundsOps (twoTenants 10 (1 / 2)) twoTenantsOps State.fresh,
    ∃ v, roundVictim (twoTenants 10 (1 / 2)) round.1 round.2 = some v ∧
      overage (twoTenants 10 (1 / 2)) round.1 v.it.entry.tenantId round.2 ≤ 0 := by
  have hfound : ((roundsOps (twoTenants 10 (1 / 2)) twoTenantsOps State.fresh).find? fun round =>
      (roundVictim (twoTenants 10 (1 / 2)) round.1 round.2).any fun v =>
        overage (twoTenants 10 (1 / 2)) round.1 v.it.entry.tenantId round.2 ≤ 0).isSome := by
    decide +kernel
  obtain ⟨round, hround⟩ := Option.isSome_iff_exists.mp hfound
  have hany := List.find?_some hround
  obtain ⟨v, hvictim, hle⟩ := (Option.any_eq_true _ _).mp hany
  exact ⟨round, List.mem_of_find?_eq_some hround, v, hvictim, of_decide_eq_true hle⟩

theorem twoTenants_evicts_within_share :
    ¬ ∀ round ∈ roundsOps (twoTenants 10 (1 / 2)) twoTenantsOps State.fresh,
      ∀ v, roundVictim (twoTenants 10 (1 / 2)) round.1 round.2 = some v →
        0 < overage (twoTenants 10 (1 / 2)) round.1 v.it.entry.tenantId round.2 := by
  intro hall
  obtain ⟨round, hround, v, hvictim, hle⟩ := twoTenants_round
  exact absurd (hall round hround v hvictim) (not_lt.mpr hle)

theorem roundsOps_overShare_twoTenants :
    ∃ round ∈ roundsOps (twoTenants 10 (1 / 2)) twoTenantsOps State.fresh,
      ∃ v, roundVictim (twoTenants 10 (1 / 2)) round.1 round.2 = some v ∧
        (∀ tenant, overage (twoTenants 10 (1 / 2)) round.1 tenant round.2 ≤ 0) ∧
        round.2.usedBytes round.1 ≤ (twoTenants 10 (1 / 2)).capacityOf round.1 := by
  obtain ⟨round, hround, v, hvictim, hle⟩ := twoTenants_round
  have hquota := (roundsOps_overShare (twoTenants 10 (1 / 2)) rfl (twoTenants_weights 10 (1 / 2))
    twoTenantsOps round hround v hvictim).1
  obtain ⟨hnone, -, hcapacity⟩ := hquota.resolve_left (not_lt.mpr hle)
  exact ⟨round, hround, v, hvictim, hnone, hcapacity⟩

end TieredKVCache.Storage
