import TieredKVCache.Core.WholeDouble
import TieredKVCache.Storage.Quota

/-!
# The order of the tenants

`PickQuotaVictimLocked` takes the oldest block of the tenant with the largest excess over its share,
and of several such tenants of the first one. Of the arithmetic it needs no more than that a tenant
with more bytes has no smaller excess (`OrderedSizes`), which holds of exact arithmetic and of
`double`.
-/

namespace TieredKVCache.Storage

open Lib

/-- The order of sizes less a share. -/
structure OrderedSizes (D : Type) [DoubleArith D] : Prop where
  zero : (DoubleArith.ofSize 0 : D) = 0
  asymm : ∀ {a b : D}, a < b → ¬ b < a
  between : ∀ {a c : D} (b : D), a < c → a < b ∨ b < c
  mono : ∀ {m n : Nat}, m ≤ n → ∀ share : D,
    ¬ DoubleArith.ofSize n - share < DoubleArith.ofSize m - share

theorem orderedSizes_double : OrderedSizes Double where
  zero := by
    show Double.mk (roundDouble ((0 : Nat) : ℚ)) = ⟨0⟩
    rw [Nat.cast_zero, roundDouble, if_pos rfl]
  asymm := fun {a b} hab hba =>
    absurd (lt_trans (a := a.value) (b := b.value) hab hba) (lt_irrefl _)
  between := fun {a c} b hac =>
    (lt_or_ge a.value b.value).imp_right fun hba => lt_of_le_of_lt (c := c.value) hba hac
  mono hmn share := not_lt.mpr (roundDouble_mono
    (sub_le_sub_right (roundDouble_mono (Nat.cast_le.mpr hmn)) share.value))

section

variable {D : Type} [DoubleArith D] (config : TierConfig D) (t : Tier)

/-- What a tenant with some bytes holds beyond its share. -/
def excess (tenant : UInt32) (bytes : Nat) : D :=
  DoubleArith.ofSize bytes - config.tenantShareOf tenant t

def OverShare (tenant : UInt32) (bytes : Nat) : Prop := (0 : D) < excess config t tenant bytes

/-- A tenant with some bytes is served before another one. -/
def Beats (tenant : UInt32) (bytes : Nat) (other : UInt32) (otherBytes : Nat) : Prop :=
  excess config t other otherBytes < excess config t tenant bytes ∨
    ¬ excess config t tenant bytes < excess config t other otherBytes ∧ tenant < other

instance (tenant : UInt32) (bytes : Nat) : Decidable (OverShare config t tenant bytes) :=
  DoubleArith.instDecidableLT _ _

instance (tenant : UInt32) (bytes : Nat) (other : UInt32) (otherBytes : Nat) :
    Decidable (Beats config t tenant bytes other otherBytes) :=
  inferInstanceAs (Decidable (_ ∨ _ ∧ _))

end

section

variable {D : Type} [DoubleArith D] {config : TierConfig D} {t : Tier} {tenant other : UInt32}
  {m n k : Nat} {s : State} {key : BlockKey} {it it' : StoredBlock}

/-! ## The order -/

theorem OrderedSizes.trans (h : OrderedSizes D) {a b c : D} (hab : a < b) (hbc : b < c) : a < c :=
  (h.between c hab).resolve_right (h.asymm hbc)

theorem OrderedSizes.trans_not (h : OrderedSizes D) {a b c : D} (hab : a < b) (hcb : ¬ c < b) :
    a < c := (h.between c hab).resolve_right hcb

theorem OrderedSizes.not_trans (h : OrderedSizes D) {a b c : D} (hba : ¬ b < a) (hbc : b < c) :
    a < c := (h.between a hbc).resolve_left hba

theorem OverShare.mono (h : OrderedSizes D) (hover : OverShare config t tenant m) (hmn : m ≤ n) :
    OverShare config t tenant n :=
  h.trans_not hover (h.mono hmn _)

theorem Beats.mono (h : OrderedSizes D) (hbeats : Beats config t tenant m other k) (hmn : m ≤ n) :
    Beats config t tenant n other k := by
  have hle : ¬ excess config t tenant n < excess config t tenant m := h.mono hmn _
  rcases hbeats with hlt | ⟨hnot, htenant⟩
  · exact .inl (h.trans_not hlt hle)
  · exact .inr ⟨fun hlt => (h.between _ hlt).elim hle hnot, htenant⟩

/-- The loser may have less. -/
theorem Beats.anti (h : OrderedSizes D) (hbeats : Beats config t tenant k other n) (hmn : m ≤ n) :
    Beats config t tenant k other m := by
  have hle : ¬ excess config t other n < excess config t other m := h.mono hmn _
  rcases hbeats with hlt | ⟨hnot, htenant⟩
  · exact .inl (h.not_trans hle hlt)
  · exact .inr ⟨fun hlt => (h.between _ hlt).elim hnot hle, htenant⟩

theorem Beats.asymm (h : OrderedSizes D) (hbeats : Beats config t tenant m other n) :
    ¬ Beats config t other n tenant m := by
  rintro (hlt | ⟨hnot, htenant⟩)
  · exact hbeats.elim (h.asymm hlt) fun hand => hand.1 hlt
  · rcases hbeats with hlt' | ⟨-, htenant'⟩
    · exact hnot hlt'
    · exact absurd (UInt32.lt_trans htenant htenant') (UInt32.lt_irrefl _)

/-! ## The loop over the tenants -/

/-- One round of the loop of `PickQuotaVictimLocked`. -/
def worseTenant (amount : UInt32 → D) (worst : D × Finset VictimOrder)
    (e : UInt32 × Finset VictimOrder) : D × Finset VictimOrder :=
  if e.2 = ∅ then worst
  else if amount e.1 > worst.1 then (amount e.1, e.2) else worst

/-- The loop ends with the first tenant whose excess is maximal, or as it started. -/
theorem foldl_worseTenant (h : OrderedSizes D) (amount : UInt32 → D)
    (l : List (UInt32 × Finset VictimOrder)) (hl : l.Pairwise fun a b => a.1 < b.1) :
    l.foldl (worseTenant amount) (0, ∅) = (0, ∅) ∧
        (∀ e ∈ l, e.2 ≠ ∅ → ¬ (0 : D) < amount e.1) ∨
      ∃ e ∈ l, e.2 ≠ ∅ ∧ l.foldl (worseTenant amount) (0, ∅) = (amount e.1, e.2) ∧
        (0 : D) < amount e.1 ∧ ∀ e' ∈ l, e'.2 ≠ ∅ → e'.1 ≠ e.1 →
          amount e'.1 < amount e.1 ∨ ¬ amount e.1 < amount e'.1 ∧ e.1 < e'.1 := by
  induction l using List.reverseRecOn with
  | nil => exact .inl ⟨rfl, fun e he => absurd he List.not_mem_nil⟩
  | append_singleton l x ih =>
    obtain ⟨hinit, -, hbelow⟩ := List.pairwise_append.mp hl
    have hlt (e : UInt32 × Finset VictimOrder) (he : e ∈ l) : e.1 < x.1 :=
      hbelow e he x List.mem_cons_self
    have hcases {P : UInt32 × Finset VictimOrder → Prop} (hall : ∀ e ∈ l, P e) (hx : P x) :
        ∀ e ∈ l ++ [x], P e := fun e he =>
      (List.mem_append.mp he).elim (hall e) fun he => List.mem_singleton.mp he ▸ hx
    rw [List.foldl_append, List.foldl_cons, List.foldl_nil]
    rcases ih hinit with ⟨hfold, hnone⟩ | ⟨e, he, hne, hfold, hpos, hmax⟩
    · rw [hfold, worseTenant]
      by_cases hempty : x.2 = ∅
      · rw [if_pos hempty]
        exact .inl ⟨rfl, hcases hnone fun hne => absurd hempty hne⟩
      · rw [if_neg hempty]
        by_cases hover : amount x.1 > 0
        · rw [if_pos hover]
          refine .inr ⟨x, by simp, hempty, rfl, hover, hcases (fun e he hne _ => ?_) ?_⟩
          · exact .inl (h.not_trans (hnone e he hne) hover)
          · exact fun _ hne => absurd rfl hne
        · rw [if_neg hover]
          exact .inl ⟨rfl, hcases hnone fun _ => hover⟩
    · rw [hfold, worseTenant]
      have hmem : e ∈ l ++ [x] := List.mem_append_left _ he
      by_cases hempty : x.2 = ∅
      · rw [if_pos hempty]
        exact .inr ⟨e, hmem, hne, rfl, hpos, hcases hmax fun hne => absurd hempty hne⟩
      · rw [if_neg hempty]
        by_cases hover : amount x.1 > amount e.1
        · rw [if_pos hover]
          refine .inr ⟨x, by simp, hempty, rfl, h.trans hpos hover, hcases (fun e' he' hne' _ => ?_)
            fun _ hne => absurd rfl hne⟩
          by_cases hsame : e'.1 = e.1
          · rw [hsame]
            exact .inl hover
          · rcases hmax e' he' hne' hsame with hlt' | ⟨hnot, -⟩
            · exact .inl (h.trans hlt' hover)
            · exact .inl (h.not_trans hnot hover)
        · rw [if_neg hover]
          refine .inr ⟨e, hmem, hne, rfl, hpos, hcases hmax fun _ _ => ?_⟩
          exact .inr ⟨hover, hlt e he⟩

theorem pairwise_inOrder {β : Type} (m : AList fun _ : UInt32 => β) :
    (inOrder m).Pairwise fun a b => a.1 < b.1 := by
  have hsorted : (inOrder m).Pairwise fun a b => a.1 ≤ b.1 :=
    List.pairwise_insertionSort (fun a b : UInt32 × β => a.1 ≤ b.1) _
  have hnodup : (inOrder m).Pairwise fun a b => a.1 ≠ b.1 := by
    refine ((List.perm_insertionSort _ _).pairwise_iff fun hab => Ne.symm hab).mpr ?_
    rw [List.pairwise_map]
    exact List.pairwise_map.mp m.nodupKeys
  exact (hsorted.and hnodup).imp fun ⟨hle, hne⟩ => UInt32.lt_of_le_of_ne hle hne

/-! ## The victim -/

theorem pickQuotaVictimLocked_eq_worseTenant (h : OrderedSizes D) (hinv : RepInv config s)
    (hq : config.quotaEnabledLocked = true) (t : Tier) :
    pickQuotaVictimLocked config t s =
      let worst := (inOrder (s.tenantVictimIndex t)).foldl
        (worseTenant fun tenant => excess config t tenant (tenantBytes t tenant s)) (0, ∅)
      if h : worst.2.Nonempty then some (ofLex (worst.2.min' h)).2 else none := by
  have hbytes (tenant : UInt32) :
      tenantBytes t tenant s = ((s.tenantUsed t).lookup tenant).getD 0 := by
    rw [tenantBytes, ← hinv.tenantUsed hq t tenant, tenantUsedAt]
  refine congrArg (fun worst : D × Finset VictimOrder =>
    if h : worst.2.Nonempty then some (ofLex (worst.2.min' h)).2 else none) ?_
  congr 1
  funext worst e
  unfold worseTenant excess
  simp only [hbytes]
  cases (s.tenantUsed t).lookup e.1 with
  | none => simp only [Option.getD_none, h.zero]
  | some used => rfl

omit [DoubleArith D] in
/-- The tenant of a block has it in its index. -/
theorem mem_tenantIndex (hinv : RepInv config s) (hq : config.quotaEnabledLocked = true)
    (hk : s.blocks.lookup key = some it) (ht : it.entry.tier = t) :
    ∃ index, (s.tenantVictimIndex t).lookup it.entry.tenantId = some index ∧
      toLex (it.entry.stats.lastAccessTs, key) ∈ index := by
  have hmem := (hinv.tenantIndex hq t it.entry.tenantId _ key).mpr ⟨it, hk, ⟨ht, rfl⟩, rfl⟩
  rw [tenantIndexAt] at hmem
  cases hindex : (s.tenantVictimIndex t).lookup it.entry.tenantId with
  | none =>
    rw [hindex] at hmem
    exact absurd hmem (Finset.notMem_empty _)
  | some index =>
    rw [hindex] at hmem
    exact ⟨index, rfl, hmem⟩

/-- Without a quota victim, no tenant with a block in the tier is over its share. -/
theorem NoQuotaVictim.not_overShare (hunder : NoQuotaVictim config t s) (h : OrderedSizes D)
    (hinv : RepInv config s) (hq : config.quotaEnabledLocked = true)
    (hk : s.blocks.lookup key = some it) (ht : it.entry.tier = t) :
    ¬ OverShare config t it.entry.tenantId (tenantBytes t it.entry.tenantId s) := by
  obtain ⟨index, hindex, hmem⟩ := mem_tenantIndex hinv hq hk ht
  have hnone := hunder hq
  rw [pickQuotaVictimLocked_eq_worseTenant h hinv hq] at hnone
  rcases foldl_worseTenant h (fun tenant => excess config t tenant (tenantBytes t tenant s)) _
      (pairwise_inOrder (s.tenantVictimIndex t)) with ⟨-, hall⟩ | ⟨e, -, hne, hfold, -⟩
  · exact hall (_, index) (mem_inOrder.mpr hindex) (Finset.ne_empty_of_mem hmem)
  · rw [hfold] at hnone
    dsimp only at hnone
    rw [dif_pos (Finset.nonempty_iff_ne_empty.mpr hne)] at hnone
    cases hnone

/-- The quota victim: the oldest block of its tenant, which is over its share and is served before
the other tenants. -/
structure TenantVictim (config : TierConfig D) (t : Tier) (key : BlockKey) (it : StoredBlock)
    (s : State) : Prop where
  found : s.blocks.lookup key = some it
  tier : it.entry.tier = t
  exceeds : OverShare config t it.entry.tenantId (tenantBytes t it.entry.tenantId s)
  first : ∀ k it', s.blocks.lookup k = some it' → it'.entry.tier = t →
    it'.entry.tenantId ≠ it.entry.tenantId →
      Beats config t it.entry.tenantId (tenantBytes t it.entry.tenantId s) it'.entry.tenantId
        (tenantBytes t it'.entry.tenantId s)
  oldest : ∀ k it', s.blocks.lookup k = some it' → it'.entry.tier = t →
    it'.entry.tenantId = it.entry.tenantId →
      it.entry.stats.lastAccessTs ≤ it'.entry.stats.lastAccessTs

theorem tenantVictim_of_pick (h : OrderedSizes D) (hinv : RepInv config s)
    (hq : config.quotaEnabledLocked = true) (hpick : pickQuotaVictimLocked config t s = some key) :
    ∃ it, TenantVictim config t key it s := by
  rw [pickQuotaVictimLocked_eq_worseTenant h hinv hq] at hpick
  rcases foldl_worseTenant h (fun tenant => excess config t tenant (tenantBytes t tenant s)) _
      (pairwise_inOrder (s.tenantVictimIndex t)) with
    ⟨hfold, -⟩ | ⟨⟨tenant, index⟩, hmem, hne, hfold, hpos, hmax⟩
  · rw [hfold] at hpick
    cases hpick
  · have hnonempty : index.Nonempty := Finset.nonempty_iff_ne_empty.mpr hne
    rw [hfold] at hpick
    dsimp only at hpick
    rw [dif_pos hnonempty, Option.some.injEq] at hpick
    have hat : tenantIndexAt s.tenantVictimIndex t tenant = index := by
      rw [tenantIndexAt, mem_inOrder.mp hmem, Option.getD_some]
    have hindexes := hinv.tenantIndex hq t tenant
    rw [hat] at hindexes
    obtain ⟨it, hk, ⟨ht, rfl⟩, hts⟩ := (hindexes (ofLex (index.min' hnonempty)).1
      (ofLex (index.min' hnonempty)).2).mp (index.min'_mem hnonempty)
    rw [hpick] at hk
    refine ⟨it, hk, ht, hpos, fun k it' hk' ht' hne' => ?_, fun k it' hk' ht' htenant => ?_⟩
    · obtain ⟨index', hindex', hmem'⟩ := mem_tenantIndex hinv hq hk' ht'
      exact hmax (_, index') (mem_inOrder.mpr hindex') (Finset.ne_empty_of_mem hmem') hne'
    · have hle := index.min'_le _ ((hindexes _ k).mpr ⟨it', hk', ⟨ht', htenant⟩, rfl⟩)
      exact hts.le.trans (Prod.Lex.monotone_fst _ _ hle)

end

end TieredKVCache.Storage
