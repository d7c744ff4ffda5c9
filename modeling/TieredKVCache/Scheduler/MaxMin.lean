import TieredKVCache.Lib.Proportional
import TieredKVCache.Scheduler.FairShare

/-!
# The allocation is max-min fair

`Filling` is the invariant of the loop of `AllocateFairShare` in exact arithmetic. A
proportional pass gives a tenant that stays unsatisfied its full portion, and nobody of smaller
weight more; the byte-by-byte pass runs when every portion is zero, so that the rest is smaller
than the number of tenants in it and is used up. `allocateFairShare_maxMinFair`: the loop
ends without an underflow, and what it grants is max-min fair up to one byte.
-/

namespace TieredKVCache.Scheduler

open Lib

/-! ## The passes over the items -/

section

variable {remaining : Nat} {active : ℚ} {items : List (Item ℚ)} {item : Item ℚ}

/-- The item after a proportional pass. -/
def filled (remaining : Nat) (active : ℚ) (item : Item ℚ) : Item ℚ :=
  { item with granted := item.granted + give remaining active item }

theorem give_eq : give remaining active item =
    min item.unmet (portion remaining item.demand.weight active) := by
  show min item.unmet ⌊(remaining : ℚ) * item.demand.weight / active⌋.toNat = _
  rw [Int.floor_toNat]
  rfl

theorem distribute_eq : distribute remaining active items =
    (items.map (filled remaining active), (items.map (give remaining active)).sum) := by
  induction items with
  | nil => rfl
  | cons item rest ih =>
    unfold distribute
    rw [ih]
    dsimp only
    split
    next hunmet =>
      have hgive : give remaining active item = 0 := by
        rw [give_eq, hunmet, Nat.zero_min]
      simp only [List.map_cons, List.sum_cons, filled, hgive, Nat.add_zero, Nat.zero_add]
    next => rfl

/-- A pass that gives nothing changes nothing. -/
theorem map_filled_of_give (hgive : ∀ item ∈ items, give remaining active item = 0) :
    items.map (filled remaining active) = items := by
  apply (List.map_congr_left ?_).trans (List.map_id items)
  intro item hitem
  rw [filled, hgive item hitem, Nat.add_zero, id_eq]

/-- The item is not satisfied. -/
def Wanting (item : Item ℚ) : Prop := item.granted < item.demand.demandBytes

instance : DecidablePred Wanting := fun _ => inferInstanceAs (Decidable (_ < _))

theorem activeWeight_eq :
    activeWeight items = ((items.filter Wanting).map fun item => item.demand.weight).sum := by
  have hfold (sum : ℚ) : items.foldl (fun sum item =>
      if item.granted < item.demand.demandBytes then sum + item.demand.weight else sum) sum =
      sum + ((items.filter Wanting).map fun item => item.demand.weight).sum := by
    induction items generalizing sum with
    | nil => simp
    | cons item rest ih =>
      rw [List.foldl_cons, ih]
      by_cases hwant : Wanting item
      · rw [List.filter_cons_of_pos (by simpa using hwant), List.map_cons, List.sum_cons,
          ← add_assoc]
        congr 1
        exact if_pos hwant
      · rw [List.filter_cons_of_neg (by simpa using hwant)]
        congr 1
        exact if_neg hwant
  rw [activeWeight, hfold, zero_add]

theorem give_le_unmet : give remaining active item ≤ item.unmet := by
  rw [give_eq]
  exact Nat.min_le_left _ _

theorem sum_give_filter : (items.map (give remaining active)).sum =
    ((items.filter Wanting).map (give remaining active)).sum := by
  induction items with
  | nil => rfl
  | cons item rest ih =>
    by_cases hwant : Wanting item
    · rw [List.filter_cons_of_pos (by simpa using hwant), List.map_cons, List.map_cons,
        List.sum_cons, List.sum_cons, ih]
    · have hunmet : item.unmet = 0 := Nat.sub_eq_zero_of_le (Nat.le_of_not_lt hwant)
      have hgive := @give_le_unmet remaining active item
      rw [List.filter_cons_of_neg (by simpa using hwant), List.map_cons, List.sum_cons, ih]
      omega

/-- The items of the byte-by-byte pass: an unsatisfied one may get one byte. -/
def OneMore (item item' : Item ℚ) : Prop :=
  item' = item ∨ Wanting item ∧ item' = { item with granted := item.granted + 1 }

/-- What the pass makes of a list of items. -/
structure HandedOut (items items' : List (Item ℚ)) (distributed : Nat) : Prop where
  demands_eq : items'.map Item.demand = items.map Item.demand
  oneMore : ∀ item' ∈ items', ∃ item ∈ items, OneMore item item'
  sum : (items'.map Item.granted).sum = (items.map Item.granted).sum + distributed

theorem HandedOut.cons {item' : Item ℚ} {items' : List (Item ℚ)} {distributed more : Nat}
    (h : HandedOut items items' distributed) (hone : OneMore item item')
    (hmore : item'.granted = item.granted + more) :
    HandedOut (item :: items) (item' :: items') (distributed + more) where
  demands_eq := by
    rw [List.map_cons, List.map_cons, h.demands_eq]
    rcases hone with rfl | ⟨_, rfl⟩ <;> rfl
  oneMore a' ha' := by
    rcases List.mem_cons.mp ha' with rfl | ha'
    · exact ⟨item, List.mem_cons_self, hone⟩
    · obtain ⟨a, ha, hone'⟩ := h.oneMore a' ha'
      exact ⟨a, List.mem_cons_of_mem _ ha, hone'⟩
  sum := by
    have hsum := h.sum
    simp only [List.map_cons, List.sum_cons]
    omega

theorem handedOut_refl (items : List (Item ℚ)) : HandedOut items items 0 :=
  ⟨rfl, fun item hitem => ⟨item, hitem, .inl rfl⟩, rfl⟩

/-- The pass gives one byte to each unsatisfied item, as long as there is some left. -/
theorem handOut_spec : ∃ items' remaining' distributed,
    handOut remaining items = (items', remaining', distributed) ∧
      HandedOut items items' distributed ∧ remaining' + distributed = remaining ∧
      distributed = min remaining (items.filter Wanting).length := by
  induction items generalizing remaining with
  | nil => exact ⟨[], remaining, 0, rfl, handedOut_refl [], rfl, by simp⟩
  | cons item rest ih =>
    unfold handOut
    split
    next hzero =>
      subst hzero
      exact ⟨item :: rest, 0, 0, rfl, handedOut_refl _, rfl, by simp⟩
    next hzero =>
      split
      next hwant =>
        have hwanting : Wanting item := hwant
        obtain ⟨items', remaining', distributed, heq, hitems, hrest, hcount⟩ :=
          @ih (remaining - 1)
        rw [heq, List.filter_cons_of_pos (by simpa using hwanting), List.length_cons]
        exact ⟨_, _, _, rfl, hitems.cons (.inr ⟨hwanting, rfl⟩) rfl, by omega, by omega⟩
      next hwant =>
        have hwanting : ¬ Wanting item := hwant
        obtain ⟨items', remaining', distributed, heq, hitems, hrest, hcount⟩ :=
          @ih remaining
        rw [heq, List.filter_cons_of_neg (by simpa using hwanting)]
        have hcons : HandedOut (item :: rest) (item :: items') (distributed + 0) :=
          hitems.cons (.inl rfl) rfl
        exact ⟨_, _, _, rfl, hcons, hrest, hcount⟩

end

/-! ## The invariant of the loop -/

/-- The weight of the tenants that take part. -/
def totalWeight (demands : List (TenantDemand ℚ)) : ℚ :=
  ((demands.filter takesPart).map TenantDemand.weight).sum

structure Filling (demands : List (TenantDemand ℚ)) (capacity : Nat)
    (s : List (Item ℚ) × Nat) : Prop where
  demands_eq : s.1.map Item.demand = demands.filter takesPart
  granted_le : ∀ item ∈ s.1, item.granted ≤ item.demand.demandBytes
  total : (s.1.map Item.granted).sum + s.2 = capacity
  portioned : (∀ item ∈ s.1, item.granted = 0) ∧ s.2 = capacity ∨ ∀ item ∈ s.1,
    min item.demand.demandBytes (portion capacity item.demand.weight (totalWeight demands)) ≤
      item.granted
  /-- The byte-by-byte pass, which breaks the exact order, leaves nothing over. -/
  fair : ∀ a ∈ s.1, ∀ b ∈ s.1, b.demand.weight ≤ a.demand.weight → Wanting a →
    b.granted ≤ a.granted + if s.2 = 0 then 1 else 0

/-- What the loop returns. -/
structure Filled (demands : List (TenantDemand ℚ)) (capacity : Nat) (items : List (Item ℚ)) :
    Prop where
  demands_eq : items.map Item.demand = demands.filter takesPart
  granted_le : ∀ item ∈ items, item.granted ≤ item.demand.demandBytes
  total : (items.map Item.granted).sum =
    min capacity ((demands.filter takesPart).map TenantDemand.demandBytes).sum
  portioned : ∀ item ∈ items,
    min item.demand.demandBytes (portion capacity item.demand.weight (totalWeight demands)) ≤
      item.granted
  fair : ∀ a ∈ items, ∀ b ∈ items, b.demand.weight ≤ a.demand.weight → Wanting a →
    b.granted ≤ a.granted + 1

section

variable {demands : List (TenantDemand ℚ)} {capacity remaining : Nat} {items : List (Item ℚ)}

theorem positive_of_takesPart (h : items.map Item.demand = demands.filter takesPart)
    {item : Item ℚ} (hitem : item ∈ items) :
    0 < item.demand.demandBytes ∧ 0 < item.demand.weight := by
  have hmem : item.demand ∈ demands.filter takesPart := h ▸ List.mem_map_of_mem hitem
  simpa [takesPart] using (List.mem_filter.mp hmem).2

theorem Filling.positive (h : Filling demands capacity (items, remaining)) {item : Item ℚ}
    (hitem : item ∈ items) : 0 < item.demand.demandBytes ∧ 0 < item.demand.weight :=
  positive_of_takesPart h.demands_eq hitem

/-- The loop ends when the capacity is used up or every item is satisfied. -/
theorem Filling.finish (h : Filling demands capacity (items, remaining))
    (hend : remaining = 0 ∨ ∀ item ∈ items, ¬ Wanting item) : Filled demands capacity items := by
  have hdemands : ((demands.filter takesPart).map TenantDemand.demandBytes) =
      items.map fun item => item.demand.demandBytes := by
    rw [← h.demands_eq, List.map_map]
    rfl
  have hle : (items.map Item.granted).sum ≤
      (items.map fun item => item.demand.demandBytes).sum := List.sum_le_sum h.granted_le
  have htotal : (items.map Item.granted).sum + remaining = capacity := h.total
  refine
    { demands_eq := h.demands_eq, granted_le := h.granted_le, total := ?total
      portioned := ?portioned, fair := ?fair }
  case total =>
    rw [hdemands]
    rcases hend with hzero | hall
    · omega
    · have hsum : items.map Item.granted = items.map fun item => item.demand.demandBytes := by
        apply List.map_congr_left
        intro item hitem
        exact Nat.le_antisymm (h.granted_le item hitem) (Nat.le_of_not_lt (hall item hitem))
      rw [← hsum]
      omega
  case portioned =>
    intro item hitem
    rcases h.portioned with ⟨hnone, hcapacity⟩ | hportioned
    · rcases hend with hzero | hall
      · change remaining = capacity at hcapacity
        rw [← hcapacity, hzero, portion_zero, Nat.min_zero]
        exact Nat.zero_le _
      · have hwant : Wanting item := by
          unfold Wanting
          rw [hnone item hitem]
          exact (h.positive hitem).1
        exact absurd hwant (hall item hitem)
    · exact hportioned item hitem
  case fair =>
    intro a ha b hb hw hwant
    have hfair := h.fair a ha b hb hw hwant
    split at hfair <;> omega

theorem Filling.activeWeight_pos (h : Filling demands capacity (items, remaining)) {item : Item ℚ}
    (hitem : item ∈ items) (hwant : Wanting item) : 0 < activeWeight items := by
  rw [activeWeight_eq]
  apply List.sum_pos
  · intro w hw
    obtain ⟨a, ha, rfl⟩ := List.mem_map.mp hw
    exact (h.positive (List.mem_filter.mp ha).1).2
  · intro hnil
    have hmem : item ∈ items.filter Wanting := List.mem_filter.mpr ⟨hitem, by simpa using hwant⟩
    rw [List.map_eq_nil_iff.mp hnil] at hmem
    cases hmem

/-- Before the first pass every item is unsatisfied. -/
theorem Filling.activeWeight_first (h : Filling demands capacity (items, remaining))
    (hnone : ∀ item ∈ items, item.granted = 0) : activeWeight items = totalWeight demands := by
  have hall : items.filter Wanting = items := by
    rw [List.filter_eq_self]
    intro item hitem
    have hpos := (h.positive hitem).1
    simpa [Wanting, hnone item hitem] using hpos
  rw [activeWeight_eq, hall, totalWeight, ← h.demands_eq, List.map_map]
  rfl

/-- A proportional pass distributes no more than there is. -/
theorem Filling.distributed_le (h : Filling demands capacity (items, remaining)) :
    (items.map (give remaining (activeWeight items))).sum ≤ remaining := by
  rw [sum_give_filter, activeWeight_eq]
  refine Nat.le_trans (List.sum_le_sum ?_) (sum_portion_le remaining (items.filter Wanting)
    (fun item => item.demand.weight) ?_)
  · intro item _
    rw [give_eq]
    exact Nat.min_le_right _ _
  · intro item hitem
    exact (h.positive (List.mem_filter.mp hitem).1).2.le

/-- An item that is still unsatisfied after a proportional pass got its full portion. -/
theorem give_of_wanting {active : ℚ} {item : Item ℚ}
    (hwant : Wanting (filled remaining active item)) :
    give remaining active item = portion remaining item.demand.weight active := by
  have hlt : item.granted + give remaining active item < item.demand.demandBytes := hwant
  rw [give_eq] at hlt ⊢
  unfold Item.unmet at hlt ⊢
  omega

theorem Filling.pass (h : Filling demands capacity (items, remaining)) (hrest : remaining ≠ 0)
    (hactive : 0 < activeWeight items) :
    Filling demands capacity (items.map (filled remaining (activeWeight items)),
      remaining - (items.map (give remaining (activeWeight items))).sum) := by
  have hdistributed := h.distributed_le
  have htotal : (items.map Item.granted).sum + remaining = capacity := h.total
  refine
    { demands_eq := ?demands_eq, granted_le := ?granted_le, total := ?total
      portioned := .inr ?portioned, fair := ?fair }
  case demands_eq =>
    rw [List.map_map]
    exact h.demands_eq
  case granted_le =>
    intro item' hitem'
    obtain ⟨item, hitem, rfl⟩ := List.mem_map.mp hitem'
    have hle := h.granted_le item hitem
    have hgive := @give_le_unmet remaining (activeWeight items) item
    show item.granted + give remaining (activeWeight items) item ≤ item.demand.demandBytes
    unfold Item.unmet at hgive
    omega
  case total =>
    have hsum : ((items.map (filled remaining (activeWeight items))).map Item.granted).sum =
        (items.map Item.granted).sum + (items.map (give remaining (activeWeight items))).sum := by
      rw [List.map_map, ← List.sum_map_add]
      rfl
    dsimp only
    omega
  case portioned =>
    intro item' hitem'
    obtain ⟨item, hitem, rfl⟩ := List.mem_map.mp hitem'
    show min item.demand.demandBytes _ ≤ item.granted + give remaining (activeWeight items) item
    rcases h.portioned with ⟨hnone, hcapacity⟩ | hportioned
    · change remaining = capacity at hcapacity
      rw [give_eq, Item.unmet, hnone item hitem, h.activeWeight_first hnone, hcapacity,
        Nat.sub_zero, Nat.zero_add]
      rfl
    · exact (hportioned item hitem).trans (Nat.le_add_right _ _)
  case fair =>
    intro a' ha' b' hb' hw hwant
    obtain ⟨a, ha, rfl⟩ := List.mem_map.mp ha'
    obtain ⟨b, hb, rfl⟩ := List.mem_map.mp hb'
    have hgive := give_of_wanting hwant
    have hwanting : Wanting a := Nat.lt_of_le_of_lt (Nat.le_add_right _ _) hwant
    have hfair := h.fair a ha b hb hw hwanting
    rw [if_neg hrest] at hfair
    have hportion : give remaining (activeWeight items) b ≤
        portion remaining a.demand.weight (activeWeight items) := by
      rw [give_eq]
      exact (Nat.min_le_right _ _).trans (portion_mono hw hactive.le)
    show b.granted + _ ≤ a.granted + give remaining (activeWeight items) a + _
    omega

/-- Where a proportional pass gives nothing, there is less left than unsatisfied items. -/
theorem lt_wanting (hactive : 0 < activeWeight items)
    (hzero : (items.map (give remaining (activeWeight items))).sum = 0) :
    remaining < (items.filter Wanting).length := by
  rw [activeWeight_eq] at hactive
  apply amount_lt_length remaining _ (fun item => item.demand.weight) ?_ hactive
  · intro item hitem
    have hgive : give remaining (activeWeight items) item = 0 :=
      List.sum_eq_zero_iff.mp hzero _ (List.mem_map_of_mem (List.mem_filter.mp hitem).1)
    have hwant : Wanting item := by simpa using (List.mem_filter.mp hitem).2
    rw [give_eq, activeWeight_eq] at hgive
    unfold Item.unmet Wanting at *
    omega
  · intro hnil
    rw [hnil] at hactive
    exact absurd hactive (by simp)

/-- The byte-by-byte pass uses up what is left. -/
theorem Filling.bytes (h : Filling demands capacity (items, remaining)) (hrest : remaining ≠ 0)
    {items' : List (Item ℚ)} (hitems : HandedOut items items' remaining)
    (hportion : ∀ item ∈ items, Wanting item →
      portion remaining item.demand.weight (activeWeight items) = 0) :
    Filling demands capacity (items', 0) := by
  have htotal : (items.map Item.granted).sum + remaining = capacity := h.total
  refine
    { demands_eq := hitems.demands_eq.trans h.demands_eq, granted_le := ?granted_le
      total := hitems.sum.trans htotal, portioned := .inr ?portioned, fair := ?fair }
  case granted_le =>
    intro item' hitem'
    obtain ⟨item, hitem, rfl | ⟨hwant, rfl⟩⟩ := hitems.oneMore item' hitem'
    · exact h.granted_le _ hitem
    · exact hwant
  case portioned =>
    intro item' hitem'
    obtain ⟨item, hitem, hone⟩ := hitems.oneMore item' hitem'
    have hle : min item.demand.demandBytes (portion capacity item.demand.weight
        (totalWeight demands)) ≤ item.granted := by
      rcases h.portioned with ⟨hnone, hcapacity⟩ | hportioned
      · change remaining = capacity at hcapacity
        have hwant : Wanting item := by
          unfold Wanting
          rw [hnone item hitem]
          exact (h.positive hitem).1
        have hzero := hportion item hitem hwant
        rw [hcapacity, h.activeWeight_first hnone] at hzero
        rw [hzero, Nat.min_zero]
        exact Nat.zero_le _
      · exact hportioned item hitem
    rcases hone with rfl | ⟨_, rfl⟩
    · exact hle
    · exact hle.trans (Nat.le_succ _)
  case fair =>
    intro a' ha' b' hb' hw hwant
    obtain ⟨a, ha, hone⟩ := hitems.oneMore a' ha'
    obtain ⟨b, hb, hone'⟩ := hitems.oneMore b' hb'
    have hwanting : Wanting a := by
      rcases hone with rfl | ⟨hwanting, _⟩
      · exact hwant
      · exact hwanting
    have hweight : b.demand.weight ≤ a.demand.weight := by
      rcases hone with rfl | ⟨_, rfl⟩ <;> rcases hone' with rfl | ⟨_, rfl⟩ <;> exact hw
    have hfair := h.fair a ha b hb hweight hwanting
    have hge : a.granted ≤ a'.granted := by
      rcases hone with rfl | ⟨_, rfl⟩
      · exact Nat.le_refl _
      · exact Nat.le_succ _
    have hle : b'.granted ≤ b.granted + 1 := by
      rcases hone' with rfl | ⟨_, rfl⟩
      · exact Nat.le_succ _
      · exact Nat.le_refl _
    rw [if_neg hrest] at hfair
    rw [if_pos rfl]
    omega

/-- One round of the loop. -/
theorem fillBody_round (s : List (Item ℚ) × Nat) (h : Filling demands capacity s) :
    Round fillBody (Filling demands capacity) Prod.snd (Filled demands capacity) s := by
  obtain ⟨items, remaining⟩ := s
  unfold Round fillBody
  dsimp only
  by_cases hrest : remaining = 0
  · rw [if_pos hrest]
    exact .inr ⟨items, rfl, h.finish (.inl hrest)⟩
  · rw [if_neg hrest]
    by_cases hactive : activeWeight items ≤ 0
    · rw [if_pos hactive]
      refine .inr ⟨items, rfl, h.finish (.inr ?_)⟩
      intro item hitem hwant
      exact absurd hactive (not_le.mpr (h.activeWeight_pos hitem hwant))
    · have hpos := not_le.mp hactive
      have hdistributed := h.distributed_le
      rw [if_neg hactive, distribute_eq]
      dsimp only
      by_cases hzero : (items.map (give remaining (activeWeight items))).sum = 0
      · have hgive : ∀ item ∈ items, give remaining (activeWeight items) item = 0 :=
          fun item hitem => List.sum_eq_zero_iff.mp hzero _ (List.mem_map_of_mem hitem)
        have hsame : items.map (filled remaining (activeWeight items)) = items :=
          map_filled_of_give hgive
        obtain ⟨items', remaining', distributed, heq, hitems, hsum, hcount⟩ :=
          @handOut_spec remaining items
        have hlt := lt_wanting hpos hzero
        rw [Nat.min_eq_left hlt.le] at hcount
        subst hcount
        obtain rfl : remaining' = 0 := by omega
        rw [if_pos hzero, hsame, heq]
        dsimp only
        rw [if_neg hrest]
        refine .inl ⟨_, rfl, h.bytes hrest hitems ?_, Nat.pos_of_ne_zero hrest⟩
        intro item hitem hwant
        have hunmet := hgive item hitem
        rw [give_eq] at hunmet
        unfold Item.unmet Wanting at *
        omega
      · rw [if_neg hzero, if_neg (Nat.not_lt_of_le hdistributed)]
        refine .inl ⟨_, rfl, h.pass hrest hpos, ?_⟩
        dsimp only
        omega

end

/-! ## The allocation -/

/-- The bytes granted to a tenant. -/
def Allocation.grantOf (a : Allocation) (tenant : TenantId) : Nat :=
  (a.grants.lookup tenant).getD 0

/-- Weighted max-min fairness up to one byte. -/
structure MaxMinFair (demands : List (TenantDemand ℚ)) (capacity : Nat) (a : Allocation) :
    Prop where
  grant_le : ∀ d ∈ demands, a.grantOf d.tenant ≤ d.demandBytes
  weightless : ∀ d ∈ demands, d.weight ≤ 0 → a.grantOf d.tenant = 0
  /-- Nothing is left over while a tenant wants more. -/
  total : sumOver (fun _ granted => granted) a.grants =
    min capacity ((demands.filter fun d => 0 < d.weight).map TenantDemand.demandBytes).sum
  share : ∀ d ∈ demands, 0 < d.weight →
    min d.demandBytes ⌊(capacity : ℚ) * d.weight / totalWeight demands⌋₊ ≤ a.grantOf d.tenant
  fair : ∀ d ∈ demands, ∀ e ∈ demands, 0 < e.weight → e.weight ≤ d.weight →
    a.grantOf d.tenant < d.demandBytes → a.grantOf e.tenant ≤ a.grantOf d.tenant + 1

section

variable {demands : List (TenantDemand ℚ)} {capacity : Nat} {items : List (Item ℚ)}

theorem filling_start (demands : List (TenantDemand ℚ)) (capacity : Nat) :
    Filling demands capacity
      ((demands.filter takesPart).map fun demand => { demand }, capacity) where
  demands_eq := by
    rw [List.map_map]
    exact List.map_id _
  granted_le item hitem := by
    obtain ⟨d, _, rfl⟩ := List.mem_map.mp hitem
    exact Nat.zero_le _
  total := by
    rw [List.sum_eq_zero, Nat.zero_add]
    intro granted hgranted
    rw [List.map_map] at hgranted
    obtain ⟨d, _, rfl⟩ := List.mem_map.mp hgranted
    rfl
  portioned := by
    refine .inl ⟨?_, rfl⟩
    intro item hitem
    obtain ⟨d, _, rfl⟩ := List.mem_map.mp hitem
    rfl
  fair a _ b hb _ _ := by
    obtain ⟨d, _, rfl⟩ := List.mem_map.mp hb
    exact Nat.zero_le _

/-- The map of grants that the items fill in. -/
def grantsOf (demands : List (TenantDemand ℚ)) (items : List (Item ℚ)) :
    AList fun _ : TenantId => Nat :=
  items.foldl (fun grants item => grants.insert item.demand.tenant item.granted)
    (demands.foldl (fun grants demand => grants.insert demand.tenant 0) ∅)

theorem Filled.tenants_nodup (h : Filled demands capacity items)
    (hdistinct : (demands.map TenantDemand.tenant).Nodup) :
    (items.map fun item => item.demand.tenant).Nodup := by
  have htenants : items.map (fun item => item.demand.tenant) =
      (demands.filter takesPart).map TenantDemand.tenant := by
    rw [← h.demands_eq, List.map_map]
    rfl
  rw [htenants]
  exact hdistinct.sublist (List.filter_sublist.map _)

theorem Filled.grantOf_item (h : Filled demands capacity items)
    (hdistinct : (demands.map TenantDemand.tenant).Nodup) {item : Item ℚ} (hitem : item ∈ items) :
    Allocation.grantOf ⟨grantsOf demands items⟩ item.demand.tenant = item.granted := by
  unfold Allocation.grantOf grantsOf
  dsimp only
  rw [lookup_insertAll (h.tenants_nodup hdistinct) hitem, Option.getD_some]

/-- A tenant that takes no part keeps the zero it was given first. -/
theorem Filled.grantOf_other (h : Filled demands capacity items)
    (hdistinct : (demands.map TenantDemand.tenant).Nodup) {d : TenantDemand ℚ} (hd : d ∈ demands)
    (hnot : takesPart d = false) :
    Allocation.grantOf ⟨grantsOf demands items⟩ d.tenant = 0 := by
  unfold Allocation.grantOf grantsOf
  rw [lookup_insertAll_of_notMem, lookup_insertAll hdistinct hd, Option.getD_some]
  intro item hitem heq
  have hmem : item.demand ∈ demands.filter takesPart := h.demands_eq ▸ List.mem_map_of_mem hitem
  obtain ⟨hmem, hpart⟩ := List.mem_filter.mp hmem
  rw [← List.inj_on_of_nodup_map hdistinct hd hmem heq, hnot] at hpart
  cases hpart

theorem Filled.sumOver_grants (h : Filled demands capacity items)
    (hdistinct : (demands.map TenantDemand.tenant).Nodup) :
    sumOver (fun _ granted => granted) (grantsOf demands items) =
      (items.map Item.granted).sum := by
  unfold grantsOf
  rw [sumOver_insertAll (h.tenants_nodup hdistinct), sumOver_insertAll hdistinct (by simp)]
  · simp [sumOver]
  · intro item hitem granted hgranted
    have hmem : item.demand ∈ demands.filter takesPart := h.demands_eq ▸ List.mem_map_of_mem hitem
    rw [lookup_insertAll hdistinct (List.mem_filter.mp hmem).1] at hgranted
    exact (Option.some.inj hgranted).symm

/-- A tenant that wants nothing adds nothing to the demand. -/
theorem sum_takesPart (demands : List (TenantDemand ℚ)) :
    ((demands.filter takesPart).map TenantDemand.demandBytes).sum =
      ((demands.filter fun d => 0 < d.weight).map TenantDemand.demandBytes).sum := by
  induction demands with
  | nil => rfl
  | cons d rest ih =>
    by_cases hw : 0 < d.weight
    · by_cases hd : 0 < d.demandBytes
      · simp [takesPart, hw, hd, ih]
      · simp [takesPart, hw, Nat.eq_zero_of_not_pos hd, ih]
    · simp [takesPart, hw, ih]

theorem Filled.maxMinFair (h : Filled demands capacity items)
    (hdistinct : (demands.map TenantDemand.tenant).Nodup) :
    MaxMinFair demands capacity ⟨grantsOf demands items⟩ := by
  have hcases : ∀ d ∈ demands, (∃ item ∈ items, item.demand = d ∧
      Allocation.grantOf ⟨grantsOf demands items⟩ d.tenant = item.granted) ∨
        (d.demandBytes = 0 ∨ d.weight ≤ 0) ∧
          Allocation.grantOf ⟨grantsOf demands items⟩ d.tenant = 0 := by
    intro d hd
    cases hpart : takesPart d with
    | true =>
      have hmem : d ∈ items.map Item.demand :=
        h.demands_eq ▸ List.mem_filter.mpr ⟨hd, hpart⟩
      obtain ⟨item, hitem, rfl⟩ := List.mem_map.mp hmem
      exact .inl ⟨item, hitem, rfl, h.grantOf_item hdistinct hitem⟩
    | false =>
      refine .inr ⟨?_, h.grantOf_other hdistinct hd hpart⟩
      simp only [takesPart, Bool.and_eq_false_iff, decide_eq_false_iff_not, not_lt] at hpart
      exact hpart.imp_left Nat.le_zero.mp
  refine
    { grant_le := ?grant_le, weightless := ?weightless, total := ?total, share := ?share
      fair := ?fair }
  case grant_le =>
    intro d hd
    rcases hcases d hd with ⟨item, hitem, rfl, hgrant⟩ | ⟨_, hgrant⟩
    · exact hgrant ▸ h.granted_le item hitem
    · exact hgrant ▸ Nat.zero_le _
  case weightless =>
    intro d hd hw
    rcases hcases d hd with ⟨item, hitem, rfl, _⟩ | ⟨_, hgrant⟩
    · exact absurd hw (not_le.mpr (positive_of_takesPart h.demands_eq hitem).2)
    · exact hgrant
  case total => rw [h.sumOver_grants hdistinct, h.total, sum_takesPart]
  case share =>
    intro d hd hw
    rcases hcases d hd with ⟨item, hitem, rfl, hgrant⟩ | ⟨hnot, hgrant⟩
    · exact hgrant ▸ h.portioned item hitem
    · rw [hnot.resolve_right (not_le.mpr hw), Nat.zero_min]
      exact Nat.zero_le _
  case fair =>
    intro d hd e he hwe hw hwant
    rcases hcases e he with ⟨b, hb, rfl, hgrantb⟩ | ⟨_, hgrantb⟩
    · rcases hcases d hd with ⟨a, ha, rfl, hgranta⟩ | ⟨hnot, hgranta⟩
      · rw [hgranta] at hwant ⊢
        rw [hgrantb]
        exact h.fair a ha b hb hw hwant
      · rcases hnot with hzero | hweight
        · omega
        · exact absurd hweight (not_le.mpr (hwe.trans_le hw))
    · omega

end

theorem allocateFairShare_maxMinFair (demands : List (TenantDemand ℚ)) (totalCapacityBytes : Nat)
    (hdistinct : (demands.map TenantDemand.tenant).Nodup) :
    Returns (allocateFairShare demands totalCapacityBytes)
      (MaxMinFair demands totalCapacityBytes) := by
  apply (iterate_returns (Filling demands totalCapacityBytes) Prod.snd fillBody_round
    (filling_start demands totalCapacityBytes) (Nat.lt_succ_self _)).bind
  intro items hfilled
  exact returns_ok (hfilled.maxMinFair hdistinct)

def twoTenants : List (TenantDemand ℚ) := [⟨⟨"a"⟩, 10, 1⟩, ⟨⟨"b"⟩, 3, 1⟩]

theorem allocateFairShare_maxMinFair_twoTenants :
    Returns (allocateFairShare twoTenants 9) (MaxMinFair twoTenants 9) :=
  allocateFairShare_maxMinFair twoTenants 9 (by decide)

end TieredKVCache.Scheduler
