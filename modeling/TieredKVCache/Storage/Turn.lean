import TieredKVCache.Lib.Queue
import TieredKVCache.Storage.Enforce

/-!
# The turn of a block in the fastest tier

A block that enters the fastest tier waits in its queue with frequency zero, so it is a
victim when the scan comes to the first entry of its key. Which blocks are still there at
that moment is settled when it enters: `restMain` and `restSmall` are the bytes of the tier
that are left at its turn, for an entry of the main and of the small queue. No step before
the turn changes them, and at the turn they are all the bytes of the tier.

The blocks are those of the tier without the waiting one, so that the two functions give
the same before and after it enters.
-/

namespace TieredKVCache.Storage

open Lib

section

variable {D : Type} (config : TierConfig D) (fast : Tier)

/-- The bytes of the small queue from the first entry of `k` on. -/
def smallFrom (small : List BlockKey) (blocks : AList fun _ : BlockKey => StoredBlock)
    (k : BlockKey) : Nat :=
  bytesOf (fun z it => InSmall config it ∧ z ∉ before small k) blocks

/-- Whether a block is evicted before the turn of `x` in the main queue. A block of the main
queue is, if it occurs in front of `x` more often than it has second chances. A block of the
small queue is served while the queue is over its budget from there on, and then it is
evicted at once or, moved to the main queue, at an old entry of its key in front of `x`. -/
def SpentBefore (x : BlockKey) (small main : List BlockKey)
    (blocks : AList fun _ : BlockKey => StoredBlock) (k : BlockKey) (it : StoredBlock) : Prop :=
  it.s3InMain = true ∧ it.s3Freq < (before main x).count k ∨
    it.s3InMain = false ∧ config.capacityOf fast / 10 < smallFrom config small blocks k ∧
      (it.s3Freq = 0 ∨ k ∈ before main x)

instance (x : BlockKey) (small main : List BlockKey)
    (blocks : AList fun _ : BlockKey => StoredBlock) (k : BlockKey) (it : StoredBlock) :
    Decidable (SpentBefore config fast x small main blocks k it) :=
  inferInstanceAs (Decidable (_ ∧ _ ∨ _ ∧ _))

/-- The bytes of the other blocks that are left at the turn of `x` in the main queue. -/
def restMain (x : BlockKey) (small main : List BlockKey)
    (blocks : AList fun _ : BlockKey => StoredBlock) : Nat :=
  bytesOf (fun k it => it.entry.tier = fast ∧
    ¬ SpentBefore config fast x small main blocks k it) blocks

/-- The bytes that are left at the turn of `x` in the small queue. Where the queue is over
its budget from `x` on, they are all but the blocks that are used once and in front of `x`;
otherwise the main queue is emptied first. -/
def restSmall (x : BlockKey) (size : Nat) (small : List BlockKey)
    (blocks : AList fun _ : BlockKey => StoredBlock) : Nat :=
  if config.capacityOf fast / 10 < size + smallFrom config small blocks x then
    size + bytesOf (fun k it => it.entry.tier = fast ∧
      ¬ (it.s3InMain = false ∧ k ∈ before small x ∧ it.s3Freq = 0)) blocks
  else size + smallFrom config small blocks x

end

section

variable {D : Type} {config : TierConfig D} {fast : Tier} {x g k : BlockKey}
  {small main rest : List BlockKey} {blocks : AList fun _ : BlockKey => StoredBlock}
  {it : StoredBlock}

theorem InSmall.not_inMain (h : InSmall config it) : ¬ InMain config it := by
  intro hmain
  cases h.2.symm.trans hmain.2

/-! ## Pops and the small queue -/

/-- Popping an entry that is not of the small queue any more. -/
theorem smallFrom_pop_stale (hk : g ≠ k)
    (hstale : ∀ it, blocks.lookup g = some it → ¬ InSmall config it) :
    smallFrom config rest blocks k = smallFrom config (g :: rest) blocks k := by
  refine bytesOf_congr fun z it hz => and_congr_right fun hsmall => not_congr ?_
  refine (mem_before_cons rest hk ?_).symm
  intro heq
  subst heq
  exact hstale it hz hsmall

/-- Popping a block that moves to the main queue. -/
theorem smallFrom_pop_replace (it' : StoredBlock) (hk : g ≠ k) (h : blocks.lookup g = some it)
    (hsize : it'.entry.sizeBytes = it.entry.sizeBytes) (hout : ¬ InSmall config it') :
    smallFrom config rest (blocks.insert g it') k = smallFrom config (g :: rest) blocks k := by
  refine bytesOf_replace h hsize (iff_of_false ?_ ?_) ?_
  · exact fun hp => hout hp.1
  · exact fun hp => hp.2 (head_mem_before rest hk)
  · intro z it hz _
    rw [mem_before_cons rest hk hz]

/-- Popping a block that is evicted. -/
theorem smallFrom_pop_drop (hk : g ≠ k) (h : blocks.lookup g = some it) :
    smallFrom config rest (blocks.erase g) k = smallFrom config (g :: rest) blocks k := by
  refine bytesOf_drop h ?_ ?_
  · exact fun hp => hp.2 (head_mem_before rest hk)
  · intro z it hz _
    rw [mem_before_cons rest hk hz]

theorem smallFrom_replace_main (it' : StoredBlock) (h : blocks.lookup g = some it)
    (hsize : it'.entry.sizeBytes = it.entry.sizeBytes) (hmain : InMain config it)
    (hmain' : InMain config it') :
    smallFrom config small (blocks.insert g it') k = smallFrom config small blocks k := by
  refine bytesOf_replace h hsize (iff_of_false ?_ ?_) ?_
  · exact fun hp => hp.1.not_inMain hmain'
  · exact fun hp => hp.1.not_inMain hmain
  · exact fun _ _ _ _ => Iff.rfl

theorem smallFrom_drop_main (h : blocks.lookup g = some it) (hmain : InMain config it) :
    smallFrom config small (blocks.erase g) k = smallFrom config small blocks k := by
  refine bytesOf_drop h ?_ ?_
  · exact fun hp => hp.1.not_inMain hmain
  · exact fun _ _ _ _ => Iff.rfl

/-! ## Spent blocks -/

theorem spentBefore_of_inMain (hmain : it.s3InMain = true) :
    SpentBefore config fast x small main blocks k it ↔ it.s3Freq < (before main x).count k := by
  simp [SpentBefore, hmain]

theorem spentBefore_of_inSmall (hsmall : it.s3InMain = false) :
    SpentBefore config fast x small main blocks k it ↔
      config.capacityOf fast / 10 < smallFrom config small blocks k ∧
        (it.s3Freq = 0 ∨ k ∈ before main x) := by
  simp [SpentBefore, hsmall]

theorem SpentBefore.congr {small' main' : List BlockKey}
    {blocks' : AList fun _ : BlockKey => StoredBlock}
    (hmain : it.s3InMain = true → (before main' x).count k = (before main x).count k)
    (hsmall : it.s3InMain = false →
      (config.capacityOf fast / 10 < smallFrom config small' blocks' k ∧
          (it.s3Freq = 0 ∨ k ∈ before main' x) ↔
        config.capacityOf fast / 10 < smallFrom config small blocks k ∧
          (it.s3Freq = 0 ∨ k ∈ before main x))) :
    SpentBefore config fast x small' main' blocks' k it ↔
      SpentBefore config fast x small main blocks k it := by
  cases hin : it.s3InMain with
  | true => rw [spentBefore_of_inMain hin, spentBefore_of_inMain hin, hmain hin]
  | false => rw [spentBefore_of_inSmall hin, spentBefore_of_inSmall hin, hsmall hin]

end

section

variable {D : Type} {config : TierConfig D} {fast : Tier} {x g k : BlockKey}
  {itx it : StoredBlock} {s s' : State}

/-- The blocks other than the waiting one. -/
theorem lookup_others (hk : (s.blocks.erase x).lookup k = some it) :
    s.blocks.lookup k = some it :=
  (lookup_erase_eq_some.mp hk).2

/-- The scan does not touch a block of frequency zero before it is the victim. -/
theorem S3Step.waiting (h : S3Step config fast s (.inl s'))
    (hx : s.blocks.lookup x = some itx) (hfreq : itx.s3Freq = 0) :
    s'.blocks.lookup x = some itx := by
  have hother {key : BlockKey} {it it' : StoredBlock} (h : s.blocks.lookup key = some it)
      (hpos : 0 < it.s3Freq) : (s.blocks.insert key it').lookup x = some itx := by
    refine (AList.lookup_insert_ne ?_).trans hx
    intro heq
    subst heq
    cases h.symm.trans hx
    omega
  cases h with
  | staleSmall => exact hx
  | staleMain => exact hx
  | promote hfrom hq h hlive hpos => exact hother h hpos
  | second hfrom hq h hlive hpos => exact hother h hpos

/-- While the main queue is served, no block of the small queue is over the budget. -/
theorem not_over_of_not_fromSmall (hinv : RepInv config s) (hfrom : ¬ FromSmall config fast s)
    (hk : (s.blocks.erase x).lookup k = some it) (hsmall : InSmall config it) :
    ¬ config.capacityOf fast / 10 < smallFrom config s.s3SmallFifo (s.blocks.erase x) k := by
  intro hover
  refine hfrom (.inl ⟨Nat.lt_of_lt_of_le hover ?_, ?_⟩)
  · rw [hinv.smallUsed]
    refine Nat.le_trans (bytesOf_le fun _ _ _ hp => hp.1) ?_
    cases hx : s.blocks.lookup x with
    | none => rw [erase_of_lookup_none hx]
    | some itx =>
      rw [bytesOf_erase hx]
      exact Nat.le_add_left _ _
  · exact List.ne_nil_of_mem (hinv.mem_small (lookup_others hk) hsmall (by simp))

/-! ## Waiting in the main queue -/

/-- The bytes of the other blocks left at the turn of `x` in the main queue. -/
def restMainAt (config : TierConfig D) (fast : Tier) (x : BlockKey) (s : State) : Nat :=
  restMain config fast x s.s3SmallFifo s.s3MainFifo (s.blocks.erase x)

/-- At the head of the small queue a block sees all its bytes behind it. -/
theorem smallFrom_head {rest : List BlockKey} (hinv : RepInv config s)
    (hx : s.blocks.lookup x = some itx) (hmain : InMain config itx) :
    smallFrom config (g :: rest) (s.blocks.erase x) g = s.s3SmallUsedBytes := by
  rw [hinv.smallUsed, bytesOf_erase hx, if_neg (fun h => h.not_inMain hmain), Nat.zero_add]
  refine bytesOf_congr fun z it _ => ?_
  simp

theorem over_of_fromSmall (hinv : RepInv config s) (hfrom : FromSmall config fast s)
    (hx : s.blocks.lookup x = some itx) (hmain : InMain config itx) {rest : List BlockKey}
    (hq : s.s3SmallFifo = g :: rest) :
    config.capacityOf fast / 10 < smallFrom config s.s3SmallFifo (s.blocks.erase x) g := by
  rw [hq, smallFrom_head hinv hx hmain]
  rcases hfrom with hover | hnil
  · exact hover.1
  · have hmem := hinv.mem_main hx hmain (by simp)
    rw [hnil] at hmem
    cases hmem

theorem S3Step.restMainAt_eq (hfast : config.fastestTierCache = some fast)
    (hinv : RepInv config s) (hx : s.blocks.lookup x = some itx) (hmain : InMain config itx)
    (hfreq : itx.s3Freq = 0) (h : S3Step config fast s (.inl s')) :
    restMainAt config fast x s' = restMainAt config fast x s := by
  have hmem : x ∈ s.s3MainFifo := hinv.mem_main hx hmain (by simp)
  have hlive {it : StoredBlock} (ht : it.entry.tier = fast) (hin : it.s3InMain = false) :
      InSmall config it := ⟨ht ▸ hfast, hin⟩
  have hlive' {it : StoredBlock} (ht : it.entry.tier = fast) (hin : it.s3InMain = true) :
      InMain config it := ⟨ht ▸ hfast, hin⟩
  cases h with
  | @staleSmall g rest hfrom hq hstale =>
    unfold restMainAt restMain
    dsimp only
    rw [hq]
    refine bytesOf_congr fun k it hk => and_congr_right fun ht => not_congr ?_
    refine SpentBefore.congr (fun _ => rfl) fun hin => ?_
    have hne : g ≠ k := by
      intro heq
      subst heq
      exact hstale it (lookup_others hk) (hlive ht hin)
    rw [smallFrom_pop_stale hne fun it hg => hstale it (lookup_others hg)]
  | @promote g rest it hfrom hq h hsmall hpos =>
    have hne : g ≠ x := by
      intro heq
      subst heq
      cases h.symm.trans hx
      exact hsmall.not_inMain hmain
    have hover := over_of_fromSmall hinv hfrom hx hmain hq
    have hg : (s.blocks.erase x).lookup g = some it := (AList.lookup_erase_ne hne).trans h
    unfold restMainAt restMain promoteToMain
    dsimp only
    rw [erase_insert_of_ne _ hne]
    have hbefore := before_append_of_mem hmem [g]
    refine bytesOf_replace hg rfl (and_congr_right fun _ => not_congr ?_) ?_
    · rw [spentBefore_of_inMain rfl, spentBefore_of_inSmall hsmall.2, hbefore, List.count_pos_iff]
      constructor
      · exact fun hin => ⟨hover, .inr hin⟩
      · exact fun hspent => hspent.2.resolve_left (by omega)
    · intro k it' hk hk'
      refine and_congr_right fun _ => not_congr ?_
      refine SpentBefore.congr (fun _ => by rw [hbefore]) fun _ => ?_
      rw [smallFrom_pop_replace { it with s3InMain := true, s3Freq := 0 } (Ne.symm hk) hg rfl
        (by simp [InSmall]), hbefore, hq]
  | @staleMain g rest hfrom hq hstale =>
    have hne : g ≠ x := by
      intro heq
      subst heq
      exact hstale itx hx hmain
    unfold restMainAt restMain
    dsimp only
    refine bytesOf_congr fun k it hk => and_congr_right fun ht => not_congr ?_
    refine SpentBefore.congr (fun hin => ?_) fun hin => ?_
    · have hk' : g ≠ k := by
        intro heq
        subst heq
        exact hstale it (lookup_others hk) (hlive' ht hin)
      rw [hq, before_cons_of_ne hne, List.count_cons_of_ne hk']
    · have hout := not_over_of_not_fromSmall hinv hfrom hk (hlive ht hin)
      exact iff_of_false (fun h => hout h.1) (fun h => hout h.1)
  | @second g rest it hfrom hq h hin hpos =>
    have hne : g ≠ x := by
      intro heq
      subst heq
      cases h.symm.trans hx
      omega
    have hg : (s.blocks.erase x).lookup g = some it := (AList.lookup_erase_ne hne).trans h
    rw [hq] at hmem
    have hbefore : before (rest ++ [g]) x = before rest x :=
      before_append_of_mem ((List.mem_cons.mp hmem).resolve_left (Ne.symm hne)) [g]
    unfold restMainAt restMain secondChance
    dsimp only
    rw [erase_insert_of_ne _ hne]
    refine bytesOf_replace hg rfl (and_congr_right fun _ => not_congr ?_) ?_
    · have hin' : ({ it with s3Freq := it.s3Freq - 1 } : StoredBlock).s3InMain = true := hin.2
      rw [spentBefore_of_inMain hin', spentBefore_of_inMain hin.2, hbefore, hq,
        before_cons_of_ne hne, List.count_cons_self]
      dsimp only
      omega
    · intro k it' hk hk'
      refine and_congr_right fun ht => not_congr ?_
      refine SpentBefore.congr (fun _ => ?_) fun hin' => ?_
      · rw [hbefore, hq, before_cons_of_ne hne, List.count_cons_of_ne (Ne.symm hk)]
      · have hout := not_over_of_not_fromSmall hinv hfrom hk' (hlive ht hin')
        rw [smallFrom_replace_main { it with s3Freq := it.s3Freq - 1 } hg rfl hin hin]
        exact iff_of_false (fun h => hout h.1) (fun h => hout h.1)

/-- An evicted block was not counted among those left at the turn of `x`. -/
theorem S3Step.restMain_victim (hfast : config.fastestTierCache = some fast)
    (hinv : RepInv config s) (hx : s.blocks.lookup x = some itx) (hmain : InMain config itx)
    (hg : g ≠ x) (h : S3Step config fast s (.inr (some g, s'))) :
    restMain config fast x s'.s3SmallFifo s'.s3MainFifo ((s.blocks.erase x).erase g) =
      restMainAt config fast x s := by
  have hlive {it : StoredBlock} (ht : it.entry.tier = fast) (hin : it.s3InMain = false) :
      InSmall config it := ⟨ht ▸ hfast, hin⟩
  cases h with
  | @victimSmall _ rest it hfrom hq h hsmall hfreq =>
    have hover := over_of_fromSmall hinv hfrom hx hmain hq
    have hgx : (s.blocks.erase x).lookup g = some it := (AList.lookup_erase_ne hg).trans h
    rw [ghostInsertLocked_eq]
    unfold restMainAt restMain
    dsimp only
    refine bytesOf_drop hgx ?_ ?_
    · intro hleft
      exact hleft.2 ((spentBefore_of_inSmall hsmall.2).mpr ⟨hover, .inl hfreq⟩)
    · intro k it' hk hk'
      refine and_congr_right fun _ => not_congr ?_
      refine SpentBefore.congr (fun _ => rfl) fun _ => ?_
      rw [smallFrom_pop_drop (Ne.symm hk) hgx, hq]
  | @victimMain _ rest it hfrom hq h hin hfreq =>
    have hgx : (s.blocks.erase x).lookup g = some it := (AList.lookup_erase_ne hg).trans h
    unfold restMainAt restMain
    dsimp only
    refine bytesOf_drop hgx ?_ ?_
    · intro hleft
      refine hleft.2 ((spentBefore_of_inMain hin.2).mpr ?_)
      rw [hq, before_cons_of_ne hg, List.count_cons_self, hfreq]
      exact Nat.succ_pos _
    · intro k it' hk hk'
      refine and_congr_right fun ht => not_congr ?_
      refine SpentBefore.congr (fun _ => ?_) fun hin' => ?_
      · rw [hq, before_cons_of_ne hg, List.count_cons_of_ne (Ne.symm hk)]
      · have hout := not_over_of_not_fromSmall hinv hfrom hk' (hlive ht hin')
        rw [smallFrom_drop_main hgx hin]
        exact iff_of_false (fun h => hout h.1) (fun h => hout h.1)

/-- At its turn, everything in the tier is left. -/
theorem S3Step.restMainAt_turn (hfast : config.fastestTierCache = some fast)
    (hinv : RepInv config s) (hx : s.blocks.lookup x = some itx) (hmain : InMain config itx)
    (h : S3Step config fast s (.inr (some x, s'))) :
    restMainAt config fast x s =
      bytesOf (fun _ it => it.entry.tier = fast) (s.blocks.erase x) := by
  cases h with
  | victimSmall hfrom hq h hsmall hfreq =>
    cases h.symm.trans hx
    exact absurd hmain hsmall.not_inMain
  | @victimMain _ rest it hfrom hq h hin hfreq =>
    unfold restMainAt restMain
    refine bytesOf_congr fun k it hk => and_iff_left_of_imp fun ht => ?_
    cases hink : it.s3InMain with
    | true =>
      rw [spentBefore_of_inMain hink, hq, before_cons_self]
      exact Nat.not_lt_zero _
    | false =>
      rw [spentBefore_of_inSmall hink]
      exact fun h => not_over_of_not_fromSmall hinv hfrom hk ⟨ht ▸ hfast, hink⟩ h.1

/-! ## Waiting in the small queue -/

/-- The bytes left at the turn of `x` in the small queue. -/
def restSmallAt (config : TierConfig D) (fast : Tier) (x : BlockKey) (size : Nat) (s : State) :
    Nat :=
  restSmall config fast x size s.s3SmallFifo (s.blocks.erase x)

theorem restSmall_congr {size : Nat} {small small' : List BlockKey}
    {blocks blocks' : AList fun _ : BlockKey => StoredBlock}
    (hfrom : smallFrom config small' blocks' x = smallFrom config small blocks x)
    (hall : config.capacityOf fast / 10 < size + smallFrom config small blocks x →
      bytesOf (fun k it => it.entry.tier = fast ∧
          ¬ (it.s3InMain = false ∧ k ∈ before small' x ∧ it.s3Freq = 0)) blocks' =
        bytesOf (fun k it => it.entry.tier = fast ∧
          ¬ (it.s3InMain = false ∧ k ∈ before small x ∧ it.s3Freq = 0)) blocks) :
    restSmall config fast x size small' blocks' = restSmall config fast x size small blocks := by
  unfold restSmall
  rw [hfrom]
  split
  next hover => rw [hall hover]
  next => rfl

theorem S3Step.restSmallAt_eq (hfast : config.fastestTierCache = some fast) (size : Nat)
    (hx : s.blocks.lookup x = some itx) (hsmall : InSmall config itx) (hfreq : itx.s3Freq = 0)
    (h : S3Step config fast s (.inl s')) :
    restSmallAt config fast x size s' = restSmallAt config fast x size s := by
  cases h with
  | @staleSmall g rest hfrom hq hstale =>
    have hne : g ≠ x := by
      intro heq
      subst heq
      exact hstale itx hx hsmall
    refine restSmall_congr ?_ fun _ => ?_
    · rw [hq]
      exact smallFrom_pop_stale hne fun it hg => hstale it (lookup_others hg)
    · refine bytesOf_congr fun k it hk => and_congr_right fun ht => not_congr ?_
      refine and_congr_right fun hin => and_congr_left fun _ => ?_
      rw [hq]
      refine (mem_before_cons rest hne ?_).symm
      intro heq
      subst heq
      exact hstale it (lookup_others hk) ⟨ht ▸ hfast, hin⟩
  | @promote g rest it hfrom hq h hlive hpos =>
    have hne : g ≠ x := by
      intro heq
      subst heq
      cases h.symm.trans hx
      omega
    have hg : (s.blocks.erase x).lookup g = some it := (AList.lookup_erase_ne hne).trans h
    unfold restSmallAt promoteToMain
    dsimp only
    rw [erase_insert_of_ne _ hne]
    refine restSmall_congr ?_ fun _ => ?_
    · rw [hq]
      exact smallFrom_pop_replace _ hne hg rfl (by simp [InSmall])
    · refine bytesOf_replace hg rfl (and_congr_right fun _ => iff_of_true ?_ ?_) ?_
      · simp
      · intro hleft
        omega
      · intro k it' hk _
        rw [hq, mem_before_cons rest hne hk]
  | staleMain hfrom hq hstale => rfl
  | @second g rest it hfrom hq h hin hpos =>
    have hne : g ≠ x := by
      intro heq
      subst heq
      cases h.symm.trans hx
      exact hsmall.not_inMain hin
    have hg : (s.blocks.erase x).lookup g = some it := (AList.lookup_erase_ne hne).trans h
    unfold restSmallAt secondChance
    dsimp only
    rw [erase_insert_of_ne _ hne]
    refine restSmall_congr (smallFrom_replace_main _ hg rfl hin hin) fun _ => ?_
    refine bytesOf_replace hg rfl (and_congr_right fun _ => iff_of_true ?_ ?_)
      fun _ _ _ _ => Iff.rfl
    · simp [hin.2]
    · simp [hin.2]

/-- The bytes of the small queue, told apart by the waiting block. -/
theorem smallUsed_eq (hinv : RepInv config s) (hx : s.blocks.lookup x = some itx)
    (hsmall : InSmall config itx) :
    s.s3SmallUsedBytes = itx.entry.sizeBytes +
      bytesOf (fun _ it => InSmall config it) (s.blocks.erase x) := by
  rw [hinv.smallUsed, bytesOf_erase hx, if_pos hsmall]

theorem S3Step.restSmall_victim (hinv : RepInv config s) (hx : s.blocks.lookup x = some itx)
    (hsmall : InSmall config itx) (hg : g ≠ x) (h : S3Step config fast s (.inr (some g, s'))) :
    restSmall config fast x itx.entry.sizeBytes s'.s3SmallFifo ((s.blocks.erase x).erase g) =
      restSmallAt config fast x itx.entry.sizeBytes s := by
  cases h with
  | @victimSmall _ rest it hfrom hq h hlive hfreq =>
    have hgx : (s.blocks.erase x).lookup g = some it := (AList.lookup_erase_ne hg).trans h
    rw [ghostInsertLocked_eq]
    refine restSmall_congr ?_ fun _ => ?_
    · rw [hq]
      exact smallFrom_pop_drop hg hgx
    · refine bytesOf_drop hgx ?_ ?_
      · intro hleft
        refine hleft.2 ⟨hlive.2, ?_, hfreq⟩
        rw [hq]
        exact head_mem_before rest hg
      · intro k it' hk _
        rw [hq, mem_before_cons rest hg hk]
  | @victimMain _ rest it hfrom hq h hin hfreq =>
    have hgx : (s.blocks.erase x).lookup g = some it := (AList.lookup_erase_ne hg).trans h
    refine restSmall_congr (smallFrom_drop_main hgx hin) fun hover => ?_
    -- The main queue is served only while the small queue is within its budget.
    have hle : smallFrom config s.s3SmallFifo (s.blocks.erase x) x ≤
        bytesOf (fun _ it => InSmall config it) (s.blocks.erase x) :=
      bytesOf_le fun _ _ _ hp => hp.1
    refine absurd (.inl ⟨?_, ?_⟩) hfrom
    · rw [smallUsed_eq hinv hx hsmall]
      omega
    · exact List.ne_nil_of_mem (hinv.mem_small hx hsmall (by simp))

theorem S3Step.restSmallAt_turn (hfast : config.fastestTierCache = some fast)
    (hinv : RepInv config s) (hx : s.blocks.lookup x = some itx) (hsmall : InSmall config itx)
    (h : S3Step config fast s (.inr (some x, s'))) :
    restSmallAt config fast x itx.entry.sizeBytes s =
      itx.entry.sizeBytes + bytesOf (fun _ it => it.entry.tier = fast) (s.blocks.erase x) := by
  cases h with
  | @victimSmall _ rest it hfrom hq h hlive hfreq =>
    have hhead : smallFrom config (x :: rest) (s.blocks.erase x) x =
        bytesOf (fun _ it => InSmall config it) (s.blocks.erase x) := by
      refine bytesOf_congr fun z it _ => ?_
      simp
    unfold restSmallAt restSmall
    rw [hq, hhead]
    split
    next =>
      congr 1
      refine bytesOf_congr fun k it _ => ?_
      simp
    next hover =>
      -- The queue is served within its budget, so the main queue is empty.
      have hnil : s.s3MainFifo = [] := by
        refine hfrom.resolve_left fun h => hover ?_
        rw [← smallUsed_eq hinv hx hsmall]
        exact h.1
      congr 1
      refine bytesOf_congr fun k it hk => ⟨fun hin => ?_, fun ht => ⟨ht ▸ hfast, ?_⟩⟩
      · exact Option.some.inj (hin.1.symm.trans hfast)
      · by_contra hin
        have hmem := hinv.mem_main (lookup_others hk) ⟨ht ▸ hfast, by simpa using hin⟩ (by simp)
        rw [hnil] at hmem
        cases hmem
  | victimMain hfrom hq h hin hfreq =>
    cases h.symm.trans hx
    exact absurd hin hsmall.not_inMain

/-! ## Both queues together -/

/-- The bytes left at the turn of a waiting block. -/
def turnBytes (config : TierConfig D) (fast : Tier) (x : BlockKey) (itx : StoredBlock)
    (small main : List BlockKey) (blocks : AList fun _ : BlockKey => StoredBlock) : Nat :=
  if itx.s3InMain = true then itx.entry.sizeBytes + restMain config fast x small main blocks
  else restSmall config fast x itx.entry.sizeBytes small blocks

/-- The bytes left at the turn of `x`, in a state. -/
def turnBytesAt (config : TierConfig D) (fast : Tier) (x : BlockKey) (itx : StoredBlock)
    (s : State) : Nat :=
  turnBytes config fast x itx s.s3SmallFifo s.s3MainFifo (s.blocks.erase x)

/-- The turn depends on the blocks of the fastest tier alone. -/
theorem turnBytes_congr (hfast : config.fastestTierCache = some fast)
    {small main : List BlockKey} {blocks blocks' : AList fun _ : BlockKey => StoredBlock}
    (hm : ∀ k it, it.entry.tier = fast →
      (blocks.lookup k = some it ↔ blocks'.lookup k = some it)) :
    turnBytes config fast x itx small main blocks =
      turnBytes config fast x itx small main blocks' := by
  have hfrom (k : BlockKey) :
      smallFrom config small blocks k = smallFrom config small blocks' k := by
    refine bytesOf_congr_on fast hm ?_ ?_ fun _ _ _ _ => Iff.rfl
    · exact fun _ it hp => Option.some.inj (hp.1.1.symm.trans hfast)
    · exact fun _ it hp => Option.some.inj (hp.1.1.symm.trans hfast)
  unfold turnBytes
  split
  next =>
    congr 1
    refine bytesOf_congr_on fast hm (fun _ _ hp => hp.1) (fun _ _ hp => hp.1) fun k it _ _ => ?_
    refine and_congr_right fun _ => not_congr ?_
    exact SpentBefore.congr (fun _ => rfl) fun _ => by rw [hfrom k]
  next =>
    refine restSmall_congr (hfrom x) fun _ => ?_
    exact bytesOf_congr_on fast hm (fun _ _ hp => hp.1) (fun _ _ hp => hp.1)
      fun _ _ _ _ => Iff.rfl

theorem S3Step.turnBytesAt_eq (hfast : config.fastestTierCache = some fast)
    (hinv : RepInv config s) (hx : s.blocks.lookup x = some itx) (htier : itx.entry.tier = fast)
    (hfreq : itx.s3Freq = 0) (h : S3Step config fast s (.inl s')) :
    turnBytesAt config fast x itx s' = turnBytesAt config fast x itx s := by
  unfold turnBytesAt turnBytes
  cases hin : itx.s3InMain with
  | true =>
    rw [if_pos rfl, if_pos rfl]
    exact congrArg _ (h.restMainAt_eq hfast hinv hx ⟨htier ▸ hfast, hin⟩ hfreq)
  | false =>
    rw [if_neg (by simp), if_neg (by simp)]
    exact h.restSmallAt_eq hfast _ hx ⟨htier ▸ hfast, hin⟩ hfreq

theorem S3Step.turnBytes_victim (hfast : config.fastestTierCache = some fast)
    (hinv : RepInv config s) (hx : s.blocks.lookup x = some itx) (htier : itx.entry.tier = fast)
    (hg : g ≠ x) (h : S3Step config fast s (.inr (some g, s'))) :
    turnBytes config fast x itx s'.s3SmallFifo s'.s3MainFifo ((s.blocks.erase x).erase g) =
      turnBytesAt config fast x itx s := by
  unfold turnBytesAt turnBytes
  cases hin : itx.s3InMain with
  | true =>
    rw [if_pos rfl, if_pos rfl]
    exact congrArg _ (h.restMain_victim hfast hinv hx ⟨htier ▸ hfast, hin⟩ hg)
  | false =>
    rw [if_neg (by simp), if_neg (by simp)]
    exact h.restSmall_victim hinv hx ⟨htier ▸ hfast, hin⟩ hg

/-- A waiting block is a victim when the bytes left at its turn are all that is there. -/
theorem S3Step.turnBytesAt_turn (hfast : config.fastestTierCache = some fast)
    (hinv : RepInv config s) (hx : s.blocks.lookup x = some itx) (htier : itx.entry.tier = fast)
    (h : S3Step config fast s (.inr (some x, s'))) :
    turnBytesAt config fast x itx s = s.usedBytes fast := by
  rw [hinv.used fast, bytesOf_erase hx, if_pos htier]
  unfold turnBytesAt turnBytes
  cases hin : itx.s3InMain with
  | true =>
    rw [if_pos rfl]
    exact congrArg _ (h.restMainAt_turn hfast hinv hx ⟨htier ▸ hfast, hin⟩)
  | false =>
    rw [if_neg (by simp)]
    exact h.restSmallAt_turn hfast hinv hx ⟨htier ▸ hfast, hin⟩

/-- What is left at the turn is in the tier now. -/
theorem turnBytesAt_le (hfast : config.fastestTierCache = some fast) (hinv : RepInv config s)
    (hx : s.blocks.lookup x = some itx) (htier : itx.entry.tier = fast) :
    turnBytesAt config fast x itx s ≤ s.usedBytes fast := by
  rw [hinv.used fast, bytesOf_erase hx, if_pos htier]
  unfold turnBytesAt turnBytes restSmall
  split
  next => exact Nat.add_le_add_left (bytesOf_le fun _ _ _ hp => hp.1) _
  next =>
    split
    next => exact Nat.add_le_add_left (bytesOf_le fun _ _ _ hp => hp.1) _
    next =>
      refine Nat.add_le_add_left (bytesOf_le fun _ _ _ hp => ?_) _
      exact Option.some.inj (hp.1.1.symm.trans hfast)

end

end TieredKVCache.Storage
