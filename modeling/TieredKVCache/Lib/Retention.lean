import Mathlib.Logic.Relation
import TieredKVCache.Lib.StackDistance

/-!
# A store with an upper and a lower part

Nothing is known of the upper part of a store but which keys are in it; the lower part has room for
`slots` keys, in the order in which they have entered. A key that is used comes up, and one key may
go down for it (`Lifted`). The upper part does not shrink, so that no more keys that were not used
can go down than other keys have come up for them (`Stays`): a key that is used stays in the store
until `slots` other keys have been used (`Holding.mem`).
-/

namespace TieredKVCache.Lib

variable {α : Type} [DecidableEq α]

/-- `k` comes up, and one key may go down for it. A lower part that is full loses its oldest key. -/
inductive Lifted (slots : Nat) (k : α) (upper : Finset α) (lower : List α) :
    Finset α → List α → Prop
  | kept : Lifted slots k upper lower (insert k upper) (lower.erase k)
  | pushed {victim : α} (hnew : k ∉ upper) (hvictim : victim ∈ insert k upper) :
      Lifted slots k upper lower ((insert k upper).erase victim)
        ((lower.erase k ++ [victim]).rtake slots)

/-- The parts share no key, and the lower one is within its room. -/
structure Parts (slots : Nat) (upper : Finset α) (lower : List α) : Prop where
  nodup : lower.Nodup
  disjoint : ∀ x ∈ lower, x ∉ upper
  length_le : lower.length ≤ slots

/-- Where `k` is in the lower part, the keys of the upper part and those that have entered the lower
one after `k` are no more than the upper part holds and the keys `since`. -/
def Stays (k : α) (since upper : Finset α) (lower : List α) : Prop :=
  k ∈ upper ∨ ∃ older newer base, lower = older ++ k :: newer ∧
    upper ∪ newer.toFinset ⊆ base ∪ since ∧ base.card ≤ upper.card

section

variable {slots : Nat} {k x : α} {since since' upper upper' : Finset α} {lower lower' : List α}

/-! ## One use -/

omit [DecidableEq α] in
theorem parts_empty (slots : Nat) : Parts slots (∅ : Finset α) [] :=
  ⟨List.nodup_nil, fun _ _ => Finset.notMem_empty _, Nat.zero_le _⟩

theorem Parts.kept (h : Parts slots upper lower) (x : α) :
    Parts slots (insert x upper) (lower.erase x) := by
  refine ⟨h.nodup.erase x, fun y hy hmem => ?_, List.length_erase_le.trans h.length_le⟩
  obtain ⟨hne, hlower⟩ := h.nodup.mem_erase_iff.mp hy
  rcases Finset.mem_insert.mp hmem with heq | hupper
  · exact hne heq
  · exact h.disjoint y hlower hupper

/-- Before the oldest key leaves, the lower part may have one key too many. -/
theorem Parts.pushed (h : Parts slots upper lower) {victim : α}
    (hvictim : victim ∈ insert x upper) :
    Parts (slots + 1) ((insert x upper).erase victim) (lower.erase x ++ [victim]) := by
  obtain ⟨hnodup, hdisjoint, hlength⟩ := h.kept x
  refine ⟨hnodup.append (List.nodup_singleton victim) fun y hy hyv => ?_, fun y hy hmem => ?_, ?_⟩
  · rw [List.mem_singleton] at hyv
    exact hdisjoint y hy (hyv ▸ hvictim)
  · obtain ⟨hne, hin⟩ := Finset.mem_erase.mp hmem
    rcases List.mem_append.mp hy with hlower | hlast
    · exact hdisjoint y hlower hin
    · exact hne (List.mem_singleton.mp hlast)
  · rw [List.length_append, List.length_singleton]
    exact Nat.succ_le_succ hlength

theorem Parts.lifted (h : Parts slots upper lower)
    (hlift : Lifted slots x upper lower upper' lower') : Parts slots upper' lower' := by
  cases hlift with
  | kept => exact h.kept x
  | @pushed victim _ hvictim =>
    obtain ⟨hnodup, hdisjoint, -⟩ := h.pushed hvictim
    have hsuffix := rtake_suffix slots (lower.erase x ++ [victim])
    refine ⟨hnodup.sublist hsuffix.sublist, fun y hy => hdisjoint y (hsuffix.subset hy), ?_⟩
    rw [length_rtake]
    exact Nat.min_le_left _ _

/-- The keys that have entered after `k` are no more than the keys `since`. -/
theorem Parts.length_newer_le (h : Parts slots upper lower) {older newer : List α}
    {base : Finset α} (hlower : lower = older ++ k :: newer)
    (hcover : upper ∪ newer.toFinset ⊆ base ∪ since) (hcard : base.card ≤ upper.card) :
    newer.length ≤ since.card := by
  subst hlower
  have hnodup : newer.Nodup := h.nodup.of_append_right.of_cons
  have hdisjoint : Disjoint upper newer.toFinset := Finset.disjoint_right.mpr fun y hy =>
    h.disjoint y (List.mem_append_right _ (List.mem_cons_of_mem _ (List.mem_toFinset.mp hy)))
  have hle := (Finset.card_le_card hcover).trans (Finset.card_union_le base since)
  rw [Finset.card_union_of_disjoint hdisjoint, List.toFinset_card_of_nodup hnodup] at hle
  omega

theorem Stays.mono (h : Stays k since upper lower) (hsub : since ⊆ since') :
    Stays k since' upper lower := by
  rcases h with hupper | ⟨older, newer, base, hlower, hcover, hcard⟩
  · exact .inl hupper
  · exact .inr ⟨older, newer, base, hlower,
      hcover.trans (Finset.union_subset_union_right hsub), hcard⟩

theorem Stays.mem (h : Stays k since upper lower) : k ∈ upper ∨ k ∈ lower := by
  rcases h with hupper | ⟨older, newer, base, rfl, -⟩
  · exact .inl hupper
  · exact .inr (by simp)

omit [DecidableEq α] in
/-- A key that is one of the last `slots` is not cut off. -/
theorem rtake_split (k : α) (older newer : List α) (h : newer.length < slots) :
    ∃ older', (older ++ k :: newer).rtake slots = older' ++ k :: newer := by
  obtain ⟨n, hn⟩ : ∃ n, slots = (k :: newer).length + n :=
    ⟨slots - (newer.length + 1), by rw [List.length_cons]; omega⟩
  exact ⟨older.rtake n, by rw [hn, rtake_append_length]⟩

theorem erase_split (older newer : List α) (h : x ≠ k) :
    ∃ older' newer', (older ++ k :: newer).erase x = older' ++ k :: newer' ∧ newer' ⊆ newer := by
  by_cases hx : x ∈ older
  · exact ⟨older.erase x, newer, List.erase_append_left _ hx, List.Subset.refl _⟩
  · refine ⟨older, newer.erase x, ?_, List.erase_subset⟩
    rw [List.erase_append_right _ hx, List.erase_cons_tail (by simpa using h.symm)]

/-- A key that goes down is the newest one of the lower part. -/
theorem stays_of_pushed (upper : Finset α) (lower : List α) (hslots : 0 < slots) :
    Stays k since upper ((lower ++ [k]).rtake slots) := by
  obtain ⟨older, hlower⟩ := rtake_split k lower [] hslots
  exact .inr ⟨older, [], upper, hlower, by simp, Nat.le_refl _⟩

/-- A key that is in the upper part, or comes up, is in the store. -/
theorem Lifted.stays (h : Lifted slots x upper lower upper' lower') (hslots : 0 < slots)
    (hk : k ∈ insert x upper) : Stays k since upper' lower' := by
  cases h with
  | kept => exact .inl hk
  | @pushed victim _ _ =>
    by_cases hvictim : k = victim
    · subst hvictim
      exact stays_of_pushed _ _ hslots
    · exact .inl (Finset.mem_erase.mpr ⟨hvictim, hk⟩)

/-- Another use: a key that goes down above `k` has made place for one that came up. -/
theorem Stays.lifted (hparts : Parts slots upper lower) (h : Stays k since upper lower)
    (hlift : Lifted slots x upper lower upper' lower') (hx : x = k ∨ x ∈ since)
    (hfew : since.card < slots) : Stays k since upper' lower' := by
  have hslots : 0 < slots := Nat.zero_lt_of_lt hfew
  by_cases hxk : x = k
  · exact hlift.stays hslots (hxk ▸ Finset.mem_insert_self _ _)
  rcases h with hupper | ⟨older, newer, base, hlower, hcover, hcard⟩
  · exact hlift.stays hslots (Finset.mem_insert_of_mem hupper)
  obtain ⟨older', newer', herase, hsub⟩ := erase_split older newer hxk
  have hup : insert x upper ⊆ base ∪ since :=
    Finset.insert_subset (Finset.mem_union_right _ (hx.resolve_left hxk))
      (Finset.union_subset_left hcover)
  have hnew : newer'.toFinset ⊆ base ∪ since := fun y hy =>
    hcover (Finset.mem_union_right _ (List.mem_toFinset.mpr (hsub (List.mem_toFinset.mp hy))))
  cases hlift with
  | kept =>
    exact .inr ⟨older', newer', base, hlower ▸ herase, Finset.union_subset hup hnew,
      hcard.trans (Finset.card_le_card (Finset.subset_insert _ _))⟩
  | @pushed victim hxu hvictim =>
    have hcount : ((insert x upper).erase victim).card = upper.card := by
      rw [Finset.card_erase_of_mem hvictim, Finset.card_insert_of_notMem hxu, Nat.add_sub_cancel]
    have hsplit : lower.erase x ++ [victim] = older' ++ k :: (newer' ++ [victim]) := by
      rw [hlower, herase, List.append_assoc, List.cons_append]
    have hcover' : (insert x upper).erase victim ∪ (newer' ++ [victim]).toFinset ⊆
        base ∪ since := by
      rw [List.toFinset_append]
      refine Finset.union_subset ((Finset.erase_subset _ _).trans hup)
        (Finset.union_subset hnew fun y hy => ?_)
      exact List.mem_singleton.mp (List.mem_toFinset.mp hy) ▸ hup hvictim
    have hcard' := hcard.trans hcount.ge
    have hshort := (hparts.pushed hvictim).length_newer_le hsplit hcover' hcard'
    obtain ⟨older'', hcut⟩ := rtake_split k older' _ (hshort.trans_lt hfew)
    exact .inr ⟨older'', newer' ++ [victim], base, hsplit ▸ hcut, hcover', hcard'⟩

/-! ## Many uses -/

/-- Uses of some keys, one after the other. -/
def Lifts (slots : Nat) (used : α → Prop) : Finset α × List α → Finset α × List α → Prop :=
  Relation.ReflTransGen fun parts parts' =>
    ∃ x, used x ∧ Lifted slots x parts.1 parts.2 parts'.1 parts'.2

variable {used used' : α → Prop} {parts parts' : Finset α × List α}

theorem Lifts.single (h : Lifted slots x parts.1 parts.2 parts'.1 parts'.2) (hx : used x) :
    Lifts slots used parts parts' :=
  Relation.ReflTransGen.single ⟨x, hx, h⟩

theorem Lifts.mono (h : Lifts slots used parts parts') (himp : ∀ x, used x → used' x) :
    Lifts slots used' parts parts' :=
  Relation.ReflTransGen.mono (fun _ _ ⟨x, hx, hlift⟩ => ⟨x, himp x hx, hlift⟩) _ _ h

/-- A key stays while few enough others are used. -/
theorem Stays.lifts (h : Lifts slots used parts parts') (hparts : Parts slots parts.1 parts.2)
    (hstays : Stays k since parts.1 parts.2) (hused : ∀ x, used x → x = k ∨ x ∈ since)
    (hfew : since.card < slots) :
    Parts slots parts'.1 parts'.2 ∧ Stays k since parts'.1 parts'.2 := by
  induction h with
  | refl => exact ⟨hparts, hstays⟩
  | tail _ hlast ih =>
    obtain ⟨x, hx, hlift⟩ := hlast
    exact ⟨ih.1.lifted hlift, ih.2.lifted ih.1 hlift (hused x hx) hfew⟩

/-- After these uses, the keys that were used last stay. -/
structure Holding (slots : Nat) (uses : List α) (upper : Finset α) (lower : List α) : Prop where
  parts : Parts slots upper lower
  stays : ∀ {k : α} {first since : List α}, uses = first ++ k :: since → k ∉ since →
    since.toFinset.card < slots → Stays k since.toFinset upper lower

theorem holding_empty (slots : Nat) : Holding slots ([] : List α) ∅ [] :=
  ⟨parts_empty slots, fun huses => by simp at huses⟩

theorem Holding.lifted {uses : List α} (h : Holding slots uses upper lower)
    (hlift : Lifted slots x upper lower upper' lower') :
    Holding slots (uses ++ [x]) upper' lower' := by
  refine ⟨h.parts.lifted hlift, fun {k first since} huses hout hfew => ?_⟩
  rcases List.eq_nil_or_concat since with rfl | ⟨init, last, rfl⟩
  · obtain ⟨-, hlast⟩ := List.append_inj' huses rfl
    cases List.singleton_inj.mp hlast
    exact hlift.stays hfew (Finset.mem_insert_self _ _)
  · rw [List.concat_eq_append] at huses hout hfew ⊢
    rw [← List.cons_append, ← List.append_assoc] at huses
    obtain ⟨hinit, hlast⟩ := List.append_inj' huses rfl
    cases List.singleton_inj.mp hlast
    have hsub : init.toFinset ⊆ (init ++ [x]).toFinset := by
      rw [List.toFinset_append]
      exact Finset.subset_union_left
    have hbefore := h.stays hinit (fun hmem => hout (List.mem_append_left _ hmem))
      ((Finset.card_le_card hsub).trans_lt hfew)
    exact (hbefore.mono hsub).lifted h.parts hlift (.inr (by simp)) hfew

/-- **Retention.** A key stays in the store until `slots` other keys have been used. -/
theorem Holding.mem {uses : List α} (h : Holding slots uses upper lower)
    (hk : k ∈ uses.dedup.rtake slots) : k ∈ upper ∨ k ∈ lower := by
  obtain ⟨first, since, rfl, hlast⟩ :=
    exists_lastUse (List.mem_dedup.mp ((rtake_suffix slots _).subset hk))
  exact (h.stays rfl hlast ((mem_rtake_of_lastUse hlast).mp hk)).mem

end

end TieredKVCache.Lib
