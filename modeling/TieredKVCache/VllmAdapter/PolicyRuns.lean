import Mathlib.Data.Finset.Card
import TieredKVCache.VllmAdapter.EvictLoop

/-!
# Runs of the S3-FIFO policy

`RepInv` is the invariant that relates the six containers of the policy. Every operation keeps it
(`Step.repInv`), and in a state that satisfies it `evict` does what it promises (`Evicts`).
-/

namespace TieredKVCache.VllmAdapter.S3FIFOCachePolicy

open Lib

variable {Key BlockStatus : Type} [DecidableEq Key] {n : Nat} {isProtected : Finset Key}
  {l : Scan Key} {p p' : S3FIFOCachePolicy Key BlockStatus} {refCnt : BlockStatus → Int}

structure RepInv (p : S3FIFOCachePolicy Key BlockStatus) : Prop where
  disjoint : ∀ key ∈ p.small, key ∉ p.main
  queued : ∀ key, key ∈ p.small ∨ key ∈ p.main ↔ key ∈ p.blocks
  counted : ∀ key, key ∈ p.freq ↔ key ∈ p.blocks
  freqRange : ∀ key freq, p.freq.lookup key = some freq → 0 ≤ freq ∧ freq ≤ 3
  evictable : ∀ key ∈ p.evictable, key ∈ p.blocks
  ghostAbsent : ∀ key ∈ p.ghost, key ∉ p.blocks
  ghostBounded : p.ghost.length ≤ p.ghostCapacity

/-! ## The loop over the victims -/

/-- The keys have left the policy, and nothing else has changed but the ghost queue. -/
structure Dropped (keys : List Key) (p p' : S3FIFOCachePolicy Key BlockStatus) : Prop where
  small : p'.small = p.small
  main : p'.main = p.main
  blocks : ∀ key, p'.blocks.lookup key = if key ∈ keys then none else p.blocks.lookup key
  freq : ∀ key, p'.freq.lookup key = if key ∈ keys then none else p.freq.lookup key
  evictable : ∀ key, key ∈ p'.evictable ↔ key ∉ keys ∧ key ∈ p.evictable
  ghost : ∀ key ∈ p'.ghost, key ∈ p.ghost ∨ key ∈ keys
  ghostBounded : p.ghost.length ≤ p.ghostCapacity → p'.ghost.length ≤ p'.ghostCapacity

theorem Dropped.refl (p : S3FIFOCachePolicy Key BlockStatus) : Dropped [] p p := by
  constructor <;> simp

theorem mem_ghostInsert {key key' : Key} (h : key' ∈ (p.ghostInsert key).ghost) :
    key' ∈ p.ghost ∨ key' = key := by
  simpa [or_assoc] using KeyQueue.mem_of_mem_popDownTo h

theorem dropped_dropVictim (key : Key) (fromSmall : Bool) (p : S3FIFOCachePolicy Key BlockStatus) :
    Dropped [key] p (p.dropVictim key fromSmall) := by
  have hdropped : Dropped [key] p { p with
      blocks := p.blocks.erase key
      freq := p.freq.erase key
      evictable := p.evictable.erase key } := by
    have herase {β : Type} (m : AList fun _ : Key => β) (key' : Key) :
        (m.erase key).lookup key' = if key' ∈ [key] then none else m.lookup key' := by
      simp only [List.mem_singleton]
      split
      next heq => rw [heq, AList.lookup_erase]
      next hne => exact AList.lookup_erase_ne hne
    exact ⟨rfl, rfl, herase _, herase _, fun key' => by simp, fun _ => .inl, id⟩
  cases fromSmall with
  | false => exact hdropped
  | true =>
    obtain ⟨hsmall, hmain, hblocks, hfreq, hevictable, -, -⟩ := hdropped
    refine ⟨hsmall, hmain, hblocks, hfreq, hevictable, fun key' hkey' => ?_, fun _ => ?_⟩
    · exact (mem_ghostInsert hkey').imp id List.mem_singleton.mpr
    · exact KeyQueue.length_popDownTo_le _ _

theorem Dropped.trans {keys keys' : List Key} {p'' : S3FIFOCachePolicy Key BlockStatus}
    (h : Dropped keys p p') (h' : Dropped keys' p' p'') : Dropped (keys ++ keys') p p'' where
  small := h'.small.trans h.small
  main := h'.main.trans h.main
  blocks key := by
    rw [h'.blocks, h.blocks]
    by_cases hkey : key ∈ keys <;> by_cases hkey' : key ∈ keys' <;> simp [hkey, hkey']
  freq key := by
    rw [h'.freq, h.freq]
    by_cases hkey : key ∈ keys <;> by_cases hkey' : key ∈ keys' <;> simp [hkey, hkey']
  evictable key := by
    rw [h'.evictable, h.evictable, List.mem_append, not_or]
    tauto
  ghost key hkey := by
    rcases h'.ghost key hkey with hkey | hkey
    · exact (h.ghost key hkey).imp id (List.mem_append_left _)
    · exact .inr (List.mem_append_right _ hkey)
  ghostBounded hlen := h'.ghostBounded (h.ghostBounded hlen)

theorem Dropped.mem_blocks {keys : List Key} (h : Dropped keys p p') (key : Key) :
    key ∈ p'.blocks ↔ key ∉ keys ∧ key ∈ p.blocks := by
  rw [← AList.lookup_isSome, ← AList.lookup_isSome, h.blocks]
  by_cases hkey : key ∈ keys <;> simp [hkey]

theorem Dropped.mem_freq {keys : List Key} (h : Dropped keys p p') (key : Key) :
    key ∈ p'.freq ↔ key ∉ keys ∧ key ∈ p.freq := by
  rw [← AList.lookup_isSome, ← AList.lookup_isSome, h.freq]
  by_cases hkey : key ∈ keys <;> simp [hkey]

theorem dropVictims_returns (victims : List (Key × Bool)) (hnodup : (victims.map Prod.fst).Nodup)
    (hblocks : ∀ v ∈ victims, v.1 ∈ p.blocks) :
    Returns (dropVictims victims p) fun r =>
      r.1.map Prod.fst = victims.map Prod.fst ∧
        (∀ v ∈ r.1, p.blocks.lookup v.1 = some v.2) ∧ Dropped (victims.map Prod.fst) p r.2 := by
  induction victims generalizing p with
  | nil => exact returns_ok ⟨rfl, by simp, .refl p⟩
  | cons v victims ih =>
    obtain ⟨key, fromSmall⟩ := v
    obtain ⟨hkey, hnodup⟩ := List.nodup_cons.mp hnodup
    obtain ⟨block, hblock⟩ := mem_iff_lookup.mp (hblocks _ List.mem_cons_self)
    have hdropped := dropped_dropVictim key fromSmall p
    have hothers : ∀ v ∈ victims, v.1 ∈ (p.dropVictim key fromSmall).blocks := by
      intro v hv
      refine (hdropped.mem_blocks v.1).mpr ⟨?_, hblocks v (List.mem_cons_of_mem _ hv)⟩
      rw [List.mem_singleton]
      intro heq
      exact hkey (List.mem_map.mpr ⟨v, hv, heq⟩)
    obtain ⟨⟨result, q⟩, hresult, hkeys, hvalues, hq⟩ := ih hnodup hothers
    refine ⟨((key, block) :: result, q), ?_, congrArg (key :: ·) hkeys, ?_, hdropped.trans hq⟩
    · simp only [dropVictims, hblock, hresult]
      rfl
    · intro v hv
      rcases List.mem_cons.mp hv with rfl | hv
      · exact hblock
      · have hvalue := hvalues v hv
        rw [hdropped.blocks] at hvalue
        split at hvalue
        · cases hvalue
        · exact hvalue

/-! ## `evict` -/

/-- What `evict` promises. -/
structure Evicts (n : Nat) (isProtected : Finset Key) (p : S3FIFOCachePolicy Key BlockStatus)
    (result : Option (List (Key × BlockStatus))) (p' : S3FIFOCachePolicy Key BlockStatus) :
    Prop where
  isSome_iff : result.isSome ↔
    n ≤ {key ∈ p.evictable | key ∈ p.blocks ∧ key ∉ isProtected}.card
  victims : ∀ victims, result = some victims → victims.length = n ∧ (victims.map Prod.fst).Nodup ∧
    ∀ v ∈ victims, p.blocks.lookup v.1 = some v.2 ∧ v.1 ∈ p.evictable ∧ v.1 ∉ isProtected
  /-- The victims disappear from every container but the ghost queue. -/
  gone : ∀ key ∈ (result.getD []).map Prod.fst,
    key ∉ p'.blocks ∧ key ∉ p'.freq ∧ key ∉ p'.evictable ∧ key ∉ p'.small ∧ key ∉ p'.main
  /-- The other keys stay where they are, though not in the same queue. -/
  kept : ∀ key, key ∉ (result.getD []).map Prod.fst →
    p'.blocks.lookup key = p.blocks.lookup key ∧ (key ∈ p'.freq ↔ key ∈ p.freq) ∧
      (key ∈ p'.evictable ↔ key ∈ p.evictable) ∧
      (key ∈ p'.small ∨ key ∈ p'.main ↔ key ∈ p.small ∨ key ∈ p.main) ∧
      (key ∈ p.blocks → Xor (key ∈ p'.small) (key ∈ p'.main))

theorem RepInv.nodup (h : RepInv p) : (p.small.toList ++ p.main.toList).Nodup := by
  refine List.nodup_append.mpr ⟨p.small.nodup, p.main.nodup, ?_⟩
  rintro key hsmall _ hmain rfl
  exact h.disjoint key hsmall hmain

theorem toList_restoreQueue {keys : List Key} {q : KeyQueue Key} (h : (keys ++ q.toList).Nodup) :
    (restoreQueue keys q).toList = keys ++ q.toList := by
  by_cases hkeys : keys = []
  · rw [restoreQueue, if_neg (not_not.mpr hkeys), hkeys, List.nil_append]
  · rw [restoreQueue, if_pos hkeys, KeyQueue.toList_ofList h]

/-- The victims that return to the queues. -/
def Scan.returned (succeeded : Bool) (l : Scan Key) : List (Key × Bool) :=
  if succeeded then [] else l.victims

/-- The victims that do not return to the queues. -/
def Scan.taken (succeeded : Bool) (l : Scan Key) : List Key :=
  if succeeded then l.victims.map Prod.fst else []

/-- What returns to a queue, and what is left there, are different entries of the scan. -/
theorem Scan.count_restored_le (succeeded : Bool) (l : Scan Key) (key : Key) :
    (l.skippedSmall ++ ((l.returned succeeded).filter fun v => v.2).map Prod.fst ++
        l.small.toList).count key ≤ l.keys.count key ∧
      (l.skippedMain ++ ((l.returned succeeded).filter fun v => !v.2).map Prod.fst ++
        l.main.toList).count key ≤ l.keys.count key := by
  have hvictims := ((List.filter_append_perm (fun v => v.2) l.victims).map Prod.fst).count_eq key
  simp only [List.map_append, List.count_append] at hvictims
  simp only [Scan.keys, List.count_append]
  cases succeeded <;> simp [Scan.returned] <;> omega

theorem toList_restore_small (succeeded : Bool) (hnodup : l.keys.Nodup) :
    (restore succeeded l p).small.toList = l.skippedSmall ++
      ((l.returned succeeded).filter fun v => v.2).map Prod.fst ++ l.small.toList := by
  refine toList_restoreQueue (List.nodup_iff_count_le_one.mpr fun key => ?_)
  exact (l.count_restored_le succeeded key).1.trans (List.nodup_iff_count_le_one.mp hnodup key)

theorem toList_restore_main (succeeded : Bool) (hnodup : l.keys.Nodup) :
    (restore succeeded l p).main.toList = l.skippedMain ++
      ((l.returned succeeded).filter fun v => !v.2).map Prod.fst ++ l.main.toList := by
  refine toList_restoreQueue (List.nodup_iff_count_le_one.mpr fun key => ?_)
  exact (l.count_restored_le succeeded key).2.trans (List.nodup_iff_count_le_one.mp hnodup key)

theorem restore_keys (succeeded : Bool) (hnodup : l.keys.Nodup) :
    ((restore succeeded l p).small.toList ++ (restore succeeded l p).main.toList ++
      l.taken succeeded).Perm l.keys := by
  have hvictims (key : Key) :=
    ((List.filter_append_perm (fun v => v.2) l.victims).map Prod.fst).count_eq key
  simp only [List.map_append, List.count_append] at hvictims
  rw [toList_restore_small succeeded hnodup, toList_restore_main succeeded hnodup,
    List.perm_iff_count]
  intro key
  have hvictims' := hvictims key
  simp only [Scan.keys, Scan.taken, Scan.returned, List.count_append]
  cases succeeded <;> simp <;> omega

section

variable (succeeded : Bool) (hrep : RepInv p) (hscan : ScanInv p n isProtected l)

include hrep hscan

theorem restored_perm : ((restore succeeded l p).small.toList ++
    (restore succeeded l p).main.toList ++ l.taken succeeded).Perm
      (p.small.toList ++ p.main.toList) :=
  (restore_keys succeeded (hscan.keys.nodup_iff.mpr hrep.nodup)).trans hscan.keys

theorem restored_nodup : ((restore succeeded l p).small.toList ++
    (restore succeeded l p).main.toList ++ l.taken succeeded).Nodup :=
  (restored_perm succeeded hrep hscan).nodup_iff.mpr hrep.nodup

theorem mem_restored (key : Key) : (key ∈ (restore succeeded l p).small ∨
    key ∈ (restore succeeded l p).main) ∨ key ∈ l.taken succeeded ↔ key ∈ p.blocks := by
  have hmem := (restored_perm succeeded hrep hscan).mem_iff (a := key)
  simpa only [List.mem_append, KeyQueue.mem_toList, hrep.queued] using hmem

variable {succeeded}

/-- Without the victims, the queues hold what is left of the blocks. -/
theorem mem_queues (hdropped : Dropped (l.taken succeeded) (restore succeeded l p) p')
    (key : Key) : key ∈ p'.small ∨ key ∈ p'.main ↔ key ∈ p'.blocks := by
  have hnodup := (List.nodup_append.mp (restored_nodup succeeded hrep hscan)).2.2
  have hmem := mem_restored succeeded hrep hscan key
  rw [hdropped.small, hdropped.main, hdropped.mem_blocks]
  show _ ↔ key ∉ l.taken succeeded ∧ key ∈ p.blocks
  rw [← hmem]
  constructor
  · intro hqueue
    refine ⟨fun htaken => ?_, .inl hqueue⟩
    exact hnodup key (List.mem_append.mpr hqueue) key htaken rfl
  · exact fun ⟨hkept, hmem⟩ => hmem.resolve_right hkept

theorem queues_disjoint (hdropped : Dropped (l.taken succeeded) (restore succeeded l p) p')
    (key : Key) (hsmall : key ∈ p'.small) : key ∉ p'.main := by
  rw [hdropped.small] at hsmall
  rw [hdropped.main]
  have hnodup := (List.nodup_append.mp (restored_nodup succeeded hrep hscan)).1
  exact fun hmain => (List.nodup_append.mp hnodup).2.2 key hsmall key hmain rfl

theorem mem_freq_of_scanInv (key : Key) : key ∈ l.freq ↔ key ∈ p.blocks :=
  (hscan.counted key).trans (hrep.counted key)

theorem repInv_of_dropped (hdropped : Dropped (l.taken succeeded) (restore succeeded l p) p') :
    RepInv p' where
  disjoint := queues_disjoint hrep hscan hdropped
  queued := mem_queues hrep hscan hdropped
  counted key := by
    rw [hdropped.mem_freq, hdropped.mem_blocks]
    exact and_congr_right fun _ => mem_freq_of_scanInv hrep hscan key
  freqRange key freq hfreq := by
    rw [hdropped.freq] at hfreq
    split at hfreq
    · cases hfreq
    · exact hscan.freqRange key freq hfreq
  evictable key hkey := by
    obtain ⟨hkept, hkey⟩ := (hdropped.evictable key).mp hkey
    exact (hdropped.mem_blocks key).mpr ⟨hkept, hrep.evictable key hkey⟩
  ghostAbsent key hkey := by
    rw [hdropped.mem_blocks]
    rintro ⟨hkept, hblock⟩
    exact hrep.ghostAbsent key ((hdropped.ghost key hkey).resolve_right hkept) hblock
  ghostBounded := hdropped.ghostBounded hrep.ghostBounded

/-- Every candidate that is resident has been looked at. -/
theorem card_candidates_le (hempty : l.small.toList = [] ∧ l.main.toList = []) :
    {key ∈ p.evictable | key ∈ p.blocks ∧ key ∉ isProtected}.card ≤ l.victims.length := by
  have hsubset : {key ∈ p.evictable | key ∈ p.blocks ∧ key ∉ isProtected} ⊆
      (l.victims.map Prod.fst).toFinset := by
    intro key hkey
    obtain ⟨hevictable, hblock, hfree⟩ := Finset.mem_filter.mp hkey
    have hmem : key ∈ l.keys := by
      rw [hscan.keys.mem_iff, List.mem_append]
      exact (hrep.queued key).mpr hblock
    rw [Scan.keys, hempty.1, hempty.2, List.nil_append, List.nil_append, List.append_assoc,
      List.mem_append] at hmem
    rw [List.mem_toFinset]
    exact hmem.resolve_right fun hskipped => hscan.skipped key hskipped ⟨hfree, hevictable⟩
  calc _ ≤ (l.victims.map Prod.fst).toFinset.card := Finset.card_le_card hsubset
    _ ≤ (l.victims.map Prod.fst).length := List.toFinset_card_le _
    _ = l.victims.length := List.length_map _

theorem victims_nodup : (l.victims.map Prod.fst).Nodup := by
  have hnodup := hscan.keys.nodup_iff.mpr hrep.nodup
  rw [Scan.keys, List.append_assoc, List.append_assoc] at hnodup
  exact (List.nodup_append.mp (List.nodup_append.mp hnodup).2.1).1

theorem victim_resident {v : Key × Bool} (hv : v ∈ l.victims) : v.1 ∈ p.blocks := by
  rw [← hrep.queued, ← KeyQueue.mem_toList, ← KeyQueue.mem_toList, ← List.mem_append,
    ← hscan.keys.mem_iff]
  have hmem : v.1 ∈ l.victims.map Prod.fst := List.mem_map_of_mem hv
  simp only [Scan.keys, List.mem_append]
  exact .inl (.inl (.inr hmem))

/-- The victims are distinct candidates. -/
theorem le_card_candidates :
    l.victims.length ≤ {key ∈ p.evictable | key ∈ p.blocks ∧ key ∉ isProtected}.card := by
  have hsubset : (l.victims.map Prod.fst).toFinset ⊆
      {key ∈ p.evictable | key ∈ p.blocks ∧ key ∉ isProtected} := by
    intro key hkey
    obtain ⟨v, hv, rfl⟩ := List.mem_map.mp (List.mem_toFinset.mp hkey)
    obtain ⟨hfree, hevictable⟩ := hscan.chosen v hv
    exact Finset.mem_filter.mpr ⟨hevictable, victim_resident hrep hscan hv, hfree⟩
  calc l.victims.length = (l.victims.map Prod.fst).length := (List.length_map _).symm
    _ = (l.victims.map Prod.fst).toFinset.card :=
        (List.toFinset_card_of_nodup (victims_nodup hrep hscan)).symm
    _ ≤ _ := Finset.card_le_card hsubset

/-- The victims that stay away are what the result lists. -/
theorem evicts_of_dropped {result : Option (List (Key × BlockStatus))}
    (hdropped : Dropped (l.taken succeeded) (restore succeeded l p) p')
    (hkeys : (result.getD []).map Prod.fst = l.taken succeeded)
    (hsome : result.isSome ↔
      n ≤ {key ∈ p.evictable | key ∈ p.blocks ∧ key ∉ isProtected}.card)
    (hvictims : ∀ victims, result = some victims → victims.length = n ∧
      (victims.map Prod.fst).Nodup ∧ ∀ v ∈ victims,
        p.blocks.lookup v.1 = some v.2 ∧ v.1 ∈ p.evictable ∧ v.1 ∉ isProtected) :
    Evicts n isProtected p result p' := by
  refine ⟨hsome, hvictims, ?_, ?_⟩
  · rw [hkeys]
    intro key hkey
    have hblocks : key ∉ p'.blocks := fun h => ((hdropped.mem_blocks key).mp h).1 hkey
    have hqueues := (mem_queues hrep hscan hdropped key).not.mpr hblocks
    rw [not_or] at hqueues
    refine ⟨hblocks, ?_, ?_, hqueues⟩
    · exact fun h => ((hdropped.mem_freq key).mp h).1 hkey
    · exact fun h => ((hdropped.evictable key).mp h).1 hkey
  · rw [hkeys]
    intro key hkey
    have hblocks : p'.blocks.lookup key = p.blocks.lookup key := by
      rw [hdropped.blocks, if_neg hkey]
      rfl
    have hmem : key ∈ p'.blocks ↔ key ∈ p.blocks := by
      rw [← AList.lookup_isSome, hblocks, AList.lookup_isSome]
    have hqueues := mem_queues hrep hscan hdropped key
    refine ⟨hblocks, ?_, ?_, ?_, ?_⟩
    · rw [hdropped.mem_freq, and_iff_right hkey]
      exact hscan.counted key
    · rw [hdropped.evictable, and_iff_right hkey]
      rfl
    · rw [hqueues, hmem, hrep.queued]
    · intro hblock
      rcases hqueues.mpr (hmem.mpr hblock) with hsmall | hmain
      · exact .inl ⟨hsmall, queues_disjoint hrep hscan hdropped key hsmall⟩
      · exact .inr ⟨hmain, fun hsmall => queues_disjoint hrep hscan hdropped key hsmall hmain⟩

end

/-- Nothing is asked for. -/
theorem evicts_zero (isProtected : Finset Key) (hrep : RepInv p) :
    Evicts 0 isProtected p (some []) p := by
  refine ⟨by simp, ?_, by simp, ?_⟩
  · rintro victims ⟨⟩
    simp
  · intro key _
    refine ⟨rfl, .rfl, .rfl, .rfl, fun hblock => ?_⟩
    rcases (hrep.queued key).mpr hblock with hsmall | hmain
    · exact .inl ⟨hsmall, hrep.disjoint key hsmall⟩
    · exact .inr ⟨hmain, fun hsmall => hrep.disjoint key hsmall hmain⟩

/-- A loop that did not find enough victims. -/
theorem evict_of_few (hscan : p.scanQueues n isProtected = .ok l) (hlen : l.victims.length < n) :
    p.evict n isProtected = .ok (none, restore false l p) := by
  have hne : ¬ l.victims.length = n := by omega
  rw [evict, if_neg (by omega), hscan]
  simp only [bind, Except.bind, hne, decide_false, Bool.not_false, if_true]
  rfl

/-- A loop that found enough victims. -/
theorem evict_of_enough {r : List (Key × BlockStatus) × S3FIFOCachePolicy Key BlockStatus}
    (hn : n ≠ 0) (hscan : p.scanQueues n isProtected = .ok l) (hlen : l.victims.length = n)
    (hdrop : dropVictims l.victims (restore true l p) = .ok r) :
    p.evict n isProtected = .ok (some r.1, r.2) := by
  rw [evict, if_neg hn, hscan]
  simp only [bind, Except.bind, hlen, decide_true, Bool.not_true, Bool.false_eq_true, if_false,
    hdrop]
  rfl

/-- A loop that found the only victim asked for. -/
theorem evict_of_victim {key : Key} {fromSmall : Bool} {block : BlockStatus}
    (hscan : p.scanQueues 1 isProtected = .ok l) (hvictims : l.victims = [(key, fromSmall)])
    (hblock : p.blocks.lookup key = some block) : p.evict 1 isProtected =
      .ok (some [(key, block)], (restore true l p).dropVictim key fromSmall) := by
  have hblock' : (restore true l p).blocks.lookup key = some block := hblock
  have hdrop : dropVictims l.victims (restore true l p) =
      .ok ([(key, block)], (restore true l p).dropVictim key fromSmall) := by
    rw [hvictims, dropVictims, hblock']
    rfl
  exact evict_of_enough Nat.one_ne_zero hscan (by simp [hvictims]) hdrop

theorem evict_returns (n : Nat) (isProtected : Finset Key) (hrep : RepInv p) :
    Returns (p.evict n isProtected) fun r => Evicts n isProtected p r.1 r.2 ∧ RepInv r.2 := by
  by_cases hn : n = 0
  · subst hn
    exact ⟨_, if_pos rfl, evicts_zero isProtected hrep, hrep⟩
  obtain ⟨l, hloop, hscan, hend⟩ := scanQueues_returns hrep.nodup hrep.freqRange n isProtected
  by_cases hlen : l.victims.length = n
  · have hcount : n ≤ {key ∈ p.evictable | key ∈ p.blocks ∧ key ∉ isProtected}.card :=
      hlen ▸ le_card_candidates hrep hscan
    obtain ⟨⟨result, p'⟩, hdrop, hkeys, hvalues, hdropped⟩ :=
      dropVictims_returns (p := restore true l p) l.victims (victims_nodup hrep hscan)
        fun v => victim_resident hrep hscan
    have hdropped : Dropped (l.taken true) (restore true l p) p' := hdropped
    refine ⟨_, evict_of_enough hn hloop hlen hdrop,
      evicts_of_dropped hrep hscan hdropped hkeys (by simp [hcount]) ?_,
      repInv_of_dropped hrep hscan hdropped⟩
    rintro victims ⟨⟩
    refine ⟨?_, hkeys ▸ victims_nodup hrep hscan, fun v hv => ?_⟩
    · rw [← hlen, ← List.length_map (f := Prod.fst), hkeys, List.length_map]
    · obtain ⟨w, hw, hwv⟩ := List.mem_map.mp (hkeys ▸ List.mem_map_of_mem hv)
      obtain ⟨hfree, hevictable⟩ := hscan.chosen w hw
      rw [hwv] at hfree hevictable
      exact ⟨hvalues v hv, hevictable, hfree⟩
  · have hcount := card_candidates_le hrep hscan (hend.resolve_left hlen)
    have hfew := hscan.enough
    have hdropped : Dropped (l.taken false) (restore false l p) (restore false l p) := .refl _
    refine ⟨_, evict_of_few hloop (by omega), evicts_of_dropped hrep hscan hdropped rfl ?_ ?_,
      repInv_of_dropped hrep hscan hdropped⟩
    · simp only [Option.isSome_none, Bool.false_eq_true, false_iff]
      omega
    · rintro victims ⟨⟩

/-! ## The other operations -/

theorem repInv_init (cacheCapacity : Nat) :
    RepInv (init cacheCapacity : S3FIFOCachePolicy Key BlockStatus) := by
  constructor <;> simp [init, KeyQueue.notMem_empty, KeyQueue.length]

/-- A new key joins the small queue: no key comes out of the ghost queue with a value. -/
theorem insert_eq (key : Key) (block : BlockStatus) : p.insert refCnt key block =
    { p with
      blocks := p.blocks.insert key block
      freq := p.freq.insert key 0
      small := p.small.push key
      ghost := p.ghost.erase key
      evictable := if refCnt block = 0 then Insert.insert key p.evictable else p.evictable } := by
  unfold insert
  split <;> rfl

theorem RepInv.insert (hrep : RepInv p) {key : Key} (habsent : key ∉ p.blocks)
    (block : BlockStatus) : RepInv (p.insert refCnt key block) := by
  rw [insert_eq]
  refine ⟨fun key' hkey' => ?_, fun key' => ?_, fun key' => ?_, fun key' freq hfreq => ?_,
    fun key' hkey' => ?_, fun key' hkey' => ?_, ?_⟩
  · rcases KeyQueue.mem_push.mp hkey' with hkey' | rfl
    · exact hrep.disjoint key' hkey'
    · exact fun hmain => habsent ((hrep.queued key').mp (.inr hmain))
  · show key' ∈ p.small.push key ∨ key' ∈ p.main ↔ key' ∈ p.blocks.insert key block
    rw [KeyQueue.mem_push, AList.mem_insert, ← hrep.queued]
    tauto
  · show key' ∈ p.freq.insert key 0 ↔ key' ∈ p.blocks.insert key block
    rw [AList.mem_insert, AList.mem_insert, hrep.counted]
  · rcases lookup_insert_eq_some.mp hfreq with ⟨-, rfl⟩ | ⟨-, hfreq⟩
    · decide
    · exact hrep.freqRange key' freq hfreq
  · show key' ∈ p.blocks.insert key block
    rw [AList.mem_insert]
    simp only at hkey'
    split at hkey'
    · exact (Finset.mem_insert.mp hkey').imp id (hrep.evictable key')
    · exact .inr (hrep.evictable key' hkey')
  · show key' ∉ p.blocks.insert key block
    obtain ⟨hne, hghost⟩ := KeyQueue.mem_erase.mp hkey'
    rw [AList.mem_insert, not_or]
    exact ⟨hne, hrep.ghostAbsent key' hghost⟩
  · exact (List.length_erase_le).trans hrep.ghostBounded

theorem RepInv.remove (hrep : RepInv p) {key : Key} (h : p.remove key = .ok p') : RepInv p' := by
  unfold S3FIFOCachePolicy.remove at h
  split at h
  · cases h
  · cases h
    refine ⟨fun key' hkey' => ?_, fun key' => ?_, fun key' => ?_, fun key' freq hfreq => ?_,
      fun key' hkey' => ?_, fun key' hkey' => ?_, hrep.ghostBounded⟩
    · have hsmall := (KeyQueue.mem_erase.mp hkey').2
      exact fun hmain => hrep.disjoint key' hsmall (KeyQueue.mem_erase.mp hmain).2
    · show key' ∈ p.small.erase key ∨ key' ∈ p.main.erase key ↔ key' ∈ p.blocks.erase key
      rw [KeyQueue.mem_erase, KeyQueue.mem_erase, ← and_or_left, hrep.queued, AList.mem_erase]
    · show key' ∈ p.freq.erase key ↔ key' ∈ p.blocks.erase key
      rw [AList.mem_erase, AList.mem_erase, hrep.counted]
    · exact hrep.freqRange key' freq (lookup_erase_eq_some.mp hfreq).2
    · obtain ⟨hne, hevictable⟩ := Finset.mem_erase.mp hkey'
      exact AList.mem_erase.mpr ⟨hne, hrep.evictable key' hevictable⟩
    · exact fun hblock => hrep.ghostAbsent key' hkey' (AList.mem_erase.mp hblock).2

theorem RepInv.touchKey (hrep : RepInv p) (key : Key) : RepInv (p.touchKey key) := by
  unfold S3FIFOCachePolicy.touchKey
  split
  next => exact hrep
  next freq hfreq =>
    have hkey : key ∈ p.freq := mem_of_lookup hfreq
    obtain ⟨hdisjoint, hqueued, hcounted, hrange, hevictable, habsent, hbounded⟩ := hrep
    refine ⟨hdisjoint, hqueued, fun key' => ?_, fun key' freq' hfreq' => ?_, hevictable, habsent,
      hbounded⟩
    · rw [AList.mem_insert, ← hcounted]
      exact ⟨fun h => h.elim (fun heq => heq ▸ hkey) id, .inr⟩
    · rcases lookup_insert_eq_some.mp hfreq' with ⟨-, rfl⟩ | ⟨-, hfreq'⟩
      · have hold := hrange key freq hfreq
        simp only [freqCap]
        omega
      · exact hrange key' freq' hfreq'

theorem RepInv.touch (hrep : RepInv p) (keys : List Key) : RepInv (p.touch keys) := by
  induction keys generalizing p with
  | nil => exact hrep
  | cons key keys ih => exact ih (hrep.touchKey key)

theorem RepInv.clear (p : S3FIFOCachePolicy Key BlockStatus) : RepInv p.clear := by
  constructor <;> simp [S3FIFOCachePolicy.clear, KeyQueue.notMem_empty, KeyQueue.length]

theorem RepInv.markEvictable (hrep : RepInv p) {key : Key} (hkey : key ∈ p.blocks) :
    RepInv (p.markEvictable key) :=
  { hrep with
    evictable := fun key' hkey' =>
      (Finset.mem_insert.mp hkey').elim (fun heq => heq ▸ hkey) (hrep.evictable key') }

theorem RepInv.markNonEvictable (hrep : RepInv p) (key : Key) : RepInv (p.markNonEvictable key) :=
  { hrep with
    evictable := fun key' hkey' => hrep.evictable key' (Finset.mem_of_mem_erase hkey') }

/-! ## Runs -/

theorem Step.repInv {op : Op Key BlockStatus} (h : Step refCnt p op p') (hrep : RepInv p) :
    RepInv p' := by
  cases h with
  | insert key block habsent => exact hrep.insert habsent block
  | remove h => exact hrep.remove h
  | touch keys => exact hrep.touch keys
  | clear => exact .clear p
  | evict h => exact ((evict_returns _ _ hrep).of_eq h).2
  | markEvictable hkey => exact hrep.markEvictable hkey
  | markNonEvictable hkey => exact hrep.markNonEvictable _

theorem repInv_of_run {cacheCapacity : Nat} {ops : List (Op Key BlockStatus)}
    (h : Run (Step refCnt) (init cacheCapacity) ops p) : RepInv p :=
  h.invariant (P := fun _ p => RepInv p) (repInv_init cacheCapacity)
    fun hrep hstep => hstep.repInv hrep

/-- After every run the containers agree, and no eviction faults. -/
theorem run_repInv (refCnt : BlockStatus → Int) (cacheCapacity : Nat)
    (ops : List (Op Key BlockStatus)) (p : S3FIFOCachePolicy Key BlockStatus)
    (h : Run (Step refCnt) (init cacheCapacity) ops p) :
    RepInv p ∧ ∀ n isProtected, ∃ result p', Step refCnt p (.evict n isProtected result) p' := by
  refine ⟨repInv_of_run h, fun n isProtected => ?_⟩
  obtain ⟨⟨result, p'⟩, hevict, -⟩ := evict_returns n isProtected (repInv_of_run h)
  exact ⟨result, p', .evict hevict⟩

/-- Of two blocks the touched one moves on to the main queue, from which it is evicted. -/
theorem run_repInv_twoBlocks : ∃ p : S3FIFOCachePolicy Nat Int,
    Run (Step id) (init 1)
      [.insert 1 0, .insert 2 0, .touch [1], .evict 1 ∅ (some [(1, 0)])] p ∧ RepInv p := by
  have hstart : Run (Step id) (init 1 : S3FIFOCachePolicy Nat Int) [] _ := .nil
  have hrun := hstart |>.snoc (.insert 1 0 (by decide)) |>.snoc (.insert 2 0 (by decide))
    |>.snoc (.touch [1]) |>.snoc (.evict (show evict 1 ∅ _ = .ok (some [(1, 0)], _) from rfl))
  exact ⟨_, hrun, (run_repInv id 1 _ _ hrun).1⟩

/-- After every run `evict` returns, and does what it promises. -/
theorem run_evicts (refCnt : BlockStatus → Int) (cacheCapacity : Nat)
    (ops : List (Op Key BlockStatus)) (p : S3FIFOCachePolicy Key BlockStatus)
    (h : Run (Step refCnt) (init cacheCapacity) ops p) (n : Nat) (isProtected : Finset Key) :
    Returns (p.evict n isProtected) fun r => Evicts n isProtected p r.1 r.2 :=
  (evict_returns n isProtected (repInv_of_run h)).mono fun _ => And.left

/-- Two blocks are wanted, and one of the two is protected. -/
theorem run_evicts_twoBlocks : ∃ p : S3FIFOCachePolicy Nat Int,
    p.blocks.keys = [2, 1] ∧
      Returns (p.evict 2 {1}) fun r => Evicts 2 {1} p r.1 r.2 := by
  have hstart : Run (Step id) (init 1 : S3FIFOCachePolicy Nat Int) [] _ := .nil
  have hrun := hstart |>.snoc (.insert 1 0 (by decide)) |>.snoc (.insert 2 0 (by decide))
  exact ⟨_, by decide, run_evicts id 1 _ _ hrun 2 {1}⟩

end TieredKVCache.VllmAdapter.S3FIFOCachePolicy
