import Mathlib.Data.Finset.Card
import TieredKVCache.Bench.LruReplay
import TieredKVCache.Bench.S3FifoRuns

/-!
# Scans

A scan accesses blocks that nobody has used and nobody uses again. In S3-FIFO it passes through the
small queue: only keys of the small queue that were used again before the scan can reach the main
queue during it, and each of them displaces one key at most (`Resists`). So a scan of any length
costs no more main keys than the small queue has places, and none if the keys in the small queue
were used once (`scan_resistant`). A scan of its capacity leaves an LRU pool nothing.
-/

namespace TieredKVCache.Bench

open Lib CachePolicy LawfulPolicy

variable {α : Type} [DecidableEq α]

/-- The keys with a positive count. -/
def countedKeys (queue : OrderedDict α Nat) : Finset α :=
  (queue.keys.toList.filter fun k => decide (0 < queue.value k)).toFinset

section

variable {queue rest : OrderedDict α Nat} {k : α} {count : Nat}

theorem mem_countedKeys : k ∈ countedKeys queue ↔ k ∈ queue ∧ 0 < queue.value k := by
  rw [countedKeys, List.mem_toFinset, List.mem_filter, decide_eq_true_eq]
  exact Iff.rfl

theorem length_setItem (hk : k ∉ queue) :
    (queue.setItem k count).length = queue.length + 1 := by
  show (queue.keys.push k).toList.length = _
  rw [KeyQueue.toList_push hk, List.length_append]
  rfl

theorem countedKeys_setItem (hk : k ∉ queue) :
    countedKeys (queue.setItem k 0) = countedKeys queue := by
  ext x
  rw [mem_countedKeys, mem_countedKeys]
  show x ∈ queue.keys.push k ∧ 0 < Function.update queue.value k 0 x ↔ _
  rw [KeyQueue.mem_push]
  constructor
  · rintro ⟨hmem, hvalue⟩
    have hne : x ≠ k := fun heq => by simp [heq] at hvalue
    rw [Function.update_of_ne hne] at hvalue
    exact ⟨hmem.resolve_right hne, hvalue⟩
  · rintro ⟨hmem, hvalue⟩
    have hne : x ≠ k := fun heq => hk (heq ▸ hmem)
    rw [Function.update_of_ne hne]
    exact ⟨.inl hmem, hvalue⟩

/-- What is left of the counted keys when the oldest key is gone. -/
theorem countedKeys_popFront (hpop : queue.popFront = some ((k, count), rest)) :
    countedKeys rest = (countedKeys queue).erase k ∧ (k ∈ countedKeys queue ↔ 0 < count) := by
  obtain ⟨hkeys, hcount, hvalue⟩ := OrderedDict.popFront_eq_some hpop
  have hmem {x : α} : x ∈ queue ↔ x = k ∨ x ∈ rest := by
    show x ∈ queue.keys.toList ↔ _
    rw [hkeys, List.mem_cons]
    exact Iff.rfl
  constructor
  · ext x
    rw [Finset.mem_erase, mem_countedKeys, mem_countedKeys, hmem, hvalue]
    constructor
    · rintro ⟨hx, hpos⟩
      exact ⟨fun heq => OrderedDict.notMem_of_popFront hpop (heq ▸ hx), .inr hx, hpos⟩
    · rintro ⟨hne, hx, hpos⟩
      exact ⟨hx.resolve_left hne, hpos⟩
  · rw [mem_countedKeys, hcount, hmem]
    exact and_iff_right (.inl rfl)

end

namespace S3FifoPolicy

variable {capacity : Nat} {p q r : S3FifoPolicy α} {k : α}

def mainKeys (p : S3FifoPolicy α) : Finset α := p.main.keys.toList.toFinset

/-- The keys of the small queue that were used again. -/
def reused (p : S3FifoPolicy α) : Finset α := countedKeys p.small

/-- What the policy has to do with a key. -/
def Knows (p : S3FifoPolicy α) (k : α) : Prop := k ∈ p.residents ∨ k ∈ p.ghost

/-- From `p` to `q` the main queue has lost as many keys as were promoted, at most. -/
structure Resists (p q : S3FifoPolicy α) : Prop where
  reused : q.reused ⊆ p.reused
  promoted : q.mainKeys ⊆ p.mainKeys ∪ p.reused
  lost : (p.mainKeys \ q.mainKeys).card + q.reused.card ≤ p.reused.card
  untouched : q.reused.card = p.reused.card → q.main = p.main

theorem mem_mainKeys : k ∈ p.mainKeys ↔ k ∈ p.main := List.mem_toFinset

/-- The main queue is as before. -/
theorem resists_of_main (hmain : q.main = p.main) (hreused : q.reused = p.reused) :
    Resists p q where
  reused := hreused.subset
  promoted := by
    rw [mainKeys, hmain]
    exact Finset.subset_union_left
  lost := by
    rw [mainKeys, mainKeys, hmain, sdiff_self, hreused]
    exact (Nat.zero_add _).le
  untouched _ := hmain

theorem Resists.trans (h : Resists p q) (h' : Resists q r) : Resists p r where
  reused := h'.reused.trans h.reused
  promoted := by
    refine h'.promoted.trans (Finset.union_subset h.promoted ?_)
    exact h.reused.trans Finset.subset_union_right
  lost := by
    have hsplit : p.mainKeys \ r.mainKeys ⊆
        (p.mainKeys \ q.mainKeys) ∪ (q.mainKeys \ r.mainKeys) := sdiff_triangle _ _ _
    have hcard := (Finset.card_le_card hsplit).trans (Finset.card_union_le _ _)
    have hlost := h.lost
    have hlost' := h'.lost
    omega
  untouched hcard := by
    have hle := Finset.card_le_card h.reused
    have hle' := Finset.card_le_card h'.reused
    exact (h'.untouched (by omega)).trans (h.untouched (by omega))

/-! ## One access of a scan -/

/-- The queues once the oldest key has left the small queue. -/
def afterSmall (victim : α) (freq : Nat) (p : S3FifoPolicy α) :
    List (Eviction α) × S3FifoPolicy α :=
  if freq > 0 then p.insertMain victim
  else
    let p := { p with ghost := ((p.ghost.push victim).popDownTo p.ghostCap).2 }
    ([⟨victim, p.residents⟩], p)

theorem small_afterSmall (victim : α) (freq : Nat) (p : S3FifoPolicy α) :
    (afterSmall victim freq p).2.small = p.small ∧
      (afterSmall victim freq p).2.smallCap = p.smallCap := by
  unfold afterSmall
  split
  next =>
    rw [rest_insertMain]
    exact ⟨rfl, rfl⟩
  next => exact ⟨rfl, rfl⟩

/-- A full small queue lets its oldest key go for a new one. -/
theorem insertSmall_of_full {victim : α} {freq : Nat} {small : OrderedDict α Nat}
    (hfull : p.small.length = p.smallCap) (hk : k ∉ p.small)
    (hpop : (p.small.setItem k 0).popFront = some ((victim, freq), small)) :
    p.insertSmall k = afterSmall victim freq { p with small } := by
  have hlength : (p.small.setItem k 0).length = p.small.length + 1 := length_setItem hk
  have hshorter := OrderedDict.length_of_popFront hpop
  have hround : smallRound { p with small := p.small.setItem k 0 } =
      some (afterSmall victim freq { p with small }) := by
    have hlong : (p.small.setItem k 0).length > p.smallCap := by omega
    exact (if_pos hlong).trans (congrArg (Option.map _) hpop)
  obtain ⟨hsmall, hcap⟩ := small_afterSmall victim freq { p with small }
  have hlast : (afterSmall victim freq { p with small }).2.smallRound = none := by
    refine if_neg (Nat.not_lt.mpr ?_)
    rw [hsmall, hcap]
    show small.length ≤ p.smallCap
    omega
  have hrun : p.insertSmall k = drain smallRound (fun p => p.small.length) length_of_smallRound
      { p with small := p.small.setItem k 0 } := rfl
  generalize afterSmall victim freq { p with small } = next at hround hlast
  obtain ⟨es, q⟩ := next
  rw [hrun, drain_of_some hround, drain_of_none hlast, List.append_nil]

theorem insertSmall_of_room (hroom : p.small.length < p.smallCap) (hk : k ∉ p.small) :
    p.insertSmall k = ([], { p with small := p.small.setItem k 0 }) := by
  have hlength : (p.small.setItem k 0).length = p.small.length + 1 := length_setItem hk
  refine drain_of_none (if_neg (Nat.not_lt.mpr ?_))
  show (p.small.setItem k 0).length ≤ p.smallCap
  omega

/-- A key that the main queue takes in costs it one key at most. -/
theorem mainKeys_insertMain (hk : k ∉ p.main) (hle : p.main.length ≤ p.mainCap) :
    (p.insertMain k).2.mainKeys ⊆ insert k p.mainKeys ∧
      (p.mainKeys \ (p.insertMain k).2.mainKeys).card ≤ 1 := by
  obtain ⟨⟨-, hdisplaced⟩, -⟩ := insertMain_spec hk hle
  generalize (p.insertMain k).1 = es at hdisplaced
  cases hdisplaced with
  | none hperm =>
    have hkeys : (p.insertMain k).2.mainKeys = insert k p.mainKeys := by
      ext x
      rw [Finset.mem_insert, mem_mainKeys, mem_mainKeys]
      exact hperm.mem_iff.trans List.mem_cons
    rw [hkeys, Finset.sdiff_eq_empty_iff_subset.mpr (Finset.subset_insert _ _)]
    exact ⟨Finset.Subset.refl _, Nat.zero_le 1⟩
  | @one _ victim hperm =>
    have hkeys {x : α} : x = victim ∨ x ∈ (p.insertMain k).2.mainKeys ↔ x = k ∨ x ∈ p.mainKeys := by
      rw [mem_mainKeys, mem_mainKeys]
      exact List.mem_cons.symm.trans (hperm.mem_iff.trans List.mem_cons)
    refine ⟨fun x hx => Finset.mem_insert.mpr (hkeys.mp (.inr hx)), ?_⟩
    refine (Finset.card_le_card (t := {victim}) fun x hx => ?_).trans_eq (Finset.card_singleton _)
    obtain ⟨hin, hout⟩ := Finset.mem_sdiff.mp hx
    exact Finset.mem_singleton.mpr ((hkeys.mpr (.inr hin)).resolve_right hout)

/-- The oldest key of the small queue costs the main queue a key at most, and only if it was used
again. -/
theorem resists_afterSmall {victim : α} {freq : Nat} {small : OrderedDict α Nat}
    (hreused : countedKeys small = p.reused.erase victim) (hfreq : victim ∈ p.reused ↔ 0 < freq)
    (hvictim : victim ∉ p.main) (hle : p.main.length ≤ p.mainCap) :
    Resists p (afterSmall victim freq { p with small }).2 := by
  unfold afterSmall
  split
  next hpos =>
    have hmem := hfreq.mpr hpos
    have hkept : (insertMain victim { p with small }).2.reused = p.reused.erase victim := by
      rw [S3FifoPolicy.reused, small_insertMain]
      exact hreused
    have hcard := Finset.card_erase_of_mem hmem
    have hsome := Finset.card_pos.mpr ⟨victim, hmem⟩
    obtain ⟨hkeys, hone⟩ := @mainKeys_insertMain _ _ { p with small } victim hvictim hle
    refine ⟨?_, hkeys.trans ?_, ?_, fun hsame => ?_⟩
    · rw [hkept]
      exact Finset.erase_subset _ _
    · exact Finset.insert_subset (Finset.mem_union_right _ hmem) Finset.subset_union_left
    · have hlost : (p.mainKeys \ (insertMain victim { p with small }).2.mainKeys).card ≤ 1 := hone
      rw [hkept]
      omega
    · rw [hkept] at hsame
      omega
  next hzero =>
    refine resists_of_main rfl (hreused.trans ?_)
    exact Finset.erase_eq_of_notMem fun hmem => hzero (hfreq.mp hmem)

theorem resists_insertSmall (h : p.Valid capacity) (hk : k ∉ p.residents) :
    Resists p (p.insertSmall k).2 := by
  have hsmall : k ∉ p.small := fun hmem => hk (List.mem_append_left _ hmem)
  by_cases hroom : p.small.length < p.smallCap
  · rw [insertSmall_of_room hroom hsmall]
    exact resists_of_main rfl (countedKeys_setItem hsmall)
  · have hfull : p.small.length = p.smallCap := Nat.le_antisymm h.small_le (Nat.not_lt.mp hroom)
    obtain ⟨⟨⟨victim, freq⟩, small⟩, hpop⟩ :
        ∃ next, (p.small.setItem k 0).popFront = some next := by
      refine Option.ne_none_iff_exists'.mp fun hnone => ?_
      rw [OrderedDict.popFront_eq_none, length_setItem hsmall] at hnone
      omega
    have hall : (k :: p.residents).Nodup := List.nodup_cons.mpr ⟨hk, h.nodup⟩
    obtain ⟨hvictim, -⟩ :=
      List.nodup_cons.mp ((perm_of_popFront hk hpop).nodup_iff.mpr hall)
    obtain ⟨hreused, hfreq⟩ := countedKeys_popFront hpop
    rw [countedKeys_setItem hsmall] at hreused hfreq
    rw [insertSmall_of_full hfull hsmall hpop]
    exact resists_afterSmall hreused hfreq
      (fun hmem => hvictim (List.mem_append_right _ hmem)) h.main_le

/-! ## Scans -/

/-- An admission makes no other key known. -/
theorem knows_insertSmall (h : p.Valid capacity) (hk : k ∉ p.residents) {x : α}
    (hx : (p.insertSmall k).2.Knows x) : x = k ∨ p.Knows x := by
  rcases hx with hresident | hghost
  · exact ((valid_insertSmall h hk).2.mem_of_mem hresident).imp_right .inl
  · rcases insertSmall_cases h hk with ⟨-, hrun⟩ | ⟨victim, freq, small, hpop, -, hrun | hrun⟩
    · rw [hrun] at hghost
      exact .inr (.inr hghost)
    · rw [hrun, ghost_insertMain] at hghost
      exact .inr (.inr hghost)
    · rw [hrun] at hghost
      rcases KeyQueue.mem_push.mp (KeyQueue.mem_of_mem_popDownTo hghost) with hold | rfl
      · exact .inr (.inr hold)
      · have hmem := (perm_of_popFront hk hpop).subset List.mem_cons_self
        exact (List.mem_cons.mp hmem).imp_right .inl

theorem access_unknown (blockIndex : Int) (hk : ¬ p.Knows k) :
    p.access k blockIndex = (false, p.insertSmall k) := by
  obtain ⟨hresident, hghost⟩ := not_or.mp hk
  have hout : p.contains k = false :=
    Bool.eq_false_iff.mpr fun hin => hresident (contains_iff.mp hin)
  rw [access_miss blockIndex hout, admitKey, if_neg (Bool.eq_false_iff.mp hout), if_neg hghost]

theorem resists_runAccesses (h : p.Valid capacity) (scan : List (α × Nat))
    (hnodup : (scan.map Prod.fst).Nodup) (hnew : ∀ k ∈ scan.map Prod.fst, ¬ p.Knows k) :
    (∀ event ∈ (runAccesses scan p).1, event.hit = false) ∧
      Resists p (runAccesses scan p).2 := by
  induction scan generalizing p with
  | nil => exact ⟨List.forall_mem_nil _, resists_of_main rfl rfl⟩
  | cons acc scan ih =>
    obtain ⟨k, blockIndex⟩ := acc
    obtain ⟨hk, hrest⟩ := List.forall_mem_cons.mp hnew
    obtain ⟨hout, hscan⟩ := List.nodup_cons.mp hnodup
    have hresident : k ∉ p.residents := fun hmem => hk (.inl hmem)
    have haccess : CachePolicy.access k blockIndex p = (false, p.insertSmall k) :=
      access_unknown blockIndex hk
    have hnext := ih (valid_insertSmall h hresident).1 hscan fun x hx hknown => by
      rcases knows_insertSmall h hresident hknown with rfl | hknown
      · exact hout hx
      · exact hrest x hx hknown
    rw [runAccesses, haccess]
    exact ⟨List.forall_mem_cons.mpr ⟨rfl, hnext.1⟩,
      (resists_insertSmall h hresident).trans hnext.2⟩

end S3FifoPolicy

namespace LRUPolicy

variable {capacity : Nat}

theorem Holds.runAccesses {p : LRUPolicy α} (h : p.Holds capacity []) (accs : List (α × Nat)) :
    (runAccesses accs p).2.Holds capacity (accs.map Prod.fst) := by
  have hholds := runAccesses_invariant
    (I := fun past (p : LRUPolicy α) => p.Holds capacity (idsOf past))
    (fun {past p} k blockIndex hpast => by
      rw [idsOf_append]
      exact hpast.access k blockIndex)
    accs h
  rwa [idsOf_runAccesses] at hholds

theorem new_holds (h : 1 ≤ capacity) :
    Returns (LRUPolicy.new capacity : Except String (LRUPolicy α)) fun p => p.Holds capacity [] :=
  (new_fresh h).mono fun p ⟨hvalid, hempty⟩ => by
    have hstore : p.store.toList = [] := hempty
    exact ⟨hvalid.1, by rw [hstore, List.dedup_nil, List.rtake_nil]⟩

/-- What was used before as many other ids is not recent. -/
theorem not_recent_of_scan {before scan : List α} {k : α} (hnodup : scan.Nodup)
    (hlong : capacity ≤ scan.length) (hk : k ∉ scan) : ¬ Recent capacity (before ++ scan) k := by
  rintro ⟨first, since, heq, hfew⟩
  have hsuffix : scan ⊆ since := by
    rcases List.append_eq_append_iff.mp heq with ⟨mid, -, hscan⟩ | ⟨mid, -, hsince⟩
    · exact absurd (hscan ▸ List.mem_append_right _ List.mem_cons_self) hk
    · cases mid with
      | nil =>
        have hscan : k :: since = scan := hsince
        exact absurd (hscan ▸ List.mem_cons_self) hk
      | cons key mid =>
        rw [(List.cons.inj hsince).2]
        exact List.subset_append_right _ _
  have hcard : scan.toFinset.card ≤ since.toFinset.card :=
    Finset.card_le_card fun x hx => List.mem_toFinset.mpr (hsuffix (List.mem_toFinset.mp hx))
  rw [List.toFinset_card_of_nodup hnodup] at hcard
  omega

end LRUPolicy

/-- What a scan does to the policy `p`. -/
structure Unpolluted (scan : List (α × Nat)) (p : S3FifoPolicy α) : Prop where
  misses : ∀ event ∈ (runAccesses scan p).1, event.hit = false
  /-- No key of the scan gets into the main queue. -/
  promoted : (runAccesses scan p).2.mainKeys ⊆ p.mainKeys ∪ p.reused
  lost : (p.mainKeys \ (runAccesses scan p).2.mainKeys).card ≤ min p.reused.card p.smallCap
  untouched : p.reused = ∅ → (runAccesses scan p).2.main = p.main

theorem S3FifoPolicy.Valid.unpolluted {capacity : Nat} {p : S3FifoPolicy α}
    (h : p.Valid capacity) (scan : List (α × Nat)) (hnodup : (scan.map Prod.fst).Nodup)
    (hnew : ∀ k ∈ scan.map Prod.fst, ¬ p.Knows k) : Unpolluted scan p := by
  obtain ⟨hmisses, hresists⟩ := resists_runAccesses h scan hnodup hnew
  have hreused : p.reused.card ≤ p.smallCap :=
    ((List.toFinset_card_le _).trans (List.length_filter_le _ _)).trans h.small_le
  have hlost := hresists.lost
  refine ⟨hmisses, hresists.promoted, Nat.le_min.mpr ⟨by omega, by omega⟩, fun hnone => ?_⟩
  refine hresists.untouched (congrArg Finset.card ?_)
  rw [hnone, Finset.subset_empty.mp (hresists.reused.trans_eq hnone)]

/-- **Scans do not pollute.** After any calls, a scan of any length passes through S3-FIFO, and one
of the capacity leaves an LRU pool no other key. -/
theorem scan_resistant (α : Type) [DecidableEq α] {capacity : Nat} (h : 1 ≤ capacity)
    (scan : List (α × Nat)) (hnodup : (scan.map Prod.fst).Nodup) :
    (Returns (S3FifoPolicy.new capacity : Except String (S3FifoPolicy α)) fun start =>
      ∀ calls : List (PolicyCall α),
        (∀ k ∈ scan.map Prod.fst, ¬ (runCalls calls start).2.Knows k) →
          Unpolluted scan (runCalls calls start).2) ∧
      (capacity ≤ scan.length →
        Returns (LRUPolicy.new capacity : Except String (LRUPolicy α)) fun start =>
          ∀ accs : List (α × Nat), ∀ k ∉ scan.map Prod.fst,
            k ∉ residents (runAccesses (accs ++ scan) start).2) := by
  constructor
  · refine (S3FifoPolicy.kept_new h).mono fun start hstart calls hnew => ?_
    have hkept : (runCalls calls start).2.Kept capacity :=
      runCalls_invariant (fun call p hp => hp.run call) calls hstart
    exact hkept.valid.unpolluted scan hnodup hnew
  · intro hlong
    refine (LRUPolicy.new_holds h).mono fun start hstart accs k hk hmem => ?_
    have hholds := hstart.runAccesses (accs ++ scan)
    rw [List.map_append] at hholds
    refine LRUPolicy.not_recent_of_scan hnodup ?_ hk (hholds.mem_iff.mp hmem)
    rw [List.length_map]
    exact hlong

theorem scan_resistant_two :
    (Returns (S3FifoPolicy.new 2 : Except String (S3FifoPolicy Nat)) fun start =>
      ∀ calls : List (PolicyCall Nat),
        (∀ k ∈ [100, 101], ¬ (runCalls calls start).2.Knows k) →
          Unpolluted [(100, 0), (101, 1)] (runCalls calls start).2) ∧
      Returns (LRUPolicy.new 2 : Except String (LRUPolicy Nat)) fun start =>
        ∀ accs : List (Nat × Nat), ∀ k ∉ [100, 101],
          k ∉ residents (runAccesses (accs ++ [(100, 0), (101, 1)]) start).2 :=
  have h := @scan_resistant Nat _ 2 (by decide) [(100, 0), (101, 1)] (by decide)
  ⟨h.1, h.2 (Nat.le_refl 2)⟩

end TieredKVCache.Bench
