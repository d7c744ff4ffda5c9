import TieredKVCache.Bench.S3Fifo
import TieredKVCache.Lib.SecondChance

/-!
# Runs of S3-FIFO

The three queues of `S3FifoPolicy` share no key: a key that moves from one to another leaves the
first before it enters the second, inside the nested loops too. `Kept` is the invariant, kept by
every call; that the ghost queue names no resident key lets a ghost hit admit a key once. Such a key
enters the main queue without a count and behind all other keys, before the loop that makes room
looks for a key without a count: it stays if and only if the main queue has room, or another such
key (`readmission_iff`).
-/

namespace TieredKVCache.Bench

open Lib

variable {α : Type} [DecidableEq α]

/-! ## Counts -/

/-- The counts of the keys are at most three. -/
def Counted (queue : OrderedDict α Nat) : Prop := ∀ k ∈ queue, queue.value k ≤ 3

section

variable {queue rest : OrderedDict α Nat} {k : α} {count : Nat}

theorem Counted.setItem (h : Counted queue) (hcount : count ≤ 3) :
    Counted (queue.setItem k count) := by
  intro x hx
  by_cases heq : x = k
  · subst heq
    exact (Function.update_self x count queue.value).trans_le hcount
  · have hold : x ∈ queue := (KeyQueue.mem_push.mp hx).resolve_right heq
    exact (Function.update_of_ne heq count queue.value).trans_le (h x hold)

omit [DecidableEq α] in
theorem Counted.popFront (h : Counted queue) (hpop : queue.popFront = some ((k, count), rest)) :
    count ≤ 3 ∧ Counted rest := by
  obtain ⟨hkeys, rfl, hvalue⟩ := OrderedDict.popFront_eq_some hpop
  have hmem : ∀ x, x = k ∨ x ∈ rest → x ∈ queue := by
    intro x hx
    show x ∈ queue.keys.toList
    rw [hkeys]
    exact List.mem_cons.mpr hx
  refine ⟨h k (hmem k (.inl rfl)), fun x hx => ?_⟩
  rw [hvalue]
  exact h x (hmem x (.inr hx))

theorem Counted.erase (h : Counted queue) (k : α) : Counted (queue.erase k) :=
  fun x hx => h x (KeyQueue.mem_erase.mp hx).2

theorem Counted.bump (h : Counted queue) (k : α) : Counted (S3FifoPolicy.bump queue k) :=
  h.setItem (Nat.min_le_right _ _)

end

namespace S3FifoPolicy

/-- The queues keep within their bounds, share no key, and count up to three. -/
structure Kept (capacity : Nat) (p : S3FifoPolicy α) : Prop where
  valid : p.Valid capacity
  ghost_out : ∀ k ∈ p.ghost, k ∉ p.residents
  ghost_le : p.ghost.length ≤ p.ghostCap
  small_counted : Counted p.small
  main_counted : Counted p.main

variable {capacity : Nat} {p : S3FifoPolicy α} {k : α}

/-! ## The calls keep the queues -/

theorem Counted.insertMain (h : Counted p.main) (k : α) : Counted (p.insertMain k).2.main := by
  have hround : ∀ {q : S3FifoPolicy α} {es q'}, Counted q.main → q.mainRound = some (es, q') →
      Counted q'.main := by
    intro q es q' hcounted hround
    obtain ⟨-, victim, freq, main, hpop, ⟨-, -, rfl⟩ | ⟨-, rfl⟩⟩ := mainRound_eq_some hround
    · obtain ⟨hfreq, hmain⟩ := hcounted.popFront hpop
      exact hmain.setItem (Nat.le_trans (Nat.sub_le _ _) hfreq)
    · exact (hcounted.popFront hpop).2
  have hrun : Counted (p.insertMain k).2.main ∧ (p.insertMain k).2.mainRound = none :=
    drain_spec (fun _ (q : S3FifoPolicy α) => Counted q.main) (fun hq => hround hq)
      (h.setItem (Nat.zero_le _))
  exact hrun.1

theorem Kept.insertMain (h : p.Kept capacity) (hk : k ∉ p.residents) (hghost : k ∉ p.ghost) :
    (p.insertMain k).2.Kept capacity := by
  obtain ⟨hvalid, hadmission⟩ := valid_insertMain h.valid hk
  refine ⟨hvalid, fun x hx hmem => ?_, ?_, ?_, Counted.insertMain h.main_counted k⟩
  · rw [ghost_insertMain] at hx
    rcases hadmission.mem_of_mem hmem with rfl | hold
    · exact hghost hx
    · exact h.ghost_out x hx hold
  · rw [rest_insertMain]
    exact h.ghost_le
  · rw [small_insertMain]
    exact h.small_counted

/-- The small queue takes a key in, and the ghost queue the key that leaves. -/
theorem Kept.insertSmall (h : p.Kept capacity) (hk : k ∉ p.residents) (hghost : k ∉ p.ghost) :
    (p.insertSmall k).2.Kept capacity := by
  obtain ⟨hvalid, hadmission⟩ := valid_insertSmall h.valid hk
  have hcounted : Counted (p.small.setItem k 0) := h.small_counted.setItem (Nat.zero_le _)
  rcases insertSmall_cases h.valid hk with
    ⟨-, hrun⟩ | ⟨victim, freq, small, hpop, hle, heffect⟩
  · rw [hrun] at hvalid hadmission ⊢
    refine ⟨hvalid, fun x hx hmem => ?_, h.ghost_le, hcounted, h.main_counted⟩
    rcases hadmission.mem_of_mem hmem with rfl | hold
    · exact hghost hx
    · exact h.ghost_out x hx hold
  · have hperm := perm_of_popFront hk hpop
    have hall : (k :: p.residents).Nodup := List.nodup_cons.mpr ⟨hk, h.valid.nodup⟩
    obtain ⟨hvictim, hnodup⟩ := List.nodup_cons.mp (hperm.nodup_iff.mpr hall)
    -- the keys that the pop leaves are not in the ghost queue
    have hout : ∀ x ∈ p.ghost, x ∉ victim :: residents { p with small } := by
      intro x hx hmem
      rcases List.mem_cons.mp (hperm.subset hmem) with rfl | hold
      · exact hghost hx
      · exact h.ghost_out x hx hold
    have hsmall := (hcounted.popFront hpop).2
    rcases heffect with hrun | hrun
    · have hkept : ({ p with small } : S3FifoPolicy α).Kept capacity :=
        ⟨⟨h.valid.capacity_eq, hnodup, hle, h.valid.main_le⟩,
          fun x hx hmem => hout x hx (List.mem_cons_of_mem _ hmem), h.ghost_le, hsmall,
          h.main_counted⟩
      rw [hrun]
      exact hkept.insertMain hvictim fun hmem => hout victim hmem List.mem_cons_self
    · rw [hrun] at hvalid ⊢
      refine ⟨hvalid, fun x hx hmem => ?_, KeyQueue.length_popDownTo_le _ _, hsmall,
        h.main_counted⟩
      rcases KeyQueue.mem_push.mp (KeyQueue.mem_of_mem_popDownTo hx) with hold | rfl
      · exact hout x hold (List.mem_cons_of_mem _ hmem)
      · exact hvictim hmem

/-- A ghost hit takes the key out of the ghost queue. -/
theorem Kept.eraseGhost (h : p.Kept capacity) (k : α) :
    ({ p with ghost := p.ghost.erase k } : S3FifoPolicy α).Kept capacity where
  valid := ⟨h.valid.capacity_eq, h.valid.nodup, h.valid.small_le, h.valid.main_le⟩
  ghost_out x hx := h.ghost_out x (KeyQueue.mem_erase.mp hx).2
  ghost_le := Nat.le_trans List.length_erase_le h.ghost_le
  small_counted := h.small_counted
  main_counted := h.main_counted

theorem Kept.admitKey (h : p.Kept capacity) (k : α) : (p.admitKey k).2.Kept capacity := by
  unfold S3FifoPolicy.admitKey
  split
  next => exact h
  next hout =>
    have hk : k ∉ p.residents := fun hmem => hout (contains_iff.mpr hmem)
    split
    next => exact (h.eraseGhost k).insertMain hk fun hmem => (KeyQueue.mem_erase.mp hmem).1 rfl
    next hghost => exact h.insertSmall hk hghost

theorem Kept.touch (h : p.Kept capacity) (k : α) : (p.touch k).Kept capacity := by
  obtain ⟨hvalid, hresidents⟩ := valid_touch k h.valid
  have hout : ∀ x ∈ p.ghost, x ∉ (p.touch k).residents := by
    rw [hresidents]
    exact h.ghost_out
  unfold S3FifoPolicy.touch at hvalid hout ⊢
  split
  next hk =>
    rw [if_pos hk] at hvalid hout
    exact ⟨hvalid, hout, h.ghost_le, h.small_counted.bump k, h.main_counted⟩
  next hk =>
    rw [if_neg hk] at hvalid hout
    split
    next hk' =>
      rw [if_pos hk'] at hvalid hout
      exact ⟨hvalid, hout, h.ghost_le, h.small_counted, h.main_counted.bump k⟩
    next => exact h

theorem Kept.remove (h : p.Kept capacity) (k : α) : (p.remove k).2.Kept capacity := by
  obtain ⟨hvalid, -, hresidents⟩ := valid_remove k h.valid
  have hout : ∀ x ∈ p.ghost, x ∉ (p.remove k).2.residents := by
    rw [hresidents]
    exact fun x hx hmem => h.ghost_out x hx (List.mem_of_mem_erase hmem)
  unfold S3FifoPolicy.remove at hvalid hout ⊢
  split
  next hk =>
    rw [if_pos hk] at hvalid hout
    exact ⟨hvalid, hout, h.ghost_le, h.small_counted.erase k, h.main_counted⟩
  next hk =>
    rw [if_neg hk] at hvalid hout
    exact ⟨hvalid, hout, h.ghost_le, h.small_counted, h.main_counted.erase k⟩

theorem Kept.access (h : p.Kept capacity) (k : α) (blockIndex : Int) :
    (p.access k blockIndex).2.2.Kept capacity := by
  cases hk : p.contains k with
  | true =>
    rw [access_hit blockIndex hk]
    exact h.touch k
  | false =>
    rw [access_miss blockIndex hk]
    exact h.admitKey k

theorem Kept.run (call : PolicyCall α) (h : p.Kept capacity) : (call.run p).2.Kept capacity := by
  cases call with
  | access k blockIndex => exact h.access k blockIndex
  | touch k => exact h.touch k
  | admitKey k => exact h.admitKey k
  | remove k => exact h.remove k

omit [DecidableEq α] in
theorem kept_new {capacity : Nat} (h : 1 ≤ capacity) :
    Returns (new capacity : Except String (S3FifoPolicy α)) fun p => p.Kept capacity := by
  refine ⟨⟨capacity, h, ∅, ∅, ∅⟩, congrArg (Except.map _) (checkCapacity_of_pos h), ?_⟩
  refine ⟨⟨rfl, List.nodup_nil, Nat.zero_le _, Nat.zero_le _⟩, ?_, Nat.zero_le _, ?_, ?_⟩
  · exact fun k hk => absurd hk (KeyQueue.notMem_empty k)
  · exact fun k hk => absurd hk (KeyQueue.notMem_empty k)
  · exact fun k hk => absurd hk (KeyQueue.notMem_empty k)

end S3FifoPolicy

open S3FifoPolicy

theorem S3FifoPrefixPolicy.kept_run {capacity : Nat} {p : S3FifoPrefixPolicy α}
    (call : PolicyCall α) (h : p.toS3FifoPolicy.Kept capacity) :
    (call.run p).2.toS3FifoPolicy.Kept capacity := by
  cases call with
  | access k blockIndex =>
    show (p.access k blockIndex).2.2.toS3FifoPolicy.Kept capacity
    unfold S3FifoPrefixPolicy.access
    split
    next => exact h
    next => exact h.access k blockIndex
  | touch k => exact h.touch k
  | admitKey k => exact h.admitKey k
  | remove k => exact h.remove k

/-- What holds of the queues between two calls. -/
structure QueuesKept (p : S3FifoPolicy α) : Prop where
  small_main : ∀ k ∈ p.small, k ∉ p.main
  small_ghost : ∀ k ∈ p.small, k ∉ p.ghost
  main_ghost : ∀ k ∈ p.main, k ∉ p.ghost
  small_le : p.small.length ≤ p.smallCap
  main_le : p.main.length ≤ p.mainCap
  ghost_le : p.ghost.length ≤ p.ghostCap
  small_freq : ∀ k ∈ p.small, 0 ≤ p.small.value k ∧ p.small.value k ≤ 3
  main_freq : ∀ k ∈ p.main, 0 ≤ p.main.value k ∧ p.main.value k ≤ 3

omit [DecidableEq α] in
theorem S3FifoPolicy.Kept.queuesKept {capacity : Nat} {p : S3FifoPolicy α}
    (h : p.Kept capacity) : QueuesKept p where
  small_main _ hsmall hmain := List.disjoint_of_nodup_append h.valid.nodup hsmall hmain
  small_ghost k hsmall hghost := h.ghost_out k hghost (List.mem_append_left _ hsmall)
  main_ghost k hmain hghost := h.ghost_out k hghost (List.mem_append_right _ hmain)
  small_le := h.valid.small_le
  main_le := h.valid.main_le
  ghost_le := h.ghost_le
  small_freq k hk := ⟨Nat.zero_le _, h.small_counted k hk⟩
  main_freq k hk := ⟨Nat.zero_le _, h.main_counted k hk⟩

/-- **Queues.** Any sequence of calls keeps the queues of both policies disjoint, within their
bounds, and counts in range. -/
theorem queues_kept {capacity : Nat} (h : 1 ≤ capacity) :
    (Returns (S3FifoPolicy.new capacity) fun p : S3FifoPolicy α =>
        ∀ calls : List (PolicyCall α), QueuesKept (runCalls calls p).2) ∧
      Returns (S3FifoPrefixPolicy.new capacity) fun p : S3FifoPrefixPolicy α =>
        ∀ calls : List (PolicyCall α), QueuesKept (runCalls calls p).2.toS3FifoPolicy := by
  constructor
  · refine (S3FifoPolicy.kept_new h).mono fun p hkept calls => ?_
    have hrun : (runCalls calls p).2.Kept capacity :=
      runCalls_invariant (fun call _ hp => hp.run call) calls hkept
    exact hrun.queuesKept
  · refine (S3FifoPolicy.kept_new h).bind fun p hkept => returns_ok fun calls => ?_
    have hrun : (runCalls calls (⟨p⟩ : S3FifoPrefixPolicy α)).2.toS3FifoPolicy.Kept capacity :=
      runCalls_invariant (I := fun p : S3FifoPrefixPolicy α => p.toS3FifoPolicy.Kept capacity)
        (fun call _ hp => S3FifoPrefixPolicy.kept_run call hp) calls hkept
    exact hrun.queuesKept

theorem queues_kept_ten : (Returns (S3FifoPolicy.new 10) fun p : S3FifoPolicy Nat =>
      ∀ calls : List (PolicyCall Nat), QueuesKept (runCalls calls p).2) ∧
    Returns (S3FifoPrefixPolicy.new 10) fun p : S3FifoPrefixPolicy Nat =>
      ∀ calls : List (PolicyCall Nat), QueuesKept (runCalls calls p).2.toS3FifoPolicy :=
  @queues_kept Nat _ 10 (by decide)

/-! ## Readmission -/

namespace S3FifoPolicy

/-- The loop of `_insert_main` gives second chances until one key has left. -/
theorem items_drain_mainRound {q : S3FifoPolicy α} {victim : α} {rest : List (α × Nat)}
    (h : SecondChance q.main.items victim rest) (hlength : q.main.length = q.mainCap + 1) :
    (drain mainRound (fun p => p.main.total (· + 1)) total_of_mainRound q).2.main.items = rest := by
  generalize hitems : q.main.items = queue at h
  induction h generalizing q with
  | leave victim rest =>
    obtain ⟨main, hpop, hrest⟩ := OrderedDict.popFront_of_items hitems
    have hround : q.mainRound = some ([⟨victim, residents { q with main }⟩], { q with main }) := by
      rw [mainRound, if_pos (by omega), hpop]
      rfl
    have hlast : mainRound { q with main } = none := by
      have hshorter := OrderedDict.length_of_popFront hpop
      refine if_neg (Nat.not_lt.mpr ?_)
      show main.length ≤ q.mainCap
      omega
    rw [drain_of_some hround, drain_of_none hlast]
    exact hrest
  | @turn key victim count queue rest _ ih =>
    obtain ⟨main, hpop, hrest⟩ := OrderedDict.popFront_of_items hitems
    have hround : q.mainRound = some ([], { q with main := main.setItem key count }) := by
      rw [mainRound, if_pos (by omega), hpop]
      rfl
    have hkey : key ∉ main := OrderedDict.notMem_of_popFront hpop
    rw [drain_of_some hround]
    refine ih ?_ ?_
    · show (main.setItem key count).keys.toList.length = q.mainCap + 1
      rw [OrderedDict.keys_setItem, KeyQueue.toList_push hkey, List.length_append, ← hlength,
        OrderedDict.length_of_popFront hpop]
      rfl
    · rw [← hrest]
      exact OrderedDict.items_setItem_of_notMem hkey

/-- The main queue has room, or a key without a count. -/
def MainYields (p : S3FifoPolicy α) : Prop :=
  p.main.length < p.mainCap ∨ ∃ key ∈ p.main, p.main.value key = 0

theorem mem_insertMain_iff {capacity : Nat} {p : S3FifoPolicy α} {k : α} (h : p.Valid capacity)
    (hk : k ∉ p.main) : k ∈ (p.insertMain k).2.main ↔ p.MainYields := by
  have hle := h.main_le
  set q : S3FifoPolicy α := { p with main := p.main.setItem k 0 }
  have hlength : q.main.length = p.main.length + 1 := by
    show (p.main.setItem k 0).keys.toList.length = _
    rw [OrderedDict.keys_setItem, KeyQueue.toList_push hk, List.length_append]
    rfl
  have hrun : p.insertMain k =
      drain mainRound (fun p => p.main.total (· + 1)) total_of_mainRound q := rfl
  rcases Nat.lt_or_eq_of_le hle with hroom | hfull
  · have hround : q.mainRound = none := by
      refine if_neg (Nat.not_lt.mpr ?_)
      rw [hlength]
      exact hroom
    rw [hrun, drain_of_none hround]
    exact iff_of_true (KeyQueue.mem_push.mpr (.inr rfl)) (.inl hroom)
  · have hitems : q.main.items = p.main.items ++ [(k, 0)] := OrderedDict.items_setItem_of_notMem hk
    obtain ⟨victim, rest, hleaves⟩ := @exists_secondChance α (p.main.items ++ [(k, 0)]) (by simp)
    have hlast : (p.insertMain k).2.main.items = rest := by
      rw [hrun]
      refine items_drain_mainRound (hitems ▸ hleaves) ?_
      rw [hlength, hfull]
      rfl
    rw [OrderedDict.mem_iff_items, hlast, hleaves.newcomer (mt OrderedDict.mem_iff_items.mpr hk)]
    constructor
    · rintro ⟨⟨key, count⟩, hentry, rfl⟩
      exact .inr ⟨key, OrderedDict.mem_items.mp hentry⟩
    · rintro (hroom | ⟨key, hkey, hzero⟩)
      · omega
      · exact ⟨(key, 0), OrderedDict.mem_items.mpr ⟨hkey, hzero⟩, rfl⟩

/-- The key is in the main queue after its admission, and the next access hits. -/
structure Readmitted (k : α) (p : S3FifoPolicy α) : Prop where
  access : ∀ blockIndex, k ∈ (p.access k blockIndex).2.2.main
  admitKey : k ∈ (p.admitKey k).2.main
  again : ∀ blockIndex blockIndex',
    ((p.access k blockIndex).2.2.access k blockIndex').1 = true

/-- A ghost hit. -/
theorem Kept.readmitted_iff {capacity : Nat} {p : S3FifoPolicy α} {k : α} (h : p.Kept capacity)
    (hghost : k ∈ p.ghost) : Readmitted k p ↔ p.MainYields := by
  have hk : k ∉ p.residents := h.ghost_out k hghost
  have hout : p.contains k = false := Bool.eq_false_iff.mpr fun hin => hk (contains_iff.mp hin)
  have hadmission : p.admitKey k =
      S3FifoPolicy.insertMain k { p with ghost := p.ghost.erase k } := by
    rw [S3FifoPolicy.admitKey, hout, if_neg Bool.false_ne_true, if_pos hghost]
  have hmem : k ∈ (p.admitKey k).2.main ↔ p.MainYields := by
    rw [hadmission]
    exact mem_insertMain_iff (h.eraseGhost k).valid fun hin => hk (List.mem_append_right _ hin)
  have haccess (blockIndex : Int) : (p.access k blockIndex).2.2 = (p.admitKey k).2 := by
    rw [access_miss blockIndex hout]
  refine ⟨fun hreadmitted => hmem.mp hreadmitted.admitKey, fun hyields => ?_⟩
  have hin := hmem.mpr hyields
  refine ⟨fun blockIndex => haccess blockIndex ▸ hin, hin, fun blockIndex blockIndex' => ?_⟩
  have hcontains : (p.admitKey k).2.contains k = true :=
    contains_iff.mpr (List.mem_append_right _ hin)
  rw [haccess, access_hit blockIndex' hcontains]

end S3FifoPolicy

/-- **Readmission.** After any calls, a key that the ghost queue remembers stays in the main queue
exactly if this queue has room, or another key without a count. -/
theorem readmission_iff {capacity : Nat} (h : 2 ≤ capacity) :
    Returns (S3FifoPolicy.new capacity) fun p : S3FifoPolicy α =>
      ∀ (calls : List (PolicyCall α)) (k : α), k ∈ (runCalls calls p).2.ghost →
        (Readmitted k (runCalls calls p).2 ↔ (runCalls calls p).2.MainYields) := by
  refine (S3FifoPolicy.kept_new (Nat.le_trans (Nat.le_succ 1) h)).mono fun p hkept calls k hk => ?_
  have hrun : (runCalls calls p).2.Kept capacity :=
    runCalls_invariant (fun call _ hp => hp.run call) calls hkept
  exact hrun.readmitted_iff hk

theorem readmission_iff_two : Returns (S3FifoPolicy.new 2) fun p : S3FifoPolicy Nat =>
    ∀ (calls : List (PolicyCall Nat)) (k : Nat), k ∈ (runCalls calls p).2.ghost →
      (Readmitted k (runCalls calls p).2 ↔ (runCalls calls p).2.MainYields) :=
  @readmission_iff Nat _ 2 (Nat.le_refl 2)

/-- One key in the main queue, which was used again, and one in the ghost queue. -/
def busyMain : List (PolicyCall Nat) :=
  [.access 1 0, .access 1 0, .access 2 0, .access 1 0, .access 3 0]

/-- The readmitted key is evicted by its own admission. -/
theorem busyMain_evicts : Returns (S3FifoPolicy.new 2) fun p : S3FifoPolicy Nat =>
    2 ∈ (runCalls busyMain p).2.ghost ∧ ¬ Readmitted 2 (runCalls busyMain p).2 := by
  refine ⟨_, rfl, by decide +kernel, fun hreadmitted => ?_⟩
  have hmem := hreadmitted.admitKey
  revert hmem
  decide +kernel

end TieredKVCache.Bench
