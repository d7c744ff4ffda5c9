import TieredKVCache.Bench.CachePolicy
import TieredKVCache.Lib.Loop
import TieredKVCache.Lib.OrderedDict

/-!
# S3-FIFO

`S3FifoPolicy` of `policies.py`: a small queue for new keys, a main queue for keys that were used
again, and a ghost queue that remembers keys without keeping them resident. A key that overflows the
small queue may push a key out of the main queue, and the main queue gives the keys in use further
rounds; all the same an admission evicts at most one key (`valid_admitKey`).
`S3FifoPrefixPolicy` keeps deep blocks out.
-/

namespace TieredKVCache.Bench

open Lib

variable {α : Type}

/-- `_small` and `_main` map a key to its frequency, the oldest key first. -/
structure S3FifoPolicy (α : Type) where
  capacity : Nat
  capacity_pos : 0 < capacity
  small : OrderedDict α Nat
  main : OrderedDict α Nat
  ghost : KeyQueue α

namespace S3FifoPolicy

def new (capacity : Int) : Except String (S3FifoPolicy α) := do
  let capacity ← checkCapacity capacity
  return { capacity := capacity, capacity_pos := checked_pos capacity, small := ∅, main := ∅,
           ghost := ∅ }

def smallCap (p : S3FifoPolicy α) : Nat := max 1 (p.capacity / 10)

def mainCap (p : S3FifoPolicy α) : Nat := p.capacity - p.smallCap

def ghostCap (p : S3FifoPolicy α) : Nat := p.capacity * 2

def residents (p : S3FifoPolicy α) : List α := p.small.keys.toList ++ p.main.keys.toList

theorem smallCap_add_mainCap (p : S3FifoPolicy α) : p.smallCap + p.mainCap = p.capacity := by
  have hpos := p.capacity_pos
  rw [mainCap, smallCap]
  omega

/-- The policy has the capacity, the queues share no key, and each keeps within its bound. -/
structure Valid (capacity : Nat) (p : S3FifoPolicy α) : Prop where
  capacity_eq : p.capacity = capacity
  nodup : p.residents.Nodup
  small_le : p.small.length ≤ p.smallCap
  main_le : p.main.length ≤ p.mainCap

theorem Valid.length_le {capacity : Nat} {p : S3FifoPolicy α} (h : p.Valid capacity) :
    p.residents.length ≤ capacity := by
  have hsmall := h.small_le
  have hmain := h.main_le
  have hcap := p.smallCap_add_mainCap
  rw [h.capacity_eq] at hcap
  rw [residents, List.length_append]
  exact (Nat.add_le_add hsmall hmain).trans_eq hcap

/-- What the main queue has evicted, of `keys` that were in it, and what is left. -/
inductive Displaced (keys : List α) : List (Eviction α) → S3FifoPolicy α → Prop
  | none {p : S3FifoPolicy α} (h : p.main.keys.toList.Perm keys) : Displaced keys [] p
  | one {p : S3FifoPolicy α} {victim : α} (h : (victim :: p.main.keys.toList).Perm keys) :
      Displaced keys [⟨victim, p.residents⟩] p

/-- `q` differs from `p` in the main queue alone, which has evicted `es` of `keys`. -/
structure Shrunk (p : S3FifoPolicy α) (keys : List α) (es : List (Eviction α))
    (q : S3FifoPolicy α) : Prop where
  rest : q = { p with main := q.main }
  displaced : Displaced keys es q

theorem Shrunk.mainCap_eq {p q : S3FifoPolicy α} {keys : List α} {es : List (Eviction α)}
    (h : Shrunk p keys es q) : q.mainCap = p.mainCap :=
  (congrArg mainCap h.rest).trans rfl

variable [DecidableEq α]

def contains (hashId : α) (p : S3FifoPolicy α) : Bool :=
  decide (hashId ∈ p.small) || decide (hashId ∈ p.main)

/-- A round of the loop of `_insert_main`: a key in use gets a second chance at the end. -/
def mainRound (p : S3FifoPolicy α) : Option (List (Eviction α) × S3FifoPolicy α) :=
  if p.main.length > p.mainCap then
    p.main.popFront.map fun ((victim, freq), main) =>
      if freq > 0 then ([], { p with main := main.setItem victim (freq - 1) })
      else
        let p := { p with main }
        ([⟨victim, p.residents⟩], p)
  else none

/-- What a round of the main queue does. -/
theorem mainRound_eq_some {p p' : S3FifoPolicy α} {es : List (Eviction α)}
    (h : p.mainRound = some (es, p')) : p.mainCap < p.main.length ∧ ∃ victim freq main,
      p.main.popFront = some ((victim, freq), main) ∧
      ((0 < freq ∧ es = [] ∧ p' = { p with main := main.setItem victim (freq - 1) }) ∨
        (es = [⟨victim, p'.residents⟩] ∧ p' = { p with main })) := by
  unfold mainRound at h
  split at h
  next hlong =>
    obtain ⟨⟨⟨victim, freq⟩, main⟩, hpop, heq⟩ := Option.map_eq_some_iff.mp h
    refine ⟨hlong, victim, freq, main, hpop, ?_⟩
    dsimp only at heq
    split at heq
    next hfreq =>
      cases heq
      exact .inl ⟨hfreq, rfl, rfl⟩
    next =>
      cases heq
      exact .inr ⟨rfl, rfl⟩
  next => cases h

theorem length_le_of_mainRound {p : S3FifoPolicy α} (h : p.mainRound = none) :
    p.main.length ≤ p.mainCap := by
  refine Nat.not_lt.mp fun hlong => ?_
  rw [mainRound, if_pos hlong, Option.map_eq_none_iff, OrderedDict.popFront_eq_none] at h
  omega

/-- A round lowers the frequency of a key or lets a key go. -/
theorem total_of_mainRound {p p' : S3FifoPolicy α} {es : List (Eviction α)}
    (h : p.mainRound = some (es, p')) :
    p'.main.total (· + 1) < p.main.total (· + 1) := by
  obtain ⟨-, victim, freq, main, hpop, ⟨hfreq, -, rfl⟩ | ⟨-, rfl⟩⟩ := mainRound_eq_some h
  · rw [OrderedDict.total_of_popFront _ hpop,
      OrderedDict.total_setItem_of_notMem _ (OrderedDict.notMem_of_popFront hpop)]
    omega
  · rw [OrderedDict.total_of_popFront _ hpop]
    dsimp only
    omega

/-- `_insert_main`: the evictions, and the policy after the call. -/
def insertMain (key : α) (p : S3FifoPolicy α) : List (Eviction α) × S3FifoPolicy α :=
  drain mainRound (fun p => p.main.total (· + 1)) total_of_mainRound
    { p with main := p.main.setItem key 0 }

/-- A round of the main queue. Once a key is out, the queue is within its bound and the loop is
over. -/
theorem Shrunk.mainRound {p q q' : S3FifoPolicy α} {keys : List α} {before es : List (Eviction α)}
    (h : Shrunk p keys before q) (hlength : keys.length ≤ p.mainCap + 1)
    (hround : q.mainRound = some (es, q')) : Shrunk p keys (before ++ es) q' := by
  obtain ⟨hlong, victim, freq, main, hpop, hround⟩ := mainRound_eq_some hround
  obtain ⟨hkeys, -, -⟩ := OrderedDict.popFront_eq_some hpop
  have hcap := h.mainCap_eq
  obtain ⟨hrest, hdisplaced⟩ := h
  cases hdisplaced with
  | none hperm =>
    rw [hkeys] at hperm
    rcases hround with ⟨-, rfl, rfl⟩ | ⟨rfl, rfl⟩
    · refine ⟨congrArg (fun p => { p with main := main.setItem victim (freq - 1) }) hrest,
        .none ?_⟩
      rw [OrderedDict.keys_setItem, KeyQueue.toList_push (OrderedDict.notMem_of_popFront hpop)]
      exact (List.perm_append_singleton _ _).trans hperm
    · exact ⟨congrArg (fun p => { p with main := main }) hrest, .one hperm⟩
  | one hperm =>
    have hsame : q.main.length + 1 = keys.length := hperm.length_eq
    omega

/-- The main queue evicts at most one key to make room for another. -/
theorem insertMain_spec {key : α} {p : S3FifoPolicy α} (hkey : key ∉ p.main)
    (hlength : p.main.length ≤ p.mainCap) :
    Shrunk p (key :: p.main.keys.toList) (p.insertMain key).1 (p.insertMain key).2 ∧
      (p.insertMain key).2.main.length ≤ p.mainCap := by
  have hstart : (p.main.setItem key 0).keys.toList.Perm (key :: p.main.keys.toList) := by
    rw [OrderedDict.keys_setItem, KeyQueue.toList_push hkey]
    exact List.perm_append_singleton _ _
  have hrun : Shrunk p (key :: p.main.keys.toList) (p.insertMain key).1 (p.insertMain key).2 ∧
      (p.insertMain key).2.mainRound = none :=
    drain_spec (Shrunk p (key :: p.main.keys.toList))
      (fun h hround => h.mainRound (Nat.succ_le_succ hlength) hround) ⟨rfl, .none hstart⟩
  exact ⟨hrun.1, (length_le_of_mainRound hrun.2).trans_eq hrun.1.mainCap_eq⟩

/-- Nothing but the main queue is concerned. -/
theorem rest_insertMain (key : α) (p : S3FifoPolicy α) :
    (p.insertMain key).2 = { p with main := (p.insertMain key).2.main } := by
  have hround : ∀ {q : S3FifoPolicy α} {es q'}, q = { p with main := q.main } →
      q.mainRound = some (es, q') → q' = { p with main := q'.main } := by
    intro q es q' hrest hround
    obtain ⟨-, victim, freq, main, -, ⟨-, -, rfl⟩ | ⟨-, rfl⟩⟩ := mainRound_eq_some hround
    · exact congrArg (fun p => { p with main := main.setItem victim (freq - 1) }) hrest
    · exact congrArg (fun p => { p with main := main }) hrest
  have hrun : (p.insertMain key).2 = { p with main := (p.insertMain key).2.main } ∧
      (p.insertMain key).2.mainRound = none :=
    drain_spec (fun _ (q : S3FifoPolicy α) => q = { p with main := q.main })
      (fun h hq => hround h hq) rfl
  exact hrun.1

theorem small_insertMain (key : α) (p : S3FifoPolicy α) :
    (p.insertMain key).2.small = p.small := by
  rw [rest_insertMain]

theorem ghost_insertMain (key : α) (p : S3FifoPolicy α) :
    (p.insertMain key).2.ghost = p.ghost := by
  rw [rest_insertMain]

/-- A round of the loop of `_insert_small`: a key that was used again moves to the main queue; any
other key leaves, and the ghost queue remembers it. -/
def smallRound (p : S3FifoPolicy α) : Option (List (Eviction α) × S3FifoPolicy α) :=
  if p.small.length > p.smallCap then
    p.small.popFront.map fun ((victim, freq), small) =>
      let p := { p with small }
      if freq > 0 then p.insertMain victim
      else
        let ghost := p.ghost.push victim
        let p := { p with ghost := (ghost.popDownTo p.ghostCap).2 }
        ([⟨victim, p.residents⟩], p)
  else none

/-- What a round of the small queue does. -/
theorem smallRound_eq_some {p p' : S3FifoPolicy α} {es : List (Eviction α)}
    (h : p.smallRound = some (es, p')) : ∃ victim freq small,
      p.small.popFront = some ((victim, freq), small) ∧
      ((es, p') = insertMain victim { p with small } ∨
        p' = { p with small, ghost := ((p.ghost.push victim).popDownTo p.ghostCap).2 } ∧
          es = [⟨victim, p'.residents⟩]) := by
  unfold smallRound at h
  split at h
  next hlong =>
    obtain ⟨⟨⟨victim, freq⟩, small⟩, hpop, heq⟩ := Option.map_eq_some_iff.mp h
    refine ⟨victim, freq, small, hpop, ?_⟩
    dsimp only at heq
    split at heq
    next hfreq => exact .inl heq.symm
    next =>
      cases heq
      exact .inr ⟨rfl, rfl⟩
  next => cases h

theorem smallRound_of_gt {p : S3FifoPolicy α} (h : p.smallCap < p.small.length) :
    ∃ next, p.smallRound = some next := by
  refine Option.ne_none_iff_exists'.mp fun hnone => ?_
  rw [smallRound, if_pos h, Option.map_eq_none_iff, OrderedDict.popFront_eq_none] at hnone
  omega

theorem length_of_smallRound {p p' : S3FifoPolicy α} {es : List (Eviction α)}
    (h : p.smallRound = some (es, p')) : p'.small.length < p.small.length := by
  obtain ⟨victim, freq, small, hpop, hmain | ⟨rfl, -⟩⟩ := smallRound_eq_some h
  · have hsmall := small_insertMain victim { p with small }
    rw [← hmain] at hsmall
    rw [OrderedDict.length_of_popFront hpop, hsmall]
    exact Nat.lt_succ_self _
  · rw [OrderedDict.length_of_popFront hpop]
    exact Nat.lt_succ_self _

/-- `_insert_small`: the evictions, and the policy after the call. -/
def insertSmall (key : α) (p : S3FifoPolicy α) : List (Eviction α) × S3FifoPolicy α :=
  drain smallRound (fun p => p.small.length) length_of_smallRound
    { p with small := p.small.setItem key 0 }

/-- `admit`: the evictions, and the policy after the call. -/
def admitKey (hashId : α) (p : S3FifoPolicy α) : List (Eviction α) × S3FifoPolicy α :=
  if p.contains hashId then ([], p)
  else if hashId ∈ p.ghost then
    let p := { p with ghost := p.ghost.erase hashId }
    p.insertMain hashId
  else p.insertSmall hashId

/-- A hit counts up to three. -/
def bump (queue : OrderedDict α Nat) (hashId : α) : OrderedDict α Nat :=
  queue.setItem hashId (min (queue.value hashId + 1) 3)

def touch (hashId : α) (p : S3FifoPolicy α) : S3FifoPolicy α :=
  if hashId ∈ p.small then { p with small := bump p.small hashId }
  else if hashId ∈ p.main then { p with main := bump p.main hashId }
  else p

/-- Whether the access hits, the evictions, and the policy after the call. -/
def access (hashId : α) (_blockIndex : Int) (p : S3FifoPolicy α) :
    Bool × List (Eviction α) × S3FifoPolicy α :=
  if hashId ∈ p.small then (true, [], { p with small := bump p.small hashId })
  else if hashId ∈ p.main then (true, [], { p with main := bump p.main hashId })
  else (false, p.admitKey hashId)

/-- Whether the key was there, and the policy after the call. -/
def remove (hashId : α) (p : S3FifoPolicy α) : Bool × S3FifoPolicy α :=
  if hashId ∈ p.small then (true, { p with small := p.small.erase hashId })
  else (decide (hashId ∈ p.main), { p with main := p.main.erase hashId })

/-! ## What the operations do to the resident keys -/

variable {capacity : Nat} {p : S3FifoPolicy α}

theorem contains_iff {k : α} : p.contains k = true ↔ k ∈ p.residents := by
  simp [contains, residents]

/-- An admission to the main queue. -/
theorem valid_insertMain {k : α} (h : p.Valid capacity) (hk : k ∉ p.residents) :
    (p.insertMain k).2.Valid capacity ∧
      Admission k p.residents (p.insertMain k).1 (p.insertMain k).2.residents := by
  have hmain : k ∉ p.main := fun hmem => hk (List.mem_append_right _ hmem)
  obtain ⟨⟨hrest, hdisplaced⟩, hlength⟩ := insertMain_spec hmain h.main_le
  generalize hrun : p.insertMain k = run at hrest hdisplaced hlength
  obtain ⟨es, q⟩ := run
  dsimp only at hrest hdisplaced hlength
  have hvalid : q.residents.Nodup → q.Valid capacity := by
    intro hnodup
    rw [hrest] at hnodup ⊢
    exact ⟨h.capacity_eq, hnodup, h.small_le, hlength⟩
  have hsmall : q.small = p.small := by rw [hrest]
  have hall : (k :: p.residents).Nodup := List.nodup_cons.mpr ⟨hk, h.nodup⟩
  cases hdisplaced with
  | none hperm =>
    have hafter : q.residents.Perm (k :: p.residents) := by
      rw [residents, residents, hsmall]
      exact (hperm.append_left _).trans List.perm_middle
    exact ⟨hvalid (hafter.nodup_iff.mpr hall), .stored hk hafter⟩
  | @one _ victim hperm =>
    have hafter : (victim :: q.residents).Perm (k :: p.residents) := by
      rw [residents, residents, hsmall]
      exact List.perm_middle.symm.trans ((hperm.append_left _).trans List.perm_middle)
    have hnodup := List.nodup_cons.mp (hafter.nodup_iff.mpr hall)
    exact ⟨hvalid hnodup.2, .displaced hk hnodup.1 hafter⟩

/-- An admission to the small queue finds room, or it takes the oldest key out, which moves to the
main queue or leaves. -/
theorem insertSmall_cases {k : α} (h : p.Valid capacity) (hk : k ∉ p.residents) :
    (p.small.length < p.smallCap ∧
      p.insertSmall k = ([], { p with small := p.small.setItem k 0 })) ∨
    ∃ victim freq small, (p.small.setItem k 0).popFront = some ((victim, freq), small) ∧
      small.length ≤ p.smallCap ∧ (p.insertSmall k = insertMain victim { p with small } ∨
        p.insertSmall k = ([⟨victim, residents { p with small }⟩], { p with
          small, ghost := ((p.ghost.push victim).popDownTo p.ghostCap).2 })) := by
  have hsmall : k ∉ p.small := fun hmem => hk (List.mem_append_left _ hmem)
  have hle := h.small_le
  set q : S3FifoPolicy α := { p with small := p.small.setItem k 0 }
  have hlength : q.small.length = p.small.length + 1 := by
    show (p.small.keys.push k).toList.length = _
    rw [KeyQueue.toList_push hsmall, List.length_append]
    rfl
  have hrun : p.insertSmall k = drain smallRound (fun p => p.small.length) length_of_smallRound q :=
    rfl
  by_cases hroom : q.small.length ≤ q.smallCap
  · have hround : q.smallRound = none := if_neg (Nat.not_lt.mpr hroom)
    rw [drain_of_none hround] at hrun
    exact .inl ⟨(Nat.lt_of_succ_le (hlength.symm.trans_le hroom)), hrun⟩
  · obtain ⟨⟨es, q'⟩, hround⟩ := smallRound_of_gt (Nat.not_le.mp hroom)
    obtain ⟨victim, freq, small, hpop, heffect⟩ := smallRound_eq_some hround
    have hshorter : small.length ≤ p.smallCap := by
      have hpopped := OrderedDict.length_of_popFront hpop
      omega
    refine .inr ⟨victim, freq, small, hpop, hshorter, ?_⟩
    have hover : q'.small = small ∧ q'.smallCap = p.smallCap := by
      rcases heffect with hmain | ⟨rfl, -⟩
      · obtain rfl : q' = (insertMain victim { q with small }).2 := congrArg Prod.snd hmain
        rw [rest_insertMain]
        exact ⟨rfl, rfl⟩
      · exact ⟨rfl, rfl⟩
    have hlast : q'.smallRound = none :=
      if_neg (Nat.not_lt.mpr (by rw [hover.1, hover.2]; exact hshorter))
    rw [hrun, drain_of_some hround, drain_of_none hlast, List.append_nil]
    rcases heffect with hmain | ⟨rfl, rfl⟩
    · exact .inl hmain
    · exact .inr rfl

/-- The keys when the oldest key of the small queue has left it for `k`. -/
theorem perm_of_popFront {k victim : α} {freq : Nat} {small : OrderedDict α Nat}
    (hk : k ∉ p.residents)
    (hpop : (p.small.setItem k 0).popFront = some ((victim, freq), small)) :
    (victim :: residents { p with small }).Perm (k :: p.residents) := by
  have hsmall : k ∉ p.small := fun hmem => hk (List.mem_append_left _ hmem)
  have hkeys : p.small.keys.toList ++ [k] = victim :: small.keys.toList :=
    (KeyQueue.toList_push hsmall).symm.trans (OrderedDict.popFront_eq_some hpop).1
  rw [residents, ← List.cons_append, ← hkeys, List.append_assoc]
  exact List.perm_middle

theorem valid_insertSmall {k : α} (h : p.Valid capacity) (hk : k ∉ p.residents) :
    (p.insertSmall k).2.Valid capacity ∧
      Admission k p.residents (p.insertSmall k).1 (p.insertSmall k).2.residents := by
  have hall : (k :: p.residents).Nodup := List.nodup_cons.mpr ⟨hk, h.nodup⟩
  rcases insertSmall_cases h hk with ⟨hroom, hrun⟩ | ⟨victim, freq, small, hpop, hle, heffect⟩
  · have hsmall : k ∉ p.small := fun hmem => hk (List.mem_append_left _ hmem)
    have hstart : (residents { p with small := p.small.setItem k 0 }).Perm (k :: p.residents) := by
      show ((p.small.keys.push k).toList ++ p.main.keys.toList).Perm _
      rw [KeyQueue.toList_push hsmall, List.append_assoc]
      exact List.perm_middle
    have hlength : (p.small.keys.push k).length ≤ p.smallCap :=
      Nat.le_trans KeyQueue.length_push_le (Nat.succ_le_of_lt hroom)
    rw [hrun]
    exact ⟨⟨h.capacity_eq, hstart.nodup_iff.mpr hall, hlength, h.main_le⟩, .stored hk hstart⟩
  · have hperm := perm_of_popFront hk hpop
    obtain ⟨hvictim, hnodup⟩ := List.nodup_cons.mp (hperm.nodup_iff.mpr hall)
    -- the state in which the victim has left the small queue
    have hvalid : ({ p with small } : S3FifoPolicy α).Valid capacity :=
      ⟨h.capacity_eq, hnodup, hle, h.main_le⟩
    rcases heffect with hrun | hrun
    · obtain ⟨hvalid', hadmission⟩ := valid_insertMain hvalid hvictim
      rw [hrun]
      exact ⟨hvalid', hadmission.of_perm hk hvictim hperm⟩
    · rw [hrun]
      exact ⟨⟨h.capacity_eq, hnodup, hle, h.main_le⟩, .displaced hk hvictim hperm⟩

theorem valid_admitKey (k : α) (h : p.Valid capacity) : (p.admitKey k).2.Valid capacity ∧
    Admission k p.residents (p.admitKey k).1 (p.admitKey k).2.residents := by
  unfold admitKey
  split
  next hin => exact ⟨h, .resident (contains_iff.mp hin) .rfl⟩
  next hout =>
    have hk : k ∉ p.residents := fun hmem => hout (contains_iff.mpr hmem)
    split
    · exact valid_insertMain (p := { p with ghost := p.ghost.erase k })
        ⟨h.capacity_eq, h.nodup, h.small_le, h.main_le⟩ hk
    · exact valid_insertSmall h hk

theorem keys_bump {queue : OrderedDict α Nat} {k : α} (hk : k ∈ queue) :
    (bump queue k).keys = queue.keys := KeyQueue.push_of_mem hk

theorem valid_touch (k : α) (h : p.Valid capacity) :
    (p.touch k).Valid capacity ∧ (p.touch k).residents = p.residents := by
  unfold touch
  split
  next hk =>
    have hresidents : residents { p with small := bump p.small k } = p.residents := by
      rw [residents, keys_bump hk]
      rfl
    exact ⟨⟨h.capacity_eq, hresidents ▸ h.nodup,
      (congrArg KeyQueue.length (keys_bump hk)).trans_le h.small_le, h.main_le⟩, hresidents⟩
  next =>
    split
    next hk =>
      have hresidents : residents { p with main := bump p.main k } = p.residents := by
        rw [residents, keys_bump hk]
        rfl
      exact ⟨⟨h.capacity_eq, hresidents ▸ h.nodup, h.small_le,
        (congrArg KeyQueue.length (keys_bump hk)).trans_le h.main_le⟩, hresidents⟩
    next => exact ⟨h, rfl⟩

theorem access_hit {k : α} (blockIndex : Int) (hk : p.contains k = true) :
    p.access k blockIndex = (true, [], p.touch k) := by
  unfold access touch
  split
  next => rfl
  next hsmall =>
    have hmain : k ∈ p.main := by simpa [contains, hsmall] using hk
    rw [if_pos hmain, if_pos hmain]

theorem access_miss {k : α} (blockIndex : Int) (hk : p.contains k = false) :
    p.access k blockIndex = (false, p.admitKey k) := by
  obtain ⟨hsmall, hmain⟩ := Bool.or_eq_false_iff.mp hk
  rw [access, if_neg (of_decide_eq_false hsmall), if_neg (of_decide_eq_false hmain)]

theorem valid_remove (k : α) (h : p.Valid capacity) : (p.remove k).2.Valid capacity ∧
    (p.remove k).1 = p.contains k ∧ (p.remove k).2.residents = p.residents.erase k := by
  unfold remove
  split
  next hk =>
    have hresidents : residents { p with small := p.small.erase k } = p.residents.erase k :=
      (List.erase_append_left _ hk).symm
    exact ⟨⟨h.capacity_eq, hresidents ▸ h.nodup.erase k,
      Nat.le_trans List.length_erase_le h.small_le, h.main_le⟩, by simp [contains, hk], hresidents⟩
  next hk =>
    have hresidents : residents { p with main := p.main.erase k } = p.residents.erase k :=
      (List.erase_append_right _ hk).symm
    exact ⟨⟨h.capacity_eq, hresidents ▸ h.nodup.erase k, h.small_le,
      Nat.le_trans List.length_erase_le h.main_le⟩, by simp [contains, hk], hresidents⟩

end S3FifoPolicy

/-! ## The interface -/

variable [DecidableEq α]

instance : CachePolicy (S3FifoPolicy α) α where
  residents := S3FifoPolicy.residents
  contains := S3FifoPolicy.contains
  bypasses _ _ _ := false
  access := S3FifoPolicy.access
  touch := S3FifoPolicy.touch
  admitKey := S3FifoPolicy.admitKey
  remove := S3FifoPolicy.remove

instance : LawfulPolicy (S3FifoPolicy α) where
  Valid := S3FifoPolicy.Valid
  nodup h := h.nodup
  length_le h := h.length_le
  contains_iff := S3FifoPolicy.contains_iff
  touch_spec k h := ⟨(S3FifoPolicy.valid_touch k h).1, .of_eq (S3FifoPolicy.valid_touch k h).2⟩
  remove_spec k h :=
    have ⟨hvalid, hfound, hresidents⟩ := S3FifoPolicy.valid_remove k h
    ⟨hvalid, hfound, .of_eq hresidents⟩
  admitKey_spec k h := S3FifoPolicy.valid_admitKey k h
  access_hit {_ _ k} blockIndex h hk :=
    have ⟨hvalid, hresidents⟩ := S3FifoPolicy.valid_touch k h
    ⟨_, S3FifoPolicy.access_hit blockIndex hk, hvalid, .of_eq hresidents⟩
  access_bypassed _ hskip := absurd hskip Bool.false_ne_true
  access_admits {_ _ k blockIndex} h hk _ :=
    ⟨_, _, S3FifoPolicy.access_miss blockIndex hk, S3FifoPolicy.valid_admitKey k h⟩

theorem S3FifoPolicy.new_fresh {capacity : Nat} (h : 1 ≤ capacity) :
    Returns (new capacity : Except String (S3FifoPolicy α)) (Fresh capacity) :=
  ⟨⟨capacity, h, ∅, ∅, ∅⟩, congrArg (Except.map _) (checkCapacity_of_pos h),
    ⟨rfl, List.nodup_nil, Nat.zero_le _, Nat.zero_le _⟩, rfl⟩

/-! ## Admission by depth -/

/-- S3-FIFO with a limit on the depth of the blocks it admits. -/
structure S3FifoPrefixPolicy (α : Type) extends S3FifoPolicy α

namespace S3FifoPrefixPolicy

omit [DecidableEq α] in
def new (capacity : Int) : Except String (S3FifoPrefixPolicy α) := do
  let p ← S3FifoPolicy.new capacity
  return { toS3FifoPolicy := p }

/-- `_ADMIT_DEPTH_FACTOR`. -/
def admitDepthFactor : Nat := 4

omit [DecidableEq α] in
def admitDepth (p : S3FifoPrefixPolicy α) : Nat := max 8 (p.capacity / admitDepthFactor)

/-- The condition under which an access leaves the cache alone. -/
def bypasses (hashId : α) (blockIndex : Int) (p : S3FifoPrefixPolicy α) : Bool :=
  decide (hashId ∉ p.small ∧ hashId ∉ p.main) &&
    decide (blockIndex > p.admitDepth ∧ hashId ∉ p.ghost)

/-- Whether the access hits, the evictions, and the policy after the call. -/
def access (hashId : α) (blockIndex : Int) (p : S3FifoPrefixPolicy α) :
    Bool × List (Eviction α) × S3FifoPrefixPolicy α :=
  if p.bypasses hashId blockIndex then (false, [], p)
  else
    let (hit, evictions, p') := p.toS3FifoPolicy.access hashId blockIndex
    (hit, evictions, ⟨p'⟩)

instance : CachePolicy (S3FifoPrefixPolicy α) α where
  residents p := p.toS3FifoPolicy.residents
  contains k p := p.toS3FifoPolicy.contains k
  bypasses := S3FifoPrefixPolicy.bypasses
  access := S3FifoPrefixPolicy.access
  touch k p := ⟨p.toS3FifoPolicy.touch k⟩
  admitKey k p := ((p.toS3FifoPolicy.admitKey k).1, ⟨(p.toS3FifoPolicy.admitKey k).2⟩)
  remove k p := ((p.toS3FifoPolicy.remove k).1, ⟨(p.toS3FifoPolicy.remove k).2⟩)

instance : LawfulPolicy (S3FifoPrefixPolicy α) where
  Valid capacity p := p.toS3FifoPolicy.Valid capacity
  nodup h := h.nodup
  length_le h := h.length_le
  contains_iff := S3FifoPolicy.contains_iff
  touch_spec k h := LawfulPolicy.touch_spec (P := S3FifoPolicy α) k h
  remove_spec k h := LawfulPolicy.remove_spec (P := S3FifoPolicy α) k h
  admitKey_spec k h := LawfulPolicy.admitKey_spec (P := S3FifoPolicy α) k h
  access_hit {_ p k} blockIndex h hk := by
    have hkeeps : ¬ p.bypasses k blockIndex = true := by
      intro hskip
      obtain ⟨hout, -⟩ := Bool.and_eq_true_iff.mp hskip
      obtain ⟨hsmall, hmain⟩ := of_decide_eq_true hout
      exact (List.mem_append.mp (S3FifoPolicy.contains_iff.mp hk)).elim hsmall hmain
    obtain ⟨hvalid, hresidents⟩ := S3FifoPolicy.valid_touch k h
    refine ⟨⟨p.toS3FifoPolicy.touch k⟩, ?_, hvalid, .of_eq hresidents⟩
    show S3FifoPrefixPolicy.access k blockIndex p = _
    rw [access, if_neg hkeeps, S3FifoPolicy.access_hit blockIndex hk]
  access_bypassed _ hskip := if_pos hskip
  access_admits {_ p k blockIndex} h hk hkeeps := by
    have hadmits : ¬ p.bypasses k blockIndex = true := Bool.eq_false_iff.mp hkeeps
    refine ⟨_, ⟨(p.toS3FifoPolicy.admitKey k).2⟩, ?_, S3FifoPolicy.valid_admitKey k h⟩
    show S3FifoPrefixPolicy.access k blockIndex p = _
    rw [access, if_neg hadmits, S3FifoPolicy.access_miss blockIndex hk]

theorem new_fresh {capacity : Nat} (h : 1 ≤ capacity) :
    Returns (new capacity : Except String (S3FifoPrefixPolicy α)) (Fresh capacity) :=
  (S3FifoPolicy.new_fresh h).bind fun _ hp => returns_ok hp

end S3FifoPrefixPolicy

end TieredKVCache.Bench
