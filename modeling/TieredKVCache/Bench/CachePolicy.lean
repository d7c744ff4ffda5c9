import TieredKVCache.Lib.KeyQueue
import Mathlib.Data.List.Count

/-!
# The interface of the cache policies

`CachePolicy` of `policies.py`. A call of `on_evict` is an `Eviction`: its argument and the keys
that are resident while it runs; the callback does not call back, so that the evictions of an
operation are a list, in order. `LawfulPolicy` is what a policy owes to its callers: an admission
lets one key in and at most one key out (`Admission`), and no other operation evicts. From this
alone the resident keys of any sequence of calls balance (`balance_runCalls`): what was admitted is
resident, evicted or removed.
-/

namespace TieredKVCache.Bench

open Lib

variable {α P : Type}

/-- A call of `on_evict`, with the keys that are resident while it runs. -/
structure Eviction (α : Type) where
  key : α
  resident : List α
deriving DecidableEq, Repr

/-- The methods of a policy class. `access` answers whether the key was there; `bypasses` says of
an access that misses whether it leaves the cache alone. -/
class CachePolicy (P : Type) (α : outParam Type) where
  residents : P → List α
  contains : α → P → Bool
  bypasses : α → Int → P → Bool
  access : α → Int → P → Bool × List (Eviction α) × P
  touch : α → P → P
  admitKey : α → P → List (Eviction α) × P
  remove : α → P → Bool × P

open CachePolicy

theorem toNat_pos {capacity : Int} (h : ¬ capacity ≤ 0) : 0 < capacity.toNat := by
  omega

/-- `CachePolicy.__init__`: the capacity, or a `ValueError`. -/
def checkCapacity (capacity : Int) : Except String { n : Nat // 0 < n } :=
  if h : capacity ≤ 0 then .error "capacity 必须为正" else .ok ⟨capacity.toNat, toNat_pos h⟩

theorem checked_pos (capacity : { n : Nat // 0 < n }) : 0 < capacity.1 := capacity.2

theorem checkCapacity_of_pos {capacity : Nat} (h : 1 ≤ capacity) :
    checkCapacity capacity = .ok ⟨capacity, h⟩ := by
  rw [checkCapacity, dif_neg (by omega)]
  rfl

/-- What an admission of `k` evicts, and the resident keys before and after it. -/
inductive Admission (k : α) (before : List α) : List (Eviction α) → List α → Prop
  | resident {after : List α} (hk : k ∈ before) (h : after.Perm before) :
      Admission k before [] after
  | stored {after : List α} (hk : k ∉ before) (h : after.Perm (k :: before)) :
      Admission k before [] after
  | displaced {after resident : List α} {victim : α} (hk : k ∉ before)
      (hgone : victim ∉ resident) (h : (victim :: after).Perm (k :: before)) :
      Admission k before [⟨victim, resident⟩] after

/-- What a policy owes, with its invariant for a given capacity. -/
class LawfulPolicy (P : Type) {α : outParam Type} [DecidableEq α] [CachePolicy P α] where
  Valid : Nat → P → Prop
  nodup {capacity : Nat} {p : P} : Valid capacity p → (residents p).Nodup
  length_le {capacity : Nat} {p : P} : Valid capacity p → (residents p).length ≤ capacity
  contains_iff {k : α} {p : P} : contains k p = true ↔ k ∈ residents p
  touch_spec {capacity : Nat} {p : P} (k : α) : Valid capacity p →
    Valid capacity (touch k p) ∧ (residents (touch k p)).Perm (residents p)
  remove_spec {capacity : Nat} {p : P} (k : α) : Valid capacity p →
    Valid capacity (remove k p).2 ∧ (remove k p).1 = contains k p ∧
      (residents (remove k p).2).Perm ((residents p).erase k)
  admitKey_spec {capacity : Nat} {p : P} (k : α) : Valid capacity p →
    Valid capacity (admitKey k p).2 ∧
      Admission k (residents p) (admitKey k p).1 (residents (admitKey k p).2)
  access_hit {capacity : Nat} {p : P} {k : α} (blockIndex : Int) : Valid capacity p →
    contains k p = true → ∃ p', access k blockIndex p = (true, [], p') ∧ Valid capacity p' ∧
      (residents p').Perm (residents p)
  access_bypassed {p : P} {k : α} {blockIndex : Int} : contains k p = false →
    bypasses k blockIndex p = true → access k blockIndex p = (false, [], p)
  access_admits {capacity : Nat} {p : P} {k : α} {blockIndex : Int} : Valid capacity p →
    contains k p = false → bypasses k blockIndex p = false →
    ∃ es p', access k blockIndex p = (false, es, p') ∧ Valid capacity p' ∧
      Admission k (residents p) es (residents p')

/-- To let `v` in where `k` has taken its place comes to letting `k` in. -/
theorem Admission.of_perm {k v : α} {before before' after : List α} {es : List (Eviction α)}
    (h : Admission v before' es after) (hk : k ∉ before) (hv : v ∉ before')
    (hperm : (v :: before').Perm (k :: before)) : Admission k before es after := by
  cases h with
  | resident hin => exact absurd hin hv
  | stored _ hafter => exact .stored hk (hafter.trans hperm)
  | displaced _ hgone hafter => exact .displaced hk hgone (hafter.trans hperm)

/-- Only the admitted key comes in. -/
theorem Admission.mem_of_mem {k x : α} {before after : List α} {es : List (Eviction α)}
    (h : Admission k before es after) (hx : x ∈ after) : x = k ∨ x ∈ before := by
  cases h with
  | resident _ hperm => exact .inr (hperm.subset hx)
  | stored _ hperm => exact List.mem_cons.mp (hperm.subset hx)
  | displaced _ _ hperm => exact List.mem_cons.mp (hperm.subset (List.mem_cons_of_mem _ hx))

/-- A policy as its constructor leaves it. -/
def Fresh [DecidableEq α] [CachePolicy P α] [LawfulPolicy P] (capacity : Nat) (p : P) : Prop :=
  LawfulPolicy.Valid capacity p ∧ residents p = []

/-! ## Sequences of calls -/

/-- The calls of the interface, as data. -/
inductive PolicyCall (α : Type) where
  | access (hashId : α) (blockIndex : Int)
  | touch (hashId : α)
  | admitKey (hashId : α)
  | remove (hashId : α)
deriving DecidableEq, Repr

namespace PolicyCall

variable [CachePolicy P α]

/-- What a call evicts, and the policy after it. -/
def run : PolicyCall α → P → List (Eviction α) × P
  | .access k blockIndex, p => (CachePolicy.access k blockIndex p).2
  | .touch k, p => ([], CachePolicy.touch k p)
  | .admitKey k, p => CachePolicy.admitKey k p
  | .remove k, p => ([], (CachePolicy.remove k p).2)

/-- The keys that a call admits: a key that is resident is not admitted again. -/
def admitted : PolicyCall α → P → List α
  | .access k blockIndex, p => if contains k p || bypasses k blockIndex p then [] else [k]
  | .touch _, _ => []
  | .admitKey k, p => if contains k p then [] else [k]
  | .remove _, _ => []

/-- The keys that a call removes. -/
def removed : PolicyCall α → P → List α
  | .access _ _, _ => []
  | .touch _, _ => []
  | .admitKey _, _ => []
  | .remove k, p => if (CachePolicy.remove k p).1 then [k] else []

end PolicyCall

/-- What a sequence of calls has admitted, evicted and removed. -/
structure Ledger (α : Type) where
  admitted : List α
  evicted : List (Eviction α)
  removed : List α
deriving DecidableEq, Repr

/-- Run a sequence of calls. -/
def runCalls [CachePolicy P α] : List (PolicyCall α) → P → Ledger α × P
  | [], p => (⟨[], [], []⟩, p)
  | call :: calls, p =>
    let (evicted, p') := call.run p
    let (ledger, final) := runCalls calls p'
    ({ admitted := call.admitted p ++ ledger.admitted
       evicted := evicted ++ ledger.evicted
       removed := call.removed p ++ ledger.removed }, final)

/-- What every call preserves holds after all calls. -/
theorem runCalls_invariant [CachePolicy P α] {I : P → Prop}
    (hcall : ∀ (call : PolicyCall α) (p : P), I p → I (call.run p).2) (calls : List (PolicyCall α))
    {p : P} (h : I p) : I (runCalls calls p).2 := by
  induction calls generalizing p with
  | nil => exact h
  | cons call calls ih => exact ih (hcall call p h)

/-! ## Accounts -/

variable [DecidableEq α]

/-- How often `on_evict` is called with `k`. -/
def evictions (k : α) (evicted : List (Eviction α)) : Nat := (evicted.map Eviction.key).count k

@[simp]
theorem evictions_nil (k : α) : evictions k [] = 0 := rfl

@[simp]
theorem evictions_append (k : α) (es es' : List (Eviction α)) :
    evictions k (es ++ es') = evictions k es + evictions k es' := by
  simp [evictions]

/-- Every key is accounted for, and none is evicted while it is resident. -/
structure Balance (before admitted : List α) (evicted : List (Eviction α))
    (removed after : List α) : Prop where
  gone : ∀ e ∈ evicted, e.key ∉ e.resident
  count_eq : ∀ k, before.count k + admitted.count k =
    after.count k + evictions k evicted + removed.count k

theorem Balance.of_perm {before after : List α} (h : after.Perm before) :
    Balance before [] [] [] after where
  gone := by simp
  count_eq k := by simp [h.count_eq k]

theorem Balance.trans {before admitted admitted' removed removed' middle after : List α}
    {evicted evicted' : List (Eviction α)} (h : Balance before admitted evicted removed middle)
    (h' : Balance middle admitted' evicted' removed' after) :
    Balance before (admitted ++ admitted') (evicted ++ evicted') (removed ++ removed') after where
  gone e he := (List.mem_append.mp he).elim (h.gone e) (h'.gone e)
  count_eq k := by
    have hfirst := h.count_eq k
    have hsecond := h'.count_eq k
    simp only [List.count_append, evictions_append]
    omega

theorem Admission.balance {k : α} {before after : List α} {evicted : List (Eviction α)}
    (h : Admission k before evicted after) :
    Balance before (if k ∈ before then [] else [k]) evicted [] after := by
  cases h with
  | resident hk hperm =>
    rw [if_pos hk]
    exact .of_perm hperm
  | stored hk hperm =>
    rw [if_neg hk]
    refine ⟨by simp, fun x => ?_⟩
    have hcount := hperm.count_eq x
    simp only [List.count_cons, List.count_nil, evictions_nil] at hcount ⊢
    omega
  | displaced hk hgone hperm =>
    rw [if_neg hk]
    refine ⟨by simpa using hgone, fun x => ?_⟩
    have hcount := hperm.count_eq x
    simp only [evictions, List.map_cons, List.map_nil, List.count_cons, List.count_nil] at hcount ⊢
    omega

variable [CachePolicy P α] [LawfulPolicy P] {capacity : Nat} {p : P}

open LawfulPolicy

theorem contains_eq_false {k : α} : contains k p = false ↔ k ∉ residents p := by
  rw [← contains_iff, Bool.not_eq_true]

/-- One call. -/
theorem PolicyCall.run_spec (call : PolicyCall α) (h : Valid capacity p) :
    Valid capacity (call.run p).2 ∧ Balance (residents p) (call.admitted p) (call.run p).1
      (call.removed p) (residents (call.run p).2) := by
  cases call with
  | access k blockIndex =>
    rw [run, removed, admitted]
    cases hin : contains k p with
    | true =>
      obtain ⟨p', hrun, hvalid, hperm⟩ := access_hit blockIndex h hin
      rw [hrun]
      exact ⟨hvalid, .of_perm hperm⟩
    | false =>
      cases hskip : bypasses k blockIndex p with
      | true =>
        rw [access_bypassed hin hskip]
        exact ⟨h, .of_perm .rfl⟩
      | false =>
        obtain ⟨es, p', hrun, hvalid, hadmission⟩ := access_admits h hin hskip
        have hbalance := hadmission.balance
        rw [if_neg (contains_eq_false.mp hin)] at hbalance
        rw [hrun]
        exact ⟨hvalid, hbalance⟩
  | touch k =>
    obtain ⟨hvalid, hperm⟩ := touch_spec k h
    exact ⟨hvalid, .of_perm hperm⟩
  | admitKey k =>
    obtain ⟨hvalid, hadmission⟩ := admitKey_spec k h
    refine ⟨hvalid, ?_⟩
    have hbalance := hadmission.balance
    simp only [← contains_iff (p := p)] at hbalance
    exact hbalance
  | remove k =>
    obtain ⟨hvalid, hfound, hperm⟩ := remove_spec k h
    refine ⟨hvalid, by simp [run], fun x => ?_⟩
    have hcount := hperm.count_eq x
    rw [run, removed, admitted, hfound]
    by_cases hk : k ∈ residents p
    · rw [if_pos (contains_iff.mpr hk)]
      have herase := (List.perm_cons_erase hk).count_eq x
      simp only [List.count_cons, List.count_nil, evictions_nil] at herase ⊢
      omega
    · rw [if_neg fun hin => hk (contains_iff.mp hin)]
      rw [List.erase_of_not_mem hk] at hcount
      simp [hcount]

/-- **Conservation.** Any sequence of calls leaves every key accounted for. -/
theorem balance_runCalls (calls : List (PolicyCall α)) (h : Valid capacity p) :
    Valid capacity (runCalls calls p).2 ∧
      Balance (residents p) (runCalls calls p).1.admitted (runCalls calls p).1.evicted
        (runCalls calls p).1.removed (residents (runCalls calls p).2) := by
  induction calls generalizing p with
  | nil => exact ⟨h, .of_perm .rfl⟩
  | cons call calls ih =>
    obtain ⟨hvalid, hbalance⟩ := call.run_spec h
    obtain ⟨hfinal, hrest⟩ := ih hvalid
    exact ⟨hfinal, hbalance.trans hrest⟩

/-- `k` leaves in the call, and not because it is removed. -/
def Departs (call : PolicyCall α) (k : α) (p : P) : Prop :=
  (k ∈ residents p ∨ k ∈ call.admitted p) ∧ k ∉ call.removed p ∧ k ∉ residents (call.run p).2

/-- A key is admitted once, and only when it is not resident. -/
theorem PolicyCall.count_admitted_le (call : PolicyCall α) (h : Valid capacity p) (k : α) :
    (residents p).count k + (call.admitted p).count k ≤ 1 := by
  have honce := List.nodup_iff_count_le_one.mp (nodup h) k
  have hle : ∀ (k' : α) (b : Bool), (k' ∈ residents p → b = true) →
      (residents p).count k + (if b then [] else [k']).count k ≤ 1 := by
    intro k' b hb
    cases b with
    | true => exact honce
    | false =>
      by_cases hk : k' = k
      · subst hk
        have hout : k' ∉ residents p := fun hmem => Bool.false_ne_true (hb hmem)
        simp [List.count_eq_zero_of_not_mem hout]
      · simpa [List.count_cons, hk] using honce
  cases call with
  | access k' blockIndex =>
    exact hle k' _ fun hmem => Bool.or_eq_true_iff.mpr (.inl (contains_iff.mpr hmem))
  | touch k' => exact honce
  | admitKey k' => exact hle k' _ contains_iff.mpr
  | remove k' => exact honce

/-- In a call, `on_evict` is called once for each departure. -/
theorem PolicyCall.evictions_eq (call : PolicyCall α) (h : Valid capacity p) (k : α) :
    (Departs call k p → evictions k (call.run p).1 = 1) ∧
      (¬ Departs call k p → evictions k (call.run p).1 = 0) := by
  have hbalance := (call.run_spec h).2.count_eq k
  have hadmitted := call.count_admitted_le h k
  have hdeparts : Departs call k p ↔ 0 < (residents p).count k + (call.admitted p).count k ∧
      (call.removed p).count k = 0 ∧ (residents (call.run p).2).count k = 0 := by
    rw [Departs, List.count_eq_zero, List.count_eq_zero, Nat.add_pos_iff_pos_or_pos,
      List.count_pos_iff, List.count_pos_iff]
  rw [hdeparts]
  omega

/-- The calls keep to the capacity and lose no key: `on_evict` is called once for each departure,
only for departures and for keys that are not resident, and the accounts balance. -/
structure Conservative (capacity : Nat) (p : P) (calls : List (PolicyCall α)) : Prop where
  bounded : (residents (runCalls calls p).2).length ≤ capacity
  gone : ∀ e ∈ (runCalls calls p).1.evicted, e.key ∉ e.resident
  once : ∀ call k, Departs call k (runCalls calls p).2 →
    evictions k (call.run (runCalls calls p).2).1 = 1
  only : ∀ call k, ¬ Departs call k (runCalls calls p).2 →
    evictions k (call.run (runCalls calls p).2).1 = 0
  balance : ∀ k, ((runCalls calls p).1.admitted.count k : Int) -
    evictions k (runCalls calls p).1.evicted - (runCalls calls p).1.removed.count k =
      if contains k (runCalls calls p).2 then 1 else 0

/-- What a policy owes makes it conservative. -/
theorem Fresh.conservative (h : Fresh capacity p) (calls : List (PolicyCall α)) :
    Conservative capacity p calls := by
  obtain ⟨hstart, hempty⟩ := h
  obtain ⟨hvalid, hbalance⟩ := balance_runCalls calls hstart
  refine ⟨length_le hvalid, hbalance.gone, fun call k => (call.evictions_eq hvalid k).1,
    fun call k => (call.evictions_eq hvalid k).2, fun k => ?_⟩
  have hcount := hbalance.count_eq k
  rw [hempty, List.count_nil] at hcount
  by_cases hk : k ∈ residents (runCalls calls p).2
  · rw [List.count_eq_one_of_mem (nodup hvalid) hk] at hcount
    rw [if_pos (contains_iff.mpr hk)]
    omega
  · rw [List.count_eq_zero_of_not_mem hk] at hcount
    rw [if_neg fun hin => hk (contains_iff.mp hin)]
    omega

end TieredKVCache.Bench
