import TieredKVCache.Bench.Recency
import TieredKVCache.Bench.S3Fifo
import TieredKVCache.Bench.Sieve

/-!
# The registry of policies

An instance of one of two policy classes is again a policy (`Sum`), so that `Policy`, an instance of
one of the classes in `POLICIES`, is one. What `makePolicy` returns owes what every policy owes,
and is therefore conservative (`makePolicy_conservative`).
-/

namespace TieredKVCache.Bench

open Lib CachePolicy LawfulPolicy

variable {α P Q : Type}

/-! ## One of two policies -/

instance [CachePolicy P α] [CachePolicy Q α] : CachePolicy (P ⊕ Q) α where
  residents
    | .inl p => residents p
    | .inr q => residents q
  contains k
    | .inl p => contains k p
    | .inr q => contains k q
  bypasses k blockIndex
    | .inl p => bypasses k blockIndex p
    | .inr q => bypasses k blockIndex q
  access k blockIndex
    | .inl p => (access k blockIndex p).map id (Prod.map id .inl)
    | .inr q => (access k blockIndex q).map id (Prod.map id .inr)
  touch k
    | .inl p => .inl (touch k p)
    | .inr q => .inr (touch k q)
  admitKey k
    | .inl p => (admitKey k p).map id .inl
    | .inr q => (admitKey k q).map id .inr
  remove k
    | .inl p => (remove k p).map id .inl
    | .inr q => (remove k q).map id .inr

variable [DecidableEq α]

instance [CachePolicy P α] [CachePolicy Q α] [LawfulPolicy P] [LawfulPolicy Q] :
    LawfulPolicy (P ⊕ Q) where
  Valid capacity
    | .inl p => Valid capacity p
    | .inr q => Valid capacity q
  nodup {_ p} h := by
    cases p with
    | inl p => exact nodup (P := P) h
    | inr q => exact nodup (P := Q) h
  length_le {_ p} h := by
    cases p with
    | inl p => exact length_le (P := P) h
    | inr q => exact length_le (P := Q) h
  contains_iff {_ p} := by
    cases p with
    | inl p => exact contains_iff (P := P)
    | inr q => exact contains_iff (P := Q)
  touch_spec {_ p} k h := by
    cases p with
    | inl p => exact touch_spec (P := P) k h
    | inr q => exact touch_spec (P := Q) k h
  remove_spec {_ p} k h := by
    cases p with
    | inl p => exact remove_spec (P := P) k h
    | inr q => exact remove_spec (P := Q) k h
  admitKey_spec {_ p} k h := by
    cases p with
    | inl p => exact admitKey_spec (P := P) k h
    | inr q => exact admitKey_spec (P := Q) k h
  access_hit {_ p k} blockIndex h hk := by
    cases p with
    | inl p =>
      obtain ⟨p', hrun, hafter⟩ := access_hit (P := P) blockIndex h hk
      exact ⟨.inl p', congrArg (Prod.map id (Prod.map id Sum.inl)) hrun, hafter⟩
    | inr q =>
      obtain ⟨q', hrun, hafter⟩ := access_hit (P := Q) blockIndex h hk
      exact ⟨.inr q', congrArg (Prod.map id (Prod.map id Sum.inr)) hrun, hafter⟩
  access_bypassed {p k blockIndex} hk hskip := by
    cases p with
    | inl p =>
      exact congrArg (Prod.map id (Prod.map id Sum.inl)) (access_bypassed (P := P) hk hskip)
    | inr q =>
      exact congrArg (Prod.map id (Prod.map id Sum.inr)) (access_bypassed (P := Q) hk hskip)
  access_admits {_ p k blockIndex} h hk hkeeps := by
    cases p with
    | inl p =>
      obtain ⟨es, p', hrun, hafter⟩ := access_admits (P := P) h hk hkeeps
      exact ⟨es, .inl p', congrArg (Prod.map id (Prod.map id Sum.inl)) hrun, hafter⟩
    | inr q =>
      obtain ⟨es, q', hrun, hafter⟩ := access_admits (P := Q) h hk hkeeps
      exact ⟨es, .inr q', congrArg (Prod.map id (Prod.map id Sum.inr)) hrun, hafter⟩

/-! ## The classes of the registry -/

/-- An instance of one of the policy classes. -/
abbrev Policy (α : Type) : Type :=
  LRUPolicy α ⊕ SievePolicy α ⊕ S3FifoPolicy α ⊕ PrefixAwareLRUPolicy α ⊕ S3FifoPrefixPolicy α

/-- `POLICIES`: the constructors, by the names of the classes. -/
def POLICIES (α : Type) : List (String × (Int → Except String (Policy α))) :=
  [("lru", fun capacity => (LRUPolicy.new capacity).map .inl),
   ("sieve", fun capacity => (SievePolicy.new capacity).map (.inr ∘ .inl)),
   ("s3fifo", fun capacity => (S3FifoPolicy.new capacity).map (.inr ∘ .inr ∘ .inl)),
   ("prefix_lru", fun capacity =>
      (PrefixAwareLRUPolicy.new capacity).map (.inr ∘ .inr ∘ .inr ∘ .inl)),
   ("s3fifo_prefix", fun capacity =>
      (S3FifoPrefixPolicy.new capacity).map (.inr ∘ .inr ∘ .inr ∘ .inr))]

/-- `make_policy`; an unknown name is a `ValueError`. -/
def makePolicy (name : String) (capacity : Int) : Except String (Policy α) :=
  match (POLICIES α).lookup name with
  | some cls => cls capacity
  | none => .error ("未知策略：" ++ name ++
      "（可选：['lru', 'prefix_lru', 's3fifo', 's3fifo_prefix', 'sieve']）")

/-- A policy by any of the names starts empty and owes what every policy owes. -/
theorem makePolicy_fresh {name : String} {capacity : Nat}
    (hname : name ∈ (POLICIES α).map Prod.fst) (h : 1 ≤ capacity) :
    Returns (makePolicy name capacity : Except String (Policy α)) (Fresh capacity) := by
  simp only [POLICIES, List.map_cons, List.map_nil, List.mem_cons, List.not_mem_nil,
    or_false] at hname
  rcases hname with rfl | rfl | rfl | rfl | rfl
  · exact (LRUPolicy.new_fresh h).map fun _ hp => hp
  · exact (SievePolicy.new_fresh h).map fun _ hp => hp
  · exact (S3FifoPolicy.new_fresh h).map fun _ hp => hp
  · exact (PrefixAwareLRUPolicy.new_fresh h).map fun _ hp => hp
  · exact (S3FifoPrefixPolicy.new_fresh h).map fun _ hp => hp

theorem makePolicy_lru {capacity : Nat} (h : 1 ≤ capacity) :
    Returns (makePolicy "lru" capacity : Except String (Policy α)) fun p =>
      Fresh capacity p ∧ ∃ q : LRUPolicy α, p = .inl q :=
  (LRUPolicy.new_fresh h).map fun q hq => ⟨hq, q, rfl⟩

/-- **Conservation.** Every policy of the registry keeps to its capacity and loses no key, whatever
calls are made. -/
theorem makePolicy_conservative (α : Type) [DecidableEq α] (name : String) (capacity : Nat)
    (hname : name ∈ (POLICIES α).map Prod.fst) (h : 1 ≤ capacity) :
    Returns (makePolicy name capacity : Except String (Policy α)) fun p =>
      ∀ calls : List (PolicyCall α), Conservative capacity p calls :=
  (makePolicy_fresh hname h).mono fun _ hfresh => hfresh.conservative

theorem makePolicy_conservative_s3fifo :
    Returns (makePolicy "s3fifo" 3 : Except String (Policy Nat)) fun p =>
      ∀ calls : List (PolicyCall Nat), Conservative 3 p calls :=
  makePolicy_conservative Nat "s3fifo" 3 (by decide) (by decide)

end TieredKVCache.Bench
