import Mathlib.Data.Finset.Basic
import TieredKVCache.Lib.AssocSum
import TieredKVCache.Lib.KeyQueue
import TieredKVCache.Lib.Loop
import TieredKVCache.Lib.Transition

/-!
# The S3-FIFO policy of the offloading plugin

`S3FIFOCachePolicy` of `vllm_adapter/offloading_spec.py`, over arbitrary keys. Of a `BlockStatus`
only its reference count is known, as a parameter. A `dict` is an association list, since nothing
depends on its order, and an `OrderedDict` is a `KeyQueue`. `popitem` on an empty dictionary and a
missing key raise a `KeyError`.

A run of the policy is a sequence of operations under the preconditions with which the offloading
manager calls them (`Step`): a key is inserted when it is absent, and marked when it is present.
-/

namespace TieredKVCache.VllmAdapter

open Lib

/-- `_FREQ_CAP`. -/
def freqCap : Int := 3

structure S3FIFOCachePolicy (Key BlockStatus : Type) where
  smallBudget : Nat
  ghostCapacity : Nat
  blocks : AList fun _ : Key => BlockStatus := ∅
  small : KeyQueue Key := ∅
  main : KeyQueue Key := ∅
  freq : AList fun _ : Key => Int := ∅
  evictable : Finset Key := ∅
  ghost : KeyQueue Key := ∅

inductive PolicyFault where
  | keyError
  /-- A loop ran past its bound. -/
  | diverged
deriving DecidableEq, Repr

namespace S3FIFOCachePolicy

variable {Key BlockStatus : Type} [DecidableEq Key]

/-- `__init__`. -/
def init (cacheCapacity : Nat) : S3FIFOCachePolicy Key BlockStatus where
  smallBudget := max 1 (cacheCapacity / 10)
  ghostCapacity := max 1 (2 * cacheCapacity)

/-- `self.ghost.pop(key, None)`: every value of `ghost` is `None`, and so is the default. -/
def ghostPop (key : Key) (p : S3FIFOCachePolicy Key BlockStatus) :
    Option Empty × S3FIFOCachePolicy Key BlockStatus :=
  (none, { p with ghost := p.ghost.erase key })

def insert (refCnt : BlockStatus → Int) (key : Key) (block : BlockStatus)
    (p : S3FIFOCachePolicy Key BlockStatus) : S3FIFOCachePolicy Key BlockStatus :=
  let p := { p with blocks := p.blocks.insert key block, freq := p.freq.insert key 0 }
  let (popped, p) := p.ghostPop key
  let p :=
    if popped.isSome then { p with main := p.main.push key }
    else { p with small := p.small.push key }
  if refCnt block = 0 then { p with evictable := Insert.insert key p.evictable } else p

def remove (key : Key) (p : S3FIFOCachePolicy Key BlockStatus) :
    Except PolicyFault (S3FIFOCachePolicy Key BlockStatus) :=
  if key ∉ p.blocks then .error .keyError
  else
    .ok { p with
      blocks := p.blocks.erase key
      freq := p.freq.erase key
      small := p.small.erase key
      main := p.main.erase key
      evictable := p.evictable.erase key }

def touchKey (p : S3FIFOCachePolicy Key BlockStatus) (key : Key) :
    S3FIFOCachePolicy Key BlockStatus :=
  match p.freq.lookup key with
  | none => p
  | some freq => { p with freq := p.freq.insert key (min (freq + 1) freqCap) }

def touch (keys : List Key) (p : S3FIFOCachePolicy Key BlockStatus) :
    S3FIFOCachePolicy Key BlockStatus :=
  keys.foldl touchKey p

def clear (p : S3FIFOCachePolicy Key BlockStatus) : S3FIFOCachePolicy Key BlockStatus :=
  { p with blocks := ∅, small := ∅, main := ∅, freq := ∅, evictable := ∅, ghost := ∅ }

def markEvictable (key : Key) (p : S3FIFOCachePolicy Key BlockStatus) :
    S3FIFOCachePolicy Key BlockStatus :=
  { p with evictable := Insert.insert key p.evictable }

def markNonEvictable (key : Key) (p : S3FIFOCachePolicy Key BlockStatus) :
    S3FIFOCachePolicy Key BlockStatus :=
  { p with evictable := p.evictable.erase key }

/-- `_ghost_insert`. -/
def ghostInsert (key : Key) (p : S3FIFOCachePolicy Key BlockStatus) :
    S3FIFOCachePolicy Key BlockStatus :=
  { p with ghost := (((p.ghost.push key).moveToEnd key).popDownTo p.ghostCapacity).2 }

/-! ## Eviction -/

/-- The variables of the loop of `evict`; a victim carries whether it comes from the small
queue. -/
structure Scan (Key : Type) where
  small : KeyQueue Key
  main : KeyQueue Key
  freq : AList fun _ : Key => Int
  victims : List (Key × Bool) := []
  skippedSmall : List Key := []
  skippedMain : List Key := []

/-- `self.freq.get(key, 0)`. -/
def Scan.freqOf (l : Scan Key) (key : Key) : Int := (l.freq.lookup key).getD 0

/-- `from_small`: the key of the round comes from the small queue. -/
def Scan.fromSmall (smallBudget : Nat) (l : Scan Key) : Bool :=
  (l.small.length > smallBudget && l.small.length ≠ 0) || l.main.length = 0

/-- The body of the loop of `evict`: `inl` goes round again, `inr` leaves the loop. -/
def evictBody (smallBudget : Nat) (evictable : Finset Key) (n : Nat) (isProtected : Finset Key)
    (l : Scan Key) : Except PolicyFault (Scan Key ⊕ Scan Key) :=
  if l.victims.length < n then
    if l.fromSmall smallBudget then
      match l.small.popFront with
      | none => .ok (.inr l)
      | some (key, small) =>
        let l : Scan Key := { l with small }
        if l.freqOf key > 0 then
          .ok (.inl { l with freq := l.freq.insert key 0, main := l.main.push key })
        else if key ∈ isProtected ∨ key ∉ evictable then
          .ok (.inl { l with skippedSmall := l.skippedSmall ++ [key] })
        else .ok (.inl { l with victims := l.victims ++ [(key, true)] })
    else
      match l.main.popFront with
      | none => .error .keyError
      | some (key, main) =>
        let l : Scan Key := { l with main }
        if l.freqOf key > 0 then
          .ok (.inl { l with
            freq := l.freq.insert key (l.freqOf key - 1)
            main := l.main.push key })
        else if key ∈ isProtected ∨ key ∉ evictable then
          .ok (.inl { l with skippedMain := l.skippedMain ++ [key] })
        else .ok (.inl { l with victims := l.victims ++ [(key, false)] })
  else .ok (.inr l)

/-- A measure that every round lowers: a key of the small queue can still be popped from both
queues, and a second chance costs one unit of frequency. -/
def scanMeasure (l : Scan Key) : Nat :=
  2 * l.small.length + l.main.length + sumOver (fun _ freq => freq.toNat) l.freq

def restoreQueue (restore : List Key) (queue : KeyQueue Key) : KeyQueue Key :=
  if restore ≠ [] then .ofList (restore ++ queue.toList) else queue

/-- The queues after the loop: what was skipped returns to the front, and so do the victims of a
loop that did not find enough. -/
def restore (succeeded : Bool) (l : Scan Key) (p : S3FIFOCachePolicy Key BlockStatus) :
    S3FIFOCachePolicy Key BlockStatus :=
  let victims := if succeeded then [] else l.victims
  { p with
    small := restoreQueue
      (l.skippedSmall ++ (victims.filter fun v => v.2).map Prod.fst) l.small
    main := restoreQueue
      (l.skippedMain ++ (victims.filter fun v => !v.2).map Prod.fst) l.main
    freq := l.freq }

/-- A victim leaves the policy. -/
def dropVictim (key : Key) (fromSmall : Bool) (p : S3FIFOCachePolicy Key BlockStatus) :
    S3FIFOCachePolicy Key BlockStatus :=
  let p := { p with
    blocks := p.blocks.erase key
    freq := p.freq.erase key
    evictable := p.evictable.erase key }
  if fromSmall then p.ghostInsert key else p

/-- The loop over the victims: each is returned with its block. -/
def dropVictims : List (Key × Bool) → S3FIFOCachePolicy Key BlockStatus →
    Except PolicyFault (List (Key × BlockStatus) × S3FIFOCachePolicy Key BlockStatus)
  | [], p => .ok ([], p)
  | (key, fromSmall) :: victims, p =>
    match p.blocks.lookup key with
    | none => .error .keyError
    | some block => do
      let (result, p) ← dropVictims victims (p.dropVictim key fromSmall)
      return ((key, block) :: result, p)

/-- The loop of `evict`. -/
def scanQueues (n : Nat) (isProtected : Finset Key) (p : S3FIFOCachePolicy Key BlockStatus) :
    Except PolicyFault (Scan Key) :=
  let scan : Scan Key := { small := p.small, main := p.main, freq := p.freq }
  iterate (evictBody p.smallBudget p.evictable n isProtected) .diverged (scanMeasure scan + 1) scan

def evict (n : Nat) (isProtected : Finset Key) (p : S3FIFOCachePolicy Key BlockStatus) :
    Except PolicyFault
      (Option (List (Key × BlockStatus)) × S3FIFOCachePolicy Key BlockStatus) :=
  if n = 0 then .ok (some [], p)
  else do
    let l ← p.scanQueues n isProtected
    let succeeded : Bool := l.victims.length = n
    let p := restore succeeded l p
    if !succeeded then return (none, p)
    let (result, p) ← dropVictims l.victims p
    return (some result, p)

/-! ## Runs -/

inductive Op (Key BlockStatus : Type) where
  | insert (key : Key) (block : BlockStatus)
  | remove (key : Key)
  | touch (keys : List Key)
  | clear
  | evict (n : Nat) (isProtected : Finset Key) (result : Option (List (Key × BlockStatus)))
  | markEvictable (key : Key)
  | markNonEvictable (key : Key)

inductive Step (refCnt : BlockStatus → Int) (p : S3FIFOCachePolicy Key BlockStatus) :
    Op Key BlockStatus → S3FIFOCachePolicy Key BlockStatus → Prop
  | insert (key : Key) (block : BlockStatus) (habsent : key ∉ p.blocks) :
      Step refCnt p (.insert key block) (p.insert refCnt key block)
  | remove {key : Key} {p' : S3FIFOCachePolicy Key BlockStatus} (h : p.remove key = .ok p') :
      Step refCnt p (.remove key) p'
  | touch (keys : List Key) : Step refCnt p (.touch keys) (p.touch keys)
  | clear : Step refCnt p .clear p.clear
  | evict {n : Nat} {isProtected : Finset Key} {result : Option (List (Key × BlockStatus))}
      {p' : S3FIFOCachePolicy Key BlockStatus} (h : p.evict n isProtected = .ok (result, p')) :
      Step refCnt p (.evict n isProtected result) p'
  | markEvictable {key : Key} (hkey : key ∈ p.blocks) :
      Step refCnt p (.markEvictable key) (p.markEvictable key)
  | markNonEvictable {key : Key} (hkey : key ∈ p.blocks) :
      Step refCnt p (.markNonEvictable key) (p.markNonEvictable key)

end S3FIFOCachePolicy

end TieredKVCache.VllmAdapter
