import Mathlib.Order.Basic
import Mathlib.Data.Prod.Lex
import Mathlib.Data.String.Basic
import Mathlib.Tactic.SplitIfs

/-!
# The data model of the project

`project/types.h` and `project/status.h`: block keys, KV blocks, their wire form, status
codes and results. Fixed-width fields keep their width; a payload is a list of bytes.

A `Fault` is not a value of the program: it records that a model run left the
defined behaviour of C++ or ran past a loop bound.
-/

namespace TieredKVCache

/-! ## Blocks -/

/-- `kBlockSchemaVersion`. -/
def blockSchemaVersion : UInt16 := 1

/-- `DType`, an enumeration over `std::uint16_t`: any 16-bit value is a value of it. -/
structure DType where
  raw : UInt16
deriving DecidableEq, Repr

namespace DType

def float16 : DType := ⟨0⟩
def bfloat16 : DType := ⟨1⟩
def float8E4M3 : DType := ⟨2⟩
def float8E5M2 : DType := ⟨3⟩
def float32 : DType := ⟨4⟩
def int8 : DType := ⟨5⟩
def uint8 : DType := ⟨6⟩

/-- The enumerators. -/
def declared : List DType := [float16, bfloat16, float8E4M3, float8E5M2, float32, int8, uint8]

/-- `DTypeSizeBytes`: zero for an unknown value, which the caller treats as an error. -/
def sizeBytes (dtype : DType) : Nat :=
  if dtype = float16 ∨ dtype = bfloat16 then 2
  else if dtype = float8E4M3 ∨ dtype = float8E5M2 ∨ dtype = int8 ∨ dtype = uint8 then 1
  else if dtype = float32 then 4
  else 0

end DType

structure BlockKey where
  hashId : UInt64 := 0
  layer : UInt32 := 0
  version : UInt16 := blockSchemaVersion
deriving Repr

namespace BlockKey

/-- The defaulted `operator<=>` compares the members in order of declaration. -/
def toTuple (k : BlockKey) : Nat ×ₗ Nat ×ₗ Nat :=
  toLex (k.hashId.toNat, toLex (k.layer.toNat, k.version.toNat))

theorem toTuple_injective : Function.Injective toTuple := by
  rintro ⟨h, l, v⟩ ⟨h', l', v'⟩ heq
  simp only [toTuple, EmbeddingLike.apply_eq_iff_eq, Prod.mk.injEq] at heq
  obtain ⟨hh, hl, hv⟩ := heq
  rw [UInt64.toNat_inj.mp hh, UInt32.toNat_inj.mp hl, UInt16.toNat_inj.mp hv]

instance : LinearOrder BlockKey := LinearOrder.lift' toTuple toTuple_injective

instance instLawfulBEq : LawfulBEq BlockKey := inferInstance

end BlockKey

/-- Segment names of the upstream store, usually `ip:port`. -/
structure NodeId where
  value : String := ""
deriving Repr

namespace NodeId

theorem value_injective : Function.Injective value := by
  rintro ⟨v⟩ ⟨v'⟩ h
  exact congrArg mk h

instance : LinearOrder NodeId := LinearOrder.lift' value value_injective

end NodeId

structure KVCacheBlock where
  key : BlockKey := {}
  numTokens : UInt32 := 0
  numHeads : UInt16 := 0
  headDim : UInt16 := 0
  dtype : DType := .float16
  kPayload : List UInt8 := []
  vPayload : List UInt8 := []
deriving DecidableEq, Repr

structure SerializedBlock where
  bytes : List UInt8
deriving DecidableEq, Repr

/-! ## Statuses and results -/

inductive StatusCode where
  | ok | invalidArgument | notFound | alreadyExists | outOfCapacity | backpressure
  | addressNotRegistered | transportUnavailable | transferFailed | unreachable
  | notSupported | internal
deriving DecidableEq, Repr

structure Status where
  code : StatusCode
  message : String
deriving DecidableEq, Repr

namespace Status

/-- `Status::Ok`. -/
def success : Status := ⟨.ok, ""⟩

/-- `Status::Make`: a success carries no message. -/
def make (code : StatusCode) (message : String) : Status :=
  ⟨code, if code = .ok then "" else message⟩

/-- `Status::ok()`. -/
def isOk (s : Status) : Bool := s.code = .ok

@[simp]
theorem isOk_success : success.isOk = true := rfl

end Status

/-- `Result<T>`: a value, or a status. -/
abbrev Result (α : Type) := Except Status α

/-- The constructor from a `Status`, which turns a success into an internal error. -/
def Result.ofStatus {α : Type} (s : Status) : Result α :=
  .error (if s.isOk then .make .internal "Result 由 kOk 的 Status 构造，违反不变量" else s)

/-! ## Undefined behaviour -/

inductive Fault where
  /-- A loop ran past its bound. -/
  | diverged
  /-- `front()` or `pop_front()` on an empty queue. -/
  | emptyQueue
  /-- `operator*` on an empty `std::optional`. -/
  | emptyOptional
  /-- `operator->` on the past-the-end iterator. -/
  | endIterator
  /-- A read outside a `std::vector`. -/
  | outOfRange
deriving DecidableEq, Repr

end TieredKVCache
