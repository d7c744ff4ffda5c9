import TieredKVCache.Core.Types
import TieredKVCache.Lib.LittleEndian
import TieredKVCache.Lib.Loop

/-!
# The wire format of a block

`DataPath::Serialize` and `DataPath::Deserialize` of `datapath/data_path.cpp`. The layout is
total length, magic, version, dtype, key, shape, the two payload lengths and the two
payloads; every number is little-endian.

Sizes are `std::size_t`, so sums of lengths are taken modulo `2 ^ 64`. Reading a byte or a range
of bytes outside the vector is the fault `outOfRange`.
-/

namespace TieredKVCache.DataPath

open Lib

/-! ## Definitions from the source -/

/-- `kMagic`, the bytes "MKVB". -/
def magicNumber : Nat := 0x424B564D

/-- `kHeaderBytes`. -/
def headerBytes : Nat := 8 + 4 + 2 + 2 + 8 + 4 + 4 + 2 + 2 + 8 + 8

/-- A sum of `std::size_t` values. -/
def sizeT (n : Nat) : Nat := n % 2 ^ 64

/-- `AppendLE<T>`, with `sizeof(T) = width`. -/
def appendLE (width : Nat) (out : List UInt8) (value : Nat) : List UInt8 :=
  out ++ (List.range width).map fun i => UInt8.ofNat ((value >>> (8 * i)) &&& 0xFF)

/-- `ReadLE<T>`, with `sizeof(T) = width`. -/
def readLE (width : Nat) (bytes : List UInt8) (offset : Nat) : Except Fault Nat :=
  (List.range width).foldlM (fun value i =>
    match bytes[offset + i]? with
    | some b => .ok (value ||| b.toNat <<< (8 * i))
    | none => .error .outOfRange) 0

/-- `vector::assign(bytes.begin() + first, bytes.begin() + last)`. -/
def assignRange (bytes : List UInt8) (first last : Nat) : Except Fault (List UInt8) :=
  if first ≤ last ∧ last ≤ bytes.length then .ok ((bytes.drop first).take (last - first))
  else .error .outOfRange

def serialize (block : KVCacheBlock) : SerializedBlock :=
  let total := sizeT (headerBytes + block.kPayload.length + block.vPayload.length)
  let bytes := appendLE 8 [] total
  let bytes := appendLE 4 bytes magicNumber
  let bytes := appendLE 2 bytes block.key.version.toNat
  let bytes := appendLE 2 bytes block.dtype.raw.toNat
  let bytes := appendLE 8 bytes block.key.hashId.toNat
  let bytes := appendLE 4 bytes block.key.layer.toNat
  let bytes := appendLE 4 bytes block.numTokens.toNat
  let bytes := appendLE 2 bytes block.numHeads.toNat
  let bytes := appendLE 2 bytes block.headDim.toNat
  let bytes := appendLE 8 bytes block.kPayload.length
  let bytes := appendLE 8 bytes block.vPayload.length
  ⟨bytes ++ block.kPayload ++ block.vPayload⟩

/-- The lambda `invalid` of `Deserialize`. -/
def invalid (reason : String) : Result KVCacheBlock :=
  Result.ofStatus (.make .invalidArgument reason)

def deserialize (serialized : SerializedBlock) : Except Fault (Result KVCacheBlock) := do
  let bytes := serialized.bytes
  if bytes.length < headerBytes then
    return invalid "序列化字节不足以容纳固定头部"
  let off := 0
  let total ← readLE 8 bytes off
  let off := off + 8
  if total ≠ bytes.length then
    return invalid "长度前缀与实际字节数不一致"
  let magic ← readLE 4 bytes off
  let off := off + 4
  if magic ≠ magicNumber then
    return invalid "魔数不匹配（非本格式或已损坏）"
  let version ← readLE 2 bytes off
  let off := off + 2
  if UInt16.ofNat version ≠ blockSchemaVersion then
    return invalid "不支持的 schema 版本"
  let dtype ← readLE 2 bytes off
  let off := off + 2
  let hashId ← readLE 8 bytes off
  let off := off + 8
  let layer ← readLE 4 bytes off
  let off := off + 4
  let numTokens ← readLE 4 bytes off
  let off := off + 4
  let numHeads ← readLE 2 bytes off
  let off := off + 2
  let headDim ← readLE 2 bytes off
  let off := off + 2
  let kLen ← readLE 8 bytes off
  let off := off + 8
  let vLen ← readLE 8 bytes off
  let off := off + 8
  if sizeT (headerBytes + kLen + vLen) ≠ bytes.length then
    return invalid "K/V 负载长度与总长不一致"
  let kPayload ← assignRange bytes off (sizeT (off + kLen))
  let off := sizeT (off + kLen)
  let vPayload ← assignRange bytes off (sizeT (off + vLen))
  return .ok
    { key := { hashId := .ofNat hashId, layer := .ofNat layer, version := .ofNat version }
      numTokens := .ofNat numTokens, numHeads := .ofNat numHeads, headDim := .ofNat headDim
      dtype := ⟨.ofNat dtype⟩, kPayload, vPayload }

/-! ## Numbers in the byte string -/

/-- The little-endian number in bytes `[offset, offset + width)`. -/
def numAt (width : Nat) (bytes : List UInt8) (offset : Nat) : Nat :=
  decodeLE ((bytes.drop offset).take width)

theorem appendLE_eq (width : Nat) (out : List UInt8) (value : Nat) :
    appendLE width out value = out ++ encodeLE width value := by
  rw [appendLE, shiftMask_eq_encodeLE]

/-- A read inside the vector returns the number stored there. -/
theorem readLE_eq {width offset : Nat} {bytes : List UInt8} (h : offset + width ≤ bytes.length) :
    readLE width bytes offset = .ok (numAt width bytes offset) := by
  induction width with
  | zero => rfl
  | succ w ih =>
    have hget : bytes[offset + w]? = some bytes[offset + w] := List.getElem?_eq_getElem (by omega)
    have hlen : ((bytes.drop offset).take w).length = w := by
      rw [List.length_take, List.length_drop]
      omega
    have hnext : (bytes.drop offset).take (w + 1) =
        (bytes.drop offset).take w ++ [bytes[offset + w]] := by
      rw [List.take_add_one, List.getElem?_drop, hget]
      rfl
    have hor := decodeLE_concat_eq_or ((bytes.drop offset).take w) bytes[offset + w]
    rw [hlen] at hor
    rw [readLE, List.range_succ, List.foldlM_append]
    have ih' := ih (by omega)
    rw [readLE] at ih'
    simp only [ih', numAt, hnext, hget, ← hor, List.foldlM_cons, List.foldlM_nil]
    rfl

theorem assignRange_eq {bytes : List UInt8} {first last : Nat} (h : first ≤ last)
    (hl : last ≤ bytes.length) :
    assignRange bytes first last = .ok ((bytes.drop first).take (last - first)) :=
  if_pos ⟨h, hl⟩

end TieredKVCache.DataPath
