import TieredKVCache.DataPath.Deserialize

/-!
# The serialization round trip

`serialize` writes eleven numbers of fixed width and the two payloads. Each number is found
again at the sum of the widths before it (`numAt_skip`, `numAt_head`), which is where
`deserialize` looks for it, so that `deserialize` inverts `serialize` on every block of the
current schema whose encoding has a 64-bit length.
-/

namespace TieredKVCache.DataPath

open Lib

theorem numAt_head (width n : Nat) (rest : List UInt8) :
    numAt width (encodeLE width n ++ rest) 0 = n % 256 ^ width := by
  rw [numAt, List.drop_zero, List.take_left' (length_encodeLE width n), decodeLE_encodeLE]

theorem numAt_skip (width w n offset : Nat) (rest : List UInt8) :
    numAt width (encodeLE w n ++ rest) (offset + w) = numAt width rest offset := by
  rw [numAt, numAt, Nat.add_comm, ← List.drop_drop, List.drop_left' (length_encodeLE w n)]

theorem uint16_field (v : UInt16) : UInt16.ofNat (v.toNat % 256 ^ 2) = v :=
  (congrArg UInt16.ofNat (Nat.mod_eq_of_lt v.toNat_lt)).trans UInt16.ofNat_toNat

theorem uint32_field (v : UInt32) : UInt32.ofNat (v.toNat % 256 ^ 4) = v :=
  (congrArg UInt32.ofNat (Nat.mod_eq_of_lt v.toNat_lt)).trans UInt32.ofNat_toNat

theorem uint64_field (v : UInt64) : UInt64.ofNat (v.toNat % 256 ^ 8) = v :=
  (congrArg UInt64.ofNat (Nat.mod_eq_of_lt v.toNat_lt)).trans UInt64.ofNat_toNat

theorem serialize_bytes (b : KVCacheBlock) :
    (serialize b).bytes =
      encodeLE 8 (sizeT (headerBytes + b.kPayload.length + b.vPayload.length)) ++
      (encodeLE 4 magicNumber ++ (encodeLE 2 b.key.version.toNat ++
      (encodeLE 2 b.dtype.raw.toNat ++ (encodeLE 8 b.key.hashId.toNat ++
      (encodeLE 4 b.key.layer.toNat ++ (encodeLE 4 b.numTokens.toNat ++
      (encodeLE 2 b.numHeads.toNat ++ (encodeLE 2 b.headDim.toNat ++
      (encodeLE 8 b.kPayload.length ++ (encodeLE 8 b.vPayload.length ++
      (b.kPayload ++ b.vPayload))))))))))) := by
  simp only [serialize, appendLE_eq, List.nil_append, List.append_assoc]

theorem length_serialize (b : KVCacheBlock) :
    (serialize b).bytes.length = headerBytes + b.kPayload.length + b.vPayload.length := by
  simp only [serialize_bytes, List.length_append, length_encodeLE, headerBytes]
  omega

theorem drop_header (b : KVCacheBlock) :
    (serialize b).bytes.drop headerBytes = b.kPayload ++ b.vPayload := by
  rw [serialize_bytes]
  simp only [← List.append_assoc]
  rw [List.append_assoc]
  exact List.drop_left' (by simp [headerBytes])

/-- A block of the current schema whose encoded size fits in 64 bits. -/
def Encodable (b : KVCacheBlock) : Prop :=
  b.key.version = blockSchemaVersion ∧
    headerBytes + b.kPayload.length + b.vPayload.length < 2 ^ 64

section

variable {b : KVCacheBlock}

theorem kLenField_serialize (h : Encodable b) :
    kLenField (serialize b).bytes = b.kPayload.length := by
  have hsize := h.2
  rw [kLenField, serialize_bytes]
  repeat rw [numAt_skip]
  rw [numAt_head, Nat.mod_eq_of_lt (by omega)]

theorem vLenField_serialize (h : Encodable b) :
    vLenField (serialize b).bytes = b.vPayload.length := by
  have hsize := h.2
  rw [vLenField, serialize_bytes]
  repeat rw [numAt_skip]
  rw [numAt_head, Nat.mod_eq_of_lt (by omega)]

theorem version_serialize :
    UInt16.ofNat (numAt 2 (serialize b).bytes 12) = b.key.version := by
  rw [serialize_bytes, numAt_skip, numAt_skip, numAt_head, uint16_field]

theorem headerOk_serialize (h : Encodable b) : HeaderOk (serialize b).bytes := by
  refine ⟨?_, ?_, ?_, version_serialize.trans h.1⟩
  · rw [length_serialize]
    omega
  · rw [length_serialize, serialize_bytes, numAt_head, sizeT_of_lt h.2]
    exact Nat.mod_eq_of_lt h.2
  · rw [serialize_bytes, numAt_skip, numAt_head]
    rfl

/-- The header fields of the encoding are those of the block. -/
theorem blockAt_serialize :
    blockAt (serialize b).bytes b.kPayload b.vPayload = b := by
  have hdtype : UInt16.ofNat (numAt 2 (serialize b).bytes 14) = b.dtype.raw := by
    rw [serialize_bytes, numAt_skip, numAt_skip, numAt_skip, numAt_head, uint16_field]
  have hhash : UInt64.ofNat (numAt 8 (serialize b).bytes 16) = b.key.hashId := by
    rw [serialize_bytes]
    repeat rw [numAt_skip]
    rw [numAt_head, uint64_field]
  have hlayer : UInt32.ofNat (numAt 4 (serialize b).bytes 24) = b.key.layer := by
    rw [serialize_bytes]
    repeat rw [numAt_skip]
    rw [numAt_head, uint32_field]
  have htokens : UInt32.ofNat (numAt 4 (serialize b).bytes 28) = b.numTokens := by
    rw [serialize_bytes]
    repeat rw [numAt_skip]
    rw [numAt_head, uint32_field]
  have hheads : UInt16.ofNat (numAt 2 (serialize b).bytes 32) = b.numHeads := by
    rw [serialize_bytes]
    repeat rw [numAt_skip]
    rw [numAt_head, uint16_field]
  have hdim : UInt16.ofNat (numAt 2 (serialize b).bytes 34) = b.headDim := by
    rw [serialize_bytes]
    repeat rw [numAt_skip]
    rw [numAt_head, uint16_field]
  simp only [blockAt, version_serialize, hdtype, hhash, hlayer, htokens, hheads, hdim]

theorem deserialize_serialize (h : Encodable b) : deserialize (serialize b) = .ok (.ok b) := by
  have hk := kLenField_serialize h
  have hv := vLenField_serialize h
  have hkRange : ((serialize b).bytes.drop headerBytes).take b.kPayload.length = b.kPayload := by
    rw [drop_header, List.take_left]
  have hvRange : ((serialize b).bytes.drop (headerBytes + b.kPayload.length)).take
      b.vPayload.length = b.vPayload := by
    rw [← List.drop_drop, drop_header, List.drop_left, List.take_length]
  rw [deserialize_of_lengths (headerOk_serialize h) (by rw [hk, hv, length_serialize]), hk, hv,
    hkRange, hvRange, blockAt_serialize]

end

theorem serialize_round_trip :
    (∀ b, Encodable b → deserialize (serialize b) = .ok (.ok b)) ∧
      ∀ b b', Encodable b → Encodable b' → serialize b = serialize b' → b = b' := by
  refine ⟨fun b h => deserialize_serialize h, fun b b' h h' heq => ?_⟩
  have hsame := deserialize_serialize h
  rw [heq, deserialize_serialize h'] at hsame
  cases hsame
  rfl

/-- Two blocks that hold the same four payload bytes, cut differently. -/
def fourByteBlock (kLen : Nat) : KVCacheBlock where
  key := { hashId := 77 }
  kPayload := [1, 2, 3, 4].take kLen
  vPayload := [1, 2, 3, 4].drop kLen

theorem serialize_round_trip_fourByteBlock :
    deserialize (serialize (fourByteBlock 3)) = .ok (.ok (fourByteBlock 3)) ∧
      serialize (fourByteBlock 3) ≠ serialize (fourByteBlock 1) := by
  have h (kLen : Nat) (hle : kLen ≤ 4) : Encodable (fourByteBlock kLen) := by
    refine ⟨rfl, ?_⟩
    simp only [fourByteBlock, List.length_take, List.length_drop, headerBytes, List.length_cons,
      List.length_nil]
    omega
  refine ⟨serialize_round_trip.1 _ (h 3 (by decide)), fun heq => ?_⟩
  have hsame := serialize_round_trip.2 _ _ (h 3 (by decide)) (h 1 (by decide)) heq
  exact absurd hsame (by decide)

end TieredKVCache.DataPath
