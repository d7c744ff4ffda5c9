import TieredKVCache.DataPath.RoundTrip

/-!
# The accepted format

A string whose header and lengths are accepted (`WellFormed`) is the encoding of the block that is
read from it: each number is written back where it was read (`encodeLE_numAt`), so that
`serialize` inverts `deserialize` (`serialize_blockAt`). The deserializer does not look at the
dtype: it accepts exactly its format unless the dtype of a well-formed string is unknown or the
lengths wrap around (`acceptsExactly_iff`).
-/

namespace TieredKVCache.DataPath

open Lib

/-- The header is accepted, and the payload lengths add up to the length of the input. -/
def WellFormed (bytes : List UInt8) : Prop :=
  HeaderOk bytes ∧ headerBytes + kLenField bytes + vLenField bytes = bytes.length

/-- The `dtype` field of the header. -/
def dtypeField (bytes : List UInt8) : DType := ⟨.ofNat (numAt 2 bytes 14)⟩

/-- The deserializer returns a block exactly on the encoding of a block of the current schema
with a declared dtype, and reports an invalid argument on every other string. -/
def AcceptsExactly (x : SerializedBlock) : Prop :=
  (∀ b, deserialize x = .ok (.ok b) ↔
    x = serialize b ∧ Encodable b ∧ b.dtype ∈ DType.declared) ∧
  ((¬ ∃ b, x = serialize b ∧ Encodable b ∧ b.dtype ∈ DType.declared) →
    ∃ status, deserialize x = .ok (.error status) ∧ status.code = .invalidArgument)

/-! ## Writing back what was read -/

theorem encodeLE_numAt (width offset : Nat) {last : Nat} {bytes : List UInt8}
    (hlast : last = offset + width) (h : last ≤ bytes.length) :
    encodeLE width (numAt width bytes offset) ++ bytes.drop last = bytes.drop offset := by
  have hlen : ((bytes.drop offset).take width).length = width := by
    rw [List.length_take, List.length_drop]
    omega
  have hback : encodeLE width (numAt width bytes offset) = (bytes.drop offset).take width := by
    have heq := encodeLE_decodeLE ((bytes.drop offset).take width)
    rwa [hlen] at heq
  rw [hback, hlast, ← List.drop_drop, List.take_append_drop]

section

variable {bytes : List UInt8}

theorem toNat_uint16_numAt (offset : Nat) :
    (UInt16.ofNat (numAt 2 bytes offset)).toNat = numAt 2 bytes offset :=
  UInt16.toNat_ofNat_of_lt' numAt_lt

theorem toNat_uint32_numAt (offset : Nat) :
    (UInt32.ofNat (numAt 4 bytes offset)).toNat = numAt 4 bytes offset :=
  UInt32.toNat_ofNat_of_lt' numAt_lt

theorem toNat_uint64_numAt (offset : Nat) :
    (UInt64.ofNat (numAt 8 bytes offset)).toNat = numAt 8 bytes offset :=
  UInt64.toNat_ofNat_of_lt' numAt_lt

/-- The block that is read from the bytes, with the payloads cut where the lengths say. -/
def readBlock (bytes : List UInt8) : KVCacheBlock :=
  blockAt bytes ((bytes.drop headerBytes).take (kLenField bytes))
    ((bytes.drop (headerBytes + kLenField bytes)).take (vLenField bytes))

theorem WellFormed.payloads (h : WellFormed bytes) :
    (readBlock bytes).kPayload.length = kLenField bytes ∧
      (readBlock bytes).vPayload.length = vLenField bytes ∧
      (readBlock bytes).kPayload ++ (readBlock bytes).vPayload = bytes.drop headerBytes := by
  have hsum := h.2
  have hrest : (bytes.drop (headerBytes + kLenField bytes)).length = vLenField bytes := by
    rw [List.length_drop]
    omega
  refine ⟨?_, ?_, ?_⟩
  · show ((bytes.drop headerBytes).take (kLenField bytes)).length = _
    rw [List.length_take, List.length_drop]
    omega
  · show ((bytes.drop (headerBytes + kLenField bytes)).take (vLenField bytes)).length = _
    rw [List.length_take, hrest, Nat.min_self]
  · show (bytes.drop headerBytes).take (kLenField bytes) ++
      (bytes.drop (headerBytes + kLenField bytes)).take (vLenField bytes) = _
    rw [List.take_of_length_le hrest.le, ← List.drop_drop, List.take_append_drop]

/-- Every number of the header is found at the sum of the widths before it. -/
theorem serialize_readBlock (h : WellFormed bytes) :
    (serialize (readBlock bytes)).bytes = bytes := by
  obtain ⟨hk, hv, hpayloads⟩ := h.payloads
  obtain ⟨hheader, hsum⟩ := h
  obtain ⟨hlen, htotal, hmagic, hversion⟩ := hheader
  have hsize : sizeT (headerBytes + kLenField bytes + vLenField bytes) = numAt 8 bytes 0 := by
    rw [hsum, ← htotal, sizeT_of_lt numAt_lt]
  have hnum (width offset last : Nat) (hlast : last = offset + width) (hle : last ≤ headerBytes) :
      encodeLE width (numAt width bytes offset) ++ bytes.drop last = bytes.drop offset :=
    encodeLE_numAt width offset hlast (hle.trans hlen)
  rw [serialize_bytes, hk, hv, hpayloads, hsize, ← hmagic]
  simp only [readBlock, blockAt, toNat_uint16_numAt, toNat_uint32_numAt, toNat_uint64_numAt]
  rw [vLenField, hnum 8 44 headerBytes rfl le_rfl, kLenField, hnum 8 36 44 rfl (by decide),
    hnum 2 34 36 rfl (by decide), hnum 2 32 34 rfl (by decide), hnum 4 28 32 rfl (by decide),
    hnum 4 24 28 rfl (by decide), hnum 8 16 24 rfl (by decide), hnum 2 14 16 rfl (by decide),
    hnum 2 12 14 rfl (by decide), hnum 4 8 12 rfl (by decide), hnum 8 0 8 rfl (by decide),
    List.drop_zero]

theorem WellFormed.encodable (h : WellFormed bytes) : Encodable (readBlock bytes) := by
  obtain ⟨hk, hv, -⟩ := h.payloads
  have hlt := h.1.length_lt
  refine ⟨h.1.2.2.2, ?_⟩
  rw [hk, hv, h.2]
  exact hlt

/-- The encodings of blocks are the well-formed strings. -/
theorem wellFormed_serialize {b : KVCacheBlock} (h : Encodable b) :
    WellFormed (serialize b).bytes := by
  refine ⟨headerOk_serialize h, ?_⟩
  rw [kLenField_serialize h, vLenField_serialize h, length_serialize]

end

/-! ## The outcomes of the deserializer -/

section

variable {x : SerializedBlock}

theorem deserialize_of_wellFormed (h : WellFormed x.bytes) :
    deserialize x = .ok (.ok (readBlock x.bytes)) :=
  deserialize_of_lengths h.1 h.2

theorem eq_serialize_of_wellFormed (h : WellFormed x.bytes) : x = serialize (readBlock x.bytes) :=
  congrArg SerializedBlock.mk (serialize_readBlock h).symm

theorem deserialize_of_not_wellFormed (h : ¬ WellFormed x.bytes) (hwrap : ¬ LengthsWrap x.bytes) :
    ∃ reason, deserialize x = .ok (invalid reason) := by
  by_cases hheader : HeaderOk x.bytes
  · refine ⟨"K/V 负载长度与总长不一致", ?_⟩
    rw [deserialize_of_headerOk hheader, if_pos]
    intro hsum
    have hlt : headerBytes + kLenField x.bytes + vLenField x.bytes < 2 ^ 64 :=
      Nat.lt_of_not_le fun hle => hwrap ⟨hheader, hsum, hle⟩
    rw [sizeT_of_lt hlt] at hsum
    exact h ⟨hheader, hsum⟩
  · exact deserialize_of_not_headerOk hheader

/-- **The accepted format.** The deserializer accepts exactly its format on a string if and only
if the lengths of the string do not wrap around and, where it is well formed, its dtype is
declared. -/
theorem acceptsExactly_iff (x : SerializedBlock) :
    AcceptsExactly x ↔ ¬ LengthsWrap x.bytes ∧
      (WellFormed x.bytes → dtypeField x.bytes ∈ DType.declared) := by
  constructor
  · rintro ⟨haccepts, hrefuses⟩
    refine ⟨fun hwrap => ?_, fun hwell => ?_⟩
    · have hfault := deserialize_of_lengthsWrap hwrap
      have hno : ¬ ∃ b, x = serialize b ∧ Encodable b ∧ b.dtype ∈ DType.declared := by
        rintro ⟨b, hb⟩
        have hok := (haccepts b).mpr hb
        rw [hfault] at hok
        cases hok
      obtain ⟨status, hstatus, -⟩ := hrefuses hno
      rw [hfault] at hstatus
      cases hstatus
    · exact ((haccepts (readBlock x.bytes)).mp (deserialize_of_wellFormed hwell)).2.2
  · rintro ⟨hwrap, hdtype⟩
    by_cases hwell : WellFormed x.bytes
    · have hok := deserialize_of_wellFormed hwell
      have hx := eq_serialize_of_wellFormed hwell
      have hvalid : Encodable (readBlock x.bytes) ∧ (readBlock x.bytes).dtype ∈ DType.declared :=
        ⟨hwell.encodable, hdtype hwell⟩
      refine ⟨fun b => ⟨fun hb => ?_, fun hb => ?_⟩, fun hno => absurd ⟨_, hx, hvalid⟩ hno⟩
      · cases hok.symm.trans hb
        exact ⟨hx, hvalid⟩
      · rw [hb.1, deserialize_serialize hb.2.1]
    · have hno : ¬ ∃ b, x = serialize b ∧ Encodable b ∧ b.dtype ∈ DType.declared := by
        rintro ⟨b, rfl, hb, -⟩
        exact hwell (wellFormed_serialize hb)
      obtain ⟨reason, hinvalid⟩ := deserialize_of_not_wellFormed hwell hwrap
      refine ⟨fun b => ⟨fun hb => ?_, fun hb => absurd ⟨b, hb⟩ hno⟩, fun _ => ⟨_, hinvalid, rfl⟩⟩
      rw [hinvalid] at hb
      cases hb

/-- A block without payload whose dtype is not an enumerator. -/
def unknownDtypeBlock : KVCacheBlock := { dtype := ⟨7⟩ }

theorem unknownDtype_accepted : ¬ AcceptsExactly (serialize unknownDtypeBlock) := by
  rintro ⟨haccepts, -⟩
  have hok : deserialize (serialize unknownDtypeBlock) = .ok (.ok unknownDtypeBlock) :=
    deserialize_serialize ⟨rfl, by decide⟩
  exact absurd ((haccepts unknownDtypeBlock).mp hok).2.2 (by decide)

end

end TieredKVCache.DataPath
