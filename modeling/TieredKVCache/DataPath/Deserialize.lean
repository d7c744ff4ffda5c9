import TieredKVCache.DataPath.Wire

/-!
# What the deserializer accepts

Every check of `deserialize` reads the fixed header, which is inside the vector once the
first check has passed. `HeaderOk` collects the checks before the one on the payload
lengths; `deserialize_of_headerOk` and `deserialize_of_not_headerOk` describe the two cases.

The check on the payload lengths compares a sum modulo `2 ^ 64`. A string whose lengths wrap
around (`LengthsWrap`) passes it, and the range of the K payload then reaches
past the end of the vector or ends before it begins: `deserialize_safe_iff` says that these strings
are exactly the ones on which the deserializer leaves the defined behaviour.
-/

namespace TieredKVCache.DataPath

open Lib

/-- The `k_len` field of the header. -/
def kLenField (bytes : List UInt8) : Nat := numAt 8 bytes 36

/-- The `v_len` field of the header. -/
def vLenField (bytes : List UInt8) : Nat := numAt 8 bytes 44

/-- The checks on total length, magic and version pass. -/
def HeaderOk (bytes : List UInt8) : Prop :=
  headerBytes ≤ bytes.length ∧ numAt 8 bytes 0 = bytes.length ∧
    numAt 4 bytes 8 = magicNumber ∧ UInt16.ofNat (numAt 2 bytes 12) = blockSchemaVersion

/-- The block whose header fields and payload ranges are read from the bytes. -/
def blockAt (bytes kPayload vPayload : List UInt8) : KVCacheBlock where
  key :=
    { hashId := .ofNat (numAt 8 bytes 16), layer := .ofNat (numAt 4 bytes 24)
      version := .ofNat (numAt 2 bytes 12) }
  numTokens := .ofNat (numAt 4 bytes 28)
  numHeads := .ofNat (numAt 2 bytes 32)
  headDim := .ofNat (numAt 2 bytes 34)
  dtype := ⟨.ofNat (numAt 2 bytes 14)⟩
  kPayload := kPayload
  vPayload := vPayload

theorem numAt_lt {width : Nat} {bytes : List UInt8} {offset : Nat} :
    numAt width bytes offset < 256 ^ width := by
  refine (decodeLE_lt _).trans_le (Nat.pow_le_pow_right (by omega) ?_)
  exact List.length_take_le _ _

theorem deserialize_of_not_headerOk {x : SerializedBlock} (h : ¬ HeaderOk x.bytes) :
    ∃ reason, deserialize x = .ok (invalid reason) := by
  by_cases hlen : x.bytes.length < headerBytes
  · refine ⟨"序列化字节不足以容纳固定头部", ?_⟩
    simp only [deserialize, if_pos hlen]
    rfl
  · have hread : ∀ width offset, offset + width ≤ 52 →
        readLE width x.bytes offset = .ok (numAt width x.bytes offset) := fun w o ho =>
      readLE_eq (ho.trans (Nat.le_of_not_lt hlen))
    by_cases htotal : numAt 8 x.bytes 0 = x.bytes.length
    · by_cases hmagic : numAt 4 x.bytes 8 = magicNumber
      · have hversion : UInt16.ofNat (numAt 2 x.bytes 12) ≠ blockSchemaVersion := fun hv =>
          h ⟨Nat.le_of_not_lt hlen, htotal, hmagic, hv⟩
        refine ⟨"不支持的 schema 版本", ?_⟩
        simp only [deserialize, if_neg hlen, hread 8 0 (by omega), hread 4 (0 + 8) (by omega),
          hread 2 (0 + 8 + 4) (by omega), bind, Except.bind, htotal, hmagic, hversion, ne_eq,
          not_true_eq_false, not_false_eq_true, if_false, if_true]
        rfl
      · refine ⟨"魔数不匹配（非本格式或已损坏）", ?_⟩
        simp only [deserialize, if_neg hlen, hread 8 0 (by omega), hread 4 (0 + 8) (by omega),
          bind, Except.bind, htotal, hmagic, ne_eq, not_true_eq_false, not_false_eq_true,
          if_false, if_true]
        rfl
    · refine ⟨"长度前缀与实际字节数不一致", ?_⟩
      simp only [deserialize, if_neg hlen, hread 8 0 (by omega), bind, Except.bind, htotal, ne_eq,
        not_false_eq_true, if_true]
      rfl

/-- After the header checks, the result depends on the payload lengths alone. -/
theorem deserialize_of_headerOk {x : SerializedBlock} (h : HeaderOk x.bytes) :
    deserialize x =
      if sizeT (headerBytes + kLenField x.bytes + vLenField x.bytes) ≠ x.bytes.length then
        .ok (invalid "K/V 负载长度与总长不一致")
      else do
        let mid := sizeT (headerBytes + kLenField x.bytes)
        let kPayload ← assignRange x.bytes headerBytes mid
        let vPayload ← assignRange x.bytes mid (sizeT (mid + vLenField x.bytes))
        return .ok (blockAt x.bytes kPayload vPayload) := by
  obtain ⟨hlen, htotal, hmagic, hversion⟩ := h
  have hread : ∀ width offset, offset + width ≤ 52 →
      readLE width x.bytes offset = .ok (numAt width x.bytes offset) := fun w o ho =>
    readLE_eq (ho.trans hlen)
  simp only [deserialize, if_neg (Nat.not_lt.mpr hlen), hread 8 0 (by omega),
    hread 4 (0 + 8) (by omega), hread 2 (0 + 8 + 4) (by omega), hread 2 (0 + 8 + 4 + 2) (by omega),
    hread 8 (0 + 8 + 4 + 2 + 2) (by omega), hread 4 (0 + 8 + 4 + 2 + 2 + 8) (by omega),
    hread 4 (0 + 8 + 4 + 2 + 2 + 8 + 4) (by omega),
    hread 2 (0 + 8 + 4 + 2 + 2 + 8 + 4 + 4) (by omega),
    hread 2 (0 + 8 + 4 + 2 + 2 + 8 + 4 + 4 + 2) (by omega),
    hread 8 (0 + 8 + 4 + 2 + 2 + 8 + 4 + 4 + 2 + 2) (by omega),
    hread 8 (0 + 8 + 4 + 2 + 2 + 8 + 4 + 4 + 2 + 2 + 8) (by omega), bind, Except.bind,
    htotal, hmagic, hversion, ne_eq, not_true_eq_false, if_false, blockAt]
  rfl

/-! ## Payload lengths that wrap around -/

/-- The header is accepted, and the two payload lengths pass the check on the total
length although their sum is `2 ^ 64` or more. -/
def LengthsWrap (bytes : List UInt8) : Prop :=
  HeaderOk bytes ∧ sizeT (headerBytes + kLenField bytes + vLenField bytes) = bytes.length ∧
    2 ^ 64 ≤ headerBytes + kLenField bytes + vLenField bytes

/-- The deserializer reads nothing outside the input, and either reports an invalid
argument or returns a block whose payloads are the ranges `[52, 52 + k_len)` and
`[52 + k_len, 52 + k_len + v_len)`, which end with the input. -/
def DeserializesSafely (x : SerializedBlock) : Prop :=
  ∃ r, deserialize x = .ok r ∧
    ((∃ status, r = .error status ∧ status.code = .invalidArgument) ∨
      ∃ block, r = .ok block ∧
        headerBytes + kLenField x.bytes + vLenField x.bytes = x.bytes.length ∧
        block.kPayload = (x.bytes.drop headerBytes).take (kLenField x.bytes) ∧
        block.vPayload =
          (x.bytes.drop (headerBytes + kLenField x.bytes)).take (vLenField x.bytes))

theorem sizeT_of_lt {n : Nat} (h : n < 2 ^ 64) : sizeT n = n := Nat.mod_eq_of_lt h

theorem kLenField_lt {bytes : List UInt8} : kLenField bytes < 2 ^ 64 := numAt_lt

theorem vLenField_lt {bytes : List UInt8} : vLenField bytes < 2 ^ 64 := numAt_lt

theorem HeaderOk.length_lt {bytes : List UInt8} (h : HeaderOk bytes) : bytes.length < 2 ^ 64 :=
  h.2.1 ▸ numAt_lt

theorem invalid_safe {x : SerializedBlock} {reason : String}
    (h : deserialize x = .ok (invalid reason)) : DeserializesSafely x :=
  ⟨_, h, .inl ⟨_, rfl, rfl⟩⟩

/-- Lengths that add up to the length of the input are read as they stand. -/
theorem deserialize_of_lengths {x : SerializedBlock} (h : HeaderOk x.bytes)
    (hsum : headerBytes + kLenField x.bytes + vLenField x.bytes = x.bytes.length) :
    deserialize x = .ok (.ok (blockAt x.bytes
      ((x.bytes.drop headerBytes).take (kLenField x.bytes))
      ((x.bytes.drop (headerBytes + kLenField x.bytes)).take (vLenField x.bytes)))) := by
  have hlen := h.length_lt
  have hmid : sizeT (headerBytes + kLenField x.bytes) = headerBytes + kLenField x.bytes :=
    sizeT_of_lt (by omega)
  have hend : sizeT (headerBytes + kLenField x.bytes + vLenField x.bytes) = x.bytes.length := by
    rw [hsum, sizeT_of_lt hlen]
  have hk : assignRange x.bytes headerBytes (headerBytes + kLenField x.bytes) =
      .ok ((x.bytes.drop headerBytes).take (kLenField x.bytes)) := by
    rw [assignRange_eq (Nat.le_add_right _ _) (by omega), Nat.add_sub_cancel_left]
  have hv : assignRange x.bytes (headerBytes + kLenField x.bytes) x.bytes.length =
      .ok ((x.bytes.drop (headerBytes + kLenField x.bytes)).take (vLenField x.bytes)) := by
    rw [assignRange_eq (by omega) le_rfl, ← hsum, Nat.add_sub_cancel_left]
  rw [deserialize_of_headerOk h, hend, if_neg (not_not.mpr rfl)]
  simp only [hmid, hend, hk, hv]
  rfl

/-- Wrapping lengths send the K payload past the end of the input, or to an end before
its start. -/
theorem deserialize_of_lengthsWrap {x : SerializedBlock} (h : LengthsWrap x.bytes) :
    deserialize x = .error .outOfRange := by
  obtain ⟨hheader, hsum, hwrap⟩ := h
  have hlen := hheader.length_lt
  have hv : vLenField x.bytes < 2 ^ 64 := vLenField_lt
  have hrange : assignRange x.bytes headerBytes (sizeT (headerBytes + kLenField x.bytes)) =
      .error .outOfRange := by
    refine if_neg fun ⟨hle, hend⟩ => ?_
    have hk : kLenField x.bytes < 2 ^ 64 := kLenField_lt
    unfold sizeT headerBytes at *
    omega
  rw [deserialize_of_headerOk hheader, hsum, if_neg (not_not.mpr rfl)]
  simp only [hrange]
  rfl

theorem deserialize_safe_iff (x : SerializedBlock) :
    DeserializesSafely x ↔ ¬ LengthsWrap x.bytes := by
  constructor
  · rintro ⟨r, hr, -⟩ hwrap
    rw [deserialize_of_lengthsWrap hwrap] at hr
    cases hr
  · intro hno
    by_cases hheader : HeaderOk x.bytes
    · by_cases hsum : sizeT (headerBytes + kLenField x.bytes + vLenField x.bytes) = x.bytes.length
      · have hlt : headerBytes + kLenField x.bytes + vLenField x.bytes < 2 ^ 64 :=
          Nat.lt_of_not_le fun hle => hno ⟨hheader, hsum, hle⟩
        rw [sizeT_of_lt hlt] at hsum
        exact ⟨_, deserialize_of_lengths hheader hsum, .inr ⟨_, rfl, hsum, rfl, rfl⟩⟩
      · have hr : deserialize x = .ok (invalid "K/V 负载长度与总长不一致") := by
          rw [deserialize_of_headerOk hheader, if_pos hsum]
        exact invalid_safe hr
    · obtain ⟨reason, hr⟩ := deserialize_of_not_headerOk hheader
      exact invalid_safe hr

/-- A bare header that announces `2 ^ 64 - 1` bytes of K and one byte of V. -/
def wrappingHeader : SerializedBlock :=
  ⟨encodeLE 8 52 ++ encodeLE 4 magicNumber ++ encodeLE 2 1 ++ encodeLE 2 0 ++ encodeLE 8 0 ++
    encodeLE 4 0 ++ encodeLE 4 0 ++ encodeLE 2 0 ++ encodeLE 2 0 ++
    encodeLE 8 (2 ^ 64 - 1) ++ encodeLE 8 1⟩

theorem wrappingHeader_unsafe : ¬ DeserializesSafely wrappingHeader := by
  rintro ⟨r, hr, -⟩
  have hfault : deserialize wrappingHeader = .error .outOfRange := by decide
  rw [hfault] at hr
  cases hr

end TieredKVCache.DataPath
