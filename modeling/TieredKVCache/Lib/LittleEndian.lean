import Mathlib.Data.Nat.Bitwise
import Mathlib.Data.List.Basic
import Mathlib.Tactic.Ring

/-!
# Little-endian numbers

`encodeLE w n` is the `w`-byte little-endian form of `n`, and `decodeLE` reads a byte
list back. Reading inverts writing modulo `256 ^ w` (`decodeLE_encodeLE`), and writing inverts
reading (`encodeLE_decodeLE`). The two usual loops,
one that shifts and masks and one that shifts and ors, compute these functions
(`shiftMask_eq_encodeLE`, `decodeLE_concat_eq_or`).
-/

namespace TieredKVCache.Lib

/-- The `w` low bytes of `n`, least significant first. -/
def encodeLE : Nat → Nat → List UInt8
  | 0, _ => []
  | w + 1, n => UInt8.ofNat (n % 256) :: encodeLE w (n / 256)

/-- The number whose bytes are given, least significant first. -/
def decodeLE : List UInt8 → Nat
  | [] => 0
  | b :: bs => b.toNat + 256 * decodeLE bs

@[simp]
theorem length_encodeLE (w n : Nat) : (encodeLE w n).length = w := by
  induction w generalizing n with
  | zero => rfl
  | succ w ih => simp [encodeLE, ih]

theorem decodeLE_encodeLE (w n : Nat) : decodeLE (encodeLE w n) = n % 256 ^ w := by
  induction w generalizing n with
  | zero => simp [encodeLE, decodeLE, Nat.mod_one]
  | succ w ih =>
    have hbyte : (UInt8.ofNat (n % 256)).toNat = n % 256 := by
      rw [UInt8.toNat_ofNat']
      omega
    rw [encodeLE, decodeLE, ih, hbyte, Nat.pow_succ', Nat.mod_mul]

theorem encodeLE_decodeLE (bs : List UInt8) : encodeLE bs.length (decodeLE bs) = bs := by
  induction bs with
  | nil => rfl
  | cons b bs ih =>
    have hb : b.toNat < 256 := b.toNat_lt
    have hlow : (b.toNat + 256 * decodeLE bs) % 256 = b.toNat := by omega
    have hhigh : (b.toNat + 256 * decodeLE bs) / 256 = decodeLE bs := by omega
    rw [List.length_cons, decodeLE, encodeLE, hlow, hhigh, ih, UInt8.ofNat_toNat]

theorem decodeLE_lt (bs : List UInt8) : decodeLE bs < 256 ^ bs.length := by
  induction bs with
  | nil => simp [decodeLE]
  | cons b bs ih =>
    have hb : b.toNat < 256 := b.toNat_lt
    rw [decodeLE, List.length_cons, Nat.pow_succ']
    omega

/-- Writing byte by byte: shift down, mask, append. -/
theorem shiftMask_eq_encodeLE (w n : Nat) :
    (List.range w).map (fun i => UInt8.ofNat ((n >>> (8 * i)) &&& 0xFF)) = encodeLE w n := by
  induction w generalizing n with
  | zero => rfl
  | succ w ih =>
    have hhead : n &&& 0xFF = n % 256 := Nat.and_two_pow_sub_one_eq_mod n 8
    have htail : ∀ i, n >>> (8 * (i + 1)) = (n / 256) >>> (8 * i) := by
      intro i
      rw [Nat.mul_succ, Nat.add_comm, Nat.shiftRight_add, Nat.shiftRight_eq_div_pow n 8]
    rw [List.range_succ_eq_map, List.map_cons, List.map_map, encodeLE, ← ih]
    simp [Function.comp_def, htail, hhead]

theorem decodeLE_concat (bs : List UInt8) (b : UInt8) :
    decodeLE (bs ++ [b]) = decodeLE bs + b.toNat * 256 ^ bs.length := by
  induction bs with
  | nil => simp [decodeLE]
  | cons c bs ih =>
    simp only [List.cons_append, decodeLE, ih, List.length_cons, Nat.pow_succ]
    ring

/-- Reading byte by byte: shift the next byte up and or it in. -/
theorem decodeLE_concat_eq_or (bs : List UInt8) (b : UInt8) :
    decodeLE bs ||| b.toNat <<< (8 * bs.length) = decodeLE (bs ++ [b]) := by
  have hlt : decodeLE bs < 2 ^ (8 * bs.length) := by
    rw [Nat.pow_mul]
    exact decodeLE_lt bs
  rw [decodeLE_concat, Nat.or_comm, ← Nat.shiftLeft_add_eq_or_of_lt hlt, Nat.shiftLeft_eq,
    Nat.pow_mul, Nat.add_comm]

end TieredKVCache.Lib
