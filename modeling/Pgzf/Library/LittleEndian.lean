import Mathlib.Tactic.Ring
import Mathlib.Data.List.Basic

/-!
# Little-endian integers in a byte list

A number is written as a fixed count of bytes, least significant first, and read back by the
base-256 fold. The only facts the formats above need are the length of what is written, the round
trip modulo `256 ^ n`, and that reading looks at no byte past its count.
-/

namespace LittleEndian

/-- The number whose little-endian bytes are given. -/
def decode : List UInt8 → Nat
  | [] => 0
  | byte :: rest => byte.toNat + 256 * decode rest

/-- The `n` low bytes of a number, least significant first. -/
def encode : Nat → Nat → List UInt8
  | 0, _ => []
  | n + 1, value => UInt8.ofNat value :: encode n (value / 256)

@[simp] theorem length_encode (n value : Nat) : (encode n value).length = n := by
  induction n generalizing value with
  | zero => rfl
  | succ n ih => rw [encode, List.length_cons, ih]

theorem decode_encode (n value : Nat) : decode (encode n value) = value % 256 ^ n := by
  induction n generalizing value with
  | zero => rw [encode, decode, pow_zero, Nat.mod_one]
  | succ n ih =>
    have hlow : (UInt8.ofNat value).toNat = value % 256 := UInt8.toNat_ofNat'
    rw [encode, decode, ih, hlow, pow_succ', Nat.mod_mul]

theorem decode_encode_of_lt {n value : Nat} (h : value < 256 ^ n) :
    decode (encode n value) = value := by
  rw [decode_encode, Nat.mod_eq_of_lt h]

theorem encode_decode (bytes : List UInt8) : encode bytes.length (decode bytes) = bytes := by
  induction bytes with
  | nil => rfl
  | cons byte rest ih =>
    have hbyte := byte.toNat_lt
    have hlow : UInt8.ofNat (byte.toNat + 256 * decode rest) = byte := by
      apply UInt8.toNat_inj.mp
      rw [UInt8.toNat_ofNat', Nat.add_mul_mod_self_left, Nat.mod_eq_of_lt hbyte]
    have hhigh : (byte.toNat + 256 * decode rest) / 256 = decode rest := by omega
    rw [List.length_cons, decode, encode, hlow, hhigh, ih]

theorem encode_succ_mod (n m value : Nat) :
    encode (n + 1) (value % 256 ^ (m + 1)) = UInt8.ofNat value ::
      encode n (value / 256 % 256 ^ m) := by
  have hlow : UInt8.ofNat (value % 256 ^ (m + 1)) = UInt8.ofNat value := by
    apply UInt8.toNat_inj.mp
    rw [UInt8.toNat_ofNat', UInt8.toNat_ofNat', pow_succ', Nat.mod_mul_right_mod]
  rw [encode, hlow, pow_succ', Nat.mod_mul_right_div_self]

theorem encode_mod (n value : Nat) : encode n (value % 256 ^ n) = encode n value := by
  induction n generalizing value with
  | zero => rfl
  | succ n ih => rw [encode_succ_mod, ih, encode]

end LittleEndian
