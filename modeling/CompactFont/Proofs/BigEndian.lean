import CompactFont.Bytes
import Mathlib.Algebra.Ring.Nat

/-!
Big-endian integers in terms of powers: `width` bytes hold the numbers below `256 ^ width`, and
every sequence of that many bytes is the encoding of one of them.
-/

set_option autoImplicit false

namespace CompactFont

theorem totalLength_eq_sum (lengths : List Nat) : totalLength lengths = lengths.sum :=
  List.sum_eq_foldl.symm

namespace BigEndian

theorem valueCount_eq (width : Nat) : valueCount width = 256 ^ width := by
  rw [valueCount, Nat.one_shiftLeft, Nat.pow_mul]

theorem encode_succ (width value : Nat) :
    encode (width + 1) value = UInt8.ofNat (value / 256 ^ width) :: encode width value := by
  rw [encode, Nat.shiftRight_eq_div_pow, Nat.pow_mul]

private theorem foldl_encode (width value start : Nat) :
    (encode width value).foldl (fun total byte => total * 256 + byte.toNat) start =
      start * 256 ^ width + value % 256 ^ width := by
  induction width generalizing start with
  | zero => simp only [encode, List.foldl_nil, Nat.pow_zero, Nat.mul_one, Nat.mod_one, Nat.add_zero]
  | succ width induction =>
    have split : value % 256 ^ (width + 1) =
        value % 256 ^ width + 256 ^ width * (value / 256 ^ width % 256) := by
      rw [Nat.pow_succ, Nat.mod_mul]
    simp only [encode_succ, List.foldl_cons, induction, UInt8.toNat_ofNat', Nat.reducePow]
    rw [split, Nat.pow_succ, Nat.add_mul, Nat.mul_assoc, Nat.mul_comm 256 (256 ^ width),
      Nat.mul_comm (value / 256 ^ width % 256)]
    omega

theorem decode_encode (width value : Nat) :
    decode (encode width value) = value % 256 ^ width := by
  simp only [decode, foldl_encode, Nat.zero_mul, Nat.zero_add]

theorem decode_encode_of_lt {width value : Nat} (fits : value < 256 ^ width) :
    decode (encode width value) = value := by
  rw [decode_encode, Nat.mod_eq_of_lt fits]

theorem foldl_digits (content : List UInt8) (value : Nat) :
    content.foldl (fun value byte => value * 256 + byte.toNat) value =
      value * 256 ^ content.length + decode content := by
  induction content generalizing value with
  | nil => simp [decode]
  | cons byte content induction =>
    have tail := induction byte.toNat
    simp only [decode, List.foldl_cons, Nat.zero_mul, Nat.zero_add] at tail induction ⊢
    rw [tail, induction, List.length_cons, Nat.pow_succ, Nat.add_mul, Nat.mul_assoc value,
      Nat.mul_comm 256, Nat.add_assoc]

theorem decode_cons (byte : UInt8) (content : List UInt8) :
    decode (byte :: content) = byte.toNat * 256 ^ content.length + decode content := by
  rw [decode, List.foldl_cons, Nat.zero_mul, Nat.zero_add, foldl_digits]

theorem decode_lt (content : List UInt8) : decode content < 256 ^ content.length := by
  induction content with
  | nil => simp [decode]
  | cons byte content induction =>
    have digit : byte.toNat + 1 ≤ 256 := byte.toNat_lt
    have room := Nat.mul_le_mul_right (256 ^ content.length) digit
    rw [decode_cons, List.length_cons, Nat.pow_succ, Nat.mul_comm (256 ^ content.length)]
    rw [Nat.add_mul] at room
    omega

theorem encode_one (byte : UInt8) : encode 1 byte.toNat = [byte] := by
  simp [encode]

theorem encode_decode (content : List UInt8) : encode content.length (decode content) = content := by
  have low : ∀ (content : List UInt8) (value : Nat),
      encode content.length (value * 256 ^ content.length + decode content) = content := by
    intro content
    induction content with
    | nil => intro value; rfl
    | cons byte content induction =>
      intro value
      have positive : 0 < 256 ^ content.length := Nat.pow_pos (by decide)
      have split : value * 256 ^ (content.length + 1) + decode (byte :: content) =
          (value * 256 + byte.toNat) * 256 ^ content.length + decode content := by
        rw [decode_cons, Nat.pow_succ, Nat.add_mul, ← Nat.mul_assoc, Nat.mul_assoc value 256,
          Nat.mul_comm 256, ← Nat.mul_assoc, Nat.add_assoc]
      have digit : ((value * 256 + byte.toNat) * 256 ^ content.length + decode content) /
          256 ^ content.length = value * 256 + byte.toNat := by
        rw [Nat.mul_comm, Nat.mul_add_div positive, Nat.div_eq_of_lt (decode_lt content),
          Nat.add_zero]
      rw [List.length_cons, encode_succ, split, digit, induction]
      congr 1
      apply UInt8.toNat_inj.1
      have small := byte.toNat_lt
      rw [UInt8.toNat_ofNat']
      omega
  have whole := low content 0
  rwa [Nat.zero_mul, Nat.zero_add] at whole

/-! ### Two's complement -/

theorem signed_decode_encodeSigned {width : Nat} {value : Int}
    (low : -(256 ^ width : Nat) ≤ value * 2) (high : value * 2 < (256 ^ width : Nat)) :
    signed width (decode (encodeSigned width value)) = value := by
  have positive : 0 < 256 ^ width := Nat.pow_pos (by decide)
  have small : (value % (256 ^ width : Nat)).toNat < 256 ^ width := by
    have bound := Int.emod_lt_of_pos value (Int.natCast_pos.2 positive)
    omega
  have whole : ((value % (256 ^ width : Nat)).toNat : Int) = value % (256 ^ width : Nat) :=
    Int.toNat_of_nonneg (Int.emod_nonneg value (by omega))
  rw [signed, encodeSigned, valueCount_eq, decode_encode_of_lt small, whole, Int.emod_bmod]
  exact Int.bmod_eq_of_le_mul_two low high

theorem length_encodeSigned (width : Nat) (value : Int) :
    (encodeSigned width value).length = width :=
  length_encode width _

/-- Two's complement gives integers of its width only. -/
theorem signed_bounds (width value : Nat) :
    -(256 ^ width : Nat) ≤ signed width value * 2 ∧
      signed width value * 2 < (256 ^ width : Nat) := by
  have positive : 0 < 256 ^ width := Nat.pow_pos (by decide)
  have low := Int.le_bmod (x := value) positive
  have high := Int.bmod_lt (x := value) positive
  rw [signed, valueCount_eq]
  omega

end BigEndian
end CompactFont
