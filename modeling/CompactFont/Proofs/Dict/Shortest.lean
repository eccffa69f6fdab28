import CompactFont.Proofs.Dict.Token

/-!
How few bytes can spell an integer in DICT data. Each form of an integer operand covers a range of
values, and longer forms cover wider ranges. The encoding that is written has the first form that
covers the value, so no bytes that are read as the same integer are fewer.
-/

set_option autoImplicit false

namespace CompactFont

open Reader

namespace Dict

/-- The lengths of integer operands, with the values that operands of that length can have. -/
inductive IntegerForm (value : Int) : (length : Nat) → Prop where
  | one : -107 ≤ value → value ≤ 107 → IntegerForm value 1
  | positive : 108 ≤ value → value ≤ 1131 → IntegerForm value 2
  | negative : -1131 ≤ value → value ≤ -108 → IntegerForm value 2
  | three : -0x8000 ≤ value → value < 0x8000 → IntegerForm value 3
  | five : Number.Fits value → IntegerForm value 5

/-! ### What is read has a form -/

theorem stop_of_run_signedWord {width : Nat} {value : Int} {source : Source} {pos stop : Nat}
    (read : (signedWord width).run source pos = .ok value stop) :
    stop = pos + width ∧ -(256 ^ width : Nat) ≤ value * 2 ∧ value * 2 < (256 ^ width : Nat) := by
  obtain ⟨digits, middle, word, last⟩ := run_bind_eq_ok.1 read
  obtain ⟨rfl, rfl⟩ := run_pure_eq_ok.1 last
  exact ⟨stop_of_run_word word, BigEndian.signed_bounds width digits⟩

theorem form_of_run_readShort {lead : UInt8} {value : Int} {source : Source} {pos stop : Nat}
    (low : 32 ≤ lead.toNat) (high : lead.toNat ≤ 254)
    (read : (Number.readShort lead).run source (pos + 1) = .ok value stop) :
    ∃ length, IntegerForm value length ∧ stop = pos + length := by
  unfold Number.readShort at read
  split at read
  · next small =>
    simp only [UInt8.le_iff_toNat_le, UInt8.reduceToNat] at small
    obtain ⟨rfl, rfl⟩ := run_pure_eq_ok.1 read
    exact ⟨1, .one (by omega) (by omega), rfl⟩
  · next large =>
    simp only [UInt8.le_iff_toNat_le, UInt8.reduceToNat] at large
    obtain ⟨digit, middle, first, rest⟩ := run_bind_eq_ok.1 read
    obtain ⟨_, rfl⟩ := run_u8_eq_ok.1 first
    have small := digit.toNat_lt
    split at rest
    · next plus =>
      simp only [UInt8.le_iff_toNat_le, UInt8.reduceToNat] at plus
      obtain ⟨rfl, rfl⟩ := run_pure_eq_ok.1 rest
      exact ⟨2, .positive (by omega) (by omega), rfl⟩
    · next minus =>
      simp only [UInt8.le_iff_toNat_le, UInt8.reduceToNat] at minus
      obtain ⟨rfl, rfl⟩ := run_pure_eq_ok.1 rest
      exact ⟨2, .negative (by omega) (by omega), rfl⟩

theorem form_of_run {source : Source} {pos stop : Nat} {value : Int}
    (read : readToken.run source pos = .ok (.operand (.integer value)) stop) :
    ∃ length, IntegerForm value length ∧ stop = pos + length := by
  unfold readToken at read
  obtain ⟨lead, middle, first, rest⟩ := run_bind_eq_ok.1 read
  obtain ⟨_, rfl⟩ := run_u8_eq_ok.1 first
  split at rest
  · obtain ⟨_, _, _, last⟩ := run_bind_eq_ok.1 rest
    cases last
  split at rest
  · cases rest
  next operand =>
  split at rest
  · obtain ⟨number, last, word, same⟩ := run_bind_eq_ok.1 rest
    cases same
    obtain ⟨ends, low, high⟩ := stop_of_run_signedWord word
    simp only [Nat.reducePow] at low high
    exact ⟨3, .three (by omega) (by omega), by omega⟩
  next notTwo =>
  split at rest
  · obtain ⟨number, last, word, same⟩ := run_bind_eq_ok.1 rest
    cases same
    obtain ⟨ends, low, high⟩ := stop_of_run_signedWord word
    simp only [Nat.reducePow] at low high
    exact ⟨5, .five ⟨by omega, by omega⟩, by omega⟩
  next notFour =>
  split at rest
  · obtain ⟨room, _, _, real⟩ := run_bind_eq_ok.1 rest
    obtain ⟨_, _, _, last⟩ := run_bind_eq_ok.1 real
    cases last
  next notReal =>
  split at rest
  · next short =>
    obtain ⟨number, last, read, same⟩ := run_bind_eq_ok.1 rest
    cases same
    have low : 32 ≤ lead.toNat := by
      simp only [not_or, UInt8.le_iff_toNat_le, ← UInt8.toNat_inj, Number.leadOfTwo,
        Number.leadOfFour, UInt8.reduceToNat] at operand notTwo notFour notReal
      omega
    have high : lead.toNat ≤ 254 := UInt8.le_iff_toNat_le.1 short
    exact form_of_run_readShort low high read
  · cases rest

/-! ### What is written has the shortest form -/

theorem length_encodeShortest (value : Int) :
    (Number.encodeShortest value).length =
      if -107 ≤ value ∧ value ≤ 107 then 1
      else if 108 ≤ value ∧ value ≤ 1131 then 2
      else if -1131 ≤ value ∧ value ≤ -108 then 2
      else if -0x8000 ≤ value ∧ value < 0x8000 then 3
      else 5 := by
  simp only [Number.encodeShortest, apply_ite List.length, List.length_cons, List.length_nil,
    BigEndian.length_encode, BigEndian.length_encodeSigned, Number.length_encodeFixed,
    Number.fixedLength, Nat.reduceAdd]

theorem IntegerForm.length_encodeShortest_le {value : Int} {length : Nat}
    (form : IntegerForm value length) : (Number.encodeShortest value).length ≤ length := by
  rw [length_encodeShortest]
  cases form with
  | one low high => exact Nat.le_of_eq (if_pos ⟨low, high⟩)
  | positive low high =>
    rw [if_neg (by omega)]
    exact Nat.le_of_eq (if_pos ⟨low, high⟩)
  | negative low high =>
    rw [if_neg (by omega), if_neg (by omega)]
    exact Nat.le_of_eq (if_pos ⟨low, high⟩)
  | three low high =>
    -- a shorter form may cover the value as well
    split_ifs <;> omega
  | five => split_ifs <;> omega

/-- The shortest encoding of an integer of 32 bits is read back as the integer, wherever it stands,
without consuming what follows it. All bytes that are read as this integer are at least as many. -/
theorem encodeShortest_least {value : Int} (fits : Number.Fits value) :
    (∀ pos, readToken.Spelled pos (Number.encodeShortest value) (.operand (.integer value))) ∧
      ∀ source pos stop, readToken.run source pos = .ok (.operand (.integer value)) stop →
        pos + (Number.encodeShortest value).length ≤ stop := by
  constructor
  · intro pos
    exact spelled_encodeShortest pos fits
  · intro source pos stop read
    obtain ⟨length, form, rfl⟩ := form_of_run read
    exact Nat.add_le_add_left form.length_encodeShortest_le pos

/-- The least integer of three bytes, in five of them, and a byte that does not belong to it. -/
def wideOperand : ByteArray := ⟨#[29, 255, 255, 128, 0, 18]⟩

theorem encodeShortest_least_wideOperand :
    Number.Fits (-0x8000) ∧ Number.encodeShortest (-0x8000) = [28, 128, 0] ∧
      readToken.run (.whole wideOperand) 0 = .ok (.operand (.integer (-0x8000))) 5 ∧
      0 + (Number.encodeShortest (-0x8000)).length ≤ 5 ∧
      readToken.run (.whole ⟨#[139, 28, 128, 0, 18]⟩) 1 =
        .ok (.operand (.integer (-0x8000))) 4 := by
  have fits : Number.Fits (-0x8000) := by decide
  have fixed : Holds wideOperand 0 (Number.encodeFixed (-0x8000)) := ⟨[], [18], rfl, rfl⟩
  have wide : readToken.run (.whole wideOperand) 0 = .ok (.operand (.integer (-0x8000))) 5 :=
    spelled_encodeFixed 0 fits _ fixed.whole
  have stands : Holds ⟨#[139, 28, 128, 0, 18]⟩ 1 (Number.encodeShortest (-0x8000)) :=
    ⟨[139], [18], rfl, rfl⟩
  obtain ⟨spelled, least⟩ := encodeShortest_least fits
  exact ⟨fits, by decide, wide, least _ _ _ wide, spelled 1 _ stands.whole⟩

end Dict
end CompactFont
