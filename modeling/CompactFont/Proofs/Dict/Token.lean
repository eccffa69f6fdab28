import CompactFont.Dict.Entry
import CompactFont.Proofs.Reader.Locality

/-!
Tokens of DICT data delimit themselves: each is decided by its own bytes. The written forms of
integers and operators read back as what they stand for.
-/

set_option autoImplicit false

namespace CompactFont

open Reader

namespace Number

theorem spelled_readShort_one {lead : UInt8} (pos : Nat) (small : lead.toNat ≤ 246) :
    (readShort lead).Spelled pos [] ((lead.toNat : Int) - 139) := by
  unfold readShort
  rw [if_pos (UInt8.le_iff_toNat_le.2 small)]
  exact .pure pos _

/-- An integer that two bytes spell, positive with the lesser lead bytes and negative with the
greater ones. -/
theorem spelled_readShort_two {lead : UInt8} (low : UInt8) (pos : Nat) (large : 246 < lead.toNat) :
    (readShort lead).Spelled pos [low]
      (if lead ≤ 250 then ((lead.toNat : Int) - 247) * 256 + low.toNat + 108
        else -((lead.toNat : Int) - 251) * 256 - low.toNat - 108) := by
  have wide : ¬lead ≤ 246 := by
    rw [UInt8.le_iff_toNat_le]
    exact Nat.not_le.2 large
  unfold readShort
  rw [if_neg wide]
  apply Spelled.bind (Spelled.u8 pos low)
  split
  · exact .pure _ _
  · exact .pure _ _

theorem local_readShort (lead : UInt8) : Local (readShort lead) :=
  .ite (.pure _) (.bind .u8 fun _ => .ite (.pure _) (.pure _))

end Number

namespace Dict

/-! ### Real numbers -/

theorem local_passReal (room : Nat) : Local (passReal room) := by
  induction room with
  | zero => exact .fail _
  | succ room induction => exact .bind .u8 fun _ => .ite (.pure _) induction

/-- A real number takes at most one step for each of its bytes. -/
theorem run_passReal {room enough : Nat} {source : Source} {pos stop : Nat}
    (read : (passReal room).run source pos = .ok () stop) (sufficient : stop - pos ≤ enough) :
    pos < stop ∧ (passReal enough).run source pos = .ok () stop := by
  induction room generalizing pos enough with
  | zero => cases read
  | succ room induction =>
    unfold passReal at read
    obtain ⟨byte, middle, first, rest⟩ := run_bind_eq_ok.1 read
    obtain ⟨_, rfl⟩ := run_u8_eq_ok.1 first
    have step : enough ≠ 0 → ∃ fewer, enough = fewer + 1 := Nat.exists_eq_succ_of_ne_zero
    split at rest
    · next last =>
      cases rest
      obtain ⟨fewer, rfl⟩ := step (by omega)
      refine ⟨Nat.lt_succ_self pos, ?_⟩
      unfold passReal
      rw [run_bind, first]
      simp only [last, ↓reduceIte]
      rfl
    · next more =>
      have further := (induction rest (Nat.le_refl (stop - (pos + 1)))).1
      obtain ⟨fewer, rfl⟩ := step (by omega)
      refine ⟨by omega, ?_⟩
      unfold passReal
      rw [run_bind, first]
      simp only [more]
      exact (induction rest (by omega)).2

/-! ### Tokens -/

theorem local_readToken : Local readToken := by
  have real : Local (do passReal (← Reader.remaining); return .operand .real : Reader Token) := by
    have whole : Local (Reader.remaining >>= passReal) :=
      .of_remaining local_passReal fun _ _ _ _ _ _ read sufficient => (run_passReal read sufficient).2
    exact whole.bind fun _ => .pure _
  unfold readToken
  apply Local.bind .u8
  intro lead
  apply Local.ite (Local.bind .u8 fun _ => .pure _)
  apply Local.ite (.pure _)
  apply Local.ite (Local.bind (.signedWord 2) fun _ => .pure _)
  apply Local.ite (Local.bind (.signedWord 4) fun _ => .pure _)
  apply Local.ite real
  apply Local.ite (Local.bind (Number.local_readShort lead) fun _ => .pure _)
  intro source pos value stop inside read
  cases read

theorem spelled_readToken_escaped (pos : Nat) (byte : UInt8) :
    readToken.Spelled pos [Operator.escape, byte] (.operator (.ofEscaped byte)) := by
  unfold readToken
  apply Spelled.bind_u8
  rw [if_pos rfl]
  exact (Spelled.u8 _ byte).map _

theorem spelled_readToken_operator (pos : Nat) {byte : UInt8} (small : byte ≤ 27 ∨ byte = 31)
    (plain : byte ≠ Operator.escape) : readToken.Spelled pos [byte] (.operator (.ofByte byte)) := by
  unfold readToken
  apply Spelled.bind_u8
  rw [if_neg plain, if_pos small]
  exact .pure _ _

theorem spelled_readToken_short {pos : Nat} {lead : UInt8} {rest : List UInt8} {value : Int}
    (low : 32 ≤ lead.toNat) (high : lead.toNat ≤ 254)
    (short : (Number.readShort lead).Spelled (pos + 1) rest value) :
    readToken.Spelled pos (lead :: rest) (.operand (.integer value)) := by
  have differs : ∀ byte : UInt8, byte.toNat < 32 → lead ≠ byte := by
    intro byte small same
    rw [same] at low
    omega
  unfold readToken
  apply Spelled.bind_u8
  rw [if_neg (differs _ (by decide)), if_neg, if_neg (differs _ (by decide)),
    if_neg (differs _ (by decide)), if_neg (differs _ (by decide)), if_pos]
  · exact short.map _
  · rw [UInt8.le_iff_toNat_le]
    exact high
  · rintro (small | same)
    · rw [UInt8.le_iff_toNat_le] at small
      have bound : (27 : UInt8).toNat = 27 := rfl
      omega
    · exact differs _ (by decide) same

/-! ### Written integers -/

theorem spelled_encodeFixed (pos : Nat) {value : Int} (fits : Number.Fits value) :
    readToken.Spelled pos (Number.encodeFixed value) (.operand (.integer value)) := by
  have same : BigEndian.signed 4 (BigEndian.decode (BigEndian.encodeSigned 4 value)) = value := by
    obtain ⟨low, high⟩ := fits
    apply BigEndian.signed_decode_encodeSigned <;> simp only [Nat.reducePow] <;> omega
  have number := Spelled.signedWord (pos + 1) (BigEndian.length_encodeSigned 4 value)
  rw [same] at number
  unfold readToken
  apply Spelled.bind_u8
  rw [if_neg (by decide), if_neg (by decide), if_neg (by decide), if_pos rfl]
  exact number.map _

theorem spelled_encodeTwo (pos : Nat) {value : Int} (low : -0x8000 ≤ value) (high : value < 0x8000) :
    readToken.Spelled pos (Number.leadOfTwo :: BigEndian.encodeSigned 2 value)
      (.operand (.integer value)) := by
  have same : BigEndian.signed 2 (BigEndian.decode (BigEndian.encodeSigned 2 value)) = value := by
    apply BigEndian.signed_decode_encodeSigned <;> simp only [Nat.reducePow] <;> omega
  have number := Spelled.signedWord (pos + 1) (BigEndian.length_encodeSigned 2 value)
  rw [same] at number
  unfold readToken
  apply Spelled.bind_u8
  rw [if_neg (by decide), if_neg (by decide), if_pos rfl]
  exact number.map _

/-- Two bytes that spell `code`, of which the first one selects the sign. -/
private theorem spelled_pair (pos : Nat) {code : Nat} {value : Int} (low : 247 * 256 ≤ code)
    (high : code < 255 * 256)
    (same : value = if code < 251 * 256 then (code : Int) - 247 * 256 + 108
      else -((code : Int) - 251 * 256) - 108) :
    readToken.Spelled pos (BigEndian.encode 2 code) (.operand (.integer value)) := by
  have lead : (UInt8.ofNat (code / 256)).toNat = code / 256 := by
    rw [UInt8.toNat_ofNat']
    omega
  have digits : BigEndian.encode 2 code = [UInt8.ofNat (code / 256), UInt8.ofNat code] := by
    rw [BigEndian.encode_succ 1, BigEndian.encode_succ 0, Nat.pow_one, Nat.pow_zero, Nat.div_one]
    rfl
  have large : 246 < (UInt8.ofNat (code / 256)).toNat := by omega
  have short := Number.spelled_readShort_two (UInt8.ofNat code) (pos + 1) large
  rw [digits]
  apply spelled_readToken_short (by omega) (by omega)
  convert short using 1
  have sign : UInt8.ofNat (code / 256) ≤ 250 ↔ code < 251 * 256 := by
    rw [UInt8.le_iff_toNat_le, lead]
    have bound : (250 : UInt8).toNat = 250 := rfl
    omega
  have tail : (UInt8.ofNat code).toNat = code % 256 := UInt8.toNat_ofNat'
  rw [same]
  simp only [sign, lead, tail]
  split <;> omega

theorem spelled_encodeShortest (pos : Nat) {value : Int} (fits : Number.Fits value) :
    readToken.Spelled pos (Number.encodeShortest value) (.operand (.integer value)) := by
  unfold Number.encodeShortest
  split
  · next small =>
    have lead : (UInt8.ofNat (value + 139).toNat).toNat = (value + 139).toNat := by
      rw [UInt8.toNat_ofNat']
      omega
    have bound : (UInt8.ofNat (value + 139).toNat).toNat ≤ 246 := by omega
    have short := Number.spelled_readShort_one (pos + 1) bound
    apply spelled_readToken_short (by omega) (by omega)
    convert short using 1
    omega
  split
  · next positive =>
    apply spelled_pair pos (by omega) (by omega)
    rw [if_pos (by omega)]
    omega
  split
  · next negative =>
    apply spelled_pair pos (by omega) (by omega)
    rw [if_neg (by omega)]
    omega
  split
  · next two => exact spelled_encodeTwo pos two.1 two.2
  · exact spelled_encodeFixed pos fits

end Dict
end CompactFont
