import CompactFont.Index
import CompactFont.Proofs.Reader.Locality

/-!
The offsets of an INDEX as they are written: each takes the same number of bytes, and the bytes of
offsets in a row determine the offsets.
-/

set_option autoImplicit false

namespace CompactFont

open Reader

namespace Reader

theorem spelled_offsetDigits (content : List UInt8) (pos value : Nat) :
    (offsetDigits content.length value).Spelled pos content
      (content.foldl (fun value byte => (value * 256 + byte.toNat) % positionBound) value) := by
  induction content generalizing pos value with
  | nil => exact .pure pos value
  | cons byte content induction => exact (Spelled.u8 pos byte).bind (induction _ _)

private theorem foldl_mod_eq (content : List UInt8) (value : Nat)
    (fits : value * 256 ^ content.length + BigEndian.decode content < positionBound) :
    content.foldl (fun value byte => (value * 256 + byte.toNat) % positionBound) value =
      value * 256 ^ content.length + BigEndian.decode content := by
  induction content generalizing value with
  | nil => simp [BigEndian.decode]
  | cons byte content induction =>
    have split : (value * 256 + byte.toNat) * 256 ^ content.length + BigEndian.decode content =
        value * 256 ^ (byte :: content).length + BigEndian.decode (byte :: content) := by
      rw [BigEndian.decode_cons, List.length_cons, Nat.pow_succ, Nat.add_mul,
        Nat.mul_assoc value 256, Nat.mul_comm 256, Nat.add_assoc]
    have positive : 0 < 256 ^ content.length := Nat.pow_pos (by decide)
    have small : value * 256 + byte.toNat < positionBound := by
      have grows := Nat.le_mul_of_pos_right (value * 256 + byte.toNat) positive
      omega
    rw [List.foldl_cons, Nat.mod_eq_of_lt small, induction _ (by rwa [split]), split]

theorem spelled_offset {width : Nat} {content : List UInt8} (pos : Nat)
    (length : content.length = width) (narrow : width ≤ 8) :
    (offset width).Spelled pos content (BigEndian.decode content) := by
  subst length
  have bound : BigEndian.decode content < positionBound :=
    Nat.lt_of_lt_of_le (BigEndian.decode_lt content)
      (Nat.le_trans (Nat.pow_le_pow_right (by decide) narrow) (by decide))
  have value := foldl_mod_eq content 0 (by simpa using bound)
  have spelled := spelled_offsetDigits content pos 0
  rw [value, Nat.zero_mul, Nat.zero_add] at spelled
  exact spelled

theorem run_word_eq_ok {width value : Nat} {source : Source} {pos stop : Nat}
    (inside : pos ≤ source.stop) :
    (word width).run source pos = .ok value stop ↔
      value < 256 ^ width ∧ source.Holds pos (BigEndian.encode width value) ∧ stop = pos + width := by
  constructor
  · intro read
    rw [run_word] at read
    split at read
    · cases read
    · next enough =>
      have room : pos + width ≤ source.stop := by omega
      obtain ⟨content, holds, length⟩ := Source.Holds.exists_of_le room
      have slice := holds.1.slice_eq
      rw [length, listed] at slice
      rw [slice, EStateM.Result.ok.injEq] at read
      obtain ⟨rfl, rfl⟩ := read
      subst length
      rw [BigEndian.encode_decode]
      exact ⟨BigEndian.decode_lt content, holds, rfl⟩
  · rintro ⟨fits, holds, ends⟩
    have read := Spelled.word pos (BigEndian.length_encode width value) source holds
    rw [read, BigEndian.decode_encode_of_lt fits, BigEndian.length_encode, ends]

theorem le_stop_of_run_offsetDigits {count value found : Nat} {source : Source} {pos stop : Nat}
    (inside : pos ≤ source.stop) (read : (offsetDigits count value).run source pos = .ok found stop) :
    pos + count ≤ source.stop := by
  induction count generalizing value pos with
  | zero => exact inside
  | succ count induction =>
    obtain ⟨byte, middle, first, rest⟩ := run_bind_eq_ok.1 read
    obtain ⟨holds, rfl⟩ := run_u8_eq_ok.1 first
    have within : pos + 1 ≤ source.stop := holds.2
    have bound := induction within rest
    omega

/-- A number of up to eight bytes is read as an offset exactly where its encoding stands. -/
theorem run_offset_eq_ok {width value : Nat} {source : Source} {pos stop : Nat}
    (inside : pos ≤ source.stop) (narrow : width ≤ 8) :
    (offset width).run source pos = .ok value stop ↔
      value < 256 ^ width ∧ source.Holds pos (BigEndian.encode width value) ∧ stop = pos + width := by
  constructor
  · intro read
    obtain ⟨content, holds, length⟩ :=
      Source.Holds.exists_of_le (le_stop_of_run_offsetDigits inside read)
    rw [spelled_offset pos length narrow source holds, EStateM.Result.ok.injEq] at read
    obtain ⟨rfl, rfl⟩ := read
    subst length
    rw [BigEndian.encode_decode]
    exact ⟨BigEndian.decode_lt content, holds, rfl⟩
  · intro ⟨fits, holds, ends⟩
    have read := spelled_offset pos (BigEndian.length_encode width value) narrow source holds
    rw [read, BigEndian.decode_encode_of_lt fits, BigEndian.length_encode, ends]

theorem run_timesOnto_offset_eq_ok {width count : Nat} {found values : Array Nat} {source : Source}
    {pos stop : Nat} (inside : pos ≤ source.stop) (narrow : width ≤ 8) :
    (timesOnto (offset width) count found).run source pos = .ok values stop ↔
      ∃ offsets : List Nat, offsets.length = count ∧ values = found ++ offsets.toArray ∧
        (∀ value ∈ offsets, value < 256 ^ width) ∧
        source.Holds pos (offsets.flatMap (BigEndian.encode width)) ∧ stop = pos + count * width := by
  induction count generalizing found pos with
  | zero =>
    constructor
    · intro read
      cases read
      exact ⟨[], rfl, by simp, by simp, .nil inside, by simp⟩
    · intro ⟨offsets, length, same, _, _, ends⟩
      rw [List.length_eq_zero_iff.1 length, Array.append_empty] at same
      rw [same, ends, Nat.zero_mul, Nat.add_zero]
      rfl
  | succ count induction =>
    constructor
    · intro read
      obtain ⟨value, middle, first, rest⟩ := run_bind_eq_ok.1 read
      obtain ⟨fits, holds, rfl⟩ := (run_offset_eq_ok inside narrow).1 first
      have bound := holds.2
      rw [BigEndian.length_encode] at bound
      obtain ⟨offsets, length, rfl, others, more, rfl⟩ := (induction bound).1 rest
      refine ⟨value :: offsets, by rw [List.length_cons, length], by simp, ?_, ?_, ?_⟩
      · intro other member
        rcases List.mem_cons.1 member with rfl | member
        · exact fits
        · exact others other member
      · rw [List.flatMap_cons]
        apply holds.append
        rwa [BigEndian.length_encode]
      · rw [Nat.succ_mul]
        omega
    · intro ⟨offsets, length, same, all, holds, ends⟩
      cases offsets with
      | nil => cases length
      | cons value offsets =>
        rw [List.flatMap_cons] at holds
        have more := holds.right
        have bound := holds.left.2
        rw [BigEndian.length_encode] at more bound
        refine run_bind_eq_ok.2 ⟨value, pos + width, (run_offset_eq_ok inside narrow).2
          ⟨all value List.mem_cons_self, holds.left, rfl⟩, (induction bound).2
          ⟨offsets, Nat.succ.inj length, by simp [same],
            fun other member => all other (List.mem_cons_of_mem _ member), more, ?_⟩⟩
        rw [Nat.succ_mul] at ends
        omega

end Reader
end CompactFont
