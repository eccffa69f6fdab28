import CompactFont.Proofs.Index.Offsets

/-!
The form of an INDEX: its offset size and its relative offsets. An INDEX is read exactly where the
header of a valid form stands with enough bytes after it, so what is read does not depend on where
the INDEX lies.
-/

set_option autoImplicit false

namespace CompactFont.Index

open Reader

structure Form where
  width : Nat
  offsets : List Nat

namespace Form

def last (form : Form) : Nat := form.offsets.getLastD 1

def header (form : Form) : List UInt8 :=
  BigEndian.encode 2 (form.offsets.length - 1) ++
    if form.offsets.length = 1 then []
    else BigEndian.encode 1 form.width ++ form.offsets.flatMap (BigEndian.encode form.width)

/-- The number of bytes of an INDEX. Offsets count from the last byte of the header. -/
def size (form : Form) : Nat := form.header.length - 1 + form.last

def placed (form : Form) (pos : Nat) : Index :=
  ⟨pos, (form.offsets.map (pos + (form.header.length - 1) + ·)).toArray⟩

/-- The offsets fit their size, and each one is at least its predecessor. An INDEX without elements
has no offsets; it counts as having one. -/
structure Valid (form : Form) : Prop where
  narrow : 1 ≤ form.width ∧ form.width ≤ widestOffset
  count : 1 ≤ form.offsets.length ∧ form.offsets.length ≤ 0x10000
  fits : ∀ offset ∈ form.offsets, offset < 256 ^ form.width
  positive : ∀ offset ∈ form.offsets, 1 ≤ offset
  ascending : form.offsets.Pairwise (· ≤ ·)
  empty : form.offsets.length = 1 → form.offsets = [1]

end Form

theorem offsetFault?_eq_none {width pos last : Nat} {offsets : List Nat} :
    offsetFault? width pos last offsets = none ↔
      (∀ offset ∈ offsets, 1 ≤ offset) ∧ (last :: offsets).Pairwise (· ≤ ·) := by
  induction offsets generalizing pos last with
  | nil => simp [offsetFault?]
  | cons offset offsets induction =>
    unfold offsetFault?
    split
    · next zero => simp [zero]
    split
    · next descends =>
      simp only [reduceCtorEq, List.mem_cons, List.pairwise_cons, false_iff]
      intro ⟨_, smallest, _⟩
      exact absurd (smallest offset (.inl rfl)) (Nat.not_le.2 descends)
    · next positive ascends =>
      rw [induction]
      simp only [List.mem_cons, List.pairwise_cons, forall_eq_or_imp]
      constructor
      · intro ⟨each, least, rest⟩
        exact ⟨⟨by omega, each⟩, ⟨by omega, fun other member =>
          Nat.le_trans (by omega) (least other member)⟩, least, rest⟩
      · intro ⟨⟨_, each⟩, _, least, rest⟩
        exact ⟨each, least, rest⟩

theorem getD_toArray_last {offsets : List Nat} (full : offsets ≠ []) :
    offsets.toArray.getD (offsets.length - 1) 0 = offsets.getLastD 1 := by
  have positive := List.length_pos_of_ne_nil full
  rw [List.getLastD_eq_getLast?, List.getLast?_eq_getElem?]
  simp [Array.getD, show offsets.length - 1 < offsets.length by omega]

theorem one_le_getLastD {offsets : List Nat} (positive : ∀ offset ∈ offsets, 1 ≤ offset) :
    1 ≤ offsets.getLastD 1 := by
  rw [List.getLastD_eq_getLast?]
  cases last : offsets.getLast? with
  | none => exact Nat.le_refl 1
  | some offset => exact positive offset (List.mem_of_getLast? last)

/-! ### Reading -/

def Form.none : Form := ⟨1, [1]⟩

theorem Form.valid_none : Form.none.Valid where
  narrow := by decide
  count := by decide
  fits := by decide
  positive := by decide
  ascending := List.pairwise_singleton _ _
  empty _ := rfl

namespace Form

variable {form : Form}

theorem length_header_pos (form : Form) : 2 ≤ form.header.length := by
  rw [header, List.length_append, BigEndian.length_encode]
  exact Nat.le_add_right _ _

theorem header_of_elements (elements : form.offsets.length ≠ 1) :
    form.header = BigEndian.encode 2 (form.offsets.length - 1) ++
      (BigEndian.encode 1 form.width ++ form.offsets.flatMap (BigEndian.encode form.width)) := by
  unfold header
  rw [if_neg elements]

theorem length_flatMap_encode (width : Nat) (offsets : List Nat) :
    (offsets.flatMap (BigEndian.encode width)).length = offsets.length * width := by
  induction offsets with
  | nil => simp
  | cons offset offsets induction =>
    rw [List.flatMap_cons, List.length_append, BigEndian.length_encode, induction, List.length_cons,
      Nat.succ_mul, Nat.add_comm]

theorem length_header_of_elements (elements : form.offsets.length ≠ 1) :
    form.header.length = 3 + form.offsets.length * form.width := by
  rw [header_of_elements elements]
  simp only [List.length_append, BigEndian.length_encode, length_flatMap_encode]
  omega

theorem Valid.full (valid : form.Valid) : form.offsets ≠ [] :=
  List.ne_nil_of_length_pos valid.count.1

theorem size_placed (form : Form) (pos : Nat) :
    (form.placed pos).size = form.offsets.length - 1 := by
  simp [Index.size, placed]

theorem Valid.stop_placed (valid : form.Valid) (pos : Nat) :
    (form.placed pos).stop = pos + form.size := by
  have full := valid.full
  have positive := valid.count.1
  have final : form.offsets[form.offsets.length - 1]? = some form.last := by
    rw [← List.getLast?_eq_getElem?, last, List.getLastD_eq_getLast?,
      List.getLast?_eq_some_getLast full, Option.getD_some]
  rw [Index.stop, size_placed, Array.getD_eq_getD_getElem?, placed]
  simp only [List.getElem?_toArray, List.getElem?_map, final, Option.map_some, Option.getD_some,
    size]
  omega

end Form

private theorem getD_relative {offsets : List Nat} {count : Nat} (length : offsets.length = count + 1) :
    (#[] ++ offsets.toArray).getD count 0 = offsets.getLastD 1 := by
  have full : offsets ≠ [] := by
    intro none
    rw [none] at length
    cases length
  rw [← getD_toArray_last full, length, Array.empty_append, Nat.add_sub_cancel]

theorem run_readElements_eq_ok {source : Source} {pos start count width stop : Nat} {index : Index}
    (inside : pos ≤ source.stop) (narrow : 1 ≤ width ∧ width ≤ widestOffset) :
    (readElements start count width).run source pos = .ok index stop ↔
      ∃ offsets : List Nat, offsets.length = count + 1 ∧ (∀ offset ∈ offsets, offset < 256 ^ width) ∧
        (∀ offset ∈ offsets, 1 ≤ offset) ∧ offsets.Pairwise (· ≤ ·) ∧
        source.Holds pos (offsets.flatMap (BigEndian.encode width)) ∧
        stop = pos + (count + 1) * width - 1 + offsets.getLastD 1 ∧ stop ≤ source.stop ∧
        index = ⟨start, (offsets.map (pos + (count + 1) * width - 1 + ·)).toArray⟩ := by
  have small : width ≤ 8 := Nat.le_trans narrow.2 (by decide)
  have positive : 1 ≤ (count + 1) * width := Nat.mul_pos (Nat.succ_pos count) narrow.1
  unfold readElements
  simp only [Ranged.sub_eq, Ranged.element_eq, pure_bind, run_bind_eq_ok, run_position_eq_ok]
  constructor
  · intro ⟨_, _, ⟨rfl, rfl⟩, relative, middle, listed, _, _, ⟨rfl, rfl⟩, checked⟩
    obtain ⟨offsets, length, rfl, fits, holds, rfl⟩ :=
      (run_timesOnto_offset_eq_ok inside small).1 listed
    rw [getD_relative length] at checked
    split at checked
    · cases checked
    · next sound =>
      have faultless := Option.eq_none_iff_forall_ne_some.2 sound
      rw [Array.empty_append, offsetFault?_eq_none, List.pairwise_cons] at faultless
      simp only [run_bind_eq_ok, run_require_eq_ok, run_seek_eq_ok, run_pure_eq_ok] at checked
      obtain ⟨_, _, ⟨⟨_, within⟩, rfl⟩, _, _, ⟨_, rfl⟩, rfl, rfl⟩ := checked
      exact ⟨offsets, length, fits, faultless.1, faultless.2.2, holds, rfl, within, by simp⟩
  · intro ⟨offsets, length, fits, each, ascending, holds, ends, within, same⟩
    have least := one_le_getLastD each
    refine ⟨pos, pos, ⟨rfl, rfl⟩, #[] ++ offsets.toArray, pos + (count + 1) * width,
      (run_timesOnto_offset_eq_ok inside small).2 ⟨offsets, length, rfl, fits, holds, rfl⟩, _, _,
      ⟨rfl, rfl⟩, ?_⟩
    rw [getD_relative length]
    split
    · next fault broken =>
      have sound : offsetFault? width pos 1 (#[] ++ offsets.toArray).toList = none := by
        rw [Array.empty_append, offsetFault?_eq_none, List.pairwise_cons]
        exact ⟨each, each, ascending⟩
      rw [sound] at broken
      cases broken
    · simp only [run_bind_eq_ok, run_require_eq_ok, run_seek_eq_ok, run_pure_eq_ok]
      exact ⟨(), _, ⟨⟨by omega, by omega⟩, rfl⟩, (), _, ⟨by omega, rfl⟩, by simp [same], ends.symm⟩

/-- The count and, unless it is zero, the size of the offsets come first. -/
theorem run_read_eq_ok_start {source : Source} {pos stop : Nat} {index : Index}
    (inside : pos ≤ source.stop) :
    read.run source pos = .ok index stop ↔
      ∃ count, count < 0x10000 ∧ source.Holds pos (BigEndian.encode 2 count) ∧
        if count = 0 then index = ⟨pos, #[pos + 2]⟩ ∧ stop = pos + 2
        else ∃ size : UInt8, source.Holds (pos + 2) [size] ∧
          (1 ≤ size.toNat ∧ size.toNat ≤ widestOffset) ∧
          (readElements pos count size.toNat).run source (pos + 3) = .ok index stop := by
  unfold read Reader.u16
  constructor
  · intro whole
    obtain ⟨_, _, first, whole⟩ := run_bind_eq_ok.1 whole
    obtain ⟨rfl, rfl⟩ := run_position_eq_ok.1 first
    obtain ⟨count, _, counted, whole⟩ := run_bind_eq_ok.1 whole
    obtain ⟨small, holds, rfl⟩ := (run_word_eq_ok inside).1 counted
    refine ⟨count, small, holds, ?_⟩
    split at whole
    · next empty =>
      rw [if_pos empty]
      cases whole
      exact ⟨rfl, rfl⟩
    · next filled =>
      rw [if_neg filled]
      obtain ⟨size, _, sized, whole⟩ := run_bind_eq_ok.1 whole
      obtain ⟨holdsSize, rfl⟩ := run_u8_eq_ok.1 sized
      dsimp only at whole
      split at whole
      · next narrow => exact ⟨size, holdsSize, narrow, whole⟩
      · cases whole
  · intro ⟨count, small, holds, rest⟩
    refine run_bind_eq_ok.2 ⟨pos, pos, rfl, run_bind_eq_ok.2
      ⟨count, pos + 2, (run_word_eq_ok inside).2 ⟨small, holds, rfl⟩, ?_⟩⟩
    split at rest
    · next empty =>
      rw [if_pos empty, rest.1, rest.2]
      rfl
    · next filled =>
      obtain ⟨size, holdsSize, narrow, whole⟩ := rest
      rw [if_neg filled]
      refine run_bind_eq_ok.2 ⟨size, pos + 3, run_u8_eq_ok.2 ⟨holdsSize, rfl⟩, ?_⟩
      rw [if_pos narrow]
      exact whole

theorem run_read_eq_ok {source : Source} {pos stop : Nat} {index : Index}
    (inside : pos ≤ source.stop) :
    read.run source pos = .ok index stop ↔
      ∃ form : Form, form.Valid ∧ source.Holds pos form.header ∧ pos + form.size ≤ source.stop ∧
        index = form.placed pos ∧ stop = pos + form.size := by
  rw [run_read_eq_ok_start inside]
  constructor
  · intro ⟨count, small, holds, rest⟩
    split at rest
    · next empty =>
      subst empty
      obtain ⟨rfl, rfl⟩ := rest
      have bound := holds.2
      exact ⟨.none, Form.valid_none, holds, bound, rfl, rfl⟩
    · next filled =>
      obtain ⟨size, holdsSize, narrow, rest⟩ := rest
      obtain ⟨offsets, length, fits, positive, ascending, listed, rfl, within, rfl⟩ :=
        (run_readElements_eq_ok holdsSize.2 narrow).1 rest
      have elements : offsets.length ≠ 1 := by omega
      have header := @Form.header_of_elements ⟨size.toNat, offsets⟩ elements
      have headerLength := @Form.length_header_of_elements ⟨size.toNat, offsets⟩ elements
      have byte := BigEndian.encode_one size
      have last : 1 ≤ offsets.getLastD 1 := one_le_getLastD positive
      rw [length] at headerLength
      rw [length, byte, Nat.add_sub_cancel] at header
      have base : pos + 3 + (count + 1) * size.toNat - 1 =
          pos + (3 + (count + 1) * size.toNat - 1) := by omega
      have formSize : pos + (3 + (count + 1) * size.toNat - 1 + offsets.getLastD 1) =
          pos + 3 + (count + 1) * size.toNat - 1 + offsets.getLastD 1 := by omega
      refine ⟨⟨size.toNat, offsets⟩, ⟨narrow, by rw [length]; omega, fits, positive, ascending,
        fun single => absurd single elements⟩, ?_, ?_, ?_, ?_⟩
      · rw [header]
        exact holds.append (holdsSize.append listed)
      · rw [Form.size, headerLength, Form.last, formSize]
        exact within
      · rw [Form.placed, headerLength, ← base]
        rfl
      · rw [Form.size, headerLength, Form.last, formSize]
        rfl
  · intro ⟨form, valid, holds, within, same, ends⟩
    have count := valid.count
    by_cases single : form.offsets.length = 1
    · have unit := valid.empty single
      have header : form.header = BigEndian.encode 2 0 := by
        rw [Form.header, if_pos single, single, List.append_nil]
      rw [header] at holds
      have length : form.header.length = 2 := by rw [header, BigEndian.length_encode]
      refine ⟨0, by decide, holds, ?_⟩
      rw [if_pos rfl, same, ends, Form.placed, Form.size, Form.last, unit, length]
      exact ⟨rfl, rfl⟩
    · have header := Form.header_of_elements single
      have length := Form.length_header_of_elements single
      rw [header] at holds
      have rest := holds.right
      have width : (UInt8.ofNat form.width).toNat = form.width := by
        rw [UInt8.toNat_ofNat', Nat.mod_eq_of_lt]
        exact Nat.lt_of_le_of_lt valid.narrow.2 (by decide)
      have byte : BigEndian.encode 1 form.width = [UInt8.ofNat form.width] := by
        rw [← width, BigEndian.encode_one, width]
      rw [BigEndian.length_encode, byte] at rest
      refine ⟨form.offsets.length - 1, by omega, holds.left, ?_⟩
      rw [if_neg (by omega)]
      refine ⟨UInt8.ofNat form.width, rest.left, by rw [width]; exact valid.narrow, ?_⟩
      have total : form.offsets.length - 1 + 1 = form.offsets.length := by omega
      have inside : pos + 3 ≤ source.stop := rest.left.2
      rw [width, run_readElements_eq_ok inside valid.narrow, total]
      refine ⟨form.offsets, rfl, valid.fits, valid.positive, valid.ascending, rest.right,
        ?_, by rw [ends]; exact within, ?_⟩
      · rw [ends, Form.size, Form.last, length]
        have width := Nat.mul_pos valid.count.1 valid.narrow.1
        omega
      · have base : pos + 3 + form.offsets.length * form.width - 1 =
            pos + (3 + form.offsets.length * form.width - 1) := by omega
        rw [same, Form.placed, length, base]

theorem le_stop_of_run_read {source : Source} {pos stop : Nat} {index : Index}
    (inside : pos ≤ source.stop) (whole : read.run source pos = .ok index stop) :
    stop ≤ source.stop := by
  obtain ⟨form, _, _, within, _, rfl⟩ := (run_read_eq_ok inside).1 whole
  exact within

/-- An INDEX reads the same wherever it stands with all of its bytes. -/
theorem Form.Valid.spelled {form : Form} (valid : form.Valid) (pos : Nat) {content : List UInt8}
    (starts : form.header <+: content) (length : content.length = form.size) :
    read.Spelled pos content (form.placed pos) := by
  intro source holds
  obtain ⟨rest, rfl⟩ := starts
  have bound := holds.2
  rw [length] at bound
  rw [length]
  exact (run_read_eq_ok (Nat.le_trans (Nat.le_add_right _ _) bound)).2
    ⟨form, valid, holds.left, bound, rfl, rfl⟩

end CompactFont.Index
