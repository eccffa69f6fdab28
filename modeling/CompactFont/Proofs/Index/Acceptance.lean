import CompactFont.Proofs.Index.Form
import CompactFont.Proofs.Outcome
import CompactFont.Proofs.Span

/-!
Which bytes are an INDEX. The fields of a header are numbers at fixed positions, and an INDEX is read
exactly where these numbers agree with each other and with the amount of data; it is the one that they
describe.
-/

set_option autoImplicit false

namespace CompactFont

def wordAt (bytes : ByteArray) (pos width : Nat) : Nat :=
  BigEndian.decode (listed ((⟨pos, pos + width⟩ : Span).slice bytes))

section

variable {bytes : ByteArray} {pos width value : Nat}

theorem wordAt_of_holds (fits : value < 256 ^ width)
    (holds : Holds bytes pos (BigEndian.encode width value)) : wordAt bytes pos width = value := by
  have slice := holds.slice_eq
  rw [BigEndian.length_encode] at slice
  rw [wordAt, slice, BigEndian.decode_encode_of_lt fits]

theorem wordAt_byte {content : List UInt8} {i : Nat} (holds : Holds bytes pos content)
    (inside : i < content.length) : wordAt bytes (pos + i) 1 = content[i].toNat := by
  rw [← List.take_append_drop i content, List.drop_eq_getElem_cons inside] at holds
  have own := holds.right
  rw [List.length_take, Nat.min_eq_left (Nat.le_of_lt inside)] at own
  refine wordAt_of_holds content[i].toNat_lt ?_
  rw [BigEndian.encode_one]
  rw [← List.singleton_append] at own
  exact own.left

theorem holds_wordAt (inside : pos + width ≤ bytes.size) :
    Holds bytes pos (BigEndian.encode width (wordAt bytes pos width)) := by
  have holds : Holds bytes pos (listed ((⟨pos, pos + width⟩ : Span).slice bytes)) :=
    .of_slice (Nat.le_add_right _ _) inside
  have length : (listed ((⟨pos, pos + width⟩ : Span).slice bytes)).length = width := by
    rw [length_listed, Span.size_slice_of_le inside, Span.length]
    exact Nat.add_sub_cancel_left pos width
  have spelled := BigEndian.encode_decode (listed ((⟨pos, pos + width⟩ : Span).slice bytes))
  rw [length] at spelled
  rwa [wordAt, spelled]

theorem wordAt_lt (inside : pos + width ≤ bytes.size) : wordAt bytes pos width < 256 ^ width := by
  have bound := BigEndian.decode_lt (listed ((⟨pos, pos + width⟩ : Span).slice bytes))
  rwa [length_listed, Span.size_slice_of_le inside, Span.length, Nat.add_sub_cancel_left] at bound

theorem wordAt_of_holds_row {values : List Nat} (fits : ∀ value ∈ values, value < 256 ^ width)
    (holds : Holds bytes pos (values.flatMap (BigEndian.encode width))) {i : Nat}
    (inside : i < values.length) : wordAt bytes (pos + i * width) width = values[i] := by
  have split : values = values.take i ++ (values[i] :: values.drop (i + 1)) := by
    rw [← List.drop_eq_getElem_cons inside, List.take_append_drop]
  rw [split, List.flatMap_append, List.flatMap_cons] at holds
  have own := holds.right.left
  rw [Index.Form.length_flatMap_encode, List.length_take, Nat.min_eq_left (Nat.le_of_lt inside)]
    at own
  exact wordAt_of_holds (fits _ (List.getElem_mem inside)) own

theorem holds_row {count : Nat} (inside : pos + count * width ≤ bytes.size) :
    Holds bytes pos (((List.range count).map fun i => wordAt bytes (pos + i * width) width).flatMap
      (BigEndian.encode width)) := by
  induction count with
  | zero => exact .nil (by rwa [Nat.zero_mul] at inside)
  | succ count induction =>
    rw [Nat.succ_mul, ← Nat.add_assoc] at inside
    rw [List.range_succ, List.map_append, List.flatMap_append]
    apply (induction (Nat.le_trans (Nat.le_add_right _ _) inside)).append
    rw [Index.Form.length_flatMap_encode, List.length_map, List.length_range, List.map_singleton,
      List.flatMap_singleton]
    exact holds_wordAt inside

end

namespace Index

variable {bytes : ByteArray} {pos : Nat}

/-! ### The fields of a header -/

def countAt (bytes : ByteArray) (pos : Nat) : Nat := wordAt bytes pos 2

def widthAt (bytes : ByteArray) (pos : Nat) : Nat := wordAt bytes (pos + 2) 1

def headerStopAt (bytes : ByteArray) (pos : Nat) : Nat :=
  pos + 3 + (countAt bytes pos + 1) * widthAt bytes pos

/-- An offset as it is written; the last one is that of the end of the last element. -/
def offsetAt (bytes : ByteArray) (pos i : Nat) : Nat :=
  wordAt bytes (pos + 3 + i * widthAt bytes pos) (widthAt bytes pos)

/-- The position that an offset stands for: offsets count from the last byte of the header. -/
def targetAt (bytes : ByteArray) (pos i : Nat) : Nat :=
  headerStopAt bytes pos - 1 + offsetAt bytes pos i

/-- The fields of the header of an INDEX with elements agree with each other and with the data. -/
structure Described (bytes : ByteArray) (pos : Nat) : Prop where
  narrow : 1 ≤ widthAt bytes pos ∧ widthAt bytes pos ≤ 4
  header : headerStopAt bytes pos ≤ bytes.size
  positive : ∀ i ≤ countAt bytes pos, 1 ≤ offsetAt bytes pos i
  ascending : ∀ i < countAt bytes pos, offsetAt bytes pos i ≤ offsetAt bytes pos (i + 1)
  within : targetAt bytes pos (countAt bytes pos) ≤ bytes.size

instance (bytes : ByteArray) (pos : Nat) : Decidable (Described bytes pos) :=
  decidable_of_iff
    ((1 ≤ widthAt bytes pos ∧ widthAt bytes pos ≤ 4) ∧ headerStopAt bytes pos ≤ bytes.size ∧
      (∀ i ≤ countAt bytes pos, 1 ≤ offsetAt bytes pos i) ∧
      (∀ i < countAt bytes pos, offsetAt bytes pos i ≤ offsetAt bytes pos (i + 1)) ∧
      targetAt bytes pos (countAt bytes pos) ≤ bytes.size)
    ⟨fun ⟨narrow, header, positive, ascending, within⟩ =>
      ⟨narrow, header, positive, ascending, within⟩,
    fun ⟨narrow, header, positive, ascending, within⟩ =>
      ⟨narrow, header, positive, ascending, within⟩⟩

/-- An INDEX is at a position: a count, and header and elements unless it is zero. -/
def Acceptable (bytes : ByteArray) (pos : Nat) : Prop :=
  pos + 2 ≤ bytes.size ∧ (countAt bytes pos = 0 ∨ Described bytes pos)

instance (bytes : ByteArray) (pos : Nat) : Decidable (Acceptable bytes pos) :=
  inferInstanceAs (Decidable (_ ∧ _))

def ofFields (bytes : ByteArray) (pos : Nat) : Index where
  start := pos
  offsets := if countAt bytes pos = 0 then #[pos + 2]
    else ((List.range (countAt bytes pos + 1)).map (targetAt bytes pos)).toArray

/-! ### The fields of the header of a valid form -/

theorem Form.last_eq_getElem {form : Form} {i : Nat} (final : i + 1 = form.offsets.length) :
    form.last = form.offsets[i] := by
  have before : form.offsets.length - 1 = i := Nat.sub_eq_of_eq_add final.symm
  rw [last, List.getLastD_eq_getLast?, List.getLast?_eq_getElem?, before, List.getElem?_eq_getElem,
    Option.getD_some]

namespace Form.Valid

variable {form : Form}

theorem countAt_eq (valid : form.Valid) (holds : Holds bytes pos form.header) :
    countAt bytes pos = form.offsets.length - 1 := by
  have few : form.offsets.length - 1 < 256 ^ 2 :=
    Nat.lt_of_lt_of_le (Nat.sub_lt valid.count.1 Nat.one_pos) valid.count.2
  exact wordAt_of_holds few holds.left

variable (valid : form.Valid) (elements : form.offsets.length ≠ 1)
  (holds : Holds bytes pos form.header)

include valid elements holds

theorem widthAt_eq : widthAt bytes pos = form.width := by
  have small : form.width < 256 ^ 1 := Nat.lt_of_le_of_lt valid.narrow.2 (by decide)
  rw [header_of_elements elements] at holds
  have later := holds.right.left
  rw [BigEndian.length_encode] at later
  exact wordAt_of_holds small later

theorem offsetAt_eq {i : Nat} (inside : i < form.offsets.length) :
    offsetAt bytes pos i = form.offsets[i] := by
  have width := widthAt_eq valid elements holds
  rw [header_of_elements elements] at holds
  have row := holds.right.right
  rw [BigEndian.length_encode, BigEndian.length_encode] at row
  rw [offsetAt, width]
  exact wordAt_of_holds_row valid.fits row inside

theorem headerStopAt_eq : headerStopAt bytes pos = pos + form.header.length := by
  have count := valid.count.1
  rw [headerStopAt, widthAt_eq valid elements holds, valid.countAt_eq holds,
    length_header_of_elements elements, Nat.sub_add_cancel count, Nat.add_assoc]

theorem targetAt_eq {i : Nat} (inside : i < form.offsets.length) :
    targetAt bytes pos i = pos + (form.header.length - 1) + form.offsets[i] := by
  have header := length_header_of_elements elements
  rw [targetAt, headerStopAt_eq valid elements holds, offsetAt_eq valid elements holds inside]
  omega

theorem described (within : pos + form.size ≤ bytes.size) : Described bytes pos := by
  have count := valid.countAt_eq holds
  have positive := valid.count.1
  constructor
  · rw [widthAt_eq valid elements holds]
    exact valid.narrow
  · rw [headerStopAt_eq valid elements holds]
    exact holds.le_size
  · intro i inside
    rw [offsetAt_eq valid elements holds (by omega)]
    exact valid.positive _ (List.getElem_mem _)
  · intro i inside
    rw [offsetAt_eq valid elements holds (i := i) (by omega),
      offsetAt_eq valid elements holds (i := i + 1) (by omega)]
    exact List.pairwise_iff_getElem.1 valid.ascending _ _ _ _ (Nat.lt_succ_self i)
  · rw [count, targetAt_eq valid elements holds (by omega),
      ← last_eq_getElem (Nat.sub_add_cancel positive), Nat.add_assoc]
    exact within

end Form.Valid

variable {form : Form}

theorem Form.Valid.acceptable (valid : form.Valid) (holds : Holds bytes pos form.header)
    (within : pos + form.size ≤ bytes.size) : Acceptable bytes pos := by
  have bound := holds.le_size
  have header := length_header_pos form
  refine ⟨by omega, ?_⟩
  by_cases elements : form.offsets.length = 1
  · exact .inl (by rw [valid.countAt_eq holds, elements])
  · exact .inr (valid.described elements holds within)

theorem Form.Valid.ofFields_eq (valid : form.Valid) (holds : Holds bytes pos form.header) :
    ofFields bytes pos = form.placed pos := by
  have count := valid.countAt_eq holds
  have positive := valid.count.1
  by_cases elements : form.offsets.length = 1
  · have none : countAt bytes pos = 0 := by rw [count, elements]
    rw [ofFields, if_pos none, placed, valid.empty elements, header, if_pos elements,
      List.append_nil, BigEndian.length_encode]
    rfl
  · have some : countAt bytes pos ≠ 0 := by omega
    rw [ofFields, if_neg some, placed, Index.mk.injEq]
    refine ⟨rfl, congrArg _ (List.ext_getElem ?_ ?_)⟩
    · rw [List.length_map, List.length_map, List.length_range]
      omega
    · intro i _ inside
      rw [List.length_map] at inside
      rw [List.getElem_map, List.getElem_map, List.getElem_range,
        valid.targetAt_eq elements holds inside]

/-! ### The form that fields describe -/

def Form.ofFields (bytes : ByteArray) (pos : Nat) : Form where
  width := widthAt bytes pos
  offsets := (List.range (countAt bytes pos + 1)).map (offsetAt bytes pos)

theorem Form.width_ofFields (bytes : ByteArray) (pos : Nat) :
    (Form.ofFields bytes pos).width = widthAt bytes pos := rfl

theorem Form.offsets_ofFields (bytes : ByteArray) (pos : Nat) :
    (Form.ofFields bytes pos).offsets =
      (List.range (countAt bytes pos + 1)).map (offsetAt bytes pos) := rfl

theorem Form.length_ofFields (bytes : ByteArray) (pos : Nat) :
    (Form.ofFields bytes pos).offsets.length = countAt bytes pos + 1 := by
  rw [Form.offsets_ofFields, List.length_map, List.length_range]

namespace Described

variable (described : Described bytes pos)

include described

theorem room : pos + 3 + (countAt bytes pos + 1) * widthAt bytes pos ≤ bytes.size :=
  described.header

theorem offset_inside {i : Nat} (listed : i ≤ countAt bytes pos) :
    pos + 3 + i * widthAt bytes pos + widthAt bytes pos ≤ bytes.size := by
  have room := described.room
  have before : (i + 1) * widthAt bytes pos ≤ (countAt bytes pos + 1) * widthAt bytes pos :=
    Nat.mul_le_mul_right _ (Nat.succ_le_succ listed)
  rw [Nat.succ_mul i] at before
  omega

theorem offset_le_offset {i j : Nat} (ordered : i ≤ j) (listed : j ≤ countAt bytes pos) :
    offsetAt bytes pos i ≤ offsetAt bytes pos j := by
  induction ordered with
  | refl => exact Nat.le_refl _
  | step _ induction =>
    exact Nat.le_trans (induction (Nat.le_of_succ_le listed)) (described.ascending _ listed)

theorem valid_ofFields (some : countAt bytes pos ≠ 0) : (Form.ofFields bytes pos).Valid := by
  have length := Form.length_ofFields bytes pos
  have room := described.room
  have few : countAt bytes pos < 0x10000 := wordAt_lt (by omega : pos + 2 ≤ bytes.size)
  have each : ∀ offset ∈ (Form.ofFields bytes pos).offsets,
      ∃ i ≤ countAt bytes pos, offsetAt bytes pos i = offset := by
    intro offset listed
    rw [Form.offsets_ofFields] at listed
    obtain ⟨i, inside, same⟩ := List.mem_map.1 listed
    exact ⟨i, Nat.le_of_lt_succ (List.mem_range.1 inside), same⟩
  constructor
  · rw [Form.width_ofFields]
    exact described.narrow
  · rw [length]
    exact ⟨Nat.succ_pos _, few⟩
  · intro offset listed
    obtain ⟨i, inside, rfl⟩ := each offset listed
    rw [Form.width_ofFields]
    exact wordAt_lt (described.offset_inside inside)
  · intro offset listed
    obtain ⟨i, inside, rfl⟩ := each offset listed
    exact described.positive i inside
  · rw [Form.offsets_ofFields]
    refine List.pairwise_map.2 (List.pairwise_lt_range.imp_of_mem ?_)
    intro i j _ inside before
    exact described.offset_le_offset (Nat.le_of_lt before)
      (Nat.le_of_lt_succ (List.mem_range.1 inside))
  · intro single
    rw [length] at single
    exact absurd (Nat.succ.inj single) some

theorem holds_ofFields (some : countAt bytes pos ≠ 0) :
    Holds bytes pos (Form.ofFields bytes pos).header := by
  have room := described.room
  have length := Form.length_ofFields bytes pos
  rw [Form.header_of_elements (by omega), length, Nat.add_sub_cancel, Form.width_ofFields,
    Form.offsets_ofFields]
  apply Holds.append (holds_wordAt (by omega))
  apply Holds.append
  · rw [BigEndian.length_encode]
    exact holds_wordAt (by omega)
  · rw [BigEndian.length_encode, BigEndian.length_encode]
    exact holds_row room

theorem size_ofFields_le (some : countAt bytes pos ≠ 0) :
    pos + (Form.ofFields bytes pos).size ≤ bytes.size := by
  have valid := described.valid_ofFields some
  have length := Form.length_ofFields bytes pos
  have elements : (Form.ofFields bytes pos).offsets.length ≠ 1 := by omega
  have header := valid.headerStopAt_eq elements (described.holds_ofFields some)
  have last : (Form.ofFields bytes pos).last = offsetAt bytes pos (countAt bytes pos) := by
    rw [Form.last_eq_getElem length.symm]
    simp only [Form.ofFields, List.getElem_map, List.getElem_range]
  have within := described.within
  have positive := Form.length_header_of_elements elements
  rw [targetAt, header] at within
  rw [Form.size, last]
  omega

end Described

theorem Acceptable.exists_form (acceptable : Acceptable bytes pos) :
    ∃ form : Form, form.Valid ∧ Holds bytes pos form.header ∧ pos + form.size ≤ bytes.size := by
  obtain ⟨room, rest⟩ := acceptable
  by_cases none : countAt bytes pos = 0
  · -- without elements the INDEX ends after the count, whatever the other fields would say
    have counted : Holds bytes pos (BigEndian.encode 2 (countAt bytes pos)) := holds_wordAt room
    rw [none] at counted
    exact ⟨.none, Form.valid_none, counted, room⟩
  · have described := rest.resolve_left none
    exact ⟨.ofFields bytes pos, described.valid_ofFields none, described.holds_ofFields none,
      described.size_ofFields_le none⟩

/-! ### Reading -/

theorem exists_form_of_readAt {index : Index} (read : readAt bytes pos = .ok index) :
    ∃ form : Form, form.Valid ∧ Holds bytes pos form.header ∧ pos + form.size ≤ bytes.size ∧
      index = form.placed pos := by
  obtain ⟨inside, stop, read⟩ := Reader.readAt_eq_ok.1 read
  obtain ⟨form, valid, holds, within, same, -⟩ := (run_read_eq_ok inside).1 read
  exact ⟨form, valid, holds.1, within, same⟩

/-- An INDEX is read exactly where an acceptable one is, and it is the one that the fields describe. -/
theorem readAt_eq_ok_iff {index : Index} :
    readAt bytes pos = .ok index ↔ Acceptable bytes pos ∧ index = ofFields bytes pos := by
  constructor
  · intro read
    obtain ⟨form, valid, holds, within, rfl⟩ := exists_form_of_readAt read
    exact ⟨valid.acceptable holds within, (valid.ofFields_eq holds).symm⟩
  · rintro ⟨acceptable, rfl⟩
    obtain ⟨form, valid, holds, within⟩ := acceptable.exists_form
    have inside : pos ≤ bytes.size := Nat.le_trans (Nat.le_add_right _ _) within
    rw [valid.ofFields_eq holds]
    exact Reader.readAt_eq_ok.2
      ⟨inside, _, (run_read_eq_ok inside).2 ⟨form, valid, holds.whole, within, rfl, rfl⟩⟩

theorem elementSpan_ofFields {i : Nat} (inside : i < (ofFields bytes pos).size) :
    (ofFields bytes pos).elementSpan i = ⟨targetAt bytes pos i, targetAt bytes pos (i + 1)⟩ := by
  by_cases none : countAt bytes pos = 0
  · rw [Index.size, ofFields, if_pos none] at inside
    exact absurd inside (Nat.not_lt_zero i)
  · rw [Index.size, ofFields, if_neg none, List.size_toArray, List.length_map, List.length_range,
      Nat.add_sub_cancel] at inside
    have later : i + 1 < countAt bytes pos + 1 := Nat.succ_lt_succ inside
    simp only [Index.elementSpan, ofFields, if_neg none, Array.getD_eq_getD_getElem?,
      List.getElem?_toArray, List.getElem?_map, List.getElem?_range later,
      List.getElem?_range (Nat.lt_of_succ_lt later), Option.map_some, Option.getD_some]

end Index
end CompactFont
