import CompactFont.Proofs.Index.Acceptance
import CompactFont.Proofs.Index.Written
import Mathlib.Order.Bounds.Basic

/-!
The canonical form of an INDEX. Elements can be written with wider offsets than necessary, and with
bytes between the header and the first element; the encoding that is written has neither, so it is the
shortest one, and an INDEX that is as short is the one that is written.
-/

set_option autoImplicit false

namespace CompactFont.Index

/-! ### Elements lie in a row -/

theorem map_elementSpan (index : Index) :
    (List.range index.size).map index.elementSpan = Span.between index.offsets.toList := by
  apply List.ext_getElem
  · rw [Span.length_between, List.length_map, List.length_range, Array.length_toList, Index.size]
  · intro i inside _
    rw [List.length_map, List.length_range, Index.size] at inside
    have first : i < index.offsets.size := by omega
    have second : i + 1 < index.offsets.size := by omega
    simp only [List.getElem_map, List.getElem_range, Index.elementSpan, Span.between,
      List.getElem_zipWith, List.getElem_tail, Array.getElem_toList, Array.getD_eq_getD_getElem?,
      Array.getElem?_eq_getElem first, Array.getElem?_eq_getElem second, Option.getD_some]

theorem toList_elements (index : Index) (bytes : ByteArray) :
    (index.elements bytes).toList = (Span.between index.offsets.toList).map (·.slice bytes) := by
  rw [← map_elementSpan, List.map_map, Index.elements, Array.toList_map, Array.toList_range]
  rfl

theorem offsetsFrom_between {first : Nat} {rest : List Nat}
    (ascending : (first :: rest).Pairwise (· ≤ ·)) :
    offsetsFrom first ((Span.between (first :: rest)).map Span.length) = first :: rest := by
  induction rest generalizing first with
  | nil => rfl
  | cons second rest induction =>
    obtain ⟨least, others⟩ := List.pairwise_cons.1 ascending
    have ends : first + (second - first) = second :=
      Nat.add_sub_cancel' (least second List.mem_cons_self)
    change first :: offsetsFrom (first + (second - first)) _ = _
    rw [ends]
    exact congrArg _ (induction others)

namespace Form

def first (form : Form) : Nat := form.offsets.headD 1

def lengths (form : Form) : List Nat := (Span.between form.offsets).map Span.length

variable {form : Form} {bytes : ByteArray} {pos : Nat}

theorem length_lengths (form : Form) : form.lengths.length = form.offsets.length - 1 := by
  rw [lengths, List.length_map, Span.length_between]

namespace Valid

variable (valid : form.Valid)

include valid

theorem offsetsFrom_lengths : offsetsFrom form.first form.lengths = form.offsets := by
  obtain ⟨first, rest, same⟩ := List.exists_cons_of_ne_nil valid.full
  have ascending := valid.ascending
  rw [same] at ascending
  rw [Form.first, lengths, same]
  exact offsetsFrom_between ascending

/-- The elements fill what lies between the offset of the first one and that of the last end. -/
theorem last_eq_add : form.last = form.first + form.lengths.sum := by
  rw [last, ← valid.offsetsFrom_lengths, getLastD_offsetsFrom]

theorem one_le_first : 1 ≤ form.first := by
  obtain ⟨first, rest, same⟩ := List.exists_cons_of_ne_nil valid.full
  apply valid.positive
  rw [Form.first, same]
  exact List.mem_cons_self

/-- The elements of an INDEX are in a row, which ends where the INDEX does. -/
theorem tile_between (pos : Nat) :
    Span.Tile (pos + (form.header.length - 1) + form.first)
      (Span.between (form.placed pos).offsets.toList) (pos + form.size) := by
  obtain ⟨first, rest, same⟩ := List.exists_cons_of_ne_nil valid.full
  have ascending := valid.ascending
  rw [same] at ascending
  have moved : ((first :: rest).map (pos + (form.header.length - 1) + ·)).Pairwise (· ≤ ·) :=
    List.pairwise_map.2 (ascending.imp fun ordered => Nat.add_le_add_left ordered _)
  have tile := Span.tile_between moved
  rw [List.getLastD_eq_getLast?, List.getLast?_map, Option.getD_map, ← List.getLastD_eq_getLast?]
    at tile
  rwa [Form.size, ← Nat.add_assoc, Form.last, Form.first, Form.placed, same, List.getLastD_cons]

theorem map_size_elements (within : pos + form.size ≤ bytes.size) :
    ((form.placed pos).elements bytes).toList.map ByteArray.size = form.lengths := by
  have tile := valid.tile_between pos
  have sizes : (Span.between (form.placed pos).offsets.toList).map
      (fun span => (span.slice bytes).size) =
      (Span.between (form.placed pos).offsets.toList).map Span.length :=
    List.map_congr_left fun span listed =>
      Span.size_slice_of_le (Nat.le_trans (tile.stop_le listed) within)
  rw [toList_elements, List.map_map]
  refine sizes.trans ?_
  simp only [lengths, Span.between, placed, ← List.map_tail, List.zipWith_map, List.map_zipWith,
    Span.length, Nat.add_sub_add_left]

/-- The bytes of an INDEX are those of its header, some that belong to no element if the first offset
is not one, and those of its elements. -/
theorem exists_gap (holds : Holds bytes pos form.header) (within : pos + form.size ≤ bytes.size) :
    ∃ gap : List UInt8, gap.length + 1 = form.first ∧ listed ((form.placed pos).raw bytes) =
      form.header ++ (gap ++ ((form.placed pos).elements bytes).toList.flatMap listed) := by
  have tile := valid.tile_between pos
  have positive := valid.one_le_first
  have header := length_header_pos form
  have start : pos + (form.header.length - 1) + form.first =
      pos + form.header.length + (form.first - 1) := by omega
  rw [start] at tile
  have before : pos + form.header.length + (form.first - 1) ≤ bytes.size :=
    Nat.le_trans tile.le within
  -- nothing is known of the bytes between the header and the first element but how many they are
  obtain ⟨gap, holdsGap, length⟩ := @Source.Holds.exists_of_le (.whole bytes) _ _ before
  have elements := tile.holds within
  rw [← List.flatMap_map (Span.slice · bytes) listed, ← toList_elements] at elements
  have size : (form.header ++ (gap ++
      ((form.placed pos).elements bytes).toList.flatMap listed)).length = form.size := by
    rw [List.length_append, List.length_append, length_flatMap_listed, valid.map_size_elements within,
      Form.size, valid.last_eq_add, length]
    omega
  have whole := (holds.append (holdsGap.1.append (length ▸ elements))).slice_eq
  rw [size, ← valid.stop_placed] at whole
  exact ⟨gap, by omega, whole⟩

end Valid
end Form

/-! ### The least offset size -/

theorem isLeast_offsetWidth {offset : Nat} (positive : 1 ≤ offset)
    (fits : offset ≤ OutputError.maxU32) :
    IsLeast {width | offset < 256 ^ width} (offsetWidth offset) := by
  refine ⟨lt_offsetWidth fits, fun width holds => ?_⟩
  by_contra narrower
  -- a narrower size that holds the offset can be taken to be one byte narrower
  have small : offset < 256 ^ (offsetWidth offset - 1) :=
    Nat.lt_of_lt_of_le holds (Nat.pow_le_pow_right (by decide) (by omega))
  unfold offsetWidth at small
  split at small
  · omega
  split at small
  · omega
  split at small
  · omega
  · omega

namespace Form

variable {form : Form} {bytes : ByteArray} {pos : Nat}

def canonical (form : Form) : Form := .ofLengths form.lengths

/-- No bytes are wasted: there are no elements, or the first one directly follows the header, and the
offsets are as narrow as in the canonical form. -/
def Tight (form : Form) : Prop :=
  form.offsets.length = 1 ∨ (form.first = 1 ∧ form.width = form.canonical.width)

theorem length_offsets_canonical (valid : form.Valid) :
    form.canonical.offsets.length = form.offsets.length := by
  have count := valid.count.1
  rw [canonical, ofLengths, length_offsetsFrom, length_lengths]
  omega

theorem size_canonical (form : Form) :
    form.canonical.size = form.canonical.header.length + form.lengths.sum := size_ofLengths _

namespace Valid

variable (valid : form.Valid)

include valid

theorem size_eq : form.size = form.header.length - 1 + form.first + form.lengths.sum := by
  rw [size, valid.last_eq_add, Nat.add_assoc]

theorem payload_lt : form.lengths.sum + 1 < 256 ^ form.width := by
  have final := last_eq_getElem (Nat.sub_add_cancel valid.count.1)
  have last := valid.fits form.last (final ▸ List.getElem_mem _)
  have sum := valid.last_eq_add
  have first := valid.one_le_first
  omega

theorem payload_le : form.lengths.sum + 1 ≤ OutputError.maxU32 := by
  have bound := valid.payload_lt
  have widest : 256 ^ form.width ≤ 256 ^ 4 := Nat.pow_le_pow_right (by decide) valid.narrow.2
  exact Nat.le_of_lt_succ (Nat.lt_of_lt_of_le bound widest)

theorem isLeast_width_canonical :
    IsLeast {width | form.lengths.sum + 1 < 256 ^ width} form.canonical.width :=
  isLeast_offsetWidth (Nat.succ_pos _) valid.payload_le

theorem width_canonical_le : form.canonical.width ≤ form.width :=
  valid.isLeast_width_canonical.2 valid.payload_lt

theorem first_of_single (single : form.offsets.length = 1) : form.first = 1 := by
  rw [Form.first, valid.empty single]
  rfl

theorem header_of_single (single : form.offsets.length = 1) :
    form.canonical.header = form.header := by
  rw [header, header, length_offsets_canonical valid, if_pos single, if_pos single]

theorem first_of_tight (tight : form.Tight) : form.first = 1 := by
  obtain single | ⟨first, _⟩ := tight
  · exact valid.first_of_single single
  · exact first

theorem header_of_tight (tight : form.Tight) : form.canonical.header = form.header := by
  obtain single | ⟨first, width⟩ := tight
  · exact valid.header_of_single single
  · have offsets : form.canonical.offsets = form.offsets := by
      rw [canonical, ofLengths, ← first]
      exact valid.offsetsFrom_lengths
    rw [header, header, offsets, ← width]

/-- Both forms have as many offsets, so their headers differ by the size of these. -/
theorem length_headers (elements : form.offsets.length ≠ 1) :
    form.canonical.header.length = 3 + form.offsets.length * form.canonical.width ∧
      form.header.length = 3 + form.offsets.length * form.width ∧
      form.offsets.length * form.canonical.width ≤ form.offsets.length * form.width := by
  have same := length_offsets_canonical valid
  have canonical := length_header_of_elements (same ▸ elements)
  rw [same] at canonical
  exact ⟨canonical, length_header_of_elements elements,
    Nat.mul_le_mul_left _ valid.width_canonical_le⟩

/-- The canonical form takes the least bytes. -/
theorem size_canonical_le : form.canonical.size ≤ form.size := by
  have first := valid.one_le_first
  have header := length_header_pos form
  rw [size_canonical, valid.size_eq]
  by_cases single : form.offsets.length = 1
  · rw [valid.header_of_single single]
    omega
  · obtain ⟨own, other, narrower⟩ := valid.length_headers single
    omega

/-- A form that takes no more bytes than the canonical one wastes none. -/
theorem size_canonical_eq_iff : form.canonical.size = form.size ↔ form.Tight := by
  have first := valid.one_le_first
  have header := length_header_pos form
  rw [size_canonical, valid.size_eq]
  constructor
  · intro equal
    by_cases single : form.offsets.length = 1
    · exact .inl single
    -- neither the header nor the offset of the first element can make up for the other being larger
    · obtain ⟨own, other, narrower⟩ := valid.length_headers single
      exact .inr ⟨by omega, Nat.eq_of_mul_eq_mul_left valid.count.1 (by omega)⟩
  · intro tight
    rw [valid.header_of_tight tight, valid.first_of_tight tight]
    omega

/-- Whether a form wastes bytes can be told from the fields where its header stands. -/
theorem tight_iff (holds : Holds bytes pos form.header) :
    form.Tight ↔ countAt bytes pos = 0 ∨ (offsetAt bytes pos 0 = 1 ∧
      IsLeast {width | form.lengths.sum + 1 < 256 ^ width} (widthAt bytes pos)) := by
  have count := valid.count.1
  have none : countAt bytes pos = 0 ↔ form.offsets.length = 1 := by
    rw [valid.countAt_eq holds]
    omega
  rw [none, Tight]
  by_cases single : form.offsets.length = 1
  · exact iff_of_true (.inl single) (.inl single)
  · have first : offsetAt bytes pos 0 = form.first := by
      rw [valid.offsetAt_eq single holds (by omega), Form.first, List.headD_eq_head?_getD,
        List.head?_eq_getElem?, List.getElem?_eq_getElem (by omega), Option.getD_some]
    have least : form.width = form.canonical.width ↔
        IsLeast {width | form.lengths.sum + 1 < 256 ^ width} form.width :=
      ⟨fun same => same ▸ valid.isLeast_width_canonical,
        fun least => least.unique valid.isLeast_width_canonical⟩
    rw [first, valid.widthAt_eq single holds, least]

/-- The elements of an INDEX can be written again. That takes no more bytes than the INDEX has, and
gives the same bytes exactly if the INDEX wastes none. -/
theorem exists_encode_elements (holds : Holds bytes pos form.header)
    (within : pos + form.size ≤ bytes.size) :
    ∃ written, encode ((form.placed pos).elements bytes).toList = Except.ok written ∧
      written.size ≤ ((form.placed pos).raw bytes).size ∧
      (written = (form.placed pos).raw bytes ↔ form.Tight) := by
  have sizes := valid.map_size_elements within
  have few : ((form.placed pos).elements bytes).toList.length ≤ OutputError.maxU16 := by
    have length := form.length_lengths
    have count := valid.count.2
    rw [← sizes, List.length_map] at length
    rw [length]
    exact Nat.sub_le_of_le_add count
  obtain ⟨written, encoded⟩ := exists_encode_iff.2 ⟨few, sizes ▸ valid.payload_le⟩
  obtain ⟨_, content⟩ := valid_of_encode encoded
  have size := size_of_encode encoded
  obtain ⟨gap, length, raw⟩ := valid.exists_gap holds within
  have rawSize : ((form.placed pos).raw bytes).size = form.size := by
    rw [Index.raw, Index.span, valid.stop_placed, Span.size_slice_of_le within]
    exact Nat.add_sub_cancel_left pos form.size
  rw [Form.ofElements, sizes] at content size
  refine ⟨written, encoded, by rw [size, rawSize]; exact valid.size_canonical_le, ?_⟩
  constructor
  · intro same
    rw [← valid.size_canonical_eq_iff, ← rawSize, ← same]
    exact size.symm
  · intro tight
    have unit := valid.first_of_tight tight
    have none : gap = [] := List.length_eq_zero_iff.1 (by omega)
    apply listed_injective
    rw [content, raw, none, ← valid.header_of_tight tight]
    rfl

end Valid
end Form

/-! ### Every position -/

/-- An INDEX is read at a position exactly if the fields of a header there agree with each other and
with the data. Its elements are then those between the offsets, in a row and without overlaps up to its
end; writing them again takes no more bytes, and gives the same ones exactly if there are no elements,
or they directly follow the header and no smaller offset size holds the offset of the last end. -/
theorem acceptance_exact (bytes : ByteArray) (pos : Nat) :
    ((∃ index, readAt bytes pos = .ok index) ↔ Acceptable bytes pos) ∧
    ∀ index, readAt bytes pos = .ok index →
      index.start = pos ∧ index.size = countAt bytes pos ∧ index.stop ≤ bytes.size ∧
      (∀ i < index.size,
        index.elementSpan i = ⟨targetAt bytes pos i, targetAt bytes pos (i + 1)⟩) ∧
      (∃ first, Span.Tile first ((List.range index.size).map index.elementSpan) index.stop) ∧
      ((List.range index.size).map index.elementSpan).Pairwise
        (fun earlier later => earlier.stop ≤ later.start) ∧
      ∃ written, encode (index.elements bytes).toList = Except.ok written ∧
        written.size ≤ (index.raw bytes).size ∧
        (written = index.raw bytes ↔ countAt bytes pos = 0 ∨ (offsetAt bytes pos 0 = 1 ∧
          IsLeast {width | ((index.elements bytes).toList.map ByteArray.size).sum + 1 < 256 ^ width}
            (widthAt bytes pos))) := by
  constructor
  · simp only [readAt_eq_ok_iff, exists_eq_right]
  · intro index read
    obtain ⟨form, valid, holds, within, placed⟩ := exists_form_of_readAt read
    have described := (readAt_eq_ok_iff.1 read).2
    have stop := valid.stop_placed pos
    have tile := valid.tile_between pos
    rw [← stop, ← map_elementSpan, ← placed] at tile
    have size : index.size = countAt bytes pos := by
      rw [placed, Form.size_placed, valid.countAt_eq holds]
    refine ⟨by rw [placed]; rfl, size, by rw [placed, stop]; exact within, ?_, ⟨_, tile⟩,
      tile.pairwise, ?_⟩
    · intro i inside
      rw [described] at inside ⊢
      exact elementSpan_ofFields inside
    · obtain ⟨written, encoded, least, equal⟩ := valid.exists_encode_elements holds within
      rw [placed, valid.map_size_elements within]
      refine ⟨written, encoded, least, equal.trans ?_⟩
      exact valid.tight_iff holds

/-- After another byte, an INDEX of the elements `a` and `bc` with offsets of two bytes, and with a byte
before the first element that belongs to none. -/
def slackIndex : ByteArray := ⟨#[0xFF, 0, 2, 2, 0, 2, 0, 3, 0, 5, 0xFF, 97, 98, 99]⟩

theorem acceptance_exact_slackIndex :
    Acceptable slackIndex 1 ∧ ∃ index, readAt slackIndex 1 = .ok index ∧ index.size = 2 ∧
      index.elementSpan 0 = ⟨11, 12⟩ ∧ index.elementSpan 1 = ⟨12, 14⟩ ∧
      ∃ written, encode (index.elements slackIndex).toList = Except.ok written ∧
        written.size ≤ (index.raw slackIndex).size ∧ written ≠ index.raw slackIndex := by
  have acceptable : Acceptable slackIndex 1 := by decide +kernel
  have count : countAt slackIndex 1 = 2 := by decide +kernel
  have spans : targetAt slackIndex 1 0 = 11 ∧ targetAt slackIndex 1 1 = 12 ∧
      targetAt slackIndex 1 2 = 14 := by decide +kernel
  have late : offsetAt slackIndex 1 0 ≠ 1 := by decide +kernel
  obtain ⟨accepted, each⟩ := acceptance_exact slackIndex 1
  obtain ⟨index, read⟩ := accepted.2 acceptable
  obtain ⟨_, size, _, between, _, _, written, encoded, least, equal⟩ := each index read
  rw [count] at size
  refine ⟨acceptable, index, read, size, ?_, ?_, written, encoded, least, ?_⟩
  · rw [between 0 (by omega), spans.1, spans.2.1]
  · rw [between 1 (by omega), spans.2.1, spans.2.2]
  · intro same
    obtain none | ⟨first, _⟩ := equal.1 same
    · exact absurd (count.symm.trans none) (by decide)
    · exact late first

end CompactFont.Index
