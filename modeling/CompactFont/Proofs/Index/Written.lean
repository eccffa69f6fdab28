import CompactFont.Index
import CompactFont.Proofs.Index.Form
import CompactFont.Proofs.Outcome

/-!
An INDEX that is written reads back, whatever surrounds it: it has as many elements as were given, each
of them lies where the lengths of those before it say, and its bytes are the ones that were given. Only
too many elements, or elements that are too long in all, are not written.
-/

set_option autoImplicit false

namespace CompactFont.Index

def offsetsFrom : (start : Nat) → (lengths : List Nat) → List Nat
  | start, [] => [start]
  | start, length :: lengths => start :: offsetsFrom (start + length) lengths

theorem toList_relativeOffsets (lengths : List Nat) :
    (relativeOffsets lengths).toList = offsetsFrom 1 lengths := by
  have fold : ∀ (lengths : List Nat) (offsets : Array Nat) (last : Nat),
      ((lengths.foldl (fun done length => (done.1.push (done.2 + length), done.2 + length))
        (offsets.push last, last)).1).toList = offsets.toList ++ offsetsFrom last lengths := by
    intro lengths
    induction lengths with
    | nil => intro offsets last; simp [offsetsFrom]
    | cons length lengths induction =>
      intro offsets last
      rw [List.foldl_cons, induction]
      simp [offsetsFrom]
  exact fold lengths #[] 1

theorem length_offsetsFrom (start : Nat) (lengths : List Nat) :
    (offsetsFrom start lengths).length = lengths.length + 1 := by
  induction lengths generalizing start with
  | nil => rfl
  | cons length lengths induction => rw [offsetsFrom, List.length_cons, induction, List.length_cons]

theorem bounds_of_mem_offsetsFrom {start offset : Nat} {lengths : List Nat}
    (found : offset ∈ offsetsFrom start lengths) :
    start ≤ offset ∧ offset ≤ start + lengths.sum := by
  induction lengths generalizing start with
  | nil =>
    rw [offsetsFrom, List.mem_singleton] at found
    simp [found]
  | cons length lengths induction =>
    rw [offsetsFrom, List.mem_cons] at found
    rw [List.sum_cons]
    rcases found with rfl | found
    · omega
    · have bounds := induction found
      omega

theorem pairwise_offsetsFrom (start : Nat) (lengths : List Nat) :
    (offsetsFrom start lengths).Pairwise (· ≤ ·) := by
  induction lengths generalizing start with
  | nil => exact List.pairwise_singleton _ _
  | cons length lengths induction =>
    rw [offsetsFrom, List.pairwise_cons]
    refine ⟨fun offset found => ?_, induction _⟩
    have bounds := bounds_of_mem_offsetsFrom found
    omega

theorem getElem?_offsetsFrom {start i : Nat} {lengths : List Nat} (inside : i ≤ lengths.length) :
    (offsetsFrom start lengths)[i]? = some (start + (lengths.take i).sum) := by
  induction lengths generalizing start i with
  | nil =>
    have first : i = 0 := Nat.le_zero.1 inside
    simp [first, offsetsFrom]
  | cons length lengths induction =>
    cases i with
    | zero => simp [offsetsFrom]
    | succ i =>
      rw [offsetsFrom, List.getElem?_cons_succ, induction (Nat.le_of_succ_le_succ inside),
        List.take_succ_cons, List.sum_cons, Nat.add_assoc]

theorem getLastD_offsetsFrom (start : Nat) (lengths : List Nat) :
    (offsetsFrom start lengths).getLastD 1 = start + lengths.sum := by
  rw [List.getLastD_eq_getLast?, List.getLast?_eq_getElem?, length_offsetsFrom, Nat.add_sub_cancel,
    getElem?_offsetsFrom (Nat.le_refl _), List.take_length, Option.getD_some]

/-! ### The form of an INDEX that is written -/

def Form.ofLengths (lengths : List Nat) : Form :=
  ⟨offsetWidth (lengths.sum + 1), offsetsFrom 1 lengths⟩

theorem offsetWidth_bounds (offset : Nat) : 1 ≤ offsetWidth offset ∧ offsetWidth offset ≤ 4 := by
  unfold offsetWidth
  split
  · decide
  split
  · decide
  split <;> decide

theorem lt_offsetWidth {offset : Nat} (fits : offset ≤ OutputError.maxU32) :
    offset < 256 ^ offsetWidth offset := by
  have bound : offset < 256 ^ 4 := Nat.lt_of_le_of_lt fits (by decide)
  unfold offsetWidth
  split
  · assumption
  split
  · assumption
  split
  · assumption
  · exact bound

private theorem listed_foldl (width : Nat) (offsets : List Nat) (bytes : ByteArray) :
    listed (offsets.foldl (fun bytes offset => bytes ++ (BigEndian.encode width offset).toByteArray)
      bytes) = listed bytes ++ offsets.flatMap (BigEndian.encode width) := by
  induction offsets generalizing bytes with
  | nil => simp
  | cons offset offsets induction =>
    rw [List.foldl_cons, induction, listed_append, listed_toByteArray, List.flatMap_cons,
      List.append_assoc]

/-- A header is written if the form of the INDEX is valid, and then it is the one of the form. -/
theorem valid_of_header {lengths : List Nat} {bytes : ByteArray}
    (written : header lengths = Except.ok bytes) :
    (Form.ofLengths lengths).Valid ∧ listed bytes = (Form.ofLengths lengths).header := by
  unfold header at written
  rw [totalLength_eq_sum] at written
  obtain ⟨count, counted, written⟩ := bind_eq_ok.1 written
  obtain ⟨narrow, rfl⟩ := OutputError.atMost_eq_ok_iff.1 counted
  have total := length_offsetsFrom 1 lengths
  split at written
  · next empty =>
    obtain rfl := List.length_eq_zero_iff.1 empty
    cases written
    exact ⟨Form.valid_none, listed_toByteArray _⟩
  · next filled =>
    obtain ⟨last, bounded, written⟩ := bind_eq_ok.1 written
    obtain ⟨small, rfl⟩ := OutputError.atMost_eq_ok_iff.1 bounded
    cases written
    constructor
    · constructor
      · exact offsetWidth_bounds _
      · change 1 ≤ (offsetsFrom 1 lengths).length ∧ (offsetsFrom 1 lengths).length ≤ 0x10000
        have bound : OutputError.maxU16 + 1 = 0x10000 := rfl
        omega
      · intro offset found
        have bounds := bounds_of_mem_offsetsFrom found
        refine Nat.lt_of_le_of_lt ?_ (lt_offsetWidth small)
        omega
      · intro offset found
        exact (bounds_of_mem_offsetsFrom found).1
      · exact pairwise_offsetsFrom 1 lengths
      · intro single
        have counted : (offsetsFrom 1 lengths).length = 1 := single
        omega
    · have elements : (Form.ofLengths lengths).offsets.length ≠ 1 := by
        change (offsetsFrom 1 lengths).length ≠ 1
        omega
      rw [Form.header_of_elements elements, ← Array.foldl_toList, listed_foldl,
        toList_relativeOffsets, listed_toByteArray, List.append_assoc]
      change _ = BigEndian.encode 2 ((offsetsFrom 1 lengths).length - 1) ++ _
      rw [total]
      rfl

/-- A header is written exactly for lengths whose number takes two bytes, and whose sum leaves the
offset of the last end in four. -/
theorem exists_header_iff {lengths : List Nat} :
    (∃ bytes, header lengths = Except.ok bytes) ↔
      lengths.length ≤ OutputError.maxU16 ∧ lengths.sum < OutputError.maxU32 := by
  unfold header
  rw [totalLength_eq_sum]
  constructor
  · rintro ⟨bytes, written⟩
    obtain ⟨count, counted, written⟩ := bind_eq_ok.1 written
    obtain ⟨few, rfl⟩ := OutputError.atMost_eq_ok_iff.1 counted
    refine ⟨few, ?_⟩
    split at written
    · next empty =>
      rw [List.length_eq_zero_iff.1 empty]
      decide
    · obtain ⟨last, bounded, _⟩ := bind_eq_ok.1 written
      exact (OutputError.atMost_eq_ok_iff.1 bounded).1
  · rintro ⟨few, small⟩
    have counted : Writer.atMost OutputError.maxU16 .indexCount lengths.length =
        Except.ok lengths.length := OutputError.atMost_eq_ok_iff.2 ⟨few, rfl⟩
    have bounded : Writer.atMost OutputError.maxU32 .indexPayload (lengths.sum + 1) =
        Except.ok (lengths.sum + 1) := OutputError.atMost_eq_ok_iff.2 ⟨small, rfl⟩
    rw [counted, bounded]
    dsimp only [bind, Except.bind]
    split <;> exact ⟨_, rfl⟩

namespace Form

theorem size_ofLengths (lengths : List Nat) :
    (ofLengths lengths).size = (ofLengths lengths).header.length + lengths.sum := by
  have positive := length_header_pos (ofLengths lengths)
  have last : (ofLengths lengths).last = 1 + lengths.sum := getLastD_offsetsFrom 1 lengths
  rw [size, last]
  omega

theorem size_placed_ofLengths (lengths : List Nat) (pos : Nat) :
    ((ofLengths lengths).placed pos).size = lengths.length := by
  simp [Index.size, placed, ofLengths, length_offsetsFrom]

private theorem getD_placed_ofLengths {lengths : List Nat} (pos : Nat) {i : Nat} (other : Nat)
    (inside : i ≤ lengths.length) :
    ((ofLengths lengths).placed pos).offsets.getD i other =
      pos + (ofLengths lengths).header.length + (lengths.take i).sum := by
  have positive := length_header_pos (ofLengths lengths)
  have offset : (offsetsFrom 1 lengths)[i]? = some (1 + (lengths.take i).sum) :=
    getElem?_offsetsFrom inside
  have found : ((ofLengths lengths).placed pos).offsets[i]? =
      some (pos + (ofLengths lengths).header.length + (lengths.take i).sum) := by
    simp only [placed, List.getElem?_toArray, List.getElem?_map]
    change Option.map _ (offsetsFrom 1 lengths)[i]? = _
    rw [offset, Option.map_some, Option.some.injEq]
    omega
  rw [Array.getD_eq_getD_getElem?, found, Option.getD_some]

theorem elementSpan_placed_ofLengths {lengths : List Nat} (pos : Nat) {i : Nat}
    (inside : i < lengths.length) :
    ((ofLengths lengths).placed pos).elementSpan i =
      ⟨pos + (ofLengths lengths).header.length + (lengths.take i).sum,
        pos + (ofLengths lengths).header.length + (lengths.take (i + 1)).sum⟩ := by
  rw [elementSpan, getD_placed_ofLengths pos _ (Nat.le_of_lt inside),
    getD_placed_ofLengths pos _ inside]

end Form

/-! ### The elements of an INDEX that is written -/

private theorem listed_foldl_append (elements : List ByteArray) (bytes : ByteArray) :
    listed (elements.foldl (· ++ ·) bytes) = listed bytes ++ elements.flatMap listed := by
  induction elements generalizing bytes with
  | nil => simp
  | cons element elements induction =>
    rw [List.foldl_cons, induction, listed_append, List.flatMap_cons, List.append_assoc]

def Form.ofElements (elements : List ByteArray) : Form :=
  .ofLengths (elements.map ByteArray.size)

theorem valid_of_encode {elements : List ByteArray} {bytes : ByteArray}
    (written : encode elements = Except.ok bytes) :
    (Form.ofElements elements).Valid ∧
      listed bytes = (Form.ofElements elements).header ++ elements.flatMap listed := by
  obtain ⟨start, begun, same⟩ := bind_eq_ok.1 written
  cases same
  obtain ⟨valid, header⟩ := valid_of_header begun
  exact ⟨valid, by rw [listed_foldl_append, header]; rfl⟩

theorem exists_encode_iff {elements : List ByteArray} :
    (∃ bytes, encode elements = Except.ok bytes) ↔ elements.length ≤ OutputError.maxU16 ∧
      (elements.map ByteArray.size).sum < OutputError.maxU32 := by
  have header := @exists_header_iff (elements.map ByteArray.size)
  rw [List.length_map] at header
  rw [← header]
  constructor
  · rintro ⟨bytes, written⟩
    obtain ⟨start, begun, _⟩ := bind_eq_ok.1 written
    exact ⟨start, begun⟩
  · rintro ⟨start, begun⟩
    exact ⟨_, bind_eq_ok.2 ⟨start, begun, rfl⟩⟩

theorem size_of_encode {elements : List ByteArray} {bytes : ByteArray}
    (written : encode elements = Except.ok bytes) : bytes.size = (Form.ofElements elements).size := by
  obtain ⟨_, content⟩ := valid_of_encode written
  rw [← length_listed, content, List.length_append, length_flatMap_listed]
  exact (Form.size_ofLengths _).symm

theorem run_read_of_encode {elements : List ByteArray} {bytes : ByteArray}
    (written : encode elements = Except.ok bytes) {source : Source} {pos : Nat}
    (holds : source.Holds pos (listed bytes)) :
    read.run source pos = .ok ((Form.ofElements elements).placed pos) (pos + bytes.size) := by
  obtain ⟨valid, content⟩ := valid_of_encode written
  exact valid.spelled pos ⟨_, content.symm⟩ (size_of_encode written) source holds

theorem Form.elements_placed {elements : List ByteArray} {table : ByteArray} {pos : Nat}
    (holds : Holds table pos ((ofElements elements).header ++ elements.flatMap listed)) :
    (((ofElements elements).placed pos).elements table).toList = elements := by
  have size : ((ofElements elements).placed pos).size = elements.length := by
    rw [ofElements, size_placed_ofLengths, List.length_map]
  apply List.ext_getElem
  · simp [Index.elements, size]
  · intro i _ inside
    have counted : i < (elements.map ByteArray.size).length := by rwa [List.length_map]
    have element := (holds.right.of_flatMap inside).slice_eq
    have next : ((elements.map ByteArray.size).take (i + 1)).sum =
        ((elements.map ByteArray.size).take i).sum + elements[i].size := by
      rw [List.take_succ_eq_append_getElem counted, List.sum_append, List.getElem_map,
        List.sum_singleton]
    simp only [Index.elements, Array.toList_map, Array.toList_range, List.getElem_map,
      List.getElem_range, Index.element]
    rw [ofElements, elementSpan_placed_ofLengths pos counted, next]
    apply listed_injective
    rw [length_listed, Nat.add_assoc _ _ elements[i].size] at element
    exact element

theorem elements_placed {elements : List ByteArray} {bytes : ByteArray}
    (written : encode elements = Except.ok bytes) {table : ByteArray} {pos : Nat}
    (holds : Holds table pos (listed bytes)) :
    (((Form.ofElements elements).placed pos).elements table).toList = elements := by
  rw [(valid_of_encode written).2] at holds
  exact Form.elements_placed holds

theorem element_eq_of_elements {index : Index} {table : ByteArray} {elements : List ByteArray}
    (same : (index.elements table).toList = elements) {i : Nat} (inside : i < elements.length) :
    index.element table i = elements[i] := by
  subst same
  simp only [Index.elements, Array.toList_map, Array.toList_range, List.getElem_map,
    List.getElem_range]

/-- An INDEX with the bytes that are written for some elements has these elements. -/
theorem elements_of_raw {elements : List ByteArray} {table : ByteArray} {pos stop : Nat}
    {index : Index} (inside : pos ≤ table.size) (valid : (Form.ofElements elements).Valid)
    (found : read.run (.whole table) pos = .ok index stop)
    (raw : listed (index.raw table) = (Form.ofElements elements).header ++ elements.flatMap listed) :
    (index.elements table).toList = elements := by
  obtain ⟨form, own, _, within, placed, ends⟩ := (run_read_eq_ok inside).1 found
  have span : index.span = ⟨pos, stop⟩ := by
    rw [placed, Index.span, own.stop_placed, ends]
    rfl
  have ordered : pos ≤ stop := by
    rw [ends]
    exact Nat.le_add_right pos _
  have holds : Holds table pos (listed ((⟨pos, stop⟩ : Span).slice table)) :=
    .of_slice ordered (ends ▸ within)
  rw [Index.raw, span] at raw
  rw [raw] at holds
  have length : ((Form.ofElements elements).header ++ elements.flatMap listed).length =
      (Form.ofElements elements).size := by
    rw [List.length_append, length_flatMap_listed]
    exact (Form.size_ofLengths _).symm
  have again := valid.spelled pos ⟨_, rfl⟩ length _ holds.whole
  cases found.symm.trans again
  exact Form.elements_placed holds

theorem exists_readAt_of_encode {elements : List ByteArray} {bytes : ByteArray}
    (written : encode elements = Except.ok bytes) {table : ByteArray} {pos : Nat}
    (holds : Holds table pos (listed bytes)) :
    ∃ index, readAt table pos = .ok index ∧ (index.elements table).toList = elements ∧
      index.span = ⟨pos, pos + bytes.size⟩ := by
  refine ⟨(Form.ofElements elements).placed pos, Reader.readAt_eq_ok.2
    ⟨Nat.le_trans (Nat.le_add_right _ _) holds.le_size, _, run_read_of_encode written holds.whole⟩,
    elements_placed written holds, ?_⟩
  rw [span, (valid_of_encode written).1.stop_placed, size_of_encode written]
  rfl

/-! ### An INDEX between other bytes -/

/-- Reading undoes writing, whatever surrounds the INDEX: it is found again with as many elements, each
with its own bytes, and the reader stops at the byte after the ones that were written. -/
theorem read_encode {elements : List ByteArray} (few : elements.length ≤ 65535)
    (small : (elements.map ByteArray.size).sum + 1 ≤ 0xFFFFFFFF) (before after : ByteArray) :
    ∃ bytes index, encode elements = Except.ok bytes ∧
      read.run (.whole (before ++ bytes ++ after)) before.size =
        .ok index (before.size + bytes.size) ∧
      index.size = elements.length ∧
      (∀ i (inside : i < elements.length),
        index.element (before ++ bytes ++ after) i = elements[i]) ∧
      index.raw (before ++ bytes ++ after) = bytes ∧
      index.start = before.size ∧ index.stop = before.size + bytes.size := by
  obtain ⟨bytes, written⟩ := exists_encode_iff.2 ⟨few, small⟩
  have holds := Holds.of_append before bytes after
  have size := size_of_encode written
  have stop : ((Form.ofElements elements).placed before.size).stop = before.size + bytes.size := by
    rw [(valid_of_encode written).1.stop_placed, size]
  refine ⟨bytes, (Form.ofElements elements).placed before.size, written,
    run_read_of_encode written holds.whole, ?_, ?_, ?_, rfl, stop⟩
  · rw [Form.ofElements, Form.size_placed_ofLengths, List.length_map]
  · exact fun i inside => element_eq_of_elements (elements_placed written holds) inside
  · have span : ((Form.ofElements elements).placed before.size).span =
        ⟨before.size, before.size + (listed bytes).length⟩ := congrArg _ stop
    rw [Index.raw, span]
    exact listed_injective holds.slice_eq

/-- Two, no and 253 bytes: the first offset that takes two bytes is the end of the last element. -/
def wideElements : List ByteArray := [⟨#[97, 98]⟩, .empty, ⟨Array.replicate 253 7⟩]

theorem read_encode_wideElements :
    wideElements.length ≤ 65535 ∧ (wideElements.map ByteArray.size).sum + 1 = 256 ∧
      ∃ bytes index, encode wideElements = Except.ok bytes ∧ bytes.size = 266 ∧
        read.run (.whole (⟨#[0xAA, 0xAA, 0xAA]⟩ ++ bytes ++ ⟨#[0xFF]⟩)) 3 = .ok index 269 ∧
        index.size = 3 ∧
        (∀ i (inside : i < 3),
          index.element (⟨#[0xAA, 0xAA, 0xAA]⟩ ++ bytes ++ ⟨#[0xFF]⟩) i = wideElements[i]) ∧
        index.raw (⟨#[0xAA, 0xAA, 0xAA]⟩ ++ bytes ++ ⟨#[0xFF]⟩) = bytes ∧
        index.start = 3 ∧ index.stop = 269 := by
  obtain ⟨bytes, index, written, found, size, elements, raw, start, stop⟩ :=
    read_encode (by decide : wideElements.length ≤ 65535)
      (by decide +kernel : (wideElements.map ByteArray.size).sum + 1 ≤ 0xFFFFFFFF)
      ⟨#[0xAA, 0xAA, 0xAA]⟩ ⟨#[0xFF]⟩
  obtain ⟨_, again, length⟩ : ∃ bytes, encode wideElements = Except.ok bytes ∧ bytes.size = 266 := by
    decide +kernel
  cases written.symm.trans again
  rw [length] at found stop
  exact ⟨by decide, by decide +kernel, bytes, index, written, length, found, size, elements, raw,
    start, stop⟩

end CompactFont.Index
