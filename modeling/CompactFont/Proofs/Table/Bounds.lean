import CompactFont.Proofs.Dict.Form
import CompactFont.Proofs.Index.Form
import CompactFont.Table

/-!
Descriptions of structures that lie within the first bytes of a table. All positions that such a
description records are those of bytes of the table, and where one refers to another part of the
description, that part exists.
-/

set_option autoImplicit false

namespace CompactFont

structure Span.Inside (span : Span) (size : Nat) : Prop where
  ordered : span.start ≤ span.stop
  inside : span.stop ≤ size

structure Index.Inside (index : Index) (size : Nat) : Prop where
  some : 0 < index.offsets.size
  few : index.size ≤ 65535
  ascending : index.offsets.toList.Pairwise (· ≤ ·)
  after : ∀ offset ∈ index.offsets, index.start ≤ offset
  inside : ∀ offset ∈ index.offsets, offset ≤ size

structure PrivateDict.Inside (privateDict : PrivateDict) (size : Nat) : Prop where
  span : privateDict.span.Inside size
  entries : ∀ entry ∈ privateDict.entries, entry.span.Inside size
  subrs : ∀ index ∈ privateDict.subrs, index.Inside size

structure FontDict.Inside (fontDict : FontDict) (size : Nat) : Prop where
  entries : ∀ entry ∈ fontDict.entries, entry.span.Inside size
  privateDict : ∀ privateDict ∈ fontDict.privateDict, privateDict.Inside size

structure FdSelect.Inside (select : FdSelect) (glyphCount fontDictCount size : Nat) : Prop where
  span : select.span.Inside size
  complete : select.assigned.size = glyphCount
  known : ∀ index ∈ select.assigned, index.toNat < fontDictCount

/-- What depends on how the glyphs of a font are identified. A name-keyed font has neither Font DICTs
nor an FDSelect, and a CID-keyed one has no Private DICT besides those of its Font DICTs. -/
def Keying.Inside (glyphCount size : Nat) : Keying → Prop
  | named privateDict => ∀ found ∈ privateDict, found.Inside size
  | cid select fontDicts =>
    select.Inside glyphCount fontDicts.size size ∧ 0 < fontDicts.size ∧ fontDicts.size ≤ 65535 ∧
      ∀ fontDict ∈ fontDicts, fontDict.Inside size

structure Font.Inside (font : Font) (size : Nat) : Prop where
  nameSpan : font.nameSpan.Inside size
  topDict : ∀ entry ∈ font.topDict, entry.span.Inside size
  charstringType : font.charstringType.number = 1 ∨ font.charstringType.number = 2
  charStrings : font.charStrings.Inside size
  charset : ∀ charset ∈ font.charset, charset.span.Inside size
  keying : font.keying.Inside font.glyphCount size

theorem Font.Inside.fontDictCount_le {font : Font} {size : Nat} (inside : font.Inside size) :
    font.fontDictCount ≤ 65535 := by
  have keying := inside.keying
  unfold Font.fontDictCount
  split
  · decide
  · next same =>
    rw [same] at keying
    exact keying.2.2.1

structure Table.Inside (table : Table) (size : Nat) : Prop where
  header : Table.leastHeaderSize ≤ table.headerSize ∧ table.headerSize ≤ size
  names : table.names.Inside size
  topDicts : table.topDicts.Inside size
  strings : table.strings.Inside size
  globalSubrs : table.globalSubrs.Inside size
  counts : table.topDicts.size = table.names.size ∧ table.fonts.size = table.names.size
  fonts : ∀ font ∈ table.fonts, font.Inside size

/-! ### Elements of an INDEX -/

namespace Index

variable {index : Index} {size : Nat}

theorem Inside.stop (inside : index.Inside size) : index.start ≤ index.stop ∧ index.stop ≤ size := by
  have last : index.size < index.offsets.size := Nat.sub_lt inside.some Nat.zero_lt_one
  have found : index.stop ∈ index.offsets := by
    rw [Index.stop, Array.getD_eq_getD_getElem?, Array.getElem?_eq_getElem last, Option.getD_some]
    exact Array.getElem_mem last
  exact ⟨inside.after _ found, inside.inside _ found⟩

theorem Inside.span (inside : index.Inside size) : index.span.Inside size :=
  ⟨inside.stop.1, inside.stop.2⟩

theorem Inside.elementSpan (inside : index.Inside size) {i : Nat} (bound : i < index.size) :
    (index.elementSpan i).Inside size := by
  unfold Index.size at bound
  have first : i < index.offsets.size := by omega
  have second : i + 1 < index.offsets.size := by omega
  have ordered := List.pairwise_iff_getElem.1 inside.ascending i (i + 1)
    (by rwa [Array.length_toList]) (by rwa [Array.length_toList]) (Nat.lt_succ_self i)
  have span : index.elementSpan i = ⟨index.offsets[i], index.offsets[i + 1]⟩ := by
    simp only [Index.elementSpan, Array.getD_eq_getD_getElem?, Array.getElem?_eq_getElem first,
      Array.getElem?_eq_getElem second, Option.getD_some]
  rw [span]
  exact ⟨ordered, inside.inside _ (Array.getElem_mem second)⟩

theorem Form.Valid.le_last {form : Form} (valid : form.Valid) :
    ∀ offset ∈ form.offsets, offset ≤ form.last := by
  intro offset listed
  have full := valid.full
  rw [Form.last, List.getLastD_eq_getLast?, List.getLast?_eq_some_getLast full, Option.getD_some]
  rw [← List.dropLast_append_getLast full] at listed
  have ascending := valid.ascending
  rw [← List.dropLast_append_getLast full, List.pairwise_append] at ascending
  rcases List.mem_append.1 listed with early | final
  · exact ascending.2.2 offset early _ (List.mem_singleton_self _)
  · exact Nat.le_of_eq (List.mem_singleton.1 final)

theorem Form.Valid.inside_placed {form : Form} (valid : form.Valid) {pos : Nat}
    (within : pos + form.size ≤ size) : (form.placed pos).Inside size := by
  have base : ∀ offset ∈ (form.placed pos).offsets, ∃ relative ∈ form.offsets,
      pos + (form.header.length - 1) + relative = offset := by
    intro offset found
    rw [Form.placed, List.mem_toArray, List.mem_map] at found
    exact found
  constructor
  · rw [Form.placed, List.size_toArray, List.length_map]
    exact valid.count.1
  · rw [Form.size_placed]
    exact Nat.sub_le_of_le_add valid.count.2
  · rw [Form.placed, List.toList_toArray, List.pairwise_map]
    exact valid.ascending.imp fun lesser => Nat.add_le_add_left lesser _
  · intro offset found
    obtain ⟨relative, _, rfl⟩ := base offset found
    rw [Nat.add_assoc]
    exact Nat.le_add_right _ _
  · intro offset found
    obtain ⟨relative, listed, rfl⟩ := base offset found
    have most := valid.le_last relative listed
    rw [Form.size] at within
    omega

theorem inside_of_run_read {source : Source} {pos stop : Nat} (inside : pos ≤ source.stop)
    (read : read.run source pos = .ok index stop) : index.Inside source.stop := by
  obtain ⟨form, valid, _, within, rfl, _⟩ := (run_read_eq_ok inside).1 read
  exact valid.inside_placed within

end Index

/-! ### Entries of a DICT -/

theorem Dict.mem_entriesFrom {pos : Nat} {forms : List Form} {entry : Entry}
    (listed : entry ∈ entriesFrom pos forms) :
    entry.span.Inside (pos + (raws forms).length) := by
  induction forms generalizing pos with
  | nil => exact absurd listed List.not_mem_nil
  | cons form forms induction =>
    rw [raws_cons, List.length_append]
    rcases List.mem_cons.1 listed with rfl | later
    · exact ⟨Nat.le_add_right _ _, by dsimp only [Form.placed]; omega⟩
    · have rest := induction later
      exact ⟨rest.ordered, by have bound := rest.inside; omega⟩

theorem Dict.inside_of_readSpan {bytes : ByteArray} {span : Span} {entries : Array Dict.Entry}
    (read : Dict.readSpan bytes span = .ok entries) :
    span.Inside bytes.size ∧ ∀ entry ∈ entries, entry.span.Inside bytes.size := by
  obtain ⟨forms, _, holds, ends, rfl⟩ := Dict.readSpan_eq_ok.1 read
  have bound := holds.le_size
  refine ⟨⟨by omega, by omega⟩, fun entry found => ?_⟩
  have inside := Dict.mem_entriesFrom (List.mem_toArray.1 found)
  exact ⟨inside.ordered, Nat.le_trans inside.inside bound⟩

end CompactFont
