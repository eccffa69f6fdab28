import CompactFont.Proofs.Charset
import CompactFont.Proofs.Content.Basic
import CompactFont.Proofs.FdSelect
import CompactFont.Proofs.Table.Directory
import CompactFont.Proofs.Table.Reading

/-!
The content of a font that was read is sound, structure by structure: what locates a structure is
there exactly if the structure is, and everything that is copied can be read at any position.
-/

set_option autoImplicit false

namespace CompactFont

variable {bytes : ByteArray}

namespace Dict

theorem soundContent_of_readSpan {span : Span} {entries : Array Entry} (locating : Operator)
    (read : readSpan bytes span = .ok entries) :
    SoundContent locating (content bytes locating entries) where
  sound form listed := by
    obtain ⟨entry, present, _, rfl⟩ := some_mem_content.1 listed
    exact sound_of_readSpan read present
  other form listed := by
    obtain ⟨entry, _, other, rfl⟩ := some_mem_content.1 listed
    exact other

end Dict

namespace PrivateDict

theorem isSome_of_foldlM {start : Nat} {entries : List Dict.Entry} {found subrs : Option Index}
    (folded : entries.foldlM (locateSubrs bytes start) found = .ok subrs) :
    subrs.isSome ↔ found.isSome ∨ ∃ entry ∈ entries, entry.operator = .subrs := by
  induction entries generalizing found with
  | nil =>
    cases folded
    simp
  | cons entry entries induction =>
    rw [List.foldlM_cons] at folded
    obtain ⟨middle, located, folded⟩ := bind_eq_ok.1 folded
    rw [induction folded]
    unfold locateSubrs at located
    split at located
    · next same =>
      obtain ⟨offset, _, located⟩ := bind_eq_ok.1 located
      obtain ⟨index, _, located⟩ := bind_eq_ok.1 located
      cases located
      simp [same]
    · next other =>
      cases located
      simp [other]

theorem sound_content {span : Span} {privateDict : PrivateDict}
    (read : readSpan bytes span = .ok privateDict) : (privateDict.content bytes).Sound := by
  obtain ⟨_, listed, folded⟩ := readSpan_eq_ok.1 read
  rw [← Array.foldlM_toList] at folded
  constructor
  · exact Dict.soundContent_of_readSpan .subrs listed
  · have located := isSome_of_foldlM folded
    simp only [content, Option.isSome_map, Dict.none_mem_content]
    simpa using located

theorem sound_content_of_ofEntry {entry : Dict.Entry} {privateDict : PrivateDict}
    (read : ofEntry bytes entry = .ok privateDict) : (privateDict.content bytes).Sound := by
  obtain ⟨_, _, _, _, read⟩ := ofEntry_eq_ok.1 read
  exact sound_content read

end PrivateDict

theorem FontDict.sound_content {span : Span} {fontDict : FontDict}
    (read : readSpan bytes span = .ok fontDict) : (fontDict.content bytes).Sound := by
  obtain ⟨listed, located⟩ := readSpan_eq_ok.1 read
  constructor
  · exact Dict.soundContent_of_readSpan .privateDict listed
  · simp only [content, Option.isSome_map, Dict.none_mem_content]
    rcases mapM_option_eq_ok.1 located with ⟨absent, none⟩ | ⟨entry, found, present, same, _⟩
    · rw [none]
      simpa using absent
    · have known := Array.find?_some present
      rw [same]
      simp only [Option.isSome_some, true_iff]
      exact ⟨entry, Array.mem_of_find?_eq_some present, by simpa using known⟩
  · intro privateDict present
    obtain ⟨found, same, rfl⟩ := Option.map_eq_some_iff.1 present
    rcases mapM_option_eq_ok.1 located with ⟨_, none⟩ | ⟨entry, other, _, some, read⟩
    · rw [none] at same
      cases same
    · rw [some] at same
      cases same
      exact PrivateDict.sound_content_of_ofEntry read

namespace Index

/-- The bytes of an INDEX that was read are an INDEX wherever they stand. -/
theorem form_of_run_read {index : Index} {pos stop : Nat} (inside : pos ≤ bytes.size)
    (read : Index.read.run (.whole bytes) pos = .ok index stop) :
    ∃ form : Form, form.Valid ∧ form.header <+: listed (index.raw bytes) ∧
      (listed (index.raw bytes)).length = form.size ∧ index = form.placed pos := by
  obtain ⟨form, valid, holds, within, rfl, rfl⟩ := (run_read_eq_ok inside).1 read
  have header := Form.length_header_pos form
  have raw : (form.placed pos).raw bytes = (⟨pos, pos + form.size⟩ : Span).slice bytes := by
    rw [Index.raw, Index.span, valid.stop_placed]
    rfl
  refine ⟨form, valid, ?_, ?_, rfl⟩
  · rw [raw]
    apply holds.1.isPrefix_slice
    have last : 1 ≤ form.last := one_le_getLastD valid.positive
    rw [Form.size]
    omega
  · rw [raw, length_listed, Span.size_slice_of_le within, Span.length, Nat.add_sub_cancel_left]

theorem size_le_of_run_read {index : Index} {pos stop : Nat} (inside : pos ≤ bytes.size)
    (read : Index.read.run (.whole bytes) pos = .ok index stop) :
    index.size ≤ OutputError.maxU16 := by
  obtain ⟨form, valid, _, _, rfl, _⟩ := (run_read_eq_ok inside).1 read
  have bound : OutputError.maxU16 + 1 = 0x10000 := rfl
  have count := valid.count.2
  rw [Form.size_placed]
  omega

theorem length_elements (index : Index) : (index.elements bytes).toList.length = index.size := by
  simp [elements]

end Index

/-! ### Parts of a font -/

theorem Font.sound_promotedFontDict {table : Table} {privateDict : Option PrivateDict}
    (small : table.nextStringId + 2 ≤ OutputError.maxOperand)
    (sound : ∀ found ∈ privateDict, (found.content table.bytes).Sound) :
    (Font.promotedFontDict table privateDict).Sound where
  entries := {
    sound := by
      intro form listed
      obtain rfl : form = .ofNaturals [table.nextStringId + 2] .fontName := by
        simpa [promotedFontDict] using listed
      apply Dict.Form.sound_ofNaturals _ (Dict.spells_ofEscaped 38)
      simpa using small
    other := by
      intro form listed
      obtain rfl : form = .ofNaturals [table.nextStringId + 2] .fontName := by
        simpa [promotedFontDict] using listed
      exact (by decide : Dict.Operator.fontName ≠ .privateDict) }
  located := by simp [promotedFontDict]
  privateDict := by
    intro found present
    cases privateDict with
    | none =>
      cases present
      exact ⟨⟨by simp, by simp⟩, by simp⟩
    | some given =>
      cases present
      exact sound given rfl

namespace Font

variable {name topDict : Span} {top : TopDict} {table : Table} {font : Font}

/-- The entries that promotion adds say that the font is CID-keyed, and nothing else. -/
theorem foldlM_promotedEntries (table : Table) (font : Font) (pos : Nat) (start : TopDict) :
    (Dict.entriesFrom pos (promotedEntries table font)).foldlM TopDict.add start =
      .ok { start with isCid := true } := rfl

theorem foldlM_topDict_content (found : Found table.bytes name topDict top font) (pos : Nat) :
    (Dict.entriesFrom pos (font.content table).topDict).foldlM TopDict.add TopDict.empty =
      .ok { TopDict.empty with isCid := true, charstringType := font.charstringType } := by
  have folded := found.entries
  rw [TopDict.ofEntries, ← Array.foldlM_toList] at folded
  have kept : ∀ (start : TopDict) (pos : Nat), start.charstringType = .type2 →
      (Dict.entriesFrom pos (TopDict.keptForms table.bytes font.topDict.toList)).foldlM
        TopDict.add start = .ok { start with
          isCid := start.isCid || top.isCid
          charstringType := top.charstringType } :=
    fun start pos type => TopDict.foldlM_keptForms folded type (by simp [TopDict.empty]) pos
  rw [found.charstringType, content, Dict.entriesFrom_append, List.foldlM_append]
  split
  · next cid =>
    rw [found.isCid] at cid
    refine bind_eq_ok.2 ⟨TopDict.empty, rfl, (kept _ _ rfl).trans ?_⟩
    rw [cid]
    rfl
  · refine bind_eq_ok.2 ⟨_, foldlM_promotedEntries table font pos _, (kept _ _ rfl).trans ?_⟩
    rfl

theorem sound_topDict_content (found : Found table.bytes name topDict top font)
    (strings : table.strings.size ≤ OutputError.maxU16)
    (glyphs : font.glyphCount ≤ OutputError.maxU16) :
    ∀ form ∈ (font.content table).topDict,
      form.Sound ∧ Subset.isReplaced form.operator = false := by
  have room : Table.firstStringId + OutputError.maxU16 + 1 ≤ OutputError.maxOperand := by decide
  have small : OutputError.maxU16 ≤ OutputError.maxOperand := by decide
  have next : table.nextStringId = Table.firstStringId + table.strings.size := rfl
  intro form listed
  rcases List.mem_append.1 listed with added | copied
  · split at added
    · cases added
    simp only [promotedEntries, List.mem_cons, List.not_mem_nil, or_false] at added
    rcases added with rfl | rfl
    · refine ⟨Dict.Form.sound_ofNaturals ?_ (Dict.spells_ofEscaped 30), rfl⟩
      intro value given
      simp only [List.mem_cons, List.not_mem_nil, or_false] at given
      omega
    · refine ⟨Dict.Form.sound_ofNaturals ?_ (Dict.spells_ofEscaped 34), rfl⟩
      intro value given
      simp only [List.mem_cons, List.not_mem_nil, or_false] at given
      omega
  · obtain ⟨entry, kept, rfl⟩ := List.mem_map.1 copied
    obtain ⟨present, notReplaced⟩ := List.mem_filter.1 kept
    rw [Bool.not_eq_true'] at notReplaced
    exact ⟨Dict.sound_of_readSpan found.topDict (Array.mem_toList_iff.1 present), notReplaced⟩

/-- Every Font DICT is sound, and every glyph belongs to one that exists. -/
theorem sound_fontDicts_content (found : Found table.bytes name topDict top font)
    (strings : table.strings.size ≤ OutputError.maxU16) :
    (∀ fontDict ∈ (font.content table).fontDicts, fontDict.Sound) ∧
      (font.content table).fontDicts ≠ [] ∧
      ∀ index ∈ (font.content table).assigned,
        index.toNat < (font.content table).fontDicts.length := by
  have room : Table.firstStringId + OutputError.maxU16 + 2 ≤ OutputError.maxOperand := by decide
  have next : table.nextStringId = Table.firstStringId + table.strings.size := rfl
  have keying := found.keying
  unfold readKeying at keying
  split at keying
  · obtain ⟨_, _, fontDicts, select, _, _, listed, some, assigned, same⟩ := readCid_eq_ok.1 keying
    obtain ⟨index, _, _, each⟩ := FontDict.readArray_eq_ok.1 listed
    obtain ⟨_, _, _, known, _⟩ := FdSelect.readAt_eq_ok.1 assigned
    simp only [content, same]
    refine ⟨?_, by simpa using some, ?_⟩
    · intro fontDict present
      obtain ⟨given, source, rfl⟩ := List.mem_map.1 present
      obtain ⟨i, place⟩ := Array.mem_iff_getElem?.1 (Array.mem_toList_iff.1 source)
      exact FontDict.sound_content (each i given place)
    · simpa using known
  · obtain ⟨privateDict, located, same⟩ := readNamed_eq_ok.1 keying
    simp only [content, same]
    refine ⟨?_, by simp, ?_⟩
    · intro fontDict present
      obtain rfl := List.mem_singleton.1 present
      apply sound_promotedFontDict (by omega)
      intro given present
      rcases mapM_option_eq_ok.1 located with ⟨_, none⟩ | ⟨entry, other, _, some, read⟩
      · rw [none] at present
        cases present
      · rw [some] at present
        cases present
        exact PrivateDict.sound_content_of_ofEntry read
    · intro index present
      rw [Array.eq_of_mem_replicate present]
      exact Nat.zero_lt_one

theorem spelled_fdSelect_content (found : Found table.bytes name topDict top font)
    (glyphs : font.glyphCount ≤ OutputError.maxU16) (pos : Nat) :
    (FdSelect.readAssigned font.glyphCount).Spelled pos (font.content table).fdSelect
      (font.content table).assigned := by
  have keying := found.keying
  unfold readKeying at keying
  split at keying
  · obtain ⟨_, _, _, _, _, _, _, _, assigned, same⟩ := readCid_eq_ok.1 keying
    simp only [content, same]
    exact FdSelect.spelled_of_readAt assigned pos
  · obtain ⟨privateDict, _, same⟩ := readNamed_eq_ok.1 keying
    simp only [content, same]
    exact FdSelect.spelled_allZero (Nat.lt_succ_of_le glyphs) pos

theorem spelled_charset_content (found : Found table.bytes name topDict top font)
    (glyphs : font.glyphCount ≤ OutputError.maxU16) (pos : Nat) :
    (Charset.skip font.glyphCount).Spelled pos (font.content table).charset () := by
  have identity := Charset.spelled_identity (Nat.lt_succ_of_le glyphs) pos
  unfold content
  dsimp only
  split
  · next select fontDicts charset _ custom =>
    have charset := found.charset
    rw [custom] at charset
    obtain ⟨_, _, _, read⟩ := readCharset_eq_some.1 charset
    exact Charset.spelled_of_readAt read pos
  · exact identity

theorem Found.glyphCount_le (found : Found table.bytes name topDict top font) :
    font.glyphCount ≤ OutputError.maxU16 := by
  obtain ⟨_, _, read⟩ := found.charStrings
  obtain ⟨inside, _, read⟩ := Reader.readAt_eq_ok.1 read
  exact Index.size_le_of_run_read inside read

end Font

/-- The content of a font that was read is sound, if the strings that promotion adds to those of
the table make an INDEX. -/
theorem Table.sound_content {table : Table} {font : Font} {i : Nat}
    (read : Table.read bytes = .ok table) (present : table.fonts[i]? = some font)
    (promoted : font.isCid = false → (Index.Form.ofElements (font.promotedStrings table)).Valid) :
    (font.content table).Sound := by
  obtain ⟨rfl, directory, _, _, each⟩ := Table.read_eq_ok.1 read
  obtain ⟨top, found⟩ := Font.read_eq_ok.1 (each i font present)
  obtain ⟨_, last, directory⟩ := Reader.readAt_eq_ok.1 directory
  obtain ⟨⟨minor, offsetSize, header⟩, large, small, inside, _, _, _, readNames, readTopDicts,
    readStrings, _⟩ := Table.run_readDirectory_eq_ok.1 directory
  have inside : table.headerSize ≤ table.bytes.size := inside
  have namesEnd := Index.le_stop_of_run_read inside readNames
  have topDictsEnd := Index.le_stop_of_run_read namesEnd readTopDicts
  have strings := Index.size_le_of_run_read topDictsEnd readStrings
  have glyphs := found.glyphCount_le
  have count : (font.content table).charStrings.length = font.glyphCount :=
    Index.length_elements _
  obtain ⟨fontDicts, someFontDict, assigned⟩ := Font.sound_fontDicts_content found strings
  have headerLength : (font.content table).header.length = table.headerSize := by
    change (listed (table.bytes.extract 0 table.headerSize)).length = _
    rw [length_listed, ByteArray.size_extract, Nat.min_eq_left inside, Nat.sub_zero]
  refine ⟨?_, by rwa [headerLength], Font.sound_topDict_content found strings glyphs, ?_, ?_, ?_,
    assigned, ?_, fontDicts, someFontDict⟩
  · have four : 0 + 4 ≤ table.headerSize := by
      rw [Nat.zero_add]
      exact large
    obtain ⟨rest, same⟩ := header.1.isPrefix_slice four
    exact ⟨minor, offsetSize, rest, by rw [headerLength]; exact same.symm⟩
  · rw [TopDict.ofEntries, List.foldlM_toArray]
    exact Font.foldlM_topDict_content found 0
  · unfold Font.content
    dsimp only
    split
    · obtain ⟨form, valid, starts, length, _⟩ := Index.form_of_run_read topDictsEnd readStrings
      exact ⟨form, valid, starts, length⟩
    · next named =>
      refine ⟨_, promoted (Bool.eq_false_iff.2 named), List.prefix_append _ _, ?_⟩
      rw [List.length_append, length_flatMap_listed]
      exact (Index.Form.size_ofLengths _).symm
  · rw [count]
    exact Font.spelled_fdSelect_content found glyphs
  · rw [count]
    exact Font.spelled_charset_content found glyphs

end CompactFont
