import CompactFont.Proofs.Demands.Subset
import CompactFont.Proofs.Table.Trailing

/-!
Subsets of tables that more bytes follow. The charstrings that are searched and all that is copied are
cut out by spans that were read, so they are the same, and so are the glyphs and subroutines that are
kept and the table that is written, or the failure to write one.
-/

set_option autoImplicit false

namespace CompactFont

open Charstring

/-! ### Elements and entries -/

namespace Index

variable {index : Index} {bytes : ByteArray} {size : Nat}

theorem Inside.stop_elementSpan (inside : index.Inside size) (i : Nat) :
    (index.elementSpan i).stop ≤ size := by
  change index.offsets.getD (i + 1) index.stop ≤ size
  rw [Array.getD_eq_getD_getElem?]
  by_cases bound : i + 1 < index.offsets.size
  · rw [Array.getElem?_eq_getElem bound, Option.getD_some]
    exact inside.inside _ (Array.getElem_mem bound)
  · rw [Array.getElem?_eq_none (Nat.not_lt.1 bound), Option.getD_none]
    exact inside.stop.2

theorem Inside.element_append (inside : index.Inside bytes.size) (trailing : ByteArray) :
    index.element (bytes ++ trailing) = index.element bytes :=
  funext fun i => Span.slice_append (inside.stop_elementSpan i) trailing

theorem Inside.elements_append (inside : index.Inside bytes.size) (trailing : ByteArray) :
    index.elements (bytes ++ trailing) = index.elements bytes := by
  rw [elements, elements, inside.element_append]

theorem Inside.raw_append (inside : index.Inside bytes.size) (trailing : ByteArray) :
    index.raw (bytes ++ trailing) = index.raw bytes :=
  Span.slice_append inside.stop.2 trailing

end Index

namespace Subset

section

variable {bytes : ByteArray} {font : Font}

/-! ### The search -/

theorem privateDict_inside {size fontDict : Nat} {privateDict : PrivateDict}
    (inside : font.Inside size) (given : font.privateDict fontDict = some privateDict) :
    privateDict.Inside size := by
  have keying := inside.keying
  unfold Font.privateDict at given
  split at given
  · next found same =>
    rw [same] at keying
    exact keying privateDict given
  · next select fontDicts same =>
    rw [same] at keying
    obtain ⟨own, present, governs⟩ := Option.bind_eq_some_iff.1 given
    exact (keying.2.2.2 own (Array.mem_of_getElem? present)).privateDict privateDict governs

theorem localBodies_append (inside : font.Inside bytes.size) (trailing : ByteArray) (fontDict : Nat) :
    localBodies (bytes ++ trailing) font fontDict = localBodies bytes font fontDict := by
  unfold localBodies
  cases governs : font.privateDict fontDict with
  | none => simp only [Option.bind_eq_bind, Option.bind_none]
  | some privateDict =>
    cases given : privateDict.subrs with
    | none => simp only [Option.bind_eq_bind, Option.bind_some, given, Option.bind_none]
    | some index =>
      have within := (privateDict_inside inside governs).subrs index given
      simp only [Option.bind_eq_bind, Option.bind_some, given, SubrBodies.ofIndex,
        within.elements_append]

theorem charstrings_append (inside : font.Inside bytes.size) (trailing : ByteArray)
    (glyphs : DiscoverySet) (fontDict : Nat) :
    charstrings (bytes ++ trailing) font glyphs fontDict = charstrings bytes font glyphs fontDict := by
  rw [charstrings, charstrings, inside.charStrings.element_append]

theorem reachOf_extend {table : Table} (inside : table.Inside table.bytes.size)
    (own : font.Inside table.bytes.size) (trailing : ByteArray) (glyphs : DiscoverySet)
    (fontDict : Nat) :
    reachOf (table.extend trailing) font (globalBodies (table.extend trailing) font) glyphs fontDict =
      reachOf table font (globalBodies table font) glyphs fontDict := by
  have bytes : (table.extend trailing).bytes = table.bytes ++ trailing := rfl
  have globals : (table.extend trailing).globalSubrs = table.globalSubrs := rfl
  simp only [reachOf, globalBodies, SubrBodies.ofIndex, bytes, globals,
    inside.globalSubrs.elements_append, localBodies_append own, charstrings_append own]

def extend (subset : Subset) (trailing : ByteArray) : Subset :=
  { subset with table := subset.table.extend trailing }

theorem ofFont_extend {table : Table} (inside : table.Inside table.bytes.size)
    (own : font.Inside table.bytes.size) (trailing : ByteArray) (wanted : GlyphSet) :
    ofFont (table.extend trailing) font wanted = (ofFont table font wanted).extend trailing := by
  simp only [ofFont, extend, reachOf_extend inside own]

/-! ### What is copied -/

theorem encodeKept_append {index : Index} (inside : index.Inside bytes.size) (trailing : ByteArray)
    (kept : DiscoverySet) (blank : ByteArray) :
    encodeKept (bytes ++ trailing) index kept blank = encodeKept bytes index kept blank := by
  rw [encodeKept_eq, encodeKept_eq, inside.element_append]

theorem copyEntry_append {entry : Dict.Entry} (inside : entry.span.Inside bytes.size)
    (trailing : ByteArray) : copyEntry (bytes ++ trailing) entry = copyEntry bytes entry := by
  rw [copyEntry_eq, copyEntry_eq, Dict.Entry.raw, Dict.Entry.raw, Span.slice_append inside.inside]

end

section

variable {subset : Subset} {trailing : ByteArray}

theorem bytes_extend : (subset.extend trailing).table.bytes = subset.table.bytes ++ trailing := rfl

theorem font_extend : (subset.extend trailing).font = subset.font := rfl

theorem fontDicts_extend : (subset.extend trailing).fontDicts = subset.fontDicts := rfl

theorem localSubrs_extend : (subset.extend trailing).localSubrs = subset.localSubrs := rfl

theorem firstAddedString_extend :
    (subset.extend trailing).firstAddedString = subset.firstAddedString := rfl

theorem privateBlock_extend {privateDict : PrivateDict}
    (inside : privateDict.Inside subset.table.bytes.size) (fontDict : Nat) :
    (subset.extend trailing).privateBlock fontDict privateDict =
      subset.privateBlock fontDict privateDict := by
  have subrs : ∀ kept : DiscoverySet,
      (privateDict.subrs.mapM fun index =>
        encodeKept (subset.table.bytes ++ trailing) index kept blankSubr) =
      privateDict.subrs.mapM fun index => encodeKept subset.table.bytes index kept blankSubr := by
    intro kept
    cases given : privateDict.subrs with
    | none => rw [Option.mapM_none, Option.mapM_none]
    | some index =>
      rw [Option.mapM_some, Option.mapM_some, encodeKept_append (inside.subrs index given)]
  have entries : ∀ hasSubrs, privateDict.entries.toList.mapM
      (privateEntry (subset.table.bytes ++ trailing) fontDict hasSubrs) =
        privateDict.entries.toList.mapM (privateEntry subset.table.bytes fontDict hasSubrs) := by
    intro hasSubrs
    apply mapM_congr
    intro entry listed
    have within := inside.entries entry (Array.mem_toList_iff.1 listed)
    rw [privateEntry, privateEntry, copyEntry_append within]
  simp only [privateBlock, bytes_extend, localSubrs_extend, Writer.element_eq, ok_bind, subrs,
    entries]

theorem fontDictBlock_extend {fontDict : FontDict} (inside : fontDict.Inside subset.table.bytes.size)
    (i : Nat) :
    (subset.extend trailing).fontDictBlock i fontDict = subset.fontDictBlock i fontDict := by
  have block : fontDict.privateDict.mapM ((subset.extend trailing).privateBlock i) =
      fontDict.privateDict.mapM (subset.privateBlock i) := by
    cases given : fontDict.privateDict with
    | none => rw [Option.mapM_none, Option.mapM_none]
    | some privateDict =>
      rw [Option.mapM_some, Option.mapM_some,
        privateBlock_extend (inside.privateDict privateDict given)]
  have entries : ∀ block,
      fontDict.entries.toList.mapM (fontDictEntry (subset.table.bytes ++ trailing) block) =
        fontDict.entries.toList.mapM (fontDictEntry subset.table.bytes block) := by
    intro block
    apply mapM_congr
    intro entry listed
    have within := inside.entries entry (Array.mem_toList_iff.1 listed)
    unfold fontDictEntry
    rw [copyEntry_append within]
  simp only [fontDictBlock, bytes_extend, fontDicts_extend, block, entries]

theorem promotedFontDict_extend {privateDict : Option PrivateDict}
    (inside : ∀ found ∈ privateDict, found.Inside subset.table.bytes.size) :
    (subset.extend trailing).promotedFontDict privateDict = subset.promotedFontDict privateDict := by
  cases privateDict with
  | none => simp only [promotedFontDict, firstAddedString_extend]
  | some privateDict =>
    simp only [promotedFontDict, privateBlock_extend (inside privateDict rfl),
      firstAddedString_extend]

theorem fontDictPieces_extend (inside : subset.Inside) :
    (subset.extend trailing).fontDictPieces = subset.fontDictPieces := by
  have blocks : (subset.extend trailing).fontDictBlocks = subset.fontDictBlocks := by
    have keying := inside.font.keying
    unfold fontDictBlocks
    rw [font_extend]
    cases same : subset.font.keying with
    | named privateDict =>
      rw [same] at keying
      simp only [promotedFontDict_extend keying]
    | cid select fontDicts =>
      rw [same] at keying
      apply mapM_congr
      intro (fontDict, i) listed
      have member := (List.mem_zipIdx_iff_getElem?.1 listed)
      exact fontDictBlock_extend
        (keying.2.2.2 fontDict (Array.mem_toList_iff.1 (List.mem_of_getElem? member))) i
  rw [fontDictPieces, fontDictPieces, blocks]

theorem topDictPieces_extend (inside : subset.Inside) :
    (subset.extend trailing).topDictPieces = subset.topDictPieces := by
  have copied : (subset.font.topDict.toList.filter (!isReplaced ·.operator)).mapM
      (copyEntry (subset.table.bytes ++ trailing)) =
        (subset.font.topDict.toList.filter (!isReplaced ·.operator)).mapM
          (copyEntry subset.table.bytes) := by
    apply mapM_congr
    intro entry listed
    have member := Array.mem_toList_iff.1 (List.mem_filter.1 listed).1
    exact copyEntry_append (inside.font.topDict entry member) trailing
  have promotion : (subset.extend trailing).promotionEntries = subset.promotionEntries := rfl
  simp only [topDictPieces, promotion, font_extend, bytes_extend, copied]

theorem stringPieces_extend (inside : subset.Inside) :
    (subset.extend trailing).stringPieces = subset.stringPieces := by
  have strings : (subset.extend trailing).table.strings = subset.table.strings := rfl
  cases keyed : subset.font.isCid with
  | true =>
    rw [stringPieces_of_isCid keyed, stringPieces_of_isCid (by rwa [font_extend]), strings,
      bytes_extend, inside.table.strings.raw_append]
  | false =>
    rw [stringPieces_of_not_isCid keyed, stringPieces_of_not_isCid (by rwa [font_extend]), strings,
      bytes_extend, inside.table.strings.elements_append, promotionStrings_eq, promotionStrings_eq,
      font_extend, bytes_extend, Span.slice_append inside.font.nameSpan.inside]

theorem encodeFdSelect_extend (inside : subset.Inside) :
    (subset.extend trailing).encodeFdSelect = subset.encodeFdSelect := by
  have keying := inside.font.keying
  have count : (subset.extend trailing).encodableGlyphCount = subset.encodableGlyphCount := rfl
  unfold encodeFdSelect
  rw [font_extend, bytes_extend, count]
  cases same : subset.font.keying with
  | named privateDict => rfl
  | cid select fontDicts =>
    rw [same] at keying
    simp only [Writer.slice_eq, Span.slice_append keying.1.span.inside]

theorem encodeCharset_extend (inside : subset.Inside) :
    (subset.extend trailing).encodeCharset = subset.encodeCharset := by
  have identity : (subset.extend trailing).encodeIdentity = subset.encodeIdentity := rfl
  unfold encodeCharset
  rw [font_extend, bytes_extend, identity]
  cases subset.font.keying with
  | named privateDict => rfl
  | cid select fontDicts =>
    cases custom : subset.font.charset with
    | none => rfl
    | some charset =>
      simp only [Writer.slice_eq, Span.slice_append (inside.font.charset charset custom).inside]

theorem encode_extend (inside : subset.Inside) (trailing : ByteArray) :
    (subset.extend trailing).encode = subset.encode := by
  let header : Span := ⟨0, subset.table.headerSize⟩
  have headerSlice : header.slice (subset.table.bytes ++ trailing) = header.slice subset.table.bytes :=
    Span.slice_append inside.table.header.2 trailing
  have headerSize : (subset.extend trailing).table.headerSize = subset.table.headerSize := rfl
  have globals : (subset.extend trailing).table.globalSubrs = subset.table.globalSubrs := rfl
  have used : (subset.extend trailing).globalSubrs = subset.globalSubrs := rfl
  have glyphs : (subset.extend trailing).glyphs = subset.glyphs := rfl
  simp only [encode, pieces, bytes_extend, font_extend, headerSize, globals, used, glyphs,
    Writer.slice_eq, header, headerSlice, Span.slice_append inside.font.nameSpan.inside,
    topDictPieces_extend inside, stringPieces_extend inside, encodeKept_append inside.table.globalSubrs,
    encodeFdSelect_extend inside, encodeCharset_extend inside, fontDictPieces_extend inside,
    encodeKept_append inside.font.charStrings]

end

/-- Which subset is made, or why none is, does not depend on how many bytes follow. -/
theorem select_extend {table : Table} (inside : table.Inside table.bytes.size) (trailing : ByteArray)
    (fontIndex : Nat) (wanted : GlyphSet) :
    select (table.extend trailing) fontIndex wanted =
      (extend · trailing) <$> select table fontIndex wanted := by
  have fonts : (table.extend trailing).fonts = table.fonts := rfl
  have strings : (table.extend trailing).strings = table.strings := rfl
  unfold select
  rw [fonts, strings]
  cases present : table.fonts[fontIndex]? with
  | none => rfl
  | some font =>
    have own := inside.fonts font (Array.mem_of_getElem? present)
    dsimp only
    split
    · rfl
    · rw [ofFont_extend inside own]
      rfl

end Subset

/-- Bytes that follow a table are of no account. The table is read with them as without them, and for
any glyphs of any of its fonts the same subset is made and written, or the same failure reported. -/
theorem trailing_bytes_irrelevant {data : ByteArray} {table : Table}
    (read : Table.read data = .ok table) (trailing : ByteArray) :
    Table.read (data ++ trailing) = .ok (table.extend trailing) ∧
      (∀ fontIndex wanted, Subset.select (table.extend trailing) fontIndex wanted =
        (Subset.extend · trailing) <$> Subset.select table fontIndex wanted) ∧
      ∀ fontIndex wanted subset, Subset.select table fontIndex wanted = .ok subset →
        (subset.extend trailing).encode = subset.encode := by
  obtain ⟨rfl, inside⟩ := Table.inside_of_read read
  refine ⟨Table.read_extend inside read trailing, Subset.select_extend inside trailing, ?_⟩
  intro fontIndex wanted subset selected
  exact Subset.encode_extend (Subset.inside_of_select read selected) trailing

/-- Two bytes after a table that ends with the last of its structures. -/
theorem trailing_bytes_irrelevant_sharedSubr :
    ∃ table subset out, Table.read Subset.sharedSubrTable = .ok table ∧
      Table.read (Subset.sharedSubrTable ++ ⟨#[0xFF, 1]⟩) = .ok (table.extend ⟨#[0xFF, 1]⟩) ∧
      Subset.select table 0 (.ofList [1]) = .ok subset ∧
      Subset.select (table.extend ⟨#[0xFF, 1]⟩) 0 (.ofList [1]) =
        .ok (subset.extend ⟨#[0xFF, 1]⟩) ∧
      subset.encode = Except.ok out ∧ (subset.extend ⟨#[0xFF, 1]⟩).encode = Except.ok out := by
  obtain ⟨table, read, subset, selected, out, encoded, _⟩ :
      ∃ table, Table.read Subset.sharedSubrTable = .ok table ∧
        ∃ subset, Subset.select table 0 (.ofList [1]) = .ok subset ∧
          ∃ out, subset.encode = Except.ok out ∧ out.size = 136 := by
    decide +kernel
  obtain ⟨again, selects, writes⟩ := trailing_bytes_irrelevant read ⟨#[0xFF, 1]⟩
  refine ⟨table, subset, out, read, again, selected, ?_, encoded, ?_⟩
  · rw [selects, selected]
    rfl
  · rw [writes 0 _ subset selected, encoded]

end CompactFont
