import CompactFont.Proofs.Content.Context
import CompactFont.Proofs.Subset.Completion

/-!
A font with the content of a subset, as it is read back from the table that the subset is written
as. It has the glyphs and Font DICTs of the font that it was taken from, and calls reach the same
bodies as far as the subset keeps them.
-/

set_option autoImplicit false

namespace CompactFont

open Charstring Subset

/-- An INDEX is a copy of another one, in which the elements that are not kept are blank. -/
structure CopiedIndex (bytes : ByteArray) (source : Index) (out : ByteArray) (copy : Index)
    (kept : Nat → Prop) (blank : ByteArray) : Prop where
  size : copy.size = source.size
  same : ∀ i < source.size, kept i → copy.element out i = source.element bytes i
  blank : ∀ i < source.size, ¬kept i → copy.element out i = blank

theorem CopiedIndex.of_elements {bytes out blank : ByteArray} {source copy : Index}
    {listed : Nat → Bool} {kept : Nat → Prop}
    (elements : (copy.elements out).toList =
      replaceUnless listed blank (source.elements bytes).toList)
    (decides : ∀ i < source.size, listed i = true ↔ kept i) :
    CopiedIndex bytes source out copy kept blank := by
  have size : copy.size = source.size := by
    rw [← Index.length_elements, elements, length_replaceUnless, Index.length_elements]
  have element : ∀ i < source.size, copy.element out i =
      if listed i then source.element bytes i else blank := by
    intro i inside
    rw [← size] at inside
    have target := Index.getElem?_elements out inside
    rw [size] at inside
    rw [elements, getElem?_replaceUnless, Index.getElem?_elements bytes inside, Option.map_some,
      Option.some.injEq] at target
    exact target.symm
  refine ⟨size, fun i inside present => ?_, fun i inside absent => ?_⟩
  · rw [element i inside, if_pos ((decides i inside).2 present)]
  · rw [element i inside, if_neg fun known => absent ((decides i inside).1 known)]

/-- The font `copy` has the content of the subset of `font` with the glyphs that are wanted. -/
structure CopyOf (table : Table) (font : Font) (wanted : GlyphSet) (written : Table) (copy : Font) :
    Prop where
  isCid : copy.isCid = true
  content : copy.content written =
    (font.content table).restrict (ofFont table font wanted).kept
  locatesOwn : copy.LocatesOwn written.bytes
  /-- glyphs belong to Font DICTs that there are -/
  fontDictOf_lt : ∀ glyph, font.fontDictOf glyph < font.fontDictCount
  /-- the structures of the table lie in a row -/
  tiles : ∃ pos, Span.Tile 0 written.spans pos ∧ copy.Tiles written.bytes pos

namespace CopyOf

variable {table written : Table} {font copy : Font} {wanted : GlyphSet} {fontDict glyph : Nat}

theorem glyphCount_eq (copyOf : CopyOf table font wanted written copy) :
    copy.glyphCount = font.glyphCount := by
  rw [← Font.glyphCount_content written, copyOf.content,
    Font.Content.length_charStrings_restrict, Font.glyphCount_content]

theorem fontDictCount_eq (copyOf : CopyOf table font wanted written copy) :
    copy.fontDictCount = font.fontDictCount := by
  rw [← Font.fontDictCount_content written, copyOf.content, Font.Content.length_fontDicts_restrict,
    Font.fontDictCount_content]

theorem fontDictOf_eq (copyOf : CopyOf table font wanted written copy) :
    copy.fontDictOf glyph = font.fontDictOf glyph := by
  rw [← Font.fontDictOf_content written, copyOf.content, ← Font.fontDictOf_content table]
  rfl

theorem charstringType_eq (copyOf : CopyOf table font wanted written copy) :
    copy.charstringType = font.charstringType := congrArg Font.Content.charstringType copyOf.content

/-- The FDSelect and the charset of the copy have the bytes that the content gives them. -/
theorem exists_keying (copyOf : CopyOf table font wanted written copy) :
    ∃ select fontDicts charset, copy.keying = .cid select fontDicts ∧ copy.charset = some charset ∧
      listed (select.span.slice written.bytes) = (font.content table).fdSelect ∧
      select.assigned = (font.content table).assigned ∧
      listed (charset.span.slice written.bytes) = (font.content table).charset ∧
      fontDicts.size = font.fontDictCount := by
  obtain ⟨_, _, select, fontDicts, charset, _, keying, custom, _⟩ := copyOf.tiles
  have selected := congrArg Font.Content.fdSelect copyOf.content
  have assigned := congrArg Font.Content.assigned copyOf.content
  have named := congrArg Font.Content.charset copyOf.content
  have count := copyOf.fontDictCount_eq
  simp only [Font.content, keying, custom] at selected assigned named
  rw [Font.fontDictCount, keying] at count
  exact ⟨select, fontDicts, charset, keying, custom, selected, assigned, named, count⟩

theorem charStrings (copyOf : CopyOf table font wanted written copy) :
    CopiedIndex table.bytes font.charStrings written.bytes copy.charStrings
      (fun glyph => glyph = 0 ∨ glyph ∈ wanted) blankGlyph := by
  apply CopiedIndex.of_elements (congrArg Font.Content.charStrings copyOf.content)
  intro glyph inside
  have decides := (DiscoverySet.contains_iff _ _).trans (@mem_keptGlyphs font wanted glyph)
  exact decides.trans (and_iff_right inside)

theorem globalSubrs (copyOf : CopyOf table font wanted written copy) :
    CopiedIndex table.bytes table.globalSubrs written.bytes written.globalSubrs
      (· ∈ (ofFont table font wanted).globalSubrs) blankSubr :=
  CopiedIndex.of_elements (congrArg Font.Content.globalSubrs copyOf.content) fun _ _ =>
    DiscoverySet.contains_iff _ _

theorem kept_fontDicts_of_mem (used : fontDict ∈ (ofFont table font wanted).fontDicts) :
    (ofFont table font wanted).kept.fontDicts fontDict = true := by
  rw [Subset.kept, Bool.or_eq_true]
  exact .inl ((DiscoverySet.contains_iff _ _).2 used)

theorem lt_of_mem_fontDicts (copyOf : CopyOf table font wanted written copy)
    (used : fontDict ∈ (ofFont table font wanted).fontDicts) : fontDict < font.fontDictCount := by
  obtain ⟨glyph, _, rfl⟩ := mem_fontDicts_ofFont.1 used
  exact copyOf.fontDictOf_lt glyph

theorem lt_of_localIndex (copyOf : CopyOf table font wanted written copy) {index : Index}
    (present : copy.localIndex fontDict = some index) : fontDict < font.fontDictCount := by
  obtain ⟨select, fontDicts, keying⟩ := Font.isCid_eq_true.1 copyOf.isCid
  rw [Font.localIndex, Font.privateDict, keying] at present
  rw [← copyOf.fontDictCount_eq, Font.fontDictCount, keying]
  dsimp only at present ⊢
  by_contra outside
  rw [Array.getElem?_eq_none (Nat.not_lt.1 outside)] at present
  cases present

theorem localSubrs (copyOf : CopyOf table font wanted written copy) {index : Index}
    (present : copy.localIndex fontDict = some index) :
    ∃ source, font.localIndex fontDict = some source ∧
      CopiedIndex table.bytes source written.bytes index
        (· ∈ (ofFont table font wanted).localSubrs fontDict) blankSubr := by
  have inside := copyOf.lt_of_localIndex present
  have source := Font.localSubrs_content table inside
  rw [← copyOf.fontDictCount_eq] at inside
  have target := Font.localSubrs_content written inside
  rw [present, copyOf.content, Option.map_some] at target
  by_cases used : (ofFont table font wanted).kept.fontDicts fontDict = true
  · rw [Font.Content.localSubrs_restrict used, source, Option.map_map] at target
    obtain ⟨own, given, elements⟩ := Option.map_eq_some_iff.1 target
    exact ⟨own, given, CopiedIndex.of_elements elements.symm fun _ _ =>
      DiscoverySet.contains_iff _ _⟩
  · rw [Font.Content.localSubrs_restrict_of_unused (Bool.eq_false_iff.2 used)] at target
    cases target

theorem isSome_localIndex (copyOf : CopyOf table font wanted written copy)
    (used : fontDict ∈ (ofFont table font wanted).fontDicts) :
    (copy.localIndex fontDict).isSome = (font.localIndex fontDict).isSome := by
  have inside := copyOf.lt_of_mem_fontDicts used
  have source := Font.localSubrs_content table inside
  rw [← copyOf.fontDictCount_eq] at inside
  have target := Font.localSubrs_content written inside
  rw [copyOf.content, Font.Content.localSubrs_restrict (kept_fontDicts_of_mem used), source,
    Option.map_map] at target
  have same := congrArg Option.isSome target
  rw [Option.isSome_map, Option.isSome_map] at same
  exact same.symm

theorem subrContext_eq (copyOf : CopyOf table font wanted written copy)
    (inside : fontDict < font.fontDictCount) :
    subrContext written copy fontDict =
      ((font.content table).restrict (ofFont table font wanted).kept).context fontDict := by
  rw [← Font.context_content (copyOf.fontDictCount_eq ▸ inside), copyOf.content]

/-- Calls from glyphs of a Font DICT in use are resolved as before, and reach the same bodies as far
as these are reached at all. -/
theorem agree (copyOf : CopyOf table font wanted written copy)
    (used : fontDict ∈ (ofFont table font wanted).fontDicts) :
    (subrContext table font fontDict).Agree (subrContext written copy fontDict)
      (· ∈ (ofFont table font wanted).reach fontDict) := by
  have inside := copyOf.lt_of_mem_fontDicts used
  have kept := kept_fontDicts_of_mem used
  rw [copyOf.subrContext_eq inside, ← Font.context_content inside]
  apply (Font.Content.agree_restrict kept).imp
  intro subr reached
  obtain ⟨scope, i⟩ := subr
  cases scope with
  | localSubrs => exact (DiscoverySet.contains_iff _ _).2 reached
  | globalSubrs =>
    exact (DiscoverySet.contains_iff _ _).2 (mem_globalSubrs.2 ⟨fontDict, used, reached⟩)

theorem size_subrContext (copyOf : CopyOf table font wanted written copy)
    (used : fontDict ∈ (ofFont table font wanted).fontDicts) :
    (subrContext written copy fontDict).size = (subrContext table font fontDict).size := by
  have inside := copyOf.lt_of_mem_fontDicts used
  have kept := kept_fontDicts_of_mem used
  rw [copyOf.subrContext_eq inside, ← Font.context_content inside,
    Font.Content.size_context_restrict kept]

end CopyOf

/-- Where a charset of a font lies, it is read for the glyphs of the font. Nothing but the bytes of an
identity charset is needed for every glyph to get its own number as its name. -/
theorem Table.readAt_charset {bytes : ByteArray} {table : Table} {font : Font} {i : Nat}
    {charset : Charset} (read : Table.read bytes = .ok table) (present : table.fonts[i]? = some font)
    (custom : font.charset = some charset) :
    Charset.readAt bytes charset.span.start font.glyphCount = .ok charset ∧
      (listed (charset.span.slice bytes) = Charset.identity font.glyphCount →
        (Charset.readNames font.glyphCount).run (.whole bytes) charset.span.start =
          .ok (List.range font.glyphCount) charset.span.stop) := by
  obtain ⟨rfl, _, _, _, each⟩ := Table.read_eq_ok.1 read
  obtain ⟨top, found⟩ := Font.read_eq_ok.1 (each i font present)
  have located := found.charset
  rw [custom] at located
  obtain ⟨pos, _, _, readCharset⟩ := Font.readCharset_eq_some.1 located
  have small : font.glyphCount < 0x10000 := Nat.lt_succ_of_le found.glyphCount_le
  have start : charset.span.start = pos := by
    obtain ⟨_, _, _, same⟩ := Charset.readAt_eq_ok.1 readCharset
    rw [same]
  exact ⟨start ▸ readCharset, Charset.run_readNames_of_readAt small readCharset⟩

theorem Subset.exists_copy {bytes out : ByteArray} {table : Table} {font : Font} {i : Nat}
    {wanted : GlyphSet} (read : Table.read bytes = .ok table)
    (present : table.fonts[i]? = some font)
    (encoded : (ofFont table font wanted).encode = Except.ok out) :
    ∃ written copy, Table.read out = .ok written ∧ written.fonts = #[copy] ∧
      CopyOf table font wanted written copy := by
  obtain ⟨_, written, copy, readAgain, only, cid, content, locatesOwn, tiles⟩ :=
    Subset.exists_read read present encoded
  obtain ⟨rfl, _⟩ := Table.read_eq_ok.1 readAgain
  exact ⟨written, copy, readAgain, only, cid, content, locatesOwn,
    Table.fontDictOf_lt read present, tiles⟩

/-- What subsetting a font of a table gives is read as a copy of that font. -/
theorem exists_copy_of_subsetFont {data out : ByteArray} {table : Table} {fontIndex : Nat}
    {wanted : GlyphSet} {subset : Subset} (read : Table.read data = .ok table)
    (completed : subsetFont table fontIndex wanted = .ok (subset, out)) :
    ∃ font written copy, table.fonts[fontIndex]? = some font ∧
      (ofFont table font wanted).encode = Except.ok out ∧ Table.read out = .ok written ∧
      written.fonts = #[copy] ∧ CopyOf table font wanted written copy := by
  obtain ⟨selected, encoded⟩ := subsetFont_eq_ok.1 completed
  obtain ⟨font, present, _, same⟩ := select_eq_ok.1 selected
  rw [same] at encoded
  obtain ⟨written, copy, readAgain, only, copyOf⟩ := exists_copy read present encoded
  exact ⟨font, written, copy, present, encoded, readAgain, only, copyOf⟩

end CompactFont
