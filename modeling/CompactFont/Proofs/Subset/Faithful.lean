import CompactFont.Proofs.Subset.Completion
import CompactFont.Proofs.Subset.Copy

/-!
What is read from the table of a subset: one CID-keyed font that differs from its source only in the
charstrings that the subset does not keep.
-/

set_option autoImplicit false

namespace CompactFont

open Subset

/-- Names are decoded from the bytes that the Name INDEX gives them. -/
theorem Table.name_eq_decode {bytes : ByteArray} {table : Table} {font : Font} {i : Nat}
    (read : Table.read bytes = .ok table) (present : table.fonts[i]? = some font) :
    font.name = Text.Utf8.decode (font.nameSpan.slice table.bytes) := by
  obtain ⟨rfl, _, _, _, each⟩ := Table.read_eq_ok.1 read
  obtain ⟨top, found⟩ := Font.read_eq_ok.1 (each i font present)
  rw [found.name, found.nameSpan]

/-- A subset that is written is read as one CID-keyed font with the name, the numbers of glyphs and
Font DICTs and the charstring type of its source. The charstrings of glyph 0 and of the glyphs
wanted are those of the source, and so are the subroutines used; every other glyph ends at once, and
every other subroutine returns at once. -/
theorem subsetFont_faithful {data out : ByteArray} {table : Table} {fontIndex : Nat}
    {wanted : GlyphSet} {subset : Subset} (read : Table.read data = .ok table)
    (completed : subsetFont table fontIndex wanted = .ok (subset, out)) :
    ∃ font written copy, table.fonts[fontIndex]? = some font ∧
      Table.read out = .ok written ∧ written.fonts = #[copy] ∧ copy.isCid = true ∧
      copy.name = font.name ∧ copy.glyphCount = font.glyphCount ∧
      copy.charstringType = font.charstringType ∧ copy.fontDictCount = font.fontDictCount ∧
      CopiedIndex data font.charStrings out copy.charStrings
        (fun glyph => glyph = 0 ∨ glyph ∈ wanted) [14].toByteArray ∧
      CopiedIndex data table.globalSubrs out written.globalSubrs (· ∈ subset.globalSubrs)
        [11].toByteArray ∧
      (∀ fontDict ∈ subset.fontDicts,
        (copy.localIndex fontDict).isSome = (font.localIndex fontDict).isSome) ∧
      ∀ fontDict index, copy.localIndex fontDict = some index →
        ∃ source, font.localIndex fontDict = some source ∧
          CopiedIndex data source out index (· ∈ subset.localSubrs fontDict) [11].toByteArray := by
  obtain ⟨selected, encoded⟩ := subsetFont_eq_ok.1 completed
  obtain ⟨font, present, _, rfl⟩ := select_eq_ok.1 selected
  obtain ⟨written, copy, readAgain, only, copyOf⟩ := exists_copy read present encoded
  obtain ⟨rfl, _⟩ := Table.read_eq_ok.1 read
  have name : copy.name = font.name := by
    have single : written.fonts[0]? = some copy := by rw [only]; rfl
    rw [Table.name_eq_decode readAgain single, Table.name_eq_decode read present]
    exact congrArg _ (listed_injective (congrArg Font.Content.name copyOf.content))
  obtain ⟨rfl, _⟩ := Table.read_eq_ok.1 readAgain
  exact ⟨font, written, copy, present, readAgain, only, copyOf.isCid, name, copyOf.glyphCount_eq,
    copyOf.charstringType_eq, copyOf.fontDictCount_eq, copyOf.charStrings, copyOf.globalSubrs,
    fun _ used => copyOf.isSome_localIndex used, fun _ _ found => copyOf.localSubrs found⟩

/-- The last glyph and the second subroutines, global and local, are blanked. -/
theorem subsetFont_faithful_sharedSubr :
    ∃ table subset out font written copy source index,
      Table.read sharedSubrTable = .ok table ∧
      subsetFont table 0 (.ofList [1]) = .ok (subset, out) ∧ table.fonts[0]? = some font ∧
      Table.read out = .ok written ∧ written.fonts = #[copy] ∧ copy.glyphCount = 3 ∧
      copy.charStrings.element out 1 = font.charStrings.element sharedSubrTable 1 ∧
      copy.charStrings.element out 2 = [14].toByteArray ∧
      written.globalSubrs.element out 0 = table.globalSubrs.element sharedSubrTable 0 ∧
      written.globalSubrs.element out 1 = [11].toByteArray ∧
      font.localIndex 1 = some source ∧ copy.localIndex 1 = some index ∧
      index.element out 0 = source.element sharedSubrTable 0 ∧
      index.element out 1 = [11].toByteArray := by
  obtain ⟨table, read, globalSize, font, present, glyphCount, source, local1, localSize,
      ⟨subset, out⟩, completed, inUse, globals, locals⟩ :
      ∃ table, Table.read sharedSubrTable = .ok table ∧ table.globalSubrs.size = 2 ∧
        ∃ font : Font, font ∈ table.fonts[0]? ∧ font.glyphCount = 3 ∧
        ∃ source ∈ font.localIndex 1, source.size = 2 ∧
        ∃ written, subsetFont table 0 (.ofList [1]) = .ok written ∧ 1 ∈ written.1.fontDicts ∧
          (0 ∈ written.1.globalSubrs ∧ 1 ∉ written.1.globalSubrs) ∧
          (0 ∈ written.1.localSubrs 1 ∧ 1 ∉ written.1.localSubrs 1) := by
    decide +kernel
  obtain ⟨_, written, copy, found, readAgain, only, _, _, count, _, _, charStrings, globalSubrs,
    someLocal, localSubrs⟩ := subsetFont_faithful read completed
  cases Option.some.inj (found.symm.trans present)
  have hasLocal := someLocal 1 inUse
  rw [local1] at hasLocal
  obtain ⟨index, indexed⟩ := Option.isSome_iff_exists.1 hasLocal
  obtain ⟨_, own, copied⟩ := localSubrs 1 index indexed
  cases Option.some.inj (own.symm.trans local1)
  have inside : ∀ glyph < 3, glyph < font.charStrings.size := by
    intro glyph bound
    exact Nat.lt_of_lt_of_eq bound glyphCount.symm
  have last : ¬(2 = 0 ∨ 2 ∈ GlyphSet.ofList [1]) := by
    rw [GlyphSet.mem_ofList]
    decide
  exact ⟨table, subset, out, font, written, copy, source, index, read, completed, present,
    readAgain, only, count.trans glyphCount,
    charStrings.same 1 (inside 1 (by decide)) (.inr (GlyphSet.mem_ofList.2 (by decide))),
    charStrings.blank 2 (inside 2 (by decide)) last,
    globalSubrs.same 0 (by omega) globals.1, globalSubrs.blank 1 (by omega) globals.2,
    local1, indexed, copied.same 0 (by omega) locals.1, copied.blank 1 (by omega) locals.2⟩

end CompactFont
