import CompactFont.Proofs.Subset.Copy

/-!
Where the structures of a written subset lie. Positions are given out before the table is assembled,
and a reader finds every extent again from the bytes; both agree, so the structures that are found
fill the table in the order that they are written in.
-/

set_option autoImplicit false

namespace CompactFont

open Subset

theorem CopyOf.tile {table written : Table} {font copy : Font} {wanted : GlyphSet}
    (copyOf : CopyOf table font wanted written copy) :
    ∃ select fontDicts charset fdArray, copy.keying = .cid select fontDicts ∧
      copy.charset = some charset ∧ copy.fdArray? written.bytes = some fdArray ∧
      Span.Tile 0 (written.spans ++ ([select.span, charset.span, fdArray.span] ++
        fontDicts.toList.flatMap FontDict.privateSpans ++ [copy.charStrings.span]))
        written.bytes.size := by
  obtain ⟨pos, front, select, fontDicts, charset, fdArray, keying, custom, located, back⟩ :=
    copyOf.tiles
  exact ⟨select, fontDicts, charset, fdArray, keying, custom, located, front.append back⟩

/-- The structures of a subset that is written, as they are read again, tile the table: the header,
the INDEXes of names, Top DICTs, strings and global subroutines, the FDSelect, the charset, the
FDArray, each Private DICT with its local subroutines in the order of the Font DICTs, and the
charstrings. Nothing lies between two of them, and nothing behind the last one. -/
theorem subsetFont_tiles {data out : ByteArray} {table : Table} {fontIndex : Nat}
    {wanted : GlyphSet} {subset : Subset} (read : Table.read data = .ok table)
    (completed : subsetFont table fontIndex wanted = .ok (subset, out)) :
    ∃ written copy select fontDicts charset fdArray,
      Table.read out = .ok written ∧ written.fonts = #[copy] ∧
      copy.keying = .cid select fontDicts ∧ copy.charset = some charset ∧
      copy.fdArray? out = some fdArray ∧
      Span.Tile 0
        ([⟨0, written.headerSize⟩, written.names.span, written.topDicts.span, written.strings.span,
          written.globalSubrs.span, select.span, charset.span, fdArray.span] ++
          fontDicts.toList.flatMap FontDict.privateSpans ++ [copy.charStrings.span]) out.size := by
  obtain ⟨_, written, copy, _, _, readAgain, only, copyOf⟩ := exists_copy_of_subsetFont read completed
  have bytes : written.bytes = out := (Table.read_eq_ok.1 readAgain).1
  obtain ⟨select, fontDicts, charset, fdArray, keying, custom, located, tile⟩ := copyOf.tile
  rw [bytes] at located tile
  exact ⟨written, copy, select, fontDicts, charset, fdArray, readAgain, only, keying, custom, located,
    by simpa [Table.spans, Table.Directory.spans] using tile⟩

/-- Both Font DICTs have a Private DICT with local subroutines, and the structures fill 136 bytes. -/
theorem subsetFont_tiles_sharedSubr :
    ∃ table subset out written copy select fontDicts charset fdArray,
      Table.read sharedSubrTable = .ok table ∧
      subsetFont table 0 (.ofList [1]) = .ok (subset, out) ∧ Table.read out = .ok written ∧
      written.fonts = #[copy] ∧ copy.keying = .cid select fontDicts ∧
      copy.charset = some charset ∧ copy.fdArray? out = some fdArray ∧
      Span.Tile 0
        ([⟨0, written.headerSize⟩, written.names.span, written.topDicts.span, written.strings.span,
          written.globalSubrs.span, select.span, charset.span, fdArray.span] ++
          fontDicts.toList.flatMap FontDict.privateSpans ++ [copy.charStrings.span]) 136 := by
  obtain ⟨table, read, ⟨subset, out⟩, completed, size⟩ :
      ∃ table, Table.read sharedSubrTable = .ok table ∧
        ∃ written, subsetFont table 0 (.ofList [1]) = .ok written ∧ written.2.size = 136 := by
    decide +kernel
  obtain ⟨written, copy, select, fontDicts, charset, fdArray, readAgain, only, keying, custom, located,
    tile⟩ := subsetFont_tiles read completed
  rw [size] at tile
  exact ⟨table, subset, out, written, copy, select, fontDicts, charset, fdArray, read, completed,
    readAgain, only, keying, custom, located, tile⟩

end CompactFont
