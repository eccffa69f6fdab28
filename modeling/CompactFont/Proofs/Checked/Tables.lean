import CompactFont.Proofs.Checked.Fonts
import CompactFont.Proofs.Table.Directory

/-!
The checked reader of tables. Whatever the bytes are, reading a table stays in range, and it fails
inside the bytes or gives a description that lies in them.
-/

set_option autoImplicit false

namespace CompactFont.Table

structure Directory.Inside (directory : Directory) (size : Nat) : Prop where
  header : leastHeaderSize ≤ directory.headerSize ∧ directory.headerSize ≤ size
  names : directory.names.Inside size
  topDicts : directory.topDicts.Inside size
  strings : directory.strings.Inside size
  globalSubrs : directory.globalSubrs.Inside size

variable {source : Source} {pos : Nat}

theorem agree_readHeader (inside : pos ≤ source.stop) :
    AgreeAt source pos (fun size _ => leastHeaderSize ≤ size) readHeader readHeader := by
  apply AgreeAt.bind (AgreeAt.u8 inside)
  rintro major _ first rfl
  apply AgreeAt.ite
  · intro _
    exact .fail_bind (.failAt (Nat.zero_le _)) _ _
  intro _
  apply AgreeAt.bind (AgreeAt.skip first 1)
  rintro _ _ second rfl
  apply AgreeAt.bind (AgreeAt.u8 second)
  rintro size _ third rfl
  apply AgreeAt.ite
  · intro _
    exact .fail_bind (.fail third) _ _
  intro large
  apply AgreeAt.bind (AgreeAt.skip third 1)
  rintro _ _ fourth rfl
  exact .pure fourth (Nat.not_lt.1 large)

theorem agree_readIndex (inside : pos ≤ source.stop) (part : Part) :
    AgreeAt source pos (fun index _ => index.Inside source.stop) (Index.read.inPart part)
      (Index.read.inPart part) := by
  apply AgreeAt.inPart
  exact (Index.agree_read inside).imp_run fun _ _ read _ => Index.inside_of_run_read inside read

theorem agree_readDirectory (source : Source) :
    AgreeAt source 0 (fun directory _ => directory.Inside source.stop) readDirectory
      readDirectory := by
  apply AgreeAt.bind (AgreeAt.inPart _ (agree_readHeader (Nat.zero_le _)))
  rintro headerSize _ bound large
  apply AgreeAt.bind (AgreeAt.seek bound headerSize)
  rintro _ _ started rfl
  apply AgreeAt.bind (agree_readIndex started _)
  rintro names _ second namesInside
  apply AgreeAt.bind (agree_readIndex second _)
  rintro topDicts _ third topDictsInside
  apply AgreeAt.bind (agree_readIndex third _)
  rintro strings _ fourth stringsInside
  apply AgreeAt.bind (agree_readIndex fourth _)
  rintro globalSubrs _ last globalSubrsInside
  exact .pure last ⟨⟨large, started⟩, namesInside, topDictsInside, stringsInside,
    globalSubrsInside⟩

theorem agree_read (bytes : ByteArray) :
    AgreeOn bytes.size (fun table => table.bytes = bytes ∧ table.Inside bytes.size)
      (read bytes) (read bytes) := by
  apply AgreeOn.bind (AgreeOn.readAt (.whole bytes) fun _ => agree_readDirectory (.whole bytes))
  intro ⟨headerSize, names, topDicts, strings, globalSubrs⟩ inside
  apply AgreeOn.bind (Index.agree_count inside.names.some)
  rintro _ rfl
  apply AgreeOn.bind (Index.agree_count inside.topDicts.some)
  rintro _ rfl
  split
  · exact .error inside.header.2
  · next same =>
    rw [not_not] at same
    have fonts : AgreeOn bytes.size (fun fonts => ∀ font ∈ fonts, font.Inside bytes.size)
        ((Array.range names.size).mapM fun i => do
          Font.read bytes (← names.locate i) (← topDicts.locate i))
        ((Array.range names.size).mapM fun i => do
          Font.read bytes (← names.locate i) (← topDicts.locate i)) := by
      apply AgreeOn.array_mapM
      intro i found
      have bound := Array.mem_range.1 found
      apply AgreeOn.bind (Index.agree_locate bound)
      rintro _ rfl
      apply AgreeOn.bind (Index.agree_locate (same ▸ bound))
      rintro _ rfl
      exact Font.agree_read (inside.names.elementSpan bound) _
    apply AgreeOn.bind (fonts.and_ok fun _ read => (range_mapM_eq_ok.1 read).1)
    intro found ⟨each, size⟩
    exact .ok ⟨rfl, inside.header, inside.names, inside.topDicts, inside.strings,
      inside.globalSubrs, ⟨same.symm, size⟩, each⟩

/-- All that a table describes lies in the bytes that it was read from. -/
theorem inside_of_read {bytes : ByteArray} {table : Table} (done : read bytes = .ok table) :
    table.bytes = bytes ∧ table.Inside bytes.size := (agree_read bytes).of_ok done

/-- Reading never leaves a range: where the checked reader stops, the reader fails. Failures are
noticed inside the bytes, and everything that is recorded lies in them. -/
theorem read_safe (bytes : ByteArray) :
    (read bytes : Except Halt Table) = (read bytes).mapError .failed ∧
      (∀ error, read bytes = .error error → error.offset ≤ bytes.size) ∧
      ∀ table, read bytes = .ok table → table.bytes = bytes ∧ table.Inside bytes.size := by
  have agree := agree_read bytes
  refine ⟨agree.eq_mapError, ?_, ?_⟩
  · intro error failed
    exact agree.offset_le failed
  · intro table done
    exact inside_of_read done

end CompactFont.Table
