import CompactFont.Proofs.Charset
import CompactFont.Proofs.FdSelect
import CompactFont.Proofs.Table.Bounds
import CompactFont.Proofs.Table.Directory
import CompactFont.Proofs.Table.Reading

/-!
More bytes after a table. What is read does not depend on how many bytes follow: every structure is
found again, and all spans cut out the same bytes.
-/

set_option autoImplicit false

namespace CompactFont

open Reader

variable {bytes : ByteArray} {pos size : Nat}

theorem Holds.append_bytes {content : List UInt8} (holds : Holds bytes pos content)
    (trailing : ByteArray) : Holds (bytes ++ trailing) pos content := by
  obtain ⟨before, after, whole, start⟩ := holds
  refine ⟨before, after ++ listed trailing, ?_, start⟩
  rw [listed_append, whole, List.append_assoc]

theorem le_size_append (inside : size ≤ bytes.size) (trailing : ByteArray) :
    size ≤ (bytes ++ trailing).size := by
  rw [ByteArray.size_append]
  exact Nat.le_trans inside (Nat.le_add_right _ _)

theorem Span.slice_append {span : Span} (inside : span.stop ≤ bytes.size) (trailing : ByteArray) :
    span.slice (bytes ++ trailing) = span.slice bytes := by
  rw [slice, slice, ByteArray.extract_append, Nat.sub_eq_zero_of_le inside,
    ByteArray.extract_eq_empty_iff.2 (Nat.le_trans (Nat.min_le_left _ _) (Nat.zero_le _)),
    ByteArray.append_empty]

theorem Reader.Local.run_append {α : Type} {reader : Reader α} (whole : Local reader) {value : α}
    {stop : Nat} (inside : pos ≤ bytes.size)
    (read : reader.run (.whole bytes) pos = .ok value stop) (trailing : ByteArray) :
    reader.run (.whole (bytes ++ trailing)) pos = .ok value stop := by
  obtain ⟨content, holds, rfl, spelled⟩ := whole _ pos value stop inside read
  exact spelled pos _ (holds.1.append_bytes trailing).whole

/-! ### INDEXes and DICTs -/

theorem Index.run_read_append {index : Index} {stop : Nat} (inside : pos ≤ bytes.size)
    (found : read.run (.whole bytes) pos = .ok index stop) (trailing : ByteArray) :
    read.run (.whole (bytes ++ trailing)) pos = .ok index stop := by
  obtain ⟨form, valid, holds, within, rfl, rfl⟩ := (run_read_eq_ok inside).1 found
  exact (run_read_eq_ok (le_size_append inside trailing)).2
    ⟨form, valid, (holds.1.append_bytes trailing).whole, le_size_append within trailing, rfl, rfl⟩

theorem Index.readAt_append {index : Index} (found : readAt bytes pos = .ok index)
    (trailing : ByteArray) : readAt (bytes ++ trailing) pos = .ok index := by
  obtain ⟨inside, stop, found⟩ := Reader.readAt_eq_ok.1 found
  exact Reader.readAt_eq_ok.2
    ⟨le_size_append inside trailing, stop, run_read_append inside found trailing⟩

theorem Dict.readSpan_append {span : Span} {entries : Array Entry}
    (found : readSpan bytes span = .ok entries) (trailing : ByteArray) :
    readSpan (bytes ++ trailing) span = .ok entries := by
  obtain ⟨forms, sound, holds, ends, same⟩ := readSpan_eq_ok.1 found
  exact readSpan_eq_ok.2 ⟨forms, sound, holds.append_bytes trailing, ends, same⟩

/-! ### Private DICTs and Font DICTs -/

theorem PrivateDict.foldlM_locateSubrs_append {entries : List Dict.Entry} {start : Nat}
    {before subrs : Option Index}
    (located : entries.foldlM (locateSubrs bytes start) before = .ok subrs) (trailing : ByteArray) :
    entries.foldlM (locateSubrs (bytes ++ trailing) start) before = .ok subrs := by
  induction entries generalizing before with
  | nil => exact located
  | cons entry entries induction =>
    rw [List.foldlM_cons] at located ⊢
    obtain ⟨next, found, located⟩ := bind_eq_ok.1 located
    refine bind_eq_ok.2 ⟨next, ?_, induction located⟩
    unfold locateSubrs at found ⊢
    split at found
    · next subrsEntry =>
      obtain ⟨offset, given, found⟩ := bind_eq_ok.1 found
      obtain ⟨index, found, same⟩ := bind_eq_ok.1 found
      rw [if_pos subrsEntry]
      refine bind_eq_ok.2 ⟨offset, given, bind_eq_ok.2 ⟨index, ?_, same⟩⟩
      exact attributeTo_eq_ok.2 (Index.readAt_append (attributeTo_eq_ok.1 found) trailing)
    · next other => rwa [if_neg other]

theorem PrivateDict.readSpan_append {span : Span} {privateDict : PrivateDict}
    (found : readSpan bytes span = .ok privateDict) (trailing : ByteArray) :
    readSpan (bytes ++ trailing) span = .ok privateDict := by
  obtain ⟨placed, listed, located⟩ := readSpan_eq_ok.1 found
  rw [← Array.foldlM_toList] at located
  refine readSpan_eq_ok.2 ⟨placed, Dict.readSpan_append listed trailing, ?_⟩
  rw [← Array.foldlM_toList]
  exact foldlM_locateSubrs_append located trailing

theorem PrivateDict.mapM_ofEntry_append {entry : Option Dict.Entry}
    {privateDict : Option PrivateDict} (found : entry.mapM (ofEntry bytes) = .ok privateDict)
    (trailing : ByteArray) : entry.mapM (ofEntry (bytes ++ trailing)) = .ok privateDict := by
  rcases mapM_option_eq_ok.1 found with absent | ⟨given, own, present, same, found⟩
  · exact mapM_option_eq_ok.2 (.inl absent)
  · obtain ⟨size, offset, sized, placed, found⟩ := ofEntry_eq_ok.1 found
    exact mapM_option_eq_ok.2 (.inr ⟨given, own, present, same,
      ofEntry_eq_ok.2 ⟨size, offset, sized, placed, readSpan_append found trailing⟩⟩)

theorem FontDict.readArray_append {fontDicts : Array FontDict}
    (found : readArray bytes pos = .ok fontDicts) (trailing : ByteArray) :
    readArray (bytes ++ trailing) pos = .ok fontDicts := by
  obtain ⟨index, listed, size, each⟩ := readArray_eq_ok.1 found
  refine readArray_eq_ok.2 ⟨index, Index.readAt_append listed trailing, size, ?_⟩
  intro i fontDict present
  obtain ⟨entries, located⟩ := readSpan_eq_ok.1 (each i fontDict present)
  exact readSpan_eq_ok.2 ⟨Dict.readSpan_append entries trailing,
    PrivateDict.mapM_ofEntry_append located trailing⟩

/-! ### Fonts -/

theorem Charset.readAt_append {glyphCount : Nat} {charset : Charset}
    (found : readAt bytes pos glyphCount = .ok charset) (trailing : ByteArray) :
    readAt (bytes ++ trailing) pos glyphCount = .ok charset := by
  obtain ⟨inside, stop, passed, same⟩ := readAt_eq_ok.1 found
  exact readAt_eq_ok.2 ⟨le_size_append inside trailing, stop,
    (local_skip glyphCount).run_append inside passed trailing, same⟩

theorem FdSelect.readAt_append {glyphCount fontDictCount : Nat} {select : FdSelect}
    (found : readAt bytes pos glyphCount fontDictCount = .ok select) (trailing : ByteArray) :
    readAt (bytes ++ trailing) pos glyphCount fontDictCount = .ok select := by
  obtain ⟨inside, stop, assigned, known, span⟩ := readAt_eq_ok.1 found
  exact readAt_eq_ok.2 ⟨le_size_append inside trailing, stop,
    (local_readAssigned glyphCount).run_append inside assigned trailing, known, span⟩

namespace Font

theorem readCharset_append {offset : Option Nat} {glyphCount : Nat} {charset : Option Charset}
    (found : readCharset bytes offset glyphCount = .ok charset) (trailing : ByteArray) :
    readCharset (bytes ++ trailing) offset glyphCount = .ok charset := by
  cases charset with
  | some charset =>
    obtain ⟨pos, given, custom, found⟩ := readCharset_eq_some.1 found
    exact readCharset_eq_some.2 ⟨pos, given, custom, Charset.readAt_append found trailing⟩
  | none =>
    unfold readCharset at found ⊢
    cases offset with
    | none => rfl
    | some pos =>
      dsimp only at found ⊢
      split at found
      · next predefined => rw [if_pos predefined]
      · obtain ⟨_, _, same⟩ := map_eq_ok.1 (attributeTo_eq_ok.1 found)
        cases same

theorem readKeying_append {top : TopDict} {glyphCount : Nat} {keying : Keying}
    (found : readKeying bytes top glyphCount = .ok keying) (trailing : ByteArray) :
    readKeying (bytes ++ trailing) top glyphCount = .ok keying := by
  unfold readKeying at found ⊢
  split at found
  · next cid =>
    obtain ⟨fdArray, fdSelect, fontDicts, select, arrayGiven, selectGiven, listed, full, assigned,
      same⟩ := readCid_eq_ok.1 found
    rw [if_pos cid]
    exact readCid_eq_ok.2 ⟨fdArray, fdSelect, fontDicts, select, arrayGiven, selectGiven,
      FontDict.readArray_append listed trailing, full, FdSelect.readAt_append assigned trailing,
      same⟩
  · next named =>
    obtain ⟨privateDict, located, same⟩ := readNamed_eq_ok.1 found
    rw [if_neg named]
    exact readNamed_eq_ok.2
      ⟨privateDict, PrivateDict.mapM_ofEntry_append located trailing, same⟩

theorem read_append {name topDict : Span} {font : Font} (inside : name.stop ≤ bytes.size)
    (done : read bytes name topDict = .ok font) (trailing : ByteArray) :
    read (bytes ++ trailing) name topDict = .ok font := by
  obtain ⟨top, found⟩ := read_eq_ok.1 done
  obtain ⟨offset, given, charStrings⟩ := found.charStrings
  exact read_eq_ok.2 ⟨top, {
    nameSpan := found.nameSpan
    name := by rw [found.name, Span.slice_append inside]
    topDict := Dict.readSpan_append found.topDict trailing
    entries := found.entries
    charstringType := found.charstringType
    charStrings := ⟨offset, given, Index.readAt_append charStrings trailing⟩
    charset := readCharset_append found.charset trailing
    keying := readKeying_append found.keying trailing }⟩

end Font

/-! ### Tables -/

namespace Table

theorem readDirectory_append {directory : Directory}
    (found : readDirectory.readAt (.whole bytes) 0 = .ok directory) (trailing : ByteArray) :
    readDirectory.readAt (.whole (bytes ++ trailing)) 0 = .ok directory := by
  obtain ⟨start, stop, found⟩ := Reader.readAt_eq_ok.1 found
  obtain ⟨⟨minor, offsetSize, holds⟩, large, small, inside, first, second, third, names, topDicts,
    strings, globalSubrs⟩ := run_readDirectory_eq_ok.1 found
  have afterNames := Index.le_stop_of_run_read inside names
  have afterTopDicts := Index.le_stop_of_run_read afterNames topDicts
  have afterStrings := Index.le_stop_of_run_read afterTopDicts strings
  refine Reader.readAt_eq_ok.2 ⟨Nat.zero_le _, stop, run_readDirectory_eq_ok.2
    ⟨⟨minor, offsetSize, (holds.1.append_bytes trailing).whole⟩, large, small,
      le_size_append inside trailing, first, second, third, ?_, ?_, ?_, ?_⟩⟩
  · exact Index.run_read_append inside names trailing
  · exact Index.run_read_append afterNames topDicts trailing
  · exact Index.run_read_append afterTopDicts strings trailing
  · exact Index.run_read_append afterStrings globalSubrs trailing

def extend (table : Table) (trailing : ByteArray) : Table :=
  { table with bytes := table.bytes ++ trailing }

/-- A table is read as the same one if more bytes follow it. -/
theorem read_extend {table : Table} (inside : table.Inside bytes.size)
    (done : read bytes = .ok table) (trailing : ByteArray) :
    read (bytes ++ trailing) = .ok (table.extend trailing) := by
  obtain ⟨rfl, directory, counts, fonts, each⟩ := read_eq_ok.1 done
  refine read_eq_ok.2 ⟨rfl, readDirectory_append directory trailing, counts, fonts, ?_⟩
  intro i font present
  have bound : i < table.names.size := by
    rw [← fonts]
    exact (Array.getElem?_eq_some_iff.1 present).1
  exact Font.read_append (inside.names.elementSpan bound).inside (each i font present) trailing

end Table
end CompactFont
