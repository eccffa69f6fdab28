import CompactFont.Proofs.Dict.Written
import CompactFont.Proofs.Failure
import CompactFont.Proofs.Table.Directory
import CompactFont.Proofs.Table.Reading

/-!
Which structure a failure of reading a table is attributed to. There are two that are attributed to
none: of a header that is longer than all of the bytes, and of the `Private` entry of a name-keyed
font that does not give a size and an offset.
-/

set_option autoImplicit false

namespace CompactFont

variable {bytes : ByteArray} {error : ReadError}

namespace Dict.Entry

def GivesExtent (entry : Entry) : Prop :=
  ∃ size offset : Nat,
    entry.operands[0]? = some (.integer size) ∧ entry.operands[1]? = some (.integer offset)

variable {entry : Entry} {i : Nat}

theorem natural_eq_invalid
    (absent : ¬∃ value : Nat, entry.operands[i]? = some (.integer value)) :
    entry.natural i = .error entry.invalid := by
  unfold natural integer
  split
  · next value found =>
    have negative : value < 0 := by
      by_contra positive
      exact absent ⟨value.toNat, by rw [found, Int.toNat_of_nonneg (Int.not_lt.1 positive)]⟩
    exact if_pos negative
  · rfl

/-- An operand that is not a natural number is refused, and nothing else is. -/
theorem unattributed_natural : Unattributed (entry.natural i) error ↔
    (¬∃ value : Nat, entry.operands[i]? = some (.integer value)) ∧ error = entry.invalid := by
  constructor
  · intro ⟨failed, _⟩
    have absent : ¬∃ value : Nat, entry.operands[i]? = some (.integer value) := by
      intro ⟨value, given⟩
      rw [natural_eq_ok given] at failed
      cases failed
    rw [natural_eq_invalid absent, Except.error.injEq] at failed
    exact ⟨absent, failed.symm⟩
  · rintro ⟨absent, rfl⟩
    exact ⟨natural_eq_invalid absent, rfl⟩

end Dict.Entry

namespace PrivateDict

theorem unattributed_ofEntry {entry : Dict.Entry} :
    Unattributed (ofEntry bytes entry) error ↔ ¬entry.GivesExtent ∧ error = entry.invalid := by
  unfold ofEntry
  simp only [unattributed_bind, not_unattributed_attributeTo, and_false, exists_false, or_false,
    Dict.Entry.unattributed_natural]
  constructor
  · rintro (⟨absent, refused⟩ | ⟨size, _, absent, refused⟩)
    · exact ⟨fun ⟨size, _, given, _⟩ => absent ⟨size, given⟩, refused⟩
    · exact ⟨fun ⟨_, offset, _, given⟩ => absent ⟨offset, given⟩, refused⟩
  · intro ⟨lacks, refused⟩
    by_cases given : ∃ size : Nat, entry.operands[0]? = some (.integer size)
    · obtain ⟨size, given⟩ := given
      refine .inr ⟨size, Dict.Entry.natural_eq_ok given, fun ⟨offset, found⟩ => ?_, refused⟩
      exact lacks ⟨size, offset, given, found⟩
    · exact .inl ⟨given, refused⟩

end PrivateDict

namespace TopDict

theorem not_unattributed_required {operator : Dict.Operator} {value : Option Nat} :
    ¬Unattributed (required operator value) error := not_unattributed_attributeTo

end TopDict

namespace Font

/-- A name-keyed font that can be read up to its Private DICT. The entry for that, the last one if
there are several, does not give a size and an offset. -/
structure LacksPrivateExtent (bytes : ByteArray) (topDict : Span) (top : TopDict)
    (entry : Dict.Entry) : Prop where
  topDict : ∃ entries, Dict.readSpan bytes topDict = .ok entries ∧
    TopDict.ofEntries entries = .ok top
  structures : ∃ offset charStrings charset, top.charStrings = some offset ∧
    Index.readAt bytes offset = .ok charStrings ∧
    readCharset bytes top.charset charStrings.size = .ok charset
  named : top.isCid = false
  located : top.privateDict = some entry
  lacks : ¬entry.GivesExtent

variable {top : TopDict} {glyphCount : Nat}

theorem not_unattributed_readCharset {offset : Option Nat} :
    ¬Unattributed (readCharset bytes offset glyphCount) error := by
  unfold readCharset
  split
  · exact not_unattributed_ok
  split
  · exact not_unattributed_ok
  · exact not_unattributed_attributeTo

/-- All that is read for a CID-keyed font is attributed, its Private DICTs to the FDArray. -/
theorem not_unattributed_readCid : ¬Unattributed (readCid bytes top glyphCount) error := by
  apply not_unattributed_bind TopDict.not_unattributed_required
  intro fdArray
  apply not_unattributed_bind not_unattributed_attributeTo
  intro fontDicts
  have rest : ¬Unattributed (do
      let fdSelect ← TopDict.required .fdSelect top.fdSelect
      let select ← ReadError.attributeTo .fdSelect
        (FdSelect.readAt bytes fdSelect glyphCount fontDicts.size)
      return Keying.cid select fontDicts) error := by
    apply not_unattributed_bind TopDict.not_unattributed_required
    intro fdSelect
    apply not_unattributed_bind not_unattributed_attributeTo
    intro select
    exact not_unattributed_pure
  dsimp only
  split
  · exact not_unattributed_bind not_unattributed_attributeTo fun _ => rest
  · exact rest

theorem unattributed_readNamed : Unattributed (readNamed bytes top) error ↔
    ∃ entry, top.privateDict = some entry ∧ ¬entry.GivesExtent ∧ error = entry.invalid := by
  unfold readNamed
  split
  · next absent => simp only [not_unattributed_ok, absent, reduceCtorEq, false_and, exists_false]
  · next entry present =>
    simp only [unattributed_map, PrivateDict.unattributed_ofEntry, present, Option.some.injEq,
      exists_eq_left']

theorem unattributed_read {name topDict : Span} :
    Unattributed (read bytes name topDict) error ↔
      ∃ top entry, LacksPrivateExtent bytes topDict top entry ∧ error = entry.invalid := by
  -- the last step of reading a font: what depends on how it is keyed, and then the font
  have keyed : ∀ (top : TopDict) (count : Nat) (build : Keying → Font),
      Unattributed (if top.isCid then readCid bytes top count >>= fun keying => pure (build keying)
        else readNamed bytes top >>= fun keying => pure (build keying)) error ↔
      top.isCid = false ∧
        ∃ entry, top.privateDict = some entry ∧ ¬entry.GivesExtent ∧ error = entry.invalid := by
    intro top count build
    split
    · next cid =>
      simp only [cid, unattributed_bind, not_unattributed_readCid, not_unattributed_pure, and_false,
        exists_false, or_false, Bool.true_eq_false, false_and]
    · next named =>
      simp only [named, unattributed_bind, unattributed_readNamed, not_unattributed_pure, and_false,
        exists_false, or_false, true_and]
  unfold read
  simp only [Ranged.slice_eq, Index.count_eq, pure_bind, ok_bind, unattributed_bind,
    not_unattributed_attributeTo, attributeTo_eq_ok, false_or, TopDict.not_unattributed_required,
    TopDict.required_eq_ok, not_unattributed_readCharset, keyed]
  constructor
  · intro ⟨entries, listed, top, said, offset, given, charStrings, found, charset, read, named, entry,
      located, lacks, refused⟩
    exact ⟨top, entry, ⟨⟨entries, listed, said⟩, ⟨offset, charStrings, charset, given, found, read⟩,
      named, located, lacks⟩, refused⟩
  · intro ⟨top, entry, lacking, refused⟩
    obtain ⟨entries, listed, said⟩ := lacking.topDict
    obtain ⟨offset, charStrings, charset, given, found, read⟩ := lacking.structures
    exact ⟨entries, listed, top, said, offset, given, charStrings, found, charset, read,
      lacking.named, entry, lacking.located, lacking.lacks, refused⟩

end Font

namespace Table

open Reader

def HeaderExceeds (bytes : ByteArray) (size : UInt8) : Prop :=
  bytes.size < size.toNat ∧ ∃ minor offsetSize, Holds bytes 0 [1, minor, size, offsetSize]

/-- A table of which the header and the INDEXes can be read, and the fonts up to a name-keyed one that
lacks the size or the offset of its Private DICT. -/
def StopsAtPrivate (bytes : ByteArray) (entry : Dict.Entry) : Prop :=
  ∃ directory i top, readDirectory.readAt (.whole bytes) 0 = .ok directory ∧
    directory.names.size = directory.topDicts.size ∧ i < directory.names.size ∧
    (∀ j < i, ∃ font, Font.read bytes (directory.names.elementSpan j)
      (directory.topDicts.elementSpan j) = .ok font) ∧
    Font.LacksPrivateExtent bytes (directory.topDicts.elementSpan i) top entry

theorem unattributedAt_readDirectory : readDirectory.UnattributedAt (.whole bytes) 0 error ↔
    ∃ size, HeaderExceeds bytes size ∧ error = .atOffset 4 (.offsetOutOfBounds size.toNat) := by
  unfold readDirectory
  simp only [unattributedAt_bind, not_unattributedAt_inPart, not_unattributedAt_pure, false_or,
    and_false, exists_false, or_false, unattributedAt_seek, run_inPart_eq_ok]
  constructor
  · intro ⟨size, middle, header, exceeds, refused⟩
    obtain ⟨minor, offsetSize, holds, _, small, rfl⟩ := run_readHeader_eq_ok.1 header
    have byte : (UInt8.ofNat size).toNat = size := by
      rw [UInt8.toNat_ofNat', Nat.mod_eq_of_lt small]
    refine ⟨UInt8.ofNat size, ⟨?_, minor, offsetSize, holds.1⟩, ?_⟩
    · rwa [byte]
    · rw [byte, refused]
  · intro ⟨size, ⟨exceeds, minor, offsetSize, holds⟩, refused⟩
    have four : 4 ≤ bytes.size := holds.le_size
    have header : readHeader.run (.whole bytes) 0 = .ok size.toNat 4 := by
      apply run_readHeader_eq_ok.2
      rw [UInt8.ofNat_toNat]
      exact ⟨minor, offsetSize, holds.whole, by unfold leastHeaderSize; omega, size.toNat_lt, rfl⟩
    exact ⟨size.toNat, 4, header, exceeds, refused⟩

theorem unattributed_readFonts {directory : Directory} {build : Array Font → Table} :
    Unattributed (do
      if directory.names.size ≠ directory.topDicts.size then
        ReadError.attributeTo .topDict (.error (.atOffset directory.headerSize
          (.fontCountsDiffer directory.names.size directory.topDicts.size)))
      let fonts ← (Array.range directory.names.size).mapM fun i =>
        Font.read bytes (directory.names.elementSpan i) (directory.topDicts.elementSpan i)
      return build fonts) error ↔
    directory.names.size = directory.topDicts.size ∧ ∃ i < directory.names.size,
      (∀ j < i, ∃ font, Font.read bytes (directory.names.elementSpan j)
        (directory.topDicts.elementSpan j) = .ok font) ∧
      ∃ top entry, Font.LacksPrivateExtent bytes (directory.topDicts.elementSpan i) top entry ∧
        error = entry.invalid := by
  by_cases same : directory.names.size = directory.topDicts.size
  · simp only [same, ne_eq, not_true_eq_false, if_false, true_and, unattributed_bind,
      not_unattributed_pure, and_false, exists_false, or_false, unattributed_range_mapM,
      Font.unattributed_read]
  · simp only [same, ne_eq, not_false_eq_true, if_true, false_and, iff_false]
    intro ⟨failed, unclaimed⟩
    cases failed
    cases unclaimed

/-- A failure of reading a table is attributed to a structure, with exactly two exceptions: the header
is longer than the bytes, or a name-keyed font lacks the size or the offset of its Private DICT. -/
theorem read_unattributed_iff (bytes : ByteArray) (error : ReadError) :
    read bytes = .error error ∧ error.part = none ↔
      (∃ size, HeaderExceeds bytes size ∧ error = .atOffset 4 (.offsetOutOfBounds size.toNat)) ∨
      ∃ entry, StopsAtPrivate bytes entry ∧ error = entry.invalid := by
  change Unattributed (read bytes) error ↔ _
  unfold read
  rw [unattributed_bind, unattributed_readAt_zero, unattributedAt_readDirectory]
  apply or_congr Iff.rfl
  simp only [Index.count_eq, Index.locate_eq, ok_bind, Failure.ofError_eq, unattributed_readFonts]
  constructor
  · intro ⟨directory, listed, same, i, bound, earlier, top, entry, lacking, refused⟩
    exact ⟨entry, ⟨directory, i, top, listed, same, bound, earlier, lacking⟩, refused⟩
  · intro ⟨entry, ⟨directory, i, top, listed, same, bound, earlier, lacking⟩, refused⟩
    exact ⟨directory, listed, same, i, bound, earlier, top, entry, lacking, refused⟩

/-- A header of five bytes, of which there are four. -/
def longHeader : ByteArray := ⟨#[1, 0, 5, 4]⟩

theorem not_attributed_longHeader :
    read longHeader = .error ⟨.offsetOutOfBounds 5, 4, none⟩ ∧
      ¬∀ error, read longHeader = .error error → error.part.isSome := by
  have failed : read longHeader = .error ⟨.offsetOutOfBounds 5, 4, none⟩ := rfl
  refine ⟨failed, fun attributed => ?_⟩
  cases attributed _ failed

/-- A table with one font, of which the Private DICT has a size but no offset. -/
def unplacedPrivate : ByteArray :=
  ⟨#[1, 0, 4, 1, 0, 1, 1, 1, 2, 65, 0, 1, 1, 1, 5, 162, 17, 139, 18, 0, 0, 0, 0, 0, 1, 1, 1, 2, 14]⟩

theorem read_unattributed_iff_unplacedPrivate :
    ∃ entry, StopsAtPrivate unplacedPrivate entry ∧
      read unplacedPrivate = .error entry.invalid ∧ entry.span.start = 17 := by
  obtain ⟨_, failed, rfl⟩ : ∃ refusal, read unplacedPrivate = .error refusal ∧
      refusal = ⟨.invalidEntry .privateDict, 17, none⟩ := by decide +kernel
  obtain ⟨size, _, other⟩ | ⟨entry, stops, same⟩ :=
    (read_unattributed_iff unplacedPrivate _).1 ⟨failed, rfl⟩
  · cases other
  · exact ⟨entry, stops, same ▸ failed, (congrArg ReadError.offset same).symm⟩

end Table
end CompactFont
