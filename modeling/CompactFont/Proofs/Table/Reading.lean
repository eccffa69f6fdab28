import CompactFont.Proofs.Outcome
import CompactFont.Table

/-!
When reading a font or a table succeeds, structure by structure. Each statement is an equivalence:
it tells what is known of a font that was read, and what has to be shown of one that is to be read.
-/

set_option autoImplicit false

namespace CompactFont

variable {bytes : ByteArray}

namespace PrivateDict

theorem readSpan_eq_ok {span : Span} {privateDict : PrivateDict} :
    readSpan bytes span = .ok privateDict ↔
      privateDict.span = span ∧ Dict.readSpan bytes span = .ok privateDict.entries ∧
        privateDict.entries.foldlM (locateSubrs bytes span.start) none = .ok privateDict.subrs := by
  simp only [readSpan, bind_eq_ok, pure_eq_ok]
  constructor
  · rintro ⟨entries, listed, subrs, located, rfl⟩
    exact ⟨rfl, listed, located⟩
  · rintro ⟨rfl, listed, located⟩
    exact ⟨privateDict.entries, listed, privateDict.subrs, located, rfl⟩

theorem ofEntry_eq_ok {entry : Dict.Entry} {privateDict : PrivateDict} :
    ofEntry bytes entry = .ok privateDict ↔
      ∃ size offset, entry.natural 0 = .ok size ∧ entry.natural 1 = .ok offset ∧
        readSpan bytes ⟨offset, offset + size⟩ = .ok privateDict := by
  simp only [ofEntry, bind_eq_ok, attributeTo_eq_ok]
  constructor
  · rintro ⟨size, sized, offset, placed, found⟩
    exact ⟨size, offset, sized, placed, found⟩
  · rintro ⟨size, offset, sized, placed, found⟩
    exact ⟨size, sized, offset, placed, found⟩

end PrivateDict

namespace FontDict

theorem readSpan_eq_ok {span : Span} {fontDict : FontDict} :
    readSpan bytes span = .ok fontDict ↔
      Dict.readSpan bytes span = .ok fontDict.entries ∧
        (fontDict.entries.find? (·.operator = .privateDict)).mapM (PrivateDict.ofEntry bytes) =
          .ok fontDict.privateDict := by
  simp only [readSpan, bind_eq_ok]
  constructor
  · rintro ⟨entries, listed, located⟩
    split at located
    · next absent =>
      cases located
      exact ⟨listed, by rw [absent]; rfl⟩
    · next entry present =>
      obtain ⟨privateDict, found, same⟩ := bind_eq_ok.1 located
      cases same
      refine ⟨listed, ?_⟩
      rw [present]
      exact mapM_option_eq_ok.2 (.inr ⟨entry, privateDict, rfl, rfl, found⟩)
  · rintro ⟨listed, located⟩
    refine ⟨fontDict.entries, listed, ?_⟩
    rcases mapM_option_eq_ok.1 located with ⟨absent, none⟩ | ⟨entry, found, present, same, read⟩
    · rw [absent]
      cases fontDict
      cases none
      rfl
    · rw [present]
      refine bind_eq_ok.2 ⟨found, read, ?_⟩
      cases fontDict
      cases same
      rfl

theorem readArray_eq_ok {offset : Nat} {fontDicts : Array FontDict} :
    readArray bytes offset = .ok fontDicts ↔
      ∃ index, Index.readAt bytes offset = .ok index ∧ fontDicts.size = index.size ∧
        ∀ i fontDict, fontDicts[i]? = some fontDict →
          readSpan bytes (index.elementSpan i) = .ok fontDict := by
  simp only [readArray, Index.count_eq, Index.locate_eq, ok_bind, bind_eq_ok, range_mapM_eq_ok]

end FontDict

namespace TopDict

theorem required_eq_ok {operator : Dict.Operator} {value : Option Nat} {offset : Nat} :
    required operator value = .ok offset ↔ value = some offset := by
  unfold required
  rw [attributeTo_eq_ok]
  cases value with
  | none => simp only [reduceCtorEq]
  | some value => simp only [Except.ok.injEq, Option.some.injEq]

end TopDict

namespace Font

theorem readCid_eq_ok {top : TopDict} {glyphCount : Nat} {keying : Keying} :
    readCid bytes top glyphCount = .ok keying ↔
      ∃ fdArray fdSelect fontDicts select,
        top.fdArray = some fdArray ∧ top.fdSelect = some fdSelect ∧
        FontDict.readArray bytes fdArray = .ok fontDicts ∧ fontDicts ≠ #[] ∧
        FdSelect.readAt bytes fdSelect glyphCount fontDicts.size = .ok select ∧
        keying = .cid select fontDicts := by
  simp only [readCid, bind_eq_ok, attributeTo_eq_ok, TopDict.required_eq_ok]
  constructor
  · rintro ⟨fdArray, arrayGiven, fontDicts, listed, checked⟩
    split at checked
    · cases checked
    · next full =>
      simp only [bind_eq_ok, attributeTo_eq_ok, TopDict.required_eq_ok, pure_eq_ok] at checked
      obtain ⟨fdSelect, selectGiven, select, assigned, rfl⟩ := checked
      refine ⟨fdArray, fdSelect, fontDicts, select, arrayGiven, selectGiven, listed, ?_, assigned,
        rfl⟩
      simpa only [Array.isEmpty_iff] using full
  · rintro ⟨fdArray, fdSelect, fontDicts, select, arrayGiven, selectGiven, listed, full, assigned,
      rfl⟩
    refine ⟨fdArray, arrayGiven, fontDicts, listed, ?_⟩
    rw [if_neg (by simpa only [Array.isEmpty_iff] using full)]
    simp only [bind_eq_ok, attributeTo_eq_ok, TopDict.required_eq_ok, pure_eq_ok]
    exact ⟨fdSelect, selectGiven, select, assigned, rfl⟩

theorem readNamed_eq_ok {top : TopDict} {keying : Keying} :
    readNamed bytes top = .ok keying ↔
      ∃ privateDict, top.privateDict.mapM (PrivateDict.ofEntry bytes) = .ok privateDict ∧
        keying = .named privateDict := by
  unfold readNamed
  split
  · next absent =>
    simp only [absent, Option.mapM_none, pure_eq_ok, exists_eq_left']
    rw [Except.ok.injEq, eq_comm]
  · next entry present =>
    simp only [present, Option.mapM_some, map_eq_ok, Function.comp_apply]
    constructor
    · rintro ⟨privateDict, found, rfl⟩
      exact ⟨some privateDict, ⟨privateDict, found, rfl⟩, rfl⟩
    · rintro ⟨_, ⟨privateDict, found, rfl⟩, rfl⟩
      exact ⟨privateDict, found, rfl⟩

/-- A font has a charset of its own if the Top DICT locates it behind the predefined ones. -/
theorem readCharset_eq_some {offset : Option Nat} {glyphCount : Nat} {charset : Charset} :
    readCharset bytes offset glyphCount = .ok (some charset) ↔
      ∃ pos, offset = some pos ∧ lastPredefinedCharset < pos ∧
        Charset.readAt bytes pos glyphCount = .ok charset := by
  unfold readCharset
  cases offset with
  | none => simp
  | some pos =>
    dsimp only
    split
    · next predefined => simp [Nat.not_lt.2 predefined]
    · next custom => simp [attributeTo_eq_ok, map_eq_ok, Nat.not_le.1 custom]

def readKeying (bytes : ByteArray) (top : TopDict) (glyphCount : Nat) : Except ReadError Keying :=
  if top.isCid then readCid bytes top glyphCount else readNamed bytes top

structure Found (bytes : ByteArray) (name topDict : Span) (top : TopDict) (font : Font) : Prop where
  nameSpan : font.nameSpan = name
  name : font.name = Text.Utf8.decode (name.slice bytes)
  topDict : Dict.readSpan bytes topDict = .ok font.topDict
  entries : TopDict.ofEntries font.topDict = .ok top
  charstringType : font.charstringType = top.charstringType
  charStrings : ∃ offset, top.charStrings = some offset ∧
    Index.readAt bytes offset = .ok font.charStrings
  charset : readCharset bytes top.charset font.charStrings.size = .ok font.charset
  keying : readKeying bytes top font.charStrings.size = .ok font.keying

theorem isCid_eq_true {font : Font} :
    font.isCid = true ↔ ∃ select fontDicts, font.keying = .cid select fontDicts := by
  unfold isCid
  cases font.keying <;> simp

theorem isCid_eq_false {font : Font} :
    font.isCid = false ↔ ∃ privateDict, font.keying = .named privateDict := by
  unfold isCid
  cases font.keying <;> simp

theorem Found.isCid {name topDict : Span} {top : TopDict} {font : Font}
    (found : Found bytes name topDict top font) : font.isCid = top.isCid := by
  have keying := found.keying
  unfold readKeying at keying
  split at keying
  · next cid =>
    obtain ⟨_, _, _, _, _, _, _, _, _, same⟩ := readCid_eq_ok.1 keying
    rw [Font.isCid, same, cid]
  · next named =>
    obtain ⟨_, _, same⟩ := readNamed_eq_ok.1 keying
    rw [Font.isCid, same, Bool.eq_false_iff.2 named]

theorem read_eq_ok {name topDict : Span} {font : Font} :
    read bytes name topDict = .ok font ↔ ∃ top, Found bytes name topDict top font := by
  have keyed : ∀ (top : TopDict) (count : Nat) (next : Keying → Except ReadError Font),
      (if top.isCid then readCid bytes top count >>= next else readNamed bytes top >>= next) =
        readKeying bytes top count >>= next := by
    intro top count next
    unfold readKeying
    split <;> rfl
  simp only [read, Ranged.slice_eq, Index.count_eq, pure_bind, ok_bind, keyed, bind_eq_ok,
    attributeTo_eq_ok, TopDict.required_eq_ok, pure_eq_ok]
  constructor
  · rintro ⟨topDict, listed, top, entries, offset, given, charStrings, found, charset, named, keying,
      keyed, rfl⟩
    exact ⟨top, rfl, rfl, listed, entries, rfl, ⟨offset, given, found⟩, named, keyed⟩
  · rintro ⟨top, found⟩
    obtain ⟨offset, given, charStrings⟩ := found.charStrings
    refine ⟨font.topDict, found.topDict, top, found.entries, offset, given, font.charStrings,
      charStrings, font.charset, found.charset, font.keying, found.keying, ?_⟩
    rw [← found.name, ← found.nameSpan, ← found.charstringType]

end Font

theorem Table.read_eq_ok {table : Table} :
    Table.read bytes = .ok table ↔
      table.bytes = bytes ∧
        Table.readDirectory.readAt (.whole bytes) 0 = .ok ⟨table.headerSize, table.names,
          table.topDicts, table.strings, table.globalSubrs⟩ ∧
        table.names.size = table.topDicts.size ∧ table.fonts.size = table.names.size ∧
        ∀ i font, table.fonts[i]? = some font →
          Font.read bytes (table.names.elementSpan i) (table.topDicts.elementSpan i) = .ok font := by
  simp only [Table.read, Index.count_eq, Index.locate_eq, ok_bind, bind_eq_ok]
  constructor
  · rintro ⟨⟨headerSize, names, topDicts, strings, globalSubrs⟩, found, checked⟩
    dsimp only at checked
    split at checked
    · cases checked
    · next same =>
      obtain ⟨fonts, listed, done⟩ := bind_eq_ok.1 checked
      cases done
      obtain ⟨size, all⟩ := range_mapM_eq_ok.1 listed
      exact ⟨rfl, found, not_not.1 same, size, all⟩
  · rintro ⟨rfl, found, same, size, all⟩
    refine ⟨_, found, ?_⟩
    dsimp only
    rw [if_neg (not_not.2 same)]
    exact bind_eq_ok.2 ⟨table.fonts, range_mapM_eq_ok.2 ⟨size, all⟩, rfl⟩

end CompactFont
