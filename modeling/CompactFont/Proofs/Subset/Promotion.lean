import CompactFont.Proofs.Subset.PassThrough

/-!
A subset of a name-keyed font is written as a CID-keyed font. What makes it one is spread over the
table: strings are added, and entries of the Top DICT and of the only Font DICT name them by number;
all glyphs belong to that Font DICT, and each one has its own number as its name.
-/

set_option autoImplicit false

namespace CompactFont

open Subset

/-- The string of a table that a number stands for. Numbers below those of the table stand for
standard strings. -/
def Table.string? (table : Table) (number : Nat) : Option ByteArray :=
  if Table.firstStringId ≤ number then
    (table.strings.elements table.bytes)[number - Table.firstStringId]?
  else none

/-- The name of the Font DICT that promotion gives to a font: the name of the font with a suffix, cut
to the length that names may have. -/
def Font.fontDictName (bytes : ByteArray) (font : Font) : ByteArray :=
  (font.nameSpan.slice bytes ++ "-OneRange".toUTF8).extract 0 127

/-- A table, read from `out`, has one font, to which a name-keyed font of another table, read from
`data`, was promoted. -/
structure Promoted (data : ByteArray) (table : Table) (font : Font) (out : ByteArray)
    (written : Table) (copy : Font) : Prop where
  strings : (written.strings.elements out).toList = (table.strings.elements data).toList ++
    ["Adobe".toUTF8, "Identity".toUTF8, font.fontDictName data]
  topDict : ∃ ros cidCount rest registry ordering, copy.topDict.toList = ros :: cidCount :: rest ∧
    ros.operator = .ros ∧ ros.operands = #[.integer (registry : Nat), .integer (ordering : Nat),
      .integer 0] ∧
    written.string? registry = some "Adobe".toUTF8 ∧
    written.string? ordering = some "Identity".toUTF8 ∧
    cidCount.operator = .cidCount ∧ cidCount.operands = #[.integer font.glyphCount]
  keying : ∃ select fontDicts, copy.keying = .cid select fontDicts ∧ fontDicts.size = 1 ∧
    select.assigned = Array.replicate font.glyphCount 0
  fontDictOf : ∀ glyph, copy.fontDictOf glyph = 0
  fontDict : ∃ fontDict nameEntry privateEntry name own, copy.fontDict? 0 = some fontDict ∧
    copy.privateDict 0 = some own ∧ fontDict.entries = #[nameEntry, privateEntry] ∧
    nameEntry.operator = .fontName ∧ nameEntry.operands = #[.integer (name : Nat)] ∧
    written.string? name = some (font.fontDictName data) ∧
    privateEntry.operator = .privateDict ∧
    privateEntry.operands = #[.integer own.span.length, .integer own.span.start]
  privateDict : ∀ source ∈ font.privateDict 0, ∃ own ∈ copy.privateDict 0,
    List.Forall₂ (Dict.Entry.CopiedUnless .subrs (Dict.Entry.LocatesSubrs own) data out)
      source.entries.toList own.entries.toList
  noPrivateDict : font.privateDict 0 = none → ∃ own ∈ copy.privateDict 0,
    own.span.length = 0 ∧ own.entries = #[] ∧ own.subrs = none
  charset : ∃ charset, copy.charset = some charset ∧
    charset.span.slice out = (Charset.identity font.glyphCount).toByteArray ∧
    Charset.readAt out charset.span.start font.glyphCount = .ok charset ∧
    (Charset.readNames font.glyphCount).run (.whole out) charset.span.start =
      .ok (List.range font.glyphCount) charset.span.stop

/-! ### Strings -/

theorem Table.elements_strings {bytes : ByteArray} {table : Table} {strings : List ByteArray}
    (read : Table.read bytes = .ok table) (valid : (Index.Form.ofElements strings).Valid)
    (raw : listed (table.strings.raw bytes) =
      (Index.Form.ofElements strings).header ++ strings.flatMap listed) :
    (table.strings.elements bytes).toList = strings := by
  obtain ⟨_, directory, _⟩ := Table.read_eq_ok.1 read
  obtain ⟨_, _, directory⟩ := Reader.readAt_eq_ok.1 directory
  obtain ⟨_, _, _, inside, _, _, _, readNames, readTopDicts, readStrings, _⟩ :=
    Table.run_readDirectory_eq_ok.1 directory
  have namesEnd := Index.le_stop_of_run_read inside readNames
  have topDictsEnd := Index.le_stop_of_run_read namesEnd readTopDicts
  exact Index.elements_of_raw topDictsEnd valid readStrings raw

/-- The number of an added string counts on from the strings that there were. -/
theorem Table.string?_added {table written : Table} {added : List ByteArray}
    (strings : (written.strings.elements written.bytes).toList =
      (table.strings.elements table.bytes).toList ++ added) (i : Nat) :
    written.string? (table.nextStringId + i) = added[i]? := by
  have behind : Table.firstStringId ≤ table.nextStringId + i :=
    Nat.le_trans (Nat.le_add_right _ _) (Nat.le_add_right _ _)
  have position : table.nextStringId + i - Table.firstStringId = table.strings.size + i := by
    rw [Table.nextStringId]
    omega
  rw [Table.string?, if_pos behind, position, ← Array.getElem?_toList, strings,
    ← Index.length_elements table.strings, List.getElem?_append_right (Nat.le_add_right _ _),
    Nat.add_sub_cancel_left]

/-! ### DICTs -/

theorem Dict.exists_pair_of_content {bytes : ByteArray} {locating : Dict.Operator}
    {entries : Array Dict.Entry} {form : Dict.Form}
    (content : Dict.content bytes locating entries = [some form, none]) :
    ∃ first second, entries = #[first, second] ∧ Dict.Form.ofEntry bytes first = form ∧
      second.operator = locating := by
  unfold Dict.content at content
  obtain ⟨first, rest, whole, given, content⟩ := List.map_eq_cons_iff.1 content
  obtain ⟨second, none, same, marked, content⟩ := List.map_eq_cons_iff.1 content
  rw [List.map_eq_nil_iff.1 content] at same
  rw [same] at whole
  refine ⟨first, second, Array.toList_inj.1 whole, ?_, ?_⟩
  · split at given
    · cases given
    · exact Option.some.inj given
  · split at marked
    · assumption
    · cases marked

theorem Dict.length_of_readSpan_empty {bytes : ByteArray} {span : Span}
    (read : Dict.readSpan bytes span = .ok #[]) : span.length = 0 := by
  obtain ⟨forms, _, _, stop, entries⟩ := Dict.readSpan_eq_ok.1 read
  cases forms with
  | nil => simp [Span.length, stop, Dict.raws]
  | cons form forms => simp [Dict.entriesFrom] at entries

theorem Table.readSpan_privateDict {bytes : ByteArray} {table : Table} {font : Font} {i fontDict : Nat}
    (read : Table.read bytes = .ok table) (present : table.fonts[i]? = some font)
    (cid : font.isCid = true) {own : PrivateDict} (located : font.privateDict fontDict = some own) :
    Dict.readSpan bytes own.span = .ok own.entries := by
  obtain ⟨rfl, _, _, _, each⟩ := Table.read_eq_ok.1 read
  obtain ⟨top, found⟩ := Font.read_eq_ok.1 (each i font present)
  have keyed := found.keying
  rw [found.isCid] at cid
  rw [Font.readKeying, if_pos cid] at keyed
  obtain ⟨_, _, fontDicts, _, _, _, readArray, _, _, keying⟩ := Font.readCid_eq_ok.1 keyed
  rw [Font.privateDict, keying] at located
  obtain ⟨entry, listed, located⟩ := Option.bind_eq_some_iff.1 located
  obtain ⟨_, _, _, eachDict⟩ := FontDict.readArray_eq_ok.1 readArray
  obtain ⟨_, readEntry⟩ := FontDict.readSpan_eq_ok.1 (eachDict fontDict entry listed)
  rw [located] at readEntry
  rcases mapM_option_eq_ok.1 readEntry with ⟨_, none⟩ | ⟨_, _, _, same, readEntry⟩
  · cases none
  · cases same
    obtain ⟨_, _, _, _, readOwn⟩ := PrivateDict.ofEntry_eq_ok.1 readEntry
    obtain ⟨span, entries, _⟩ := PrivateDict.readSpan_eq_ok.1 readOwn
    rw [span]
    exact entries

namespace CopyOf

variable {table written : Table} {font copy : Font} {wanted : GlyphSet}

/-- The String INDEX of a promoted font has three more strings. -/
theorem strings_of_named (copyOf : CopyOf table font wanted written copy)
    (named : font.isCid = false) (read : Table.read written.bytes = .ok written)
    (valid : (Index.Form.ofElements (font.promotedStrings table)).Valid) :
    (written.strings.elements written.bytes).toList =
      (table.strings.elements table.bytes).toList ++
        ["Adobe".toUTF8, "Identity".toUTF8, font.fontDictName table.bytes] := by
  have same := congrArg Font.Content.strings copyOf.content
  simp only [Font.content, Font.Content.restrict, named, copyOf.isCid, ↓reduceIte,
    Bool.false_eq_true] at same
  rw [Table.elements_strings read valid same, Font.promotedStrings, Font.fontDictName,
    fontDictNameLimit]

/-- The Top DICT of a promoted font begins with the entries that make it CID-keyed. -/
theorem topDict_of_named (copyOf : CopyOf table font wanted written copy)
    (named : font.isCid = false) :
    ∃ ros cidCount rest, copy.topDict.toList = ros :: cidCount :: rest ∧ ros.operator = .ros ∧
      ros.operands = #[.integer (table.nextStringId : Nat), .integer (table.nextStringId + 1 : Nat),
        .integer 0] ∧
      cidCount.operator = .cidCount ∧ cidCount.operands = #[.integer font.glyphCount] := by
  obtain ⟨promotion, kept, locating, whole, promoted, _⟩ := copyOf.topDict
  rw [named, if_neg Bool.false_ne_true, Font.promotedEntries] at promoted
  obtain ⟨ros, more, first, rosForm, promoted⟩ := List.map_eq_cons_iff.1 promoted
  obtain ⟨cidCount, none, second, cidCountForm, promoted⟩ := List.map_eq_cons_iff.1 promoted
  rw [first, second, List.map_eq_nil_iff.1 promoted] at whole
  exact ⟨ros, cidCount, kept ++ locating, by simpa using whole, congrArg Dict.Form.operator rosForm,
    congrArg Dict.Form.operands rosForm, congrArg Dict.Form.operator cidCountForm,
    congrArg Dict.Form.operands cidCountForm⟩

/-- A promoted font has one Font DICT, which all of its glyphs belong to. -/
theorem keying_of_named (copyOf : CopyOf table font wanted written copy)
    (named : font.isCid = false) :
    ∃ select fontDicts, copy.keying = .cid select fontDicts ∧ fontDicts.size = 1 ∧
      select.assigned = Array.replicate font.glyphCount 0 := by
  obtain ⟨select, fontDicts, _, keying, _, _, assigned, _, count⟩ := copyOf.exists_keying
  obtain ⟨privateDict, sourceKeying⟩ := Font.isCid_eq_false.1 named
  simp only [Font.content, sourceKeying] at assigned
  simp only [Font.fontDictCount, sourceKeying] at count
  exact ⟨select, fontDicts, keying, count, assigned⟩

/-- Every glyph of a promoted font has its own number as its name. -/
theorem charset_of_named (copyOf : CopyOf table font wanted written copy)
    (named : font.isCid = false) (read : Table.read written.bytes = .ok written)
    (only : written.fonts = #[copy]) :
    ∃ charset, copy.charset = some charset ∧
      charset.span.slice written.bytes = (Charset.identity font.glyphCount).toByteArray ∧
      Charset.readAt written.bytes charset.span.start font.glyphCount = .ok charset ∧
      (Charset.readNames font.glyphCount).run (.whole written.bytes) charset.span.start =
        .ok (List.range font.glyphCount) charset.span.stop := by
  obtain ⟨_, _, charset, _, custom, _, _, bytes, _⟩ := copyOf.exists_keying
  have present : written.fonts[0]? = some copy := by rw [only]; rfl
  obtain ⟨readCharset, names⟩ := Table.readAt_charset read present custom
  rw [copyOf.glyphCount_eq] at readCharset names
  obtain ⟨privateDict, sourceKeying⟩ := Font.isCid_eq_false.1 named
  simp only [Font.content, sourceKeying] at bytes
  refine ⟨charset, custom, listed_injective ?_, readCharset, names bytes⟩
  rw [bytes, listed_toByteArray]

/-- The Font DICT of a promoted font is the one that promotion makes. -/
theorem exists_fontDict_of_named (copyOf : CopyOf table font wanted written copy)
    (named : font.isCid = false) :
    ∃ fontDict, copy.fontDict? 0 = some fontDict ∧
      Dict.content written.bytes .privateDict fontDict.entries =
        [some (.ofNaturals [table.nextStringId + 2] .fontName), none] ∧
      fontDict.privateDict.map (PrivateDict.content written.bytes) =
        some (.restrict ((ofFont table font wanted).kept.localSubrs 0)
          (((font.privateDict 0).map (PrivateDict.content table.bytes)).getD ⟨[], none⟩)) := by
  have kept : (ofFont table font wanted).kept.fontDicts 0 = true := by
    have same : (ofFont table font wanted).font = font := rfl
    simp [Subset.kept, same, named]
  have content := copyOf.fontDict?_content kept
  obtain ⟨privateDict, keying⟩ := Font.isCid_eq_false.1 named
  simp only [Font.content, keying, List.getElem?_cons_zero, Option.map_some] at content
  obtain ⟨fontDict, found, same⟩ := Option.map_eq_some_iff.1 content
  rw [Font.privateDict, keying]
  exact ⟨fontDict, found, congrArg FontDict.Content.entries same,
    congrArg FontDict.Content.privateDict same⟩

/-- The Font DICT of a promoted font has a name, and locates a Private DICT. -/
theorem fontDict_of_named (copyOf : CopyOf table font wanted written copy)
    (named : font.isCid = false) :
    ∃ fontDict nameEntry privateEntry own, copy.fontDict? 0 = some fontDict ∧
      copy.privateDict 0 = some own ∧ fontDict.entries = #[nameEntry, privateEntry] ∧
      nameEntry.operator = .fontName ∧
      nameEntry.operands = #[.integer (table.nextStringId + 2 : Nat)] ∧
      privateEntry.operator = .privateDict ∧
      privateEntry.operands = #[.integer own.span.length, .integer own.span.start] := by
  obtain ⟨fontDict, found, content, _⟩ := copyOf.exists_fontDict_of_named named
  have locates := copyOf.locatesOwn_of_fontDict? found
  obtain ⟨nameEntry, privateEntry, pair, form, operator⟩ := Dict.exists_pair_of_content content
  obtain ⟨own, located, operands⟩ := locates.entries privateEntry (by simp [pair]) operator
  refine ⟨fontDict, nameEntry, privateEntry, own, found, ?_, pair, congrArg Dict.Form.operator form,
    congrArg Dict.Form.operands form, operator, operands⟩
  rw [copyOf.privateDict_eq, found, Option.bind_some, located]

/-- A font without a Private DICT gets one without entries. -/
theorem privateDict_of_named (copyOf : CopyOf table font wanted written copy)
    (named : font.isCid = false) (absent : font.privateDict 0 = none) :
    ∃ own, copy.privateDict 0 = some own ∧ own.entries = #[] ∧ own.subrs = none := by
  obtain ⟨fontDict, found, _, content⟩ := copyOf.exists_fontDict_of_named named
  rw [absent] at content
  obtain ⟨own, located, same⟩ := Option.map_eq_some_iff.1 content
  have entries := congrArg PrivateDict.Content.entries same
  have subrs := congrArg PrivateDict.Content.subrs same
  refine ⟨own, ?_, ?_, ?_⟩
  · rw [copyOf.privateDict_eq, found, Option.bind_some, located]
  · simpa [PrivateDict.content, PrivateDict.Content.restrict, Dict.content] using entries
  · simpa [PrivateDict.content, PrivateDict.Content.restrict] using subrs

end CopyOf

/-- A name-keyed font cannot be subset if the strings that it needs do not fit with those of its
table. -/
theorem Subset.select_of_named {table : Table} {fontIndex : Nat} {font : Font}
    (present : table.fonts[fontIndex]? = some font) (named : font.isCid = false) (wanted : GlyphSet) :
    Subset.select table fontIndex wanted =
      if 65535 < table.strings.size + 3 then .error (.tooManyStrings (table.strings.size + 3))
      else .ok (ofFont table font wanted) := by
  unfold select
  simp only [present, named, Bool.false_eq_true, not_false_eq_true, true_and]
  rfl

/-- Of a name-keyed font with glyphs and strings, a subset is refused if and only if three more
strings do not fit. Any other one that is written is read as a CID-keyed font, as promotion makes
it. -/
theorem subsetFont_promotes {data : ByteArray} {table : Table} {fontIndex : Nat} {font : Font}
    (read : Table.read data = .ok table) (present : table.fonts[fontIndex]? = some font)
    (named : font.isCid = false) :
    (∀ wanted, Subset.select table fontIndex wanted =
      if 65535 < table.strings.size + 3 then .error (.tooManyStrings (table.strings.size + 3))
      else .ok (ofFont table font wanted)) ∧
    ∀ wanted subset out, subsetFont table fontIndex wanted = .ok (subset, out) →
      ∃ written copy, Table.read out = .ok written ∧ written.fonts = #[copy] ∧
        Promoted data table font out written copy := by
  refine ⟨select_of_named present named, fun wanted subset out completed => ?_⟩
  obtain ⟨_, written, copy, found, encoded, readAgain, only, copyOf⟩ :=
    exists_copy_of_subsetFont read completed
  cases Option.some.inj (present.symm.trans found)
  obtain rfl := (Table.read_eq_ok.1 read).1
  obtain rfl := (Table.read_eq_ok.1 readAgain).1
  have valid := @valid_promotedStrings (ofFont table font wanted) _ encoded named
  have strings := copyOf.strings_of_named named readAgain valid
  have added := Table.string?_added strings
  obtain ⟨ros, cidCount, rest, whole, rosOperator, rosOperands, counted⟩ :=
    copyOf.topDict_of_named named
  obtain ⟨fontDict, nameEntry, privateEntry, own, fontDictAt, privateDictAt, pair, nameOperator,
    nameOperands, located⟩ := copyOf.fontDict_of_named named
  refine ⟨written, copy, readAgain, only, {
    strings
    topDict := ⟨ros, cidCount, rest, table.nextStringId, table.nextStringId + 1, whole, rosOperator,
      rosOperands, added 0, added 1, counted⟩
    keying := copyOf.keying_of_named named
    fontDictOf := ?_
    fontDict := ⟨fontDict, nameEntry, privateEntry, table.nextStringId + 2, own, fontDictAt,
      privateDictAt, pair, nameOperator, nameOperands, added 2, located⟩
    privateDict := (copyOf.privateDict (.inr ⟨named, rfl⟩)).1
    noPrivateDict := ?_
    charset := copyOf.charset_of_named named readAgain only }⟩
  · intro glyph
    obtain ⟨privateDict, keying⟩ := Font.isCid_eq_false.1 named
    rw [copyOf.fontDictOf_eq, Font.fontDictOf, keying]
  · intro absent
    obtain ⟨own, ownAt, entries, subrs⟩ := copyOf.privateDict_of_named named absent
    have single : written.fonts[0]? = some copy := by rw [only]; rfl
    have span := Table.readSpan_privateDict readAgain single copyOf.isCid ownAt
    rw [entries] at span
    exact ⟨own, ownAt, Dict.length_of_readSpan_empty span, entries, subrs⟩

/-- A table with one string and a font of two glyphs, which has no Private DICT. -/
def plainTable : ByteArray := List.toByteArray <|
  [1, 0, 4, 1] ++
  [0, 1, 1, 1, 2, 78] ++
  [0, 1, 1, 1, 3, 164, 17] ++
  [0, 1, 1, 1, 2, 65] ++
  [0, 0] ++
  [0, 2, 1, 1, 2, 3, 14, 14]

theorem subsetFont_promotes_plain :
    ∃ table font subset out written copy, Table.read plainTable = .ok table ∧
      table.fonts[0]? = some font ∧ font.isCid = false ∧ font.privateDict 0 = none ∧
      font.glyphCount = 2 ∧
      Subset.select table 0 (.ofList [1]) = .ok (ofFont table font (.ofList [1])) ∧
      subsetFont table 0 (.ofList [1]) = .ok (subset, out) ∧ subset.glyphs.size = 2 ∧
      Table.read out = .ok written ∧ written.fonts = #[copy] ∧
      Promoted plainTable table font out written copy ∧
      (written.strings.elements out).toList =
        ["A".toUTF8, "Adobe".toUTF8, "Identity".toUTF8, "N-OneRange".toUTF8] := by
  obtain ⟨table, read, font, present, ⟨named, absent, glyphs, count, strings, name⟩, ⟨subset, out⟩,
      completed, both⟩ :
      ∃ table, Table.read plainTable = .ok table ∧ ∃ font : Font, font ∈ table.fonts[0]? ∧
        (font.isCid = false ∧ font.privateDict 0 = none ∧ font.glyphCount = 2 ∧
          table.strings.size = 1 ∧
          (table.strings.elements plainTable).toList = ["A".toUTF8] ∧
          font.fontDictName plainTable = "N-OneRange".toUTF8) ∧
        ∃ written, subsetFont table 0 (.ofList [1]) = .ok written ∧ written.1.glyphs.size = 2 := by
    decide +kernel
  obtain ⟨selects, writes⟩ := subsetFont_promotes read present named
  obtain ⟨written, copy, readAgain, only, promoted⟩ := writes _ subset out completed
  have selected := selects (.ofList [1])
  rw [count, if_neg (by decide)] at selected
  have all := promoted.strings
  rw [strings, name] at all
  exact ⟨table, font, subset, out, written, copy, read, present, named, absent, glyphs, selected,
    completed, both, readAgain, only, promoted, all⟩

end CompactFont
