import CompactFont.Proofs.Charset
import CompactFont.Proofs.Content.Reading
import CompactFont.Proofs.FdSelect
import CompactFont.Proofs.Table.Directory
import CompactFont.Proofs.Table.Reading

/-!
A sound content that is written as a table is the content of the one font of that table. The places
that the Top DICT gives are where the structures stand, and each structure is read there.
-/

set_option autoImplicit false

namespace CompactFont

open Subset Layout

variable {out : ByteArray} {places : List (Place × Nat)} {pos : Nat}

/-! ### The Top DICT -/

theorem stands_literals {forms : List Dict.Form} {rest : List TablePiece}
    (stands : Stands out places pos (forms.map (fun form => .literal form.raw) ++ rest)) :
    Holds out pos (Dict.raws forms) ∧
      Stands out places (pos + (Dict.raws forms).length) rest := by
  induction forms generalizing pos with
  | nil => exact ⟨.nil (Nat.le_trans (Nat.le_add_right _ _) stands.le_size), stands⟩
  | cons form forms induction =>
    rw [List.map_cons, List.cons_append] at stands
    obtain ⟨first, later⟩ := stands.literal
    obtain ⟨others, last⟩ := induction later
    rw [Dict.raws_cons, List.length_append, ← Nat.add_assoc]
    exact ⟨first.append others, last⟩

theorem size_literals (forms : List Dict.Form) :
    Layout.size (forms.map fun form => (.literal form.raw : TablePiece)) =
      (Dict.raws forms).length := by
  induction forms with
  | nil => rfl
  | cons form forms induction =>
    rw [List.map_cons, size_cons, Piece.size_literal, induction, Dict.raws_cons,
      List.length_append]

theorem size_locate (offset : Nat) (operator : Dict.Operator) (place : Place) :
    Layout.size (locate place operator) = (Dict.Form.locator offset operator).raw.length := by
  rw [length_locator, locate, size_cons, size_cons, Piece.size_literal]
  rfl

theorem stands_locate {place : Place} {operator : Dict.Operator} {rest : List TablePiece}
    (spells : Dict.Spells operator.encode (.operator operator))
    (stands : Stands out places pos (locate place operator ++ rest)) :
    ∃ offset, places.lookup place = some offset ∧ (Dict.Form.locator offset operator).Sound ∧
      Holds out pos (Dict.Form.locator offset operator).raw ∧
      Stands out places (pos + (Dict.Form.locator offset operator).raw.length) rest := by
  obtain ⟨offset, measured, small, holds⟩ := stands_locator stands.left
  have later := stands.right
  rw [size_locate offset operator place] at later
  exact ⟨offset, distance_from_start.1 measured, Dict.Form.sound_locator small spells, holds, later⟩

namespace TopDict

/-- What kept entries say does not depend on where they stand. -/
theorem foldlM_entriesFrom {forms : List Dict.Form} {top next : TopDict} {before : Nat}
    (kept : ∀ form ∈ forms, isReplaced form.operator = false)
    (folded : (Dict.entriesFrom before forms).foldlM add top = .ok next) (pos : Nat) :
    (Dict.entriesFrom pos forms).foldlM add top = .ok next := by
  induction forms generalizing top before pos with
  | nil => exact folded
  | cons form forms induction =>
    rw [Dict.entriesFrom, List.foldlM_cons] at folded ⊢
    obtain ⟨middle, added, rest⟩ := bind_eq_ok.1 folded
    have own := kept form List.mem_cons_self
    have here := add_of_kept added own rfl rfl rfl id
    have there := @add_of_kept top middle top _ (form.placed pos) added own rfl rfl rfl id
    refine bind_eq_ok.2 ⟨middle, ?_, induction (fun other listed =>
      kept other (List.mem_cons_of_mem form listed)) rest _⟩
    rw [there, ← here, added]

theorem keptForms_eq_filter (entries : List Dict.Entry) :
    keptForms out entries = (entries.map (.ofEntry out)).filter (!isReplaced ·.operator) := by
  rw [List.filter_map]
  rfl

end TopDict

namespace Font.Content

variable {content : Font.Content}

def locators (fdArray fdSelect charset charStrings : Nat) : List Dict.Form :=
  [.locator fdArray .fdArray, .locator fdSelect .fdSelect, .locator charset .charset,
    .locator charStrings .charStrings]

theorem foldlM_locators (top : TopDict) (fdArray fdSelect charset charStrings pos : Nat) :
    (Dict.entriesFrom pos (locators fdArray fdSelect charset charStrings)).foldlM TopDict.add top =
      .ok { top with
        charStrings := some charStrings
        charset := some charset
        fdArray := some fdArray
        fdSelect := some fdSelect } := by
  have natural : ∀ (offset pos : Nat) (operator : Dict.Operator),
      ((Dict.Form.locator offset operator).placed pos).natural 0 = .ok offset :=
    fun _ _ _ => Dict.Entry.natural_eq_ok rfl
  unfold locators
  simp only [Dict.entriesFrom, List.foldlM_cons, List.foldlM_nil]
  refine bind_eq_ok.2 ⟨_, bind_eq_ok.2 ⟨_, natural _ _ _, rfl⟩, ?_⟩
  refine bind_eq_ok.2 ⟨_, bind_eq_ok.2 ⟨_, natural _ _ _, rfl⟩, ?_⟩
  refine bind_eq_ok.2 ⟨_, bind_eq_ok.2 ⟨_, natural _ _ _, rfl⟩, ?_⟩
  exact bind_eq_ok.2 ⟨_, bind_eq_ok.2 ⟨_, natural _ _ _, rfl⟩, rfl⟩

theorem size_topDictPieces (content : Font.Content)
    (fdArray fdSelect charset charStrings : Nat) :
    Layout.size content.topDictPieces = (Dict.raws content.topDict).length +
      (Dict.raws (locators fdArray fdSelect charset charStrings)).length := by
  simp only [topDictPieces, size_append, size_literals, size_locate fdArray .fdArray .fdArray,
    size_locate fdSelect .fdSelect .fdSelect, size_locate charset .charset .charset,
    size_locate charStrings .charStrings .charStrings, locators, Dict.raws_cons, List.length_append]
  rfl

theorem filter_append_locators {kept : List Dict.Form}
    (copied : ∀ form ∈ kept, isReplaced form.operator = false)
    (fdArray fdSelect charset charStrings : Nat) :
    (kept ++ locators fdArray fdSelect charset charStrings).filter (!isReplaced ·.operator) =
      kept := by
  have all : kept.filter (!isReplaced ·.operator) = kept := by
    rw [List.filter_eq_self]
    intro form listed
    rw [copied form listed]
    rfl
  rw [List.filter_append, all]
  exact List.append_nil _

/-- The Top DICT that is written locates the four structures, and says of the font what the content
does. -/
theorem exists_topDict (sound : content.Sound)
    (stands : Stands out places pos content.topDictPieces) :
    ∃ fdArray fdSelect charset charStrings entries,
      places.lookup .fdArray = some fdArray ∧ places.lookup .fdSelect = some fdSelect ∧
      places.lookup .charset = some charset ∧ places.lookup .charStrings = some charStrings ∧
      Dict.readSpan out ⟨pos, pos + Layout.size content.topDictPieces⟩ = .ok entries ∧
      TopDict.ofEntries entries = .ok ⟨true, content.charstringType, some charStrings, some charset,
        none, some fdArray, some fdSelect⟩ ∧
      entries.toList.map (.ofEntry out) =
        content.topDict ++ locators fdArray fdSelect charset charStrings := by
  obtain ⟨holds, rest⟩ := stands_literals stands
  obtain ⟨fdArray, fdArrayAt, fdArraySound, holdsFdArray, rest⟩ :=
    stands_locate (Dict.spells_ofEscaped 36) rest
  obtain ⟨fdSelect, fdSelectAt, fdSelectSound, holdsFdSelect, rest⟩ :=
    stands_locate (Dict.spells_ofEscaped 37) rest
  obtain ⟨charset, charsetAt, charsetSound, holdsCharset, rest⟩ :=
    stands_locate (Dict.spells_ofByte 15 (by decide) (by decide)) rest
  rw [← List.append_nil (locate .charStrings .charStrings)] at rest
  obtain ⟨charStrings, charStringsAt, charStringsSound, holdsCharStrings, last⟩ :=
    stands_locate (Dict.spells_ofByte 17 (by decide) (by decide)) rest
  have whole : Holds out (pos + (Dict.raws content.topDict).length)
      (Dict.raws (locators fdArray fdSelect charset charStrings)) :=
    holdsFdArray.append (holdsFdSelect.append (holdsCharset.append
      (holdsCharStrings.append (.nil last.le_size))))
  refine ⟨fdArray, fdSelect, charset, charStrings, (Dict.entriesFrom pos (content.topDict ++
    locators fdArray fdSelect charset charStrings)).toArray, fdArrayAt, fdSelectAt, charsetAt,
    charStringsAt, Dict.readSpan_eq_ok.2 ⟨_, ?_, ?_, ?_, rfl⟩, ?_, ?_⟩
  · intro form listed
    rcases List.mem_append.1 listed with kept | added
    · exact (sound.topDict form kept).1
    · simp only [locators, List.mem_cons, List.not_mem_nil, or_false] at added
      rcases added with rfl | rfl | rfl | rfl <;> assumption
  · rw [Dict.raws_append]
    exact holds.append whole
  · rw [Dict.raws_append, List.length_append, size_topDictPieces]
  · rw [TopDict.ofEntries, List.foldlM_toArray, Dict.entriesFrom_append, List.foldlM_append]
    have top := sound.top
    rw [TopDict.ofEntries, List.foldlM_toArray] at top
    have kept := TopDict.foldlM_entriesFrom (fun form listed => (sound.topDict form listed).2) top pos
    exact bind_eq_ok.2 ⟨_, kept, foldlM_locators _ _ _ _ _ _⟩
  · rw [Dict.map_ofEntry_entriesFrom]
    rw [Dict.raws_append]
    exact holds.append whole

/-! ### Where the parts of a table stand -/

/-- The parts of a written table. The name and the Top DICT end at the given positions. -/
structure Written (content : Font.Content) (out : ByteArray) (places : List (Place × Nat))
    (afterName afterTopDict : Nat) : Prop where
  header : Holds out 0 content.header
  name : ∃ name, Layout.index [[.literal content.name]] = Except.ok name ∧
    Stands out places content.header.length name ∧
    afterName = content.header.length + Layout.size name
  topDict : ∃ topDict, Layout.index [content.topDictPieces] = Except.ok topDict ∧
    Stands out places afterName topDict ∧ afterTopDict = afterName + Layout.size topDict
  strings : Holds out afterTopDict content.strings
  globalSubrs : ∃ written, Index.encode content.globalSubrs = Except.ok written ∧
    Holds out (afterTopDict + content.strings.length) (listed written)
  fdSelect : ∃ pos, places.lookup .fdSelect = some pos ∧ Holds out pos content.fdSelect
  charset : ∃ pos, places.lookup .charset = some pos ∧ content.header.length ≤ pos ∧
    Holds out pos content.charset
  fontDicts : ∃ pos fontDicts, content.fontDictPieces = .ok fontDicts ∧
    Stands out places pos fontDicts
  charStrings : ∃ pos written, Index.encode content.charStrings = Except.ok written ∧
    places.lookup .charStrings = some pos ∧ Holds out pos (listed written)

def endParts (content : Font.Content) (fontDicts : List TablePiece) (charStrings : ByteArray) :
    List (List TablePiece) :=
  [[.place .fdSelect, .literal content.fdSelect], [.place .charset, .literal content.charset],
    fontDicts, [.place .charStrings, .bytes charStrings]]

def Ends (content : Font.Content) (out : ByteArray) (places : List (Place × Nat)) (pos : Nat) : Prop :=
  ∃ fontDicts charStrings, content.fontDictPieces = .ok fontDicts ∧
    Index.encode content.charStrings = Except.ok charStrings ∧
    Stands out places pos (content.endParts fontDicts charStrings).flatten ∧
    pos + Layout.size (content.endParts fontDicts charStrings).flatten = out.size

theorem exists_written (encoded : content.encode = .ok out) :
    ∃ places afterName afterTopDict, content.Written out places afterName afterTopDict ∧
      ∃ globalSubrs, Index.encode content.globalSubrs = Except.ok globalSubrs ∧
        content.Ends out places (afterTopDict + content.strings.length + globalSubrs.size) := by
  obtain ⟨pieces, laid, assembled⟩ := bind_eq_ok.1 encoded
  have stands := Stands.of_assemble (nodup_labels laid) assembled
  obtain ⟨name, nameLaid, laid⟩ := bind_eq_ok.1 laid
  obtain ⟨topDict, topDictLaid, laid⟩ := bind_eq_ok.1 laid
  obtain ⟨globalSubrs, globalSubrsWritten, laid⟩ := bind_eq_ok.1 laid
  obtain ⟨fontDicts, fontDictsLaid, laid⟩ := bind_eq_ok.1 laid
  obtain ⟨charStrings, charStringsWritten, laid⟩ := bind_eq_ok.1 laid
  rw [pure_eq_ok] at laid
  have total := size_of_assemble assembled
  rw [← laid] at stands total
  generalize Layout.places _ = places at stands
  have standsFontDicts := stands.left.right
  have middle := stands.left.left.right
  have standsTopDict := stands.left.left.left.right
  obtain ⟨header, standsName⟩ := stands.left.left.left.left.literal
  obtain ⟨charStringsAt, last⟩ := stands.right.place
  rw [size_append, size_cons, Piece.size_literal, Nat.zero_add] at middle
  rw [size_cons, Piece.size_literal, Nat.zero_add] at standsTopDict
  rw [Nat.zero_add] at standsName
  obtain ⟨strings, middle⟩ := middle.literal
  obtain ⟨globalSubrsHeld, middle⟩ := middle.bytes
  obtain ⟨fdSelectAt, middle⟩ := middle.place
  obtain ⟨fdSelect, middle⟩ := middle.literal
  obtain ⟨charsetAt, middle⟩ := middle.place
  obtain ⟨charset, _⟩ := middle.literal
  refine ⟨places, content.header.length + Layout.size name,
    content.header.length + Layout.size name + Layout.size topDict, {
      header
      name := ⟨name, nameLaid, standsName, rfl⟩
      topDict := ⟨topDict, topDictLaid, standsTopDict, rfl⟩
      strings
      globalSubrs := ⟨globalSubrs, globalSubrsWritten, globalSubrsHeld⟩
      fdSelect := ⟨_, fdSelectAt, fdSelect⟩
      charset := ⟨_, charsetAt, by omega, charset⟩
      fontDicts := ⟨_, fontDicts, fontDictsLaid, standsFontDicts⟩
      charStrings := ⟨_, charStrings, charStringsWritten, charStringsAt, last.bytes.1⟩ },
    globalSubrs, globalSubrsWritten,
    ⟨fontDicts, charStrings, fontDictsLaid, charStringsWritten, ?_, ?_⟩⟩
  · have whole : Stands out places 0 ((.literal content.header :: name ++ topDict ++
        [.literal content.strings, .bytes globalSubrs]) ++
          (content.endParts fontDicts charStrings).flatten) := by
      simpa [endParts] using stands
    have rest := whole.right
    simp only [size_append, size_cons, Piece.size_literal, Nat.zero_add] at rest
    simpa [size_append, size_cons, size_nil, Piece.size, Nat.add_assoc] using rest
  · rw [total]
    simp only [endParts, List.flatten_cons, List.flatten_nil, size_append, size_cons, size_nil,
      Piece.size_literal]
    simp only [Piece.size]
    omega

namespace Written

variable {afterName afterTopDict : Nat}

theorem exists_directory (sound : content.Sound)
    (written : content.Written out places afterName afterTopDict) :
    ∃ directory, Table.readDirectory.readAt (.whole out) 0 = .ok directory ∧
      directory.headerSize = content.header.length ∧ directory.names.size = 1 ∧
      directory.topDicts.size = 1 ∧
      listed ((directory.names.elementSpan 0).slice out) = content.name ∧
      (∃ pos, directory.topDicts.elementSpan 0 = ⟨pos, pos + Layout.size content.topDictPieces⟩ ∧
        Stands out places pos content.topDictPieces) ∧
      listed (directory.strings.raw out) = content.strings ∧
      (directory.globalSubrs.elements out).toList = content.globalSubrs ∧
      ∀ globalSubrs, Index.encode content.globalSubrs = Except.ok globalSubrs →
        Span.Tile 0 directory.spans (afterTopDict + content.strings.length + globalSubrs.size) := by
  obtain ⟨name, nameLaid, standsName, rfl⟩ := written.name
  obtain ⟨topDict, topDictLaid, standsTopDict, rfl⟩ := written.topDict
  obtain ⟨names, readNames, oneName, eachName⟩ := standsName.index nameLaid
  obtain ⟨topDicts, readTopDicts, oneTopDict, eachTopDict⟩ := standsTopDict.index topDictLaid
  obtain ⟨form, valid, starts, length⟩ := sound.strings
  have readStrings := valid.spelled _ starts length _ written.strings.whole
  obtain ⟨globalSubrs, encoded, holdsGlobalSubrs⟩ := written.globalSubrs
  have readGlobalSubrs := Index.run_read_of_encode encoded holdsGlobalSubrs.whole
  obtain ⟨minor, offsetSize, more, header⟩ := sound.header
  have holdsHeader := written.header
  refine ⟨⟨content.header.length, names, topDicts, form.placed _, (Index.Form.ofElements
    content.globalSubrs).placed _⟩, Reader.readAt_eq_ok.2 ⟨Nat.zero_le _, _,
    Table.run_readDirectory_eq_ok.2 ⟨⟨minor, offsetSize, ?_⟩, ?_, sound.headerSize, ?_, _, _, _,
      readNames, readTopDicts, readStrings, readGlobalSubrs⟩⟩, rfl, oneName, oneTopDict, ?_, ?_, ?_,
    ?_, ?_⟩
  · rw [header] at holdsHeader
    have four : Holds out 0 ([1, minor, UInt8.ofNat content.header.length, offsetSize] ++ more) :=
      holdsHeader
    exact four.left.whole
  · have count := congrArg List.length header
    simp only [List.length_cons] at count
    change 4 ≤ content.header.length
    omega
  · have bound := holdsHeader.le_size
    rwa [Nat.zero_add] at bound
  · obtain ⟨span, stands⟩ := eachName 0 Nat.one_pos
    rw [span]
    have given := stands.literal.1.slice_eq
    rwa [← @size_literal_singleton Place] at given
  · exact ⟨_, eachTopDict 0 Nat.one_pos⟩
  · rw [Index.raw, Index.span, valid.stop_placed, ← length]
    exact written.strings.slice_eq
  · exact Index.elements_placed encoded holdsGlobalSubrs
  · intro again same
    cases encoded.symm.trans same
    have front : Span.Tile 0 [⟨0, content.header.length⟩] content.header.length :=
      ⟨rfl, Nat.zero_le _, rfl⟩
    have namesTile := Span.Tile.of_run_read (Nat.le_trans (Nat.le_add_right _ _) standsName.le_size)
      readNames
    have topDictsTile := Span.Tile.of_run_read
      (Nat.le_trans (Nat.le_add_right _ _) standsTopDict.le_size) readTopDicts
    have stringsTile := Span.Tile.of_run_read
      (Nat.le_trans (Nat.le_add_right _ _) written.strings.le_size) readStrings
    have globalSubrsTile := Span.Tile.of_run_read
      (Nat.le_trans (Nat.le_add_right _ _) holdsGlobalSubrs.le_size) readGlobalSubrs
    exact front.append (namesTile.append (topDictsTile.append (stringsTile.append globalSubrsTile)))

/-- What belongs to the Font DICTs tiles the whole if it tiles the block of each of them. -/
theorem tile_privateSpans {blocks : List FontDictBlock} {count : Nat} {fontDict : Fin count → FontDict}
    (length : blocks.length = count)
    (tiles : ∀ i : Fin count, ∀ block ∈ blocks[i.val]?, ∀ start,
      Stands out places start block.placed →
        Span.Tile start (fontDict i).privateSpans (start + Layout.size block.placed))
    (stands : Stands out places pos
      ((blocks.filterMap FontDictBlock.privateBlock).flatMap PrivateBlock.placed)) :
    Span.Tile pos ((Array.ofFn fontDict).toList.flatMap FontDict.privateSpans)
      (pos + Layout.size
        ((blocks.filterMap FontDictBlock.privateBlock).flatMap PrivateBlock.placed)) := by
  rw [flatMap_placed] at stands ⊢
  apply stands.tile
  apply List.forall₂_iff_get.2
  refine ⟨by simp [length], fun i left right => ?_⟩
  rw [List.length_map] at left
  simp only [List.get_eq_getElem, List.getElem_map, Array.getElem_toList, Array.getElem_ofFn]
  exact tiles ⟨i, by omega⟩ blocks[i] (List.getElem?_eq_getElem left)

theorem exists_fontDicts (sound : content.Sound)
    (written : content.Written out places afterName afterTopDict) :
    ∃ pos fontDicts, places.lookup .fdArray = some pos ∧
      FontDict.readArray out pos = .ok fontDicts ∧
      fontDicts.toList.map (FontDict.content out) = content.fontDicts ∧
      (∀ fontDict ∈ fontDicts, fontDict.LocatesOwn) ∧
      ∃ fdArray rest, Index.readAt out pos = .ok fdArray ∧
        content.fontDictPieces = .ok (.place .fdArray :: rest) ∧
        Span.Tile pos (fdArray.span :: fontDicts.toList.flatMap FontDict.privateSpans)
          (pos + Layout.size rest) := by
  obtain ⟨pos, pieces, piecesLaid, stands⟩ := written.fontDicts
  obtain ⟨blocks, blocksLaid, laid⟩ := bind_eq_ok.1 piecesLaid
  obtain ⟨fdArray, fdArrayLaid, same⟩ := bind_eq_ok.1 laid
  cases same
  obtain ⟨count, each⟩ := zipIdx_mapM_eq_ok.1 blocksLaid
  obtain ⟨placed, standsArray⟩ := stands.left.place
  have standsPrivate := stands.right
  obtain ⟨index, read, size, elements⟩ := standsArray.index fdArrayLaid
  rw [List.length_map] at size
  have readEach : ∀ i : Fin content.fontDicts.length, ∃ fontDict,
      FontDict.readSpan out (index.elementSpan i) = .ok fontDict ∧
        fontDict.content out = content.fontDicts[i] ∧ fontDict.LocatesOwn ∧
        ∀ block ∈ blocks[i.val]?, ∀ start, Stands out places start block.placed →
          Span.Tile start fontDict.privateSpans (start + Layout.size block.placed) := by
    intro i
    have inside : i.val < blocks.length := by
      rw [count]
      exact i.isLt
    obtain ⟨span, standsBlock⟩ := elements i (by rwa [List.length_map])
    rw [List.getElem_map] at span standsBlock
    have blockLaid := each i _ _ (List.getElem?_eq_getElem i.isLt) (List.getElem?_eq_getElem inside)
    rw [span, List.getElem?_eq_getElem inside]
    simp only [Option.mem_some_iff, forall_eq']
    apply FontDict.Content.exists_read (sound.fontDicts _ (List.getElem_mem _)) blockLaid standsBlock
    intro own given
    exact standsPrivate.exists_of_mem_flatMap
      (List.mem_filterMap.2 ⟨blocks[i.val], List.getElem_mem _, given⟩)
  choose fontDict readSpan same locates tiles using readEach
  have inside : pos ≤ out.size := Nat.le_trans (Nat.le_add_right _ _) standsArray.le_size
  refine ⟨pos, Array.ofFn fontDict, placed, FontDict.readArray_eq_ok.2 ⟨index, ?_, ?_, ?_⟩, ?_, ?_,
    index, _, Reader.readAt_eq_ok.2 ⟨inside, _, read⟩, piecesLaid, ?_⟩
  · exact Reader.readAt_eq_ok.2 ⟨inside, _, read⟩
  · rw [Array.size_ofFn, size, count]
  · intro i found listed
    obtain ⟨bound, rfl⟩ := Array.getElem?_eq_some_iff.1 listed
    rw [Array.getElem_ofFn]
    exact readSpan ⟨i, _⟩
  · apply List.ext_getElem
    · rw [List.length_map, Array.length_toList, Array.size_ofFn]
    · intro i left right
      rw [List.getElem_map, Array.getElem_toList, Array.getElem_ofFn]
      exact same ⟨i, right⟩
  · intro found listed
    obtain ⟨i, rfl⟩ := Array.mem_ofFn.1 listed
    exact locates i
  · have arrayTile := Span.Tile.of_run_read inside read
    have privateTile := tile_privateSpans count tiles standsPrivate
    rw [size_cons, Piece.size, Nat.zero_add] at privateTile
    have tile := arrayTile.append privateTile
    rw [Nat.add_assoc, ← size_append] at tile
    exact tile

theorem exists_fdSelect (sound : content.Sound)
    (written : content.Written out places afterName afterTopDict) :
    ∃ pos select, places.lookup .fdSelect = some pos ∧
      FdSelect.readAt out pos content.charStrings.length content.fontDicts.length = .ok select ∧
      select.assigned = content.assigned ∧ select.span = ⟨pos, pos + content.fdSelect.length⟩ ∧
      listed (select.span.slice out) = content.fdSelect := by
  obtain ⟨pos, placed, holds⟩ := written.fdSelect
  refine ⟨pos, ⟨⟨pos, pos + content.fdSelect.length⟩, content.assigned⟩, placed,
    FdSelect.readAt_eq_ok.2 ⟨Nat.le_trans (Nat.le_add_right _ _) holds.le_size, _,
      sound.fdSelect pos _ holds.whole, sound.assigned, rfl⟩, rfl, rfl, holds.slice_eq⟩

/-- The charset stands behind the header, thus it is not taken for a predefined one. -/
theorem exists_charset (sound : content.Sound)
    (written : content.Written out places afterName afterTopDict) :
    ∃ pos charset, places.lookup .charset = some pos ∧
      readCharset out (some pos) content.charStrings.length = .ok (some charset) ∧
      charset.span = ⟨pos, pos + content.charset.length⟩ ∧
      listed (charset.span.slice out) = content.charset := by
  obtain ⟨pos, placed, behind, holds⟩ := written.charset
  obtain ⟨minor, offsetSize, more, header⟩ := sound.header
  have count := congrArg List.length header
  simp only [List.length_cons] at count
  refine ⟨pos, ⟨⟨pos, pos + content.charset.length⟩⟩, placed, ?_, rfl, holds.slice_eq⟩
  have custom : ¬pos ≤ lastPredefinedCharset := by
    unfold lastPredefinedCharset
    omega
  have read := Charset.readAt_eq_ok.2 ⟨Nat.le_trans (Nat.le_add_right _ _) holds.le_size, _,
    sound.charset pos _ holds.whole, rfl⟩
  rw [readCharset, if_neg custom]
  exact attributeTo_eq_ok.2 (map_eq_ok.2 ⟨_, read, rfl⟩)

end Written
end Font.Content

structure Font.LocatesOwn (out : ByteArray) (font : Font) : Prop where
  topDict : ∃ kept fdArray fdSelect charset charStrings,
    font.topDict.toList.map (.ofEntry out) =
      kept ++ Content.locators fdArray fdSelect charset charStrings ∧
    ∀ form ∈ kept, isReplaced form.operator = false
  fontDicts : ∀ select fontDicts, font.keying = .cid select fontDicts →
    ∀ fontDict ∈ fontDicts, fontDict.LocatesOwn

def Font.fdArray? (bytes : ByteArray) (font : Font) : Option Index := do
  let top ← (TopDict.ofEntries font.topDict).toOption
  let offset ← top.fdArray
  (Index.readAt bytes offset).toOption

/-- The structures that a CID-keyed font locates tile the positions from `pos` to the end of the
table. Private DICTs, each with its local subroutines, are in the order of the Font DICTs. -/
def Font.Tiles (out : ByteArray) (font : Font) (pos : Nat) : Prop :=
  ∃ select fontDicts charset fdArray, font.keying = .cid select fontDicts ∧
    font.charset = some charset ∧ font.fdArray? out = some fdArray ∧
    Span.Tile pos ([select.span, charset.span, fdArray.span] ++
      fontDicts.toList.flatMap FontDict.privateSpans ++ [font.charStrings.span]) out.size

namespace Font.Content

variable {content : Font.Content}

/-- The last parts of a table are tiled if each of them is from its place on. -/
theorem Ends.tile {select charset fdArray charStrings : Span} {privateSpans : List Span}
    {fontDicts : List TablePiece} {written : ByteArray} (ends : content.Ends out places pos)
    (selectAt : Stretches places .fdSelect [select] content.fdSelect.length)
    (charsetAt : Stretches places .charset [charset] content.charset.length)
    (fontDictsLaid : content.fontDictPieces = .ok (.place .fdArray :: fontDicts))
    (fdArrayAt : Stretches places .fdArray (fdArray :: privateSpans) (Layout.size fontDicts))
    (charStringsWritten : Index.encode content.charStrings = Except.ok written)
    (charStringsAt : Stretches places .charStrings [charStrings] written.size) :
    Span.Tile pos ([select, charset, fdArray] ++ privateSpans ++ [charStrings]) out.size := by
  obtain ⟨_, _, laid, encoded, stands, total⟩ := ends
  cases fontDictsLaid.symm.trans laid
  cases charStringsWritten.symm.trans encoded
  rw [← total]
  have tile : Span.Tile pos [[select], [charset], fdArray :: privateSpans, [charStrings]].flatten _ :=
    stands.tile (.cons (selectAt.tile (size_literal_singleton _))
      (.cons (charsetAt.tile (size_literal_singleton _)) (.cons (fdArrayAt.tile rfl)
        (.cons (charStringsAt.tile (size_singleton (.bytes written))) .nil))))
  simpa [endParts] using tile

namespace Written

variable {afterName afterTopDict : Nat}

/-- The font is read, and it has the content as far as the directory of the table plays no part. -/
theorem exists_font (sound : content.Sound)
    (written : content.Written out places afterName afterTopDict) {topDictPos : Nat}
    (stands : Stands out places topDictPos content.topDictPieces) (nameSpan : Span) :
    ∃ font, Font.read out nameSpan
        ⟨topDictPos, topDictPos + Layout.size content.topDictPieces⟩ = .ok font ∧
      font.isCid = true ∧ font.LocatesOwn out ∧
      (∀ pos, content.Ends out places pos → font.Tiles out pos) ∧
      ∀ table : Table, table.bytes = out →
        font.content table = { content with
          header := listed (out.extract 0 table.headerSize)
          name := listed (nameSpan.slice out)
          strings := listed (table.strings.raw out)
          globalSubrs := (table.globalSubrs.elements out).toList } := by
  obtain ⟨fdArray, fdSelect, charset, charStrings, entries, fdArrayAt, fdSelectAt, charsetAt,
    charStringsAt, readEntries, top, forms⟩ := exists_topDict sound stands
  have copied := fun form listed => (sound.topDict form listed).2
  obtain ⟨_, fontDicts, fdArrayPlaced, readFontDicts, fontDictsSame, locates, array, pieces, readArray,
    piecesLaid, arrayTile⟩ := written.exists_fontDicts sound
  obtain ⟨_, select, fdSelectPlaced, readSelect, assigned, selectSpan, selectSame⟩ :=
    written.exists_fdSelect sound
  obtain ⟨_, found, charsetPlaced, readCharset, charsetSpan, charsetSame⟩ :=
    written.exists_charset sound
  obtain ⟨_, bytes, charStringsWritten, charStringsPlaced, holdsCharStrings⟩ := written.charStrings
  obtain ⟨index, readIndex, elements, charStringsSpan⟩ :=
    Index.exists_readAt_of_encode charStringsWritten holdsCharStrings
  cases Option.some.inj (fdArrayAt.symm.trans fdArrayPlaced)
  cases Option.some.inj (fdSelectAt.symm.trans fdSelectPlaced)
  cases Option.some.inj (charsetAt.symm.trans charsetPlaced)
  cases Option.some.inj (charStringsAt.symm.trans charStringsPlaced)
  have glyphCount : index.size = content.charStrings.length := by
    rw [← elements, Index.length_elements]
  have fontDictCount : fontDicts.size = content.fontDicts.length := by
    rw [← fontDictsSame, List.length_map, Array.length_toList]
  have some : fontDicts ≠ #[] := by
    intro none
    rw [none] at fontDictCount
    exact sound.someFontDict (List.length_eq_zero_iff.1 fontDictCount.symm)
  let font : Font := {
    name := Text.Utf8.decode (nameSpan.slice out)
    nameSpan
    topDict := entries
    charstringType := content.charstringType
    charStrings := index
    charset := Option.some found
    keying := .cid select fontDicts }
  refine ⟨font, Font.read_eq_ok.2 ⟨_, {
    nameSpan := rfl
    name := rfl
    topDict := readEntries
    entries := top
    charstringType := rfl
    charStrings := ⟨charStrings, rfl, readIndex⟩
    charset := glyphCount ▸ readCharset
    keying := ?_ }⟩, rfl, ⟨⟨_, _, _, _, _, forms, copied⟩, ?_⟩, ?_, ?_⟩
  · rw [← glyphCount, ← fontDictCount] at readSelect
    exact readCid_eq_ok.2 ⟨fdArray, fdSelect, fontDicts, select, rfl, rfl, readFontDicts, some,
      readSelect, rfl⟩
  · intro select fontDicts same
    cases same
    exact locates
  · intro pos ends
    refine ⟨select, fontDicts, found, array, rfl, rfl, ?_, ?_⟩
    · simp [Font.fdArray?, font, top, readArray, Except.toOption]
    · exact ends.tile ⟨_, fdSelectAt, selectSpan ▸ .single _ _⟩
        ⟨_, charsetAt, charsetSpan ▸ .single _ _⟩ piecesLaid ⟨_, fdArrayAt, arrayTile⟩
        charStringsWritten ⟨_, charStringsAt, charStringsSpan ▸ .single _ _⟩
  · intro table same
    subst same
    ext1 <;> try rfl
    · change TopDict.keptForms table.bytes entries.toList = content.topDict
      rw [TopDict.keptForms_eq_filter, forms, filter_append_locators copied]
    · exact selectSame
    · exact assigned
    · exact charsetSame
    · exact fontDictsSame
    · exact elements

end Written

/-- A table that is written from a sound content is read as a table with one font, which has that
content. -/
theorem exists_read (sound : content.Sound) (encoded : content.encode = .ok out) :
    ∃ table font, Table.read out = .ok table ∧ table.fonts = #[font] ∧ font.isCid = true ∧
      font.content table = content ∧ font.LocatesOwn out ∧
      ∃ pos, Span.Tile 0 table.spans pos ∧ font.Tiles out pos := by
  obtain ⟨places, afterName, afterTopDict, written, _, globalSubrsWritten, ends⟩ :=
    exists_written encoded
  obtain ⟨directory, readDirectory, headerSize, oneName, oneTopDict, name, ⟨topDictPos, topDictSpan,
    stands⟩, strings, globalSubrs, directoryTile⟩ := written.exists_directory sound
  obtain ⟨font, readFont, cid, locates, tiles, same⟩ :=
    written.exists_font sound stands (directory.names.elementSpan 0)
  rw [← topDictSpan] at readFont
  let table : Table := {
    bytes := out
    headerSize := directory.headerSize
    names := directory.names
    topDicts := directory.topDicts
    strings := directory.strings
    globalSubrs := directory.globalSubrs
    fonts := #[font] }
  have read : Table.read out = .ok table := by
    refine Table.read_eq_ok.2 ⟨rfl, readDirectory, oneName.trans oneTopDict.symm, oneName.symm, ?_⟩
    intro i other listed
    obtain ⟨bound, rfl⟩ := Array.getElem?_eq_some_iff.1 listed
    obtain rfl : i = 0 := Nat.lt_one_iff.1 bound
    exact readFont
  have header := written.header.slice_eq
  rw [Nat.zero_add, ← headerSize] at header
  refine ⟨table, font, read, rfl, cid, ?_, locates, _, directoryTile _ globalSubrsWritten,
    tiles _ ends⟩
  rw [same table rfl]
  ext1 <;> try rfl
  · exact header
  · exact name
  · exact strings
  · exact globalSubrs

end Font.Content

end CompactFont
