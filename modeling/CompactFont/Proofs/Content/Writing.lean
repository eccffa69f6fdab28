import CompactFont.Proofs.Content.Basic

/-!
A subset is written as its content says: whatever it was found as, the table that is written is the
one that has the content of the font, restricted to what the subset keeps.
-/

set_option autoImplicit false

namespace CompactFont

open Layout

variable {bytes : ByteArray}

theorem literal_listed {Label : Type} (content : ByteArray) :
    (Piece.literal (listed content) : Piece Label) = .bytes content := by
  rw [Piece.literal, toByteArray_listed]

namespace Subset

theorem encodeKept_eq_replaceUnless (bytes : ByteArray) (index : Index) (kept : DiscoverySet)
    (blank : ByteArray) :
    encodeKept bytes index kept blank =
      Index.encode (replaceUnless kept.contains blank (index.elements bytes).toList) := by
  rw [encodeKept_eq]
  congr 1
  apply List.ext_getElem
  · simp [replaceUnless, Index.elements]
  · intro i _ _
    simp [replaceUnless, Index.elements]

/-! ### Private DICTs and Font DICTs -/

variable {subset : Subset} {i : Nat}

theorem privateEntry_eq {entry : Dict.Entry} {hasSubrs : Bool}
    (located : entry.operator = .subrs → hasSubrs = true) :
    privateEntry bytes i hasSubrs entry = Except.ok (PrivateDict.Content.entryPieces i
      (if entry.operator = .subrs then none else some (.ofEntry bytes entry))) := by
  unfold privateEntry
  by_cases same : entry.operator = .subrs
  · rw [if_pos ⟨same, located same⟩, if_pos same]
    rfl
  · rw [if_neg (fun both => same both.1), if_neg same, copyEntry_eq]
    simp only [PrivateDict.Content.entryPieces, Dict.Form.ofEntry, literal_listed]
    rfl

theorem privateBlock_eq_ok {privateDict : PrivateDict} {block : PrivateBlock}
    (sound : (privateDict.content subset.table.bytes).Sound)
    (laid : subset.privateBlock i privateDict = Except.ok block) :
    ((privateDict.content subset.table.bytes).restrict (subset.kept.localSubrs i)).block i =
      .ok block := by
  obtain ⟨subrs, encoded, laid⟩ := bind_eq_ok.1 laid
  obtain ⟨pieces, copied, laid⟩ := bind_eq_ok.1 laid
  cases laid
  have located : ∀ entry ∈ privateDict.entries.toList, entry.operator = .subrs →
      subrs.isSome = true := by
    intro entry listed same
    have marked := sound.located.2
      (Dict.none_mem_content.2 ⟨entry, Array.mem_toList_iff.1 listed, same⟩)
    rwa [PrivateDict.content, Option.isSome_map, ← isSome_of_mapM encoded] at marked
  refine bind_eq_ok.2 ⟨subrs, ?_, ?_⟩
  · rcases mapM_option_eq_ok.1 encoded with ⟨none, same⟩ | ⟨index, content, some, same, written⟩
    · rw [same]
      simp only [PrivateDict.Content.restrict, PrivateDict.content, none]
      rfl
    · have written : encodeKept subset.table.bytes index (subset.localSubrs i) blankSubr =
          Except.ok content := written
      rw [encodeKept_eq_replaceUnless] at written
      rw [same]
      simp only [PrivateDict.Content.restrict, PrivateDict.content, some]
      exact mapM_option_eq_ok.2 (.inr ⟨_, content, rfl, rfl, written⟩)
  · rw [mapM_congr fun entry listed => privateEntry_eq (located entry listed)] at copied
    cases (List.mapM_pure ..).symm.trans copied
    simp only [PrivateDict.Content.restrict, PrivateDict.content, Dict.content, List.flatMap_def,
      List.map_map]
    rfl

theorem fontDictEntry_eq {entry : Dict.Entry} {block : Option PrivateBlock}
    (located : entry.operator = .privateDict → block.isSome = true) :
    fontDictEntry bytes block entry = FontDict.Content.entryPieces block
      (if entry.operator = .privateDict then none else some (.ofEntry bytes entry)) := by
  unfold fontDictEntry
  by_cases same : entry.operator = .privateDict
  · obtain ⟨found, rfl⟩ := Option.isSome_iff_exists.1 (located same)
    rw [if_pos same, same]
    rfl
  · rw [if_neg same]
    split
    · next known => exact absurd known same
    · rw [copyEntry_eq]
      simp only [FontDict.Content.entryPieces, Dict.Form.ofEntry, literal_listed]
      rfl

theorem fontDictBlock_eq_ok {fontDict : FontDict} {block : FontDictBlock}
    (sound : (fontDict.content subset.table.bytes).Sound) (cid : subset.font.isCid = true)
    (laid : subset.fontDictBlock i fontDict = Except.ok block) :
    ((fontDict.content subset.table.bytes).restrict subset.kept i).block i = .ok block := by
  have keeps : subset.kept.fontDicts i = subset.fontDicts.contains i := by
    simp [kept, cid]
  unfold fontDictBlock at laid
  unfold FontDict.Content.restrict
  rw [keeps]
  split at laid
  · next used =>
    rw [if_pos used]
    obtain ⟨privateBlock, privateLaid, laid⟩ := bind_eq_ok.1 laid
    obtain ⟨pieces, entries, laid⟩ := bind_eq_ok.1 laid
    cases laid
    have located : ∀ entry ∈ fontDict.entries.toList, entry.operator = .privateDict →
        privateBlock.isSome = true := by
      intro entry listed same
      have marked := sound.located.2
        (Dict.none_mem_content.2 ⟨entry, Array.mem_toList_iff.1 listed, same⟩)
      rwa [FontDict.content, Option.isSome_map, ← isSome_of_mapM privateLaid] at marked
    refine bind_eq_ok.2 ⟨privateBlock, ?_, bind_eq_ok.2 ⟨pieces, ?_, rfl⟩⟩
    · rcases mapM_option_eq_ok.1 privateLaid with ⟨none, same⟩ | ⟨privateDict, _, some, same, laid⟩
      · rw [same]
        simp only [FontDict.content, none]
        rfl
      · rw [same]
        simp only [FontDict.content, some]
        have inner : (privateDict.content subset.table.bytes).Sound :=
          sound.privateDict _ (by simp [FontDict.content, some])
        exact mapM_option_eq_ok.2 (.inr ⟨_, _, rfl, rfl, privateBlock_eq_ok inner laid⟩)
    · simp only [FontDict.content, Dict.content, List.mapM_map]
      rw [← entries]
      apply mapM_congr
      intro entry listed
      exact (fontDictEntry_eq (located entry listed)).symm
  · next unused =>
    rw [if_neg unused]
    cases laid
    rfl

/-! ### Promotion -/

theorem eq_of_mapM_atMost {limit : Nat} {quantity : Quantity} {values checked : List Nat}
    (bounded : values.mapM (OutputError.atMost limit quantity) = .ok checked) :
    checked = values := by
  have each := mapM_eq_ok.1 bounded
  clear bounded
  induction each with
  | nil => rfl
  | cons first _ induction => rw [induction, (OutputError.atMost_eq_ok_iff.1 first).2]

theorem encodeEntry_eq_ok {operands : List Nat} {operator : Dict.Operator} {raw : List UInt8}
    (encoded : encodeEntry operands operator = Except.ok raw) :
    raw = (Dict.Form.ofNaturals operands operator).raw := by
  obtain ⟨checked, bounded, same⟩ := bind_eq_ok.1 encoded
  cases same
  rw [eq_of_mapM_atMost bounded]
  rfl

theorem promotedFontDict_eq_ok {privateDict : Option PrivateDict} {block : FontDictBlock}
    (sound : ∀ found ∈ privateDict, (found.content subset.table.bytes).Sound)
    (named : subset.font.isCid = false)
    (laid : subset.promotedFontDict privateDict = Except.ok block) :
    ((Font.promotedFontDict subset.table privateDict).restrict subset.kept 0).block 0 =
      .ok block := by
  have keeps : subset.kept.fontDicts 0 = true := by
    simp [kept, named]
  obtain ⟨privateBlock, privateLaid, laid⟩ : ∃ privateBlock,
      (((privateDict.map (PrivateDict.content subset.table.bytes)).getD ⟨[], none⟩).restrict
        (subset.kept.localSubrs 0)).block 0 = .ok privateBlock ∧ (do
          let name ← encodeEntry [subset.table.nextStringId + 2] .fontName
          return (⟨.literal name :: (← privateBlock.entry), some privateBlock⟩ : FontDictBlock)) =
        Except.ok block := by
    cases privateDict with
    | none => exact ⟨.blank 0, rfl, laid⟩
    | some found =>
      obtain ⟨privateBlock, privateLaid, laid⟩ := bind_eq_ok.1 laid
      exact ⟨privateBlock, privateBlock_eq_ok (sound found rfl) privateLaid, laid⟩
  obtain ⟨name, encoded, laid⟩ := bind_eq_ok.1 laid
  obtain ⟨entry, located, laid⟩ := bind_eq_ok.1 laid
  cases laid
  rw [encodeEntry_eq_ok encoded, FontDict.Content.restrict, if_pos keeps]
  refine bind_eq_ok.2 ⟨some privateBlock, ?_, bind_eq_ok.2
    ⟨[[.literal (Dict.Form.ofNaturals [subset.table.nextStringId + 2] .fontName).raw], entry],
      ?_, ?_⟩⟩
  · exact mapM_option_eq_ok.2 (.inr ⟨_, privateBlock, rfl, rfl, privateLaid⟩)
  · simp only [Font.promotedFontDict, List.mapM_cons, List.mapM_nil, FontDict.Content.entryPieces,
      located]
    rfl
  · simp only [List.flatten_cons, List.flatten_nil, List.append_nil]
    rfl

theorem fontDictBlocks_eq_ok {blocks : List FontDictBlock}
    (sound : ∀ fontDict ∈ (subset.font.content subset.table).fontDicts, fontDict.Sound)
    (laid : subset.fontDictBlocks = Except.ok blocks) :
    (((subset.font.content subset.table).restrict subset.kept).fontDicts.zipIdx.mapM
      fun (fontDict, i) => fontDict.block i) = .ok blocks := by
  unfold fontDictBlocks at laid
  simp only [Font.Content.restrict, Font.content]
  split at laid
  · next privateDict keying =>
    obtain ⟨block, promoted, same⟩ := bind_eq_ok.1 laid
    cases same
    have named : subset.font.isCid = false := by rw [Font.isCid, keying]
    have inner : ∀ found ∈ privateDict, (found.content subset.table.bytes).Sound := by
      intro found present
      refine (sound (Font.promotedFontDict subset.table privateDict) ?_).privateDict _ ?_
      · simp [Font.content, keying]
      · simp [Font.promotedFontDict, Option.mem_def.1 present]
    simp only [keying, List.mapIdx_cons, List.mapIdx_nil, List.zipIdx_cons, List.zipIdx_nil,
      List.mapM_cons, List.mapM_nil]
    rw [promotedFontDict_eq_ok inner named promoted]
    rfl
  · next select fontDicts keying =>
    have cid : subset.font.isCid = true := by rw [Font.isCid, keying]
    simp only [keying]
    rw [zipIdx_mapM_eq_ok] at laid ⊢
    obtain ⟨length, each⟩ := laid
    refine ⟨by simpa using length, fun i content block source target => ?_⟩
    rw [List.getElem?_mapIdx, List.getElem?_map] at source
    obtain ⟨_, mapped, rfl⟩ := Option.map_eq_some_iff.1 source
    obtain ⟨fontDict, present, rfl⟩ := Option.map_eq_some_iff.1 mapped
    have inner : (fontDict.content subset.table.bytes).Sound := by
      apply sound
      simp only [Font.content, keying]
      exact List.mem_map_of_mem (List.mem_of_getElem? present)
    exact fontDictBlock_eq_ok inner cid (each i fontDict block present target)

theorem fontDictPieces_eq_ok {pieces : List TablePiece}
    (sound : ∀ fontDict ∈ (subset.font.content subset.table).fontDicts, fontDict.Sound)
    (laid : subset.fontDictPieces = Except.ok pieces) :
    ((subset.font.content subset.table).restrict subset.kept).fontDictPieces = .ok pieces := by
  obtain ⟨blocks, each, laid⟩ := bind_eq_ok.1 laid
  exact bind_eq_ok.2 ⟨blocks, fontDictBlocks_eq_ok sound each, laid⟩

/-! ### Structures of the whole font -/

theorem split_topDictPieces {pieces : List TablePiece}
    (laid : subset.topDictPieces = Except.ok pieces) :
    split pieces = split (subset.font.content subset.table).topDictPieces := by
  obtain ⟨promotion, promoted, laid⟩ := bind_eq_ok.1 laid
  rw [mapM_copyEntry] at laid
  cases laid
  have added : split promotion = split (((if subset.font.isCid then [] else
      Font.promotedEntries subset.table subset.font)).map fun form =>
        (.literal form.raw : TablePiece)) := by
    unfold promotionEntries at promoted
    split at promoted
    · next cid =>
      cases promoted
      rw [if_pos cid]
      rfl
    · next named =>
      rw [firstAddedString_eq, ok_bind] at promoted
      obtain ⟨ros, encodedRos, promoted⟩ := bind_eq_ok.1 promoted
      rw [glyphCount_eq, ok_bind] at promoted
      obtain ⟨cidCount, encodedCount, promoted⟩ := bind_eq_ok.1 promoted
      cases promoted
      rw [if_neg named, encodeEntry_eq_ok encodedRos, encodeEntry_eq_ok encodedCount]
      simp only [Font.promotedEntries, List.map_cons, List.map_nil, split_cons _ [_],
        split_literal, List.map_append]
  have copied : ((subset.font.topDict.toList.filter (!isReplaced ·.operator)).map
      fun entry => (.bytes (entry.raw subset.table.bytes) : TablePiece)) =
        (TopDict.keptForms subset.table.bytes subset.font.topDict.toList).map fun form =>
          .literal form.raw := by
    simp only [TopDict.keptForms, List.map_map]
    apply List.map_congr_left
    intro entry _
    simp only [Function.comp_apply, Dict.Form.ofEntry, literal_listed]
  rw [copied]
  simp only [Font.Content.topDictPieces, Font.content, List.map_append, split_append, added,
    List.append_assoc]

private theorem split_bytes (strings : List ByteArray) :
    split (strings.map fun string => (.bytes string : TablePiece)) =
      (strings.flatMap listed).map fun byte => .literal [byte] := by
  induction strings with
  | nil => rfl
  | cons string strings induction =>
    rw [List.map_cons, split_cons, induction, List.flatMap_cons, List.map_append,
      ← literal_listed, split_literal]

theorem stringPieces_of_named {pieces : List TablePiece} (named : subset.font.isCid = false)
    (laid : subset.stringPieces = Except.ok pieces) :
    let all := Font.promotedStrings subset.table subset.font
    (Index.Form.ofElements all).Valid ∧ split pieces =
      ((Index.Form.ofElements all).header ++ all.flatMap listed).map fun byte =>
        .literal [byte] := by
  intro all
  rw [stringPieces_of_not_isCid named, promotionStrings_eq, ok_bind] at laid
  have laid : Layout.index (all.map fun string => [(.bytes string : TablePiece)]) =
      Except.ok pieces := laid
  obtain ⟨header, begun, rfl⟩ := index_eq_ok.1 laid
  have lengths : (all.map fun string => [(.bytes string : TablePiece)]).map Layout.size =
      all.map ByteArray.size := by
    rw [List.map_map]
    exact List.map_congr_left fun string _ => size_singleton _
  have flat : (all.map fun string => [(.bytes string : TablePiece)]).flatten =
      all.map fun string => .bytes string := by
    rw [← List.flatMap_def, List.map_eq_flatMap]
  rw [lengths] at begun
  obtain ⟨valid, content⟩ := Index.valid_of_header begun
  refine ⟨valid, ?_⟩
  rw [flat, split_cons, ← literal_listed, split_literal, split_bytes, ← List.map_append, content]
  rfl

theorem split_stringPieces {pieces : List TablePiece}
    (laid : subset.stringPieces = Except.ok pieces) :
    split pieces = split [.literal (subset.font.content subset.table).strings] := by
  rw [split_literal]
  unfold Font.content
  dsimp only
  cases keyed : subset.font.isCid with
  | true =>
    rw [stringPieces_of_isCid keyed] at laid
    cases laid
    rw [← literal_listed, split_literal]
    rfl
  | false =>
    rw [(stringPieces_of_named keyed laid).2]
    rfl

theorem encodeFdSelect_eq_ok {content : ByteArray}
    (encoded : subset.encodeFdSelect = Except.ok content) :
    listed content = (subset.font.content subset.table).fdSelect := by
  unfold encodeFdSelect at encoded
  split at encoded
  · next keying =>
    cases encoded
    simp only [Font.content, keying]
  · next keying =>
    obtain ⟨count, counted, same⟩ := bind_eq_ok.1 encoded
    cases same
    simp only [Font.content, keying]
    rw [listed_toByteArray, (OutputError.atMost_eq_ok_iff.1 counted).2]

theorem encodeCharset_eq_ok {content : ByteArray}
    (encoded : subset.encodeCharset = Except.ok content) :
    listed content = (subset.font.content subset.table).charset := by
  unfold encodeCharset at encoded
  split at encoded
  · next keying custom =>
    cases encoded
    simp only [Font.content, keying, custom]
  · next other =>
    rw [encodeIdentity_eq] at encoded
    obtain ⟨count, counted, rfl⟩ := map_eq_ok.1 encoded
    rw [listed_toByteArray, (OutputError.atMost_eq_ok_iff.1 counted).2]
    unfold Font.content
    dsimp only
    split
    · next keying custom => exact absurd custom (other _ _ _ keying)
    · rfl

/-- Promotion adds strings to an INDEX that holds them all. -/
theorem valid_promotedStrings {out : ByteArray} (encoded : subset.encode = Except.ok out)
    (named : subset.font.isCid = false) :
    (Index.Form.ofElements (Font.promotedStrings subset.table subset.font)).Valid := by
  obtain ⟨pieces, laid, _⟩ := bind_eq_ok.1 encoded
  obtain ⟨_, _, laid⟩ := bind_eq_ok.1 laid
  obtain ⟨_, _, laid⟩ := bind_eq_ok.1 laid
  obtain ⟨_, _, laid⟩ := bind_eq_ok.1 laid
  obtain ⟨_, _, laid⟩ := bind_eq_ok.1 laid
  obtain ⟨_, _, laid⟩ := bind_eq_ok.1 laid
  obtain ⟨strings, stringsLaid, _⟩ := bind_eq_ok.1 laid
  exact (stringPieces_of_named named stringsLaid).1

/-- What is written is decided by the content of the font and by what is kept of it. -/
theorem encode_content {out : ByteArray}
    (sound : ∀ fontDict ∈ (subset.font.content subset.table).fontDicts, fontDict.Sound)
    (encoded : subset.encode = Except.ok out) :
    ((subset.font.content subset.table).restrict subset.kept).encode = .ok out := by
  obtain ⟨all, laid, assembled⟩ := bind_eq_ok.1 encoded
  simp only [pieces, Writer.slice_eq, ok_bind] at laid
  obtain ⟨name, nameLaid, laid⟩ := bind_eq_ok.1 laid
  obtain ⟨topEntries, topEntriesLaid, laid⟩ := bind_eq_ok.1 laid
  obtain ⟨topDict, topDictLaid, laid⟩ := bind_eq_ok.1 laid
  obtain ⟨strings, stringsLaid, laid⟩ := bind_eq_ok.1 laid
  obtain ⟨globalSubrs, globalSubrsLaid, laid⟩ := bind_eq_ok.1 laid
  obtain ⟨fdSelect, fdSelectLaid, laid⟩ := bind_eq_ok.1 laid
  obtain ⟨charset, charsetLaid, laid⟩ := bind_eq_ok.1 laid
  obtain ⟨fontDicts, fontDictsLaid, laid⟩ := bind_eq_ok.1 laid
  obtain ⟨charStrings, charStringsLaid, laid⟩ := bind_eq_ok.1 laid
  cases laid
  have topDictSplit := split_topDictPieces topEntriesLaid
  obtain ⟨header, begun, rfl⟩ := index_eq_ok.1 topDictLaid
  rw [encodeKept_eq_replaceUnless] at globalSubrsLaid charStringsLaid
  rw [← literal_listed] at nameLaid
  have topDictSize : Layout.size topEntries =
      Layout.size (subset.font.content subset.table).topDictPieces := by
    rw [← size_split, topDictSplit, size_split]
  have topDictLaid : Layout.index [(subset.font.content subset.table).topDictPieces] =
      Except.ok (.bytes header :: [(subset.font.content subset.table).topDictPieces].flatten) := by
    refine index_eq_ok.2 ⟨header, ?_, rfl⟩
    rwa [List.map_singleton, ← topDictSize]
  refine bind_eq_ok.2 ⟨_, bind_eq_ok.2 ⟨name, nameLaid, bind_eq_ok.2 ⟨_, topDictLaid,
    bind_eq_ok.2 ⟨globalSubrs, globalSubrsLaid, bind_eq_ok.2 ⟨fontDicts,
      fontDictPieces_eq_ok sound fontDictsLaid, bind_eq_ok.2 ⟨charStrings, charStringsLaid,
        rfl⟩⟩⟩⟩⟩, ?_⟩
  rw [← assembled]
  apply assemble_eq_of_split
  have headerSame :
      (.bytes (Span.slice ⟨0, subset.table.headerSize⟩ subset.table.bytes) : TablePiece) =
        .literal (subset.font.content subset.table).header := (literal_listed _).symm
  have fdSelectSame : (.bytes fdSelect : TablePiece) =
      .literal (subset.font.content subset.table).fdSelect := by
    rw [← encodeFdSelect_eq_ok fdSelectLaid, literal_listed]
  have charsetSame : (.bytes charset : TablePiece) =
      .literal (subset.font.content subset.table).charset := by
    rw [← encodeCharset_eq_ok charsetLaid, literal_listed]
  have topDictSame :
      split (.bytes header :: [(subset.font.content subset.table).topDictPieces].flatten) =
        split (.bytes header :: [topEntries].flatten) := by
    rw [split_cons, split_cons _ [topEntries].flatten, List.flatten_singleton,
      List.flatten_singleton, topDictSplit]
  have stringsSame := split_stringPieces stringsLaid
  rw [headerSame, fdSelectSame, charsetSame]
  simp only [split_append, topDictSame, stringsSame, List.append_assoc]
  rw [← List.append_assoc (split [.literal _]), ← split_cons]
  rfl

end Subset
end CompactFont
