import CompactFont.Proofs.Dict.Written
import CompactFont.Proofs.Index.Written
import CompactFont.Proofs.Layout.Assembly
import CompactFont.Proofs.Table.TopDict

/-!
The content of a font: all that a subset depends on, without the positions it was found at. A
name-keyed font has the content of the CID-keyed font that it is promoted to. Subsetting restricts a
content, and a restricted content is written as a table.
-/

set_option autoImplicit false

namespace CompactFont

/-- The entries of a DICT, of which those of one operator are only marked: they locate a structure
that may move. -/
def Dict.content (bytes : ByteArray) (locating : Dict.Operator) (entries : Array Dict.Entry) :
    List (Option Dict.Form) :=
  entries.toList.map fun entry =>
    if entry.operator = locating then none else some (.ofEntry bytes entry)

theorem Dict.some_mem_content {bytes : ByteArray} {locating : Dict.Operator}
    {entries : Array Dict.Entry} {form : Dict.Form} :
    some form ∈ Dict.content bytes locating entries ↔
      ∃ entry ∈ entries, entry.operator ≠ locating ∧ Dict.Form.ofEntry bytes entry = form := by
  simp only [Dict.content, List.mem_map, Array.mem_toList_iff]
  refine exists_congr fun entry => and_congr_right fun _ => ?_
  split
  · next same => simp only [same, reduceCtorEq, ne_eq, not_true_eq_false, false_and]
  · next other => simp only [Option.some.injEq, ne_eq, other, not_false_eq_true, true_and]

theorem Dict.none_mem_content {bytes : ByteArray} {locating : Dict.Operator}
    {entries : Array Dict.Entry} :
    none ∈ Dict.content bytes locating entries ↔ ∃ entry ∈ entries, entry.operator = locating := by
  simp only [Dict.content, List.mem_map, Array.mem_toList_iff]
  refine exists_congr fun entry => and_congr_right fun _ => ?_
  split
  · next same => simp only [same]
  · next other => simp only [other, reduceCtorEq]

structure PrivateDict.Content where
  entries : List (Option Dict.Form)
  subrs : Option (List ByteArray)

def PrivateDict.content (bytes : ByteArray) (privateDict : PrivateDict) : PrivateDict.Content :=
  ⟨Dict.content bytes .subrs privateDict.entries,
    privateDict.subrs.map fun index => (index.elements bytes).toList⟩

structure FontDict.Content where
  entries : List (Option Dict.Form)
  privateDict : Option PrivateDict.Content

def FontDict.content (bytes : ByteArray) (fontDict : FontDict) : FontDict.Content :=
  ⟨Dict.content bytes .privateDict fontDict.entries,
    fontDict.privateDict.map (PrivateDict.content bytes)⟩

@[ext]
structure Font.Content where
  header : List UInt8
  name : List UInt8
  charstringType : CharstringType
  /-- the entries of the Top DICT that do not locate structures -/
  topDict : List Dict.Form
  /-- the String INDEX as a whole -/
  strings : List UInt8
  globalSubrs : List ByteArray
  /-- the FDSelect as it is written, and what it says -/
  fdSelect : List UInt8
  assigned : Array UInt8
  charset : List UInt8
  fontDicts : List FontDict.Content
  charStrings : List ByteArray

/-! ### Promotion -/

namespace Font

def promotedStrings (table : Table) (font : Font) : List ByteArray :=
  let fontName := font.nameSpan.slice table.bytes ++ "-OneRange".toUTF8
  (table.strings.elements table.bytes).toList ++
    ["Adobe".toUTF8, "Identity".toUTF8, fontName.extract 0 Subset.fontDictNameLimit]

def promotedEntries (table : Table) (font : Font) : List Dict.Form :=
  [.ofNaturals [table.nextStringId, table.nextStringId + 1, 0] .ros,
    .ofNaturals [font.glyphCount] .cidCount]

def promotedFontDict (table : Table) (privateDict : Option PrivateDict) : FontDict.Content where
  entries := [some (.ofNaturals [table.nextStringId + 2] .fontName), none]
  privateDict := some ((privateDict.map (PrivateDict.content table.bytes)).getD ⟨[], none⟩)

def content (table : Table) (font : Font) : Font.Content where
  header := listed (table.bytes.extract 0 table.headerSize)
  name := listed (font.nameSpan.slice table.bytes)
  charstringType := font.charstringType
  topDict := (if font.isCid then [] else promotedEntries table font) ++
    TopDict.keptForms table.bytes font.topDict.toList
  strings :=
    if font.isCid then listed (table.strings.raw table.bytes)
    else
      let all := promotedStrings table font
      (Index.Form.ofElements all).header ++ all.flatMap listed
  globalSubrs := (table.globalSubrs.elements table.bytes).toList
  fdSelect := match font.keying with
    | .cid select _ => listed (select.span.slice table.bytes)
    | .named _ => FdSelect.allZero font.glyphCount
  assigned := match font.keying with
    | .cid select _ => select.assigned
    | .named _ => Array.replicate font.glyphCount 0
  charset := match font.keying, font.charset with
    | .cid _ _, some charset => listed (charset.span.slice table.bytes)
    | _, _ => Charset.identity font.glyphCount
  fontDicts := match font.keying with
    | .cid _ fontDicts => fontDicts.toList.map (FontDict.content table.bytes)
    | .named privateDict => [promotedFontDict table privateDict]
  charStrings := (font.charStrings.elements table.bytes).toList

end Font

/-! ### Restriction -/

structure Kept where
  glyphs : Nat → Bool
  globalSubrs : Nat → Bool
  fontDicts : Nat → Bool
  localSubrs : (fontDict : Nat) → Nat → Bool

def replaceUnless (kept : Nat → Bool) (blank : ByteArray) (elements : List ByteArray) :
    List ByteArray :=
  elements.mapIdx fun i element => if kept i then element else blank

def PrivateDict.Content.restrict (kept : Nat → Bool) (content : PrivateDict.Content) :
    PrivateDict.Content :=
  { content with subrs := content.subrs.map (replaceUnless kept Subset.blankSubr) }

def FontDict.Content.restrict (kept : Kept) (i : Nat) (content : FontDict.Content) :
    FontDict.Content :=
  if kept.fontDicts i then
    { content with
      privateDict := content.privateDict.map (PrivateDict.Content.restrict (kept.localSubrs i)) }
  else ⟨[], none⟩

def Font.Content.restrict (kept : Kept) (content : Font.Content) : Font.Content :=
  { content with
    globalSubrs := replaceUnless kept.globalSubrs Subset.blankSubr content.globalSubrs
    fontDicts := content.fontDicts.mapIdx (FontDict.Content.restrict kept)
    charStrings := replaceUnless kept.glyphs Subset.blankGlyph content.charStrings }

/-- A promoted font keeps its only Font DICT in any case. -/
def Subset.kept (subset : Subset) : Kept where
  glyphs := subset.glyphs.contains
  globalSubrs := subset.globalSubrs.contains
  fontDicts i := subset.fontDicts.contains i || !subset.font.isCid
  localSubrs i := (subset.localSubrs i).contains

/-! ### Writing -/

open Subset Layout

def PrivateDict.Content.entryPieces (i : Nat) : Option Dict.Form → List TablePiece
  | some form => [.literal form.raw]
  | none => [.offset (.localSubrs i) (some (.privateDict i)) .dictOperand,
      .literal Dict.Operator.subrs.encode]

def PrivateDict.Content.block (i : Nat) (content : PrivateDict.Content) :
    Except OutputError PrivateBlock := do
  let subrs ← content.subrs.mapM Index.encode
  return ⟨i, content.entries.flatMap (PrivateDict.Content.entryPieces i), subrs⟩

def FontDict.Content.entryPieces (block : Option PrivateBlock) :
    Option Dict.Form → Except OutputError (List TablePiece)
  | some form => .ok [.literal form.raw]
  | none => match block with
    | some block => block.entry
    | none => .ok []

def FontDict.Content.block (i : Nat) (content : FontDict.Content) :
    Except OutputError FontDictBlock := do
  let block ← content.privateDict.mapM (PrivateDict.Content.block i)
  let pieces ← content.entries.mapM (FontDict.Content.entryPieces block)
  return ⟨pieces.flatten, block⟩

namespace Font.Content

def topDictPieces (content : Font.Content) : List TablePiece :=
  content.topDict.map (fun form => .literal form.raw) ++ (locate .fdArray .fdArray ++
    (locate .fdSelect .fdSelect ++ (locate .charset .charset ++ locate .charStrings .charStrings)))

def fontDictPieces (content : Font.Content) : Except OutputError (List TablePiece) := do
  let blocks ← content.fontDicts.zipIdx.mapM fun (fontDict, i) => fontDict.block i
  let fdArray ← Layout.index (blocks.map FontDictBlock.pieces)
  let privateDicts := blocks.filterMap FontDictBlock.privateBlock
  return .place .fdArray :: fdArray ++ privateDicts.flatMap PrivateBlock.placed

def pieces (content : Font.Content) : Except OutputError (List TablePiece) := do
  let name ← Layout.index [[.literal content.name]]
  let topDict ← Layout.index [content.topDictPieces]
  let globalSubrs ← Index.encode content.globalSubrs
  let fontDicts ← content.fontDictPieces
  let charStrings ← Index.encode content.charStrings
  return .literal content.header :: name ++ topDict ++ [.literal content.strings,
    .bytes globalSubrs, .place .fdSelect, .literal content.fdSelect, .place .charset,
    .literal content.charset] ++ fontDicts ++ [.place .charStrings, .bytes charStrings]

def encode (content : Font.Content) : Except OutputError ByteArray := do
  assemble (← content.pieces)

end Font.Content

/-! ### Soundness -/

/-- The entries of a DICT whose marks stand for entries of one operator. -/
structure Dict.SoundContent (locating : Dict.Operator) (entries : List (Option Dict.Form)) : Prop where
  sound : ∀ form, some form ∈ entries → form.Sound
  other : ∀ form, some form ∈ entries → form.operator ≠ locating

structure PrivateDict.Content.Sound (content : PrivateDict.Content) : Prop where
  entries : Dict.SoundContent .subrs content.entries
  located : content.subrs.isSome ↔ none ∈ content.entries

structure FontDict.Content.Sound (content : FontDict.Content) : Prop where
  entries : Dict.SoundContent .privateDict content.entries
  located : content.privateDict.isSome ↔ none ∈ content.entries
  privateDict : ∀ privateDict ∈ content.privateDict, privateDict.Sound

structure Font.Content.Sound (content : Font.Content) : Prop where
  header : ∃ minor offsetSize rest, content.header =
    1 :: minor :: UInt8.ofNat content.header.length :: offsetSize :: rest
  headerSize : content.header.length < 256
  topDict : ∀ form ∈ content.topDict, form.Sound ∧ Subset.isReplaced form.operator = false
  top : TopDict.ofEntries (Dict.entriesFrom 0 content.topDict).toArray =
    .ok { TopDict.empty with isCid := true, charstringType := content.charstringType }
  strings : ∃ form : Index.Form, form.Valid ∧ form.header <+: content.strings ∧
    content.strings.length = form.size
  fdSelect : ∀ pos, (FdSelect.readAssigned content.charStrings.length).Spelled pos
    content.fdSelect content.assigned
  assigned : ∀ index ∈ content.assigned, index.toNat < content.fontDicts.length
  charset : ∀ pos, (Charset.skip content.charStrings.length).Spelled pos content.charset ()
  fontDicts : ∀ fontDict ∈ content.fontDicts, fontDict.Sound
  someFontDict : content.fontDicts ≠ []

end CompactFont
