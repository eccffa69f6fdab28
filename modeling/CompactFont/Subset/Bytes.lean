import CompactFont.Layout
import CompactFont.Subset.Basic

/-!
A subset is written as a table with one CID-keyed font. Glyphs and subroutines keep their numbers:
those that are not kept are replaced by the shortest charstrings there are. A name-keyed font is
promoted: it gets one Font DICT, which all of its glyphs belong to, and glyphs are identified by
their numbers. DICT entries are copied, unless they locate a structure that may move.
-/

set_option autoImplicit false

namespace CompactFont

inductive Place where
  | fdArray
  | fdSelect
  | charset
  | charStrings
  | privateDict (fontDict : Nat)
  | localSubrs (fontDict : Nat)
  deriving DecidableEq

abbrev TablePiece := Layout.Piece Place

namespace Subset

/-- Replaces a glyph that is not kept: the operator that ends a glyph. -/
def blankGlyph : ByteArray := [14].toByteArray

/-- Replaces a subroutine that is not kept: the operator that returns to the caller. -/
def blankSubr : ByteArray := [11].toByteArray

variable {m : Type → Type} [Monad m] [Writer m]

def copyElement (bytes : ByteArray) (index : Index) (i : Nat) : m ByteArray := do
  Writer.element i index.offsets.size
  Writer.element (i + 1) index.offsets.size
  Writer.slice (index.elementSpan i) bytes

def encodeKept (bytes : ByteArray) (index : Index) (kept : DiscoverySet) (blank : ByteArray) :
    m ByteArray := do
  Writer.ordered 1 index.offsets.size
  let elements ← (List.range index.size).mapM fun i =>
    if kept.contains i then copyElement bytes index i else pure blank
  Index.encode elements

def encodeEntry (operands : List Nat) (operator : Dict.Operator) : m (List UInt8) := do
  let operands ← operands.mapM (Writer.atMost OutputError.maxOperand .dictOperand)
  return operands.flatMap (fun value : Nat => Number.encodeShortest value) ++ operator.encode

def copyEntry (bytes : ByteArray) (entry : Dict.Entry) : m TablePiece := do
  return .bytes (← Writer.slice entry.span bytes)

def locate (place : Place) (operator : Dict.Operator) : List TablePiece :=
  [.locator place, .literal operator.encode]

/-! ### Private DICTs -/

structure PrivateBlock where
  fontDict : Nat
  pieces : List TablePiece
  subrs : Option ByteArray

namespace PrivateBlock

def blank (fontDict : Nat) : PrivateBlock := ⟨fontDict, [], none⟩

def entry (block : PrivateBlock) : m (List TablePiece) := do
  let size ← Writer.atMost OutputError.maxOperand .privateDictSize (Layout.size block.pieces)
  return .literal (Number.encodeShortest size) :: locate (.privateDict block.fontDict) .privateDict

def placed (block : PrivateBlock) : List TablePiece :=
  .place (.privateDict block.fontDict) :: block.pieces ++
    match block.subrs with
    | none => []
    | some subrs => [.place (.localSubrs block.fontDict), .bytes subrs]

end PrivateBlock

/-- An entry of a Private DICT. The offset of the Local Subr INDEX counts from the Private DICT. -/
def privateEntry (bytes : ByteArray) (fontDict : Nat) (hasSubrs : Bool) (entry : Dict.Entry) :
    m (List TablePiece) := do
  if entry.operator = .subrs ∧ hasSubrs then
    return [.offset (.localSubrs fontDict) (some (.privateDict fontDict)) .dictOperand,
      .literal Dict.Operator.subrs.encode]
  else return [← copyEntry bytes entry]

def privateBlock (subset : Subset) (fontDict : Nat) (privateDict : PrivateDict) :
    m PrivateBlock := do
  let bytes := subset.table.bytes
  let subrs ← privateDict.subrs.mapM fun index => do
    Writer.element fontDict subset.reaches.size
    encodeKept bytes index (subset.localSubrs fontDict) blankSubr
  let pieces ← privateDict.entries.toList.mapM (privateEntry bytes fontDict subrs.isSome)
  return { fontDict, pieces := pieces.flatten, subrs }

/-! ### Font DICTs -/

structure FontDictBlock where
  pieces : List TablePiece
  privateBlock : Option PrivateBlock

def fontDictEntry (bytes : ByteArray) (privateBlock : Option PrivateBlock) (entry : Dict.Entry) :
    m (List TablePiece) :=
  match entry.operator, privateBlock with
  | .privateDict, some block => block.entry
  | _, _ => return [← copyEntry bytes entry]

/-- A Font DICT of a CID-keyed font. One that no glyph belongs to is left empty. -/
def fontDictBlock (subset : Subset) (i : Nat) (fontDict : FontDict) : m FontDictBlock := do
  if subset.fontDicts.contains i then
    let block ← fontDict.privateDict.mapM (subset.privateBlock i)
    let pieces ← fontDict.entries.toList.mapM (fontDictEntry subset.table.bytes block)
    return ⟨pieces.flatten, block⟩
  else return ⟨[], none⟩

def firstAddedString (subset : Subset) : m Nat := do
  Writer.ordered 1 subset.table.strings.offsets.size
  return subset.table.nextStringId

def promotedFontDict (subset : Subset) (privateDict : Option PrivateDict) :
    m FontDictBlock := do
  let block ← match privateDict with
    | some privateDict => subset.privateBlock 0 privateDict
    | none => pure (.blank 0)
  let name ← encodeEntry [(← subset.firstAddedString) + 2] .fontName
  return ⟨.literal name :: (← block.entry), some block⟩

def fontDictBlocks (subset : Subset) : m (List FontDictBlock) :=
  match subset.font.keying with
  | .named privateDict => return [← subset.promotedFontDict privateDict]
  | .cid _ fontDicts => fontDicts.toList.zipIdx.mapM fun (fontDict, i) =>
    subset.fontDictBlock i fontDict

def fontDictPieces (subset : Subset) : m (List TablePiece) := do
  let blocks ← subset.fontDictBlocks
  let fdArray ← Layout.index (blocks.map FontDictBlock.pieces)
  let privateDicts := blocks.filterMap FontDictBlock.privateBlock
  return .place .fdArray :: fdArray ++ privateDicts.flatMap PrivateBlock.placed

/-! ### Structures of the whole font -/

/-- Entries of a Top DICT that locate structures, or that a CID-keyed font does not have. They are
not copied. -/
def isReplaced : Dict.Operator → Bool
  | .encoding | .privateDict | .fdSelect | .fdArray | .charset | .charStrings => true
  | _ => false

def glyphCount (subset : Subset) : m Nat := do
  Writer.ordered 1 subset.font.charStrings.offsets.size
  return subset.font.glyphCount

/-- The entries that make a font CID-keyed, where it is not. The names of the glyph collection are
the first strings added to the table. -/
def promotionEntries (subset : Subset) : m (List TablePiece) := do
  if subset.font.isCid then return []
  let strings ← subset.firstAddedString
  let ros ← encodeEntry [strings, strings + 1, 0] .ros
  let cidCount ← encodeEntry [← subset.glyphCount] .cidCount
  return [.literal (ros ++ cidCount)]

def topDictPieces (subset : Subset) : m (List TablePiece) := do
  let promotion ← subset.promotionEntries
  let kept ← (subset.font.topDict.toList.filter (!isReplaced ·.operator)).mapM
    (copyEntry subset.table.bytes)
  return promotion ++ kept ++ locate .fdArray .fdArray ++ locate .fdSelect .fdSelect ++
    locate .charset .charset ++ locate .charStrings .charStrings

def fontDictNameLimit : Nat := 127

def promotionStrings (subset : Subset) : m (List ByteArray) := do
  let fontName := (← Writer.slice subset.font.nameSpan subset.table.bytes) ++ "-OneRange".toUTF8
  return ["Adobe".toUTF8, "Identity".toUTF8, fontName.extract 0 fontDictNameLimit]

def stringPieces (subset : Subset) : m (List TablePiece) := do
  let bytes := subset.table.bytes
  let strings := subset.table.strings
  if subset.font.isCid then
    Writer.element strings.size strings.offsets.size
    return [.bytes (← Writer.slice strings.span bytes)]
  else
    let added ← subset.promotionStrings
    Writer.ordered 1 strings.offsets.size
    let kept ← (List.range strings.size).mapM (copyElement bytes strings)
    Layout.index ((kept ++ added).map fun string => [.bytes string])

def encodableGlyphCount (subset : Subset) : m Nat := do
  Writer.atMost OutputError.maxU16 .glyphCount (← subset.glyphCount)

def encodeFdSelect (subset : Subset) : m ByteArray :=
  match subset.font.keying with
  | .cid select _ => Writer.slice select.span subset.table.bytes
  | .named _ => return (FdSelect.allZero (← subset.encodableGlyphCount)).toByteArray

def encodeIdentity (subset : Subset) : m ByteArray := do
  let count ← subset.encodableGlyphCount
  unless count ≤ 1 do
    Writer.ordered 2 count
  return (Charset.identity count).toByteArray

/-- The charset of the written font: a custom charset names glyphs of a CID-keyed font by numbers,
but those of a name-keyed font by strings, which promotion gives up. -/
def encodeCharset (subset : Subset) : m ByteArray :=
  match subset.font.keying, subset.font.charset with
  | .cid _ _, some charset => Writer.slice charset.span subset.table.bytes
  | _, _ => subset.encodeIdentity

def pieces (subset : Subset) : m (List TablePiece) := do
  let bytes := subset.table.bytes
  let font := subset.font
  let header ← Writer.slice ⟨0, subset.table.headerSize⟩ bytes
  let name ← Layout.index [[.bytes (← Writer.slice font.nameSpan bytes)]]
  let topDict ← Layout.index [← subset.topDictPieces]
  let strings ← subset.stringPieces
  let globalSubrs ← encodeKept bytes subset.table.globalSubrs subset.globalSubrs blankSubr
  let fdSelect ← subset.encodeFdSelect
  let charset ← subset.encodeCharset
  let fontDicts ← subset.fontDictPieces
  let charStrings ← encodeKept bytes font.charStrings subset.glyphs blankGlyph
  return .bytes header :: name ++ topDict ++ strings ++ [.bytes globalSubrs,
    .place .fdSelect, .bytes fdSelect, .place .charset, .bytes charset] ++ fontDicts ++
    [.place .charStrings, .bytes charStrings]

def encode [Linker Place m] (subset : Subset) : m ByteArray := do
  Layout.assemble (← subset.pieces)

/-! ### Plain writers

A plain writer copies spans as they are. What it checks is left. -/

theorem copyElement_eq (bytes : ByteArray) (index : Index) (i : Nat) :
    copyElement bytes index i = Except.ok (index.element bytes i) := rfl

theorem copyEntry_eq (bytes : ByteArray) (entry : Dict.Entry) :
    copyEntry bytes entry = Except.ok (.bytes (entry.raw bytes)) := rfl

theorem mapM_copyEntry (bytes : ByteArray) (entries : List Dict.Entry) :
    entries.mapM (copyEntry bytes) = Except.ok (entries.map fun entry => .bytes (entry.raw bytes)) :=
  List.mapM_pure ..

theorem encodeKept_eq (bytes : ByteArray) (index : Index) (kept : DiscoverySet)
    (blank : ByteArray) :
    encodeKept bytes index kept blank = Index.encode ((List.range index.size).map fun i =>
      if kept.contains i then index.element bytes i else blank) := by
  have each : ∀ i, (if kept.contains i then copyElement bytes index i else pure blank) =
      (pure (if kept.contains i then index.element bytes i else blank) :
        Except OutputError ByteArray) := by
    intro i
    rw [copyElement_eq]
    split <;> rfl
  simp only [encodeKept, each, List.mapM_pure, Writer.ordered_eq, pure_bind]
  rfl

theorem firstAddedString_eq (subset : Subset) :
    subset.firstAddedString = Except.ok subset.table.nextStringId := rfl

theorem glyphCount_eq (subset : Subset) : subset.glyphCount = Except.ok subset.font.glyphCount := rfl

theorem promotionStrings_eq (subset : Subset) :
    subset.promotionStrings = Except.ok ["Adobe".toUTF8, "Identity".toUTF8,
      (subset.font.nameSpan.slice subset.table.bytes ++ "-OneRange".toUTF8).extract 0
        fontDictNameLimit] := rfl

theorem stringPieces_of_isCid {subset : Subset} (cid : subset.font.isCid = true) :
    subset.stringPieces = Except.ok [.bytes (subset.table.strings.raw subset.table.bytes)] := by
  rw [stringPieces, if_pos cid]
  rfl

theorem stringPieces_of_not_isCid {subset : Subset} (named : subset.font.isCid = false) :
    subset.stringPieces = subset.promotionStrings >>= fun added =>
      Layout.index (((subset.table.strings.elements subset.table.bytes).toList ++ added).map
        fun string => [.bytes string]) := by
  have copied : ((List.range subset.table.strings.size).mapM
      (copyElement subset.table.bytes subset.table.strings) : Except OutputError _) =
        pure (subset.table.strings.elements subset.table.bytes).toList := by
    rw [Index.elements, Array.toList_map, Array.toList_range, ← List.mapM_pure]
    rfl
  rw [stringPieces, named, copied]
  rfl

theorem encodeIdentity_eq (subset : Subset) :
    subset.encodeIdentity =
      (fun count => (Charset.identity count).toByteArray) <$> subset.encodableGlyphCount := by
  unfold encodeIdentity
  cases subset.encodableGlyphCount with
  | error e => rfl
  | ok count =>
    rw [map_eq_pure_bind]
    refine bind_congr fun count => ?_
    split <;> rfl

end Subset

/-! ### From bytes to bytes -/

def subsetFont (table : Table) (fontIndex : Nat) (wanted : GlyphSet) :
    Except SubsetError (Subset × ByteArray) := do
  let subset ← Subset.select table fontIndex wanted
  let bytes ← subset.encode.mapError .unwritable
  return (subset, bytes)

def readForSubset (bytes : ByteArray) : Except SubsetError Table :=
  (Table.read bytes).mapError .unreadable

def subsetFirst (bytes : ByteArray) (wanted : GlyphSet) :
    Except SubsetError (Subset × ByteArray) := do
  subsetFont (← readForSubset bytes) 0 wanted

def subsetNamed (bytes : ByteArray) (name : String) (wanted : GlyphSet) :
    Except SubsetError (Subset × ByteArray) := do
  let table ← readForSubset bytes
  let some fontIndex := table.fontIndex? name
    | .error (.noFontNamed name)
  subsetFont table fontIndex wanted

end CompactFont
