import CompactFont.Charset
import CompactFont.FdSelect
import CompactFont.PrivateDict
import CompactFont.Text.Utf8

/-!
A font of a table, as its Top DICT describes it. The structures that a subset depends on are read
when the font is; charstrings are not inspected.
-/

set_option autoImplicit false

namespace CompactFont

inductive CharstringType where
  | type1
  | type2
  deriving DecidableEq

namespace CharstringType

def number : CharstringType → Nat
  | type1 => 1
  | type2 => 2

def ofNumber? (number : Int) : Option CharstringType :=
  if number = 1 then some type1 else if number = 2 then some type2 else none

end CharstringType

/-- How glyphs are identified, with what depends on it: a CID-keyed font divides its glyphs among
Font DICTs, each with a Private DICT; a name-keyed font has at most one Private DICT. -/
inductive Keying where
  | named (privateDict : Option PrivateDict)
  | cid (select : FdSelect) (fontDicts : Array FontDict)
  deriving DecidableEq

structure Font where
  name : String
  nameSpan : Span
  topDict : Array Dict.Entry
  charstringType : CharstringType
  charStrings : Index
  /-- absent if the charset is a predefined one -/
  charset : Option Charset
  keying : Keying
  deriving DecidableEq

/-- What the entries of a Top DICT say. Of several entries with one operator the last one counts. -/
structure TopDict where
  isCid : Bool
  charstringType : CharstringType
  charStrings : Option Nat
  charset : Option Nat
  privateDict : Option Dict.Entry
  fdArray : Option Nat
  fdSelect : Option Nat

variable {ε : Type} [Failure ε]

namespace TopDict

def empty : TopDict := ⟨false, .type2, none, none, none, none, none⟩

def add (top : TopDict) (entry : Dict.Entry) : Except ε TopDict :=
  match entry.operator with
  | .ros => return { top with isCid := true }
  | .charStrings => return { top with charStrings := some (← entry.natural 0) }
  | .charset => return { top with charset := some (← entry.natural 0) }
  | .privateDict => return { top with privateDict := some entry }
  | .fdArray => return { top with fdArray := some (← entry.natural 0) }
  | .fdSelect => return { top with fdSelect := some (← entry.natural 0) }
  | .charstringType => do
    let number ← entry.integer 0
    match CharstringType.ofNumber? number with
    | some type => return { top with charstringType := type }
    | none =>
      .error (Failure.ofError (.atOffset entry.span.start (.unexpectedCharstringType number)))
  | _ => return top

def ofEntries (entries : Array Dict.Entry) : Except ε TopDict := entries.foldlM add empty

def required (operator : Dict.Operator) (value : Option Nat) : Except ε Nat :=
  ReadError.attributeTo .topDict
    (match value with
      | some offset => .ok offset
      | none => .error (Failure.ofError (.atOffset 0 (.missingEntry operator))))

end TopDict

namespace Font

def lastPredefinedCharset : Nat := 2

def readCharset (bytes : ByteArray) (offset : Option Nat) (glyphCount : Nat) :
    Except ε (Option Charset) :=
  match offset with
  | none => .ok none
  | some offset =>
    if offset ≤ lastPredefinedCharset then .ok none
    else ReadError.attributeTo .charset (some <$> Charset.readAt bytes offset glyphCount)

def readCid (bytes : ByteArray) (top : TopDict) (glyphCount : Nat) : Except ε Keying := do
  let fdArray ← TopDict.required .fdArray top.fdArray
  let fontDicts ← ReadError.attributeTo .fdArray (FontDict.readArray bytes fdArray)
  if fontDicts.isEmpty then
    ReadError.attributeTo .fdArray (.error (Failure.ofError (.atOffset fdArray .noFontDicts)))
  let fdSelect ← TopDict.required .fdSelect top.fdSelect
  let select ← ReadError.attributeTo .fdSelect
    (FdSelect.readAt bytes fdSelect glyphCount fontDicts.size)
  return .cid select fontDicts

def readNamed (bytes : ByteArray) (top : TopDict) : Except ε Keying :=
  match top.privateDict with
  | none => .ok (.named none)
  | some entry => (.named ∘ some) <$> PrivateDict.ofEntry bytes entry

def read (bytes : ByteArray) (nameSpan topDictSpan : Span) : Except ε Font := do
  let name ← Ranged.slice nameSpan bytes
  let entries ← ReadError.attributeTo .topDict (Dict.readSpan bytes topDictSpan)
  let top ← ReadError.attributeTo .topDict (TopDict.ofEntries entries)
  let offset ← TopDict.required .charStrings top.charStrings
  let charStrings ← ReadError.attributeTo .charStrings (Index.readAt bytes offset)
  let glyphCount ← charStrings.count
  let charset ← readCharset bytes top.charset glyphCount
  let keying ← if top.isCid then readCid bytes top glyphCount else readNamed bytes top
  return {
    name := Text.Utf8.decode name
    nameSpan
    topDict := entries
    charstringType := top.charstringType
    charStrings
    charset
    keying }

def isCid (font : Font) : Bool :=
  match font.keying with
  | .named _ => false
  | .cid _ _ => true

def glyphCount (font : Font) : Nat := font.charStrings.size

/-- The number of Font DICTs; a name-keyed font counts as having one. -/
def fontDictCount (font : Font) : Nat :=
  match font.keying with
  | .named _ => 1
  | .cid _ fontDicts => fontDicts.size

def fontDictOf (font : Font) (glyph : Nat) : Nat :=
  match font.keying with
  | .named _ => 0
  | .cid select _ => select.fontDict glyph

def privateDict (font : Font) (fontDict : Nat) : Option PrivateDict :=
  match font.keying with
  | .named privateDict => privateDict
  | .cid _ fontDicts => fontDicts[fontDict]?.bind FontDict.privateDict

end Font
end CompactFont
