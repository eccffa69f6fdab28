import CompactFont.GlyphSet
import CompactFont.OutputError
import CompactFont.Reach
import CompactFont.Table

/-!
A subset of a font keeps some glyphs with the subroutines they reach. Subroutines are sought for
each Font DICT by itself, since a global subroutine calls the local ones of the Font DICT that it
was called from.
-/

set_option autoImplicit false

namespace CompactFont

open Charstring

inductive SubsetError where
  /-- the table cannot be read -/
  | unreadable (error : ReadError)
  | noSuchFont (index count : Nat)
  | noFontNamed (name : String)
  /-- the strings that a name-keyed font needs to become CID-keyed do not fit -/
  | tooManyStrings (count : Nat)
  /-- the subset cannot be written -/
  | unwritable (error : OutputError)
  deriving DecidableEq

namespace SubsetError

def message : SubsetError → String
  | unreadable error => s!"failed parsing CFF data: {error.message}"
  | noSuchFont index count => s!"font #{index} is out of range (CFF data contains {count} font(s))"
  | noFontNamed name => "font `" ++ name ++ "` is not present"
  | tooManyStrings count =>
    s!"output String INDEX would contain {count} strings, more than an INDEX can hold"
  | unwritable error => s!"failed writing CFF data: {error.message}"

end SubsetError

structure Subset where
  table : Table
  font : Font
  /-- the glyphs that were asked for -/
  wanted : GlyphSet
  glyphs : DiscoverySet
  /-- the Font DICTs of the glyphs that are kept -/
  fontDicts : DiscoverySet
  /-- what the glyphs of each Font DICT reach -/
  reaches : Array Reach

namespace Subset

def keptGlyphs (font : Font) (wanted : GlyphSet) : DiscoverySet :=
  let first := if font.glyphCount = 0 then .empty else DiscoverySet.empty.insert 0
  first.insertAll (wanted.glyphs.filter (· < font.glyphCount)).toArray

def usedFontDicts (font : Font) (glyphs : DiscoverySet) : DiscoverySet :=
  .insertAll .empty (glyphs.order.map font.fontDictOf)

def globalBodies (table : Table) (font : Font) : SubrBodies :=
  .ofIndex table.bytes table.globalSubrs font.charstringType

def localBodies (bytes : ByteArray) (font : Font) (fontDict : Nat) : Option SubrBodies := do
  let subrs ← (← font.privateDict fontDict).subrs
  return .ofIndex bytes subrs font.charstringType

def charstrings (bytes : ByteArray) (font : Font) (glyphs : DiscoverySet) (fontDict : Nat) :
    Array ByteArray :=
  (glyphs.order.filter (font.fontDictOf · = fontDict)).map (font.charStrings.element bytes)

def reachOf (table : Table) (font : Font) (globalSubrs : SubrBodies) (glyphs : DiscoverySet)
    (fontDict : Nat) : Reach :=
  .ofCharstrings ⟨localBodies table.bytes font fontDict, globalSubrs⟩
    (charstrings table.bytes font glyphs fontDict)

def ofFont (table : Table) (font : Font) (wanted : GlyphSet) : Subset :=
  let glyphs := keptGlyphs font wanted
  let fontDicts := usedFontDicts font glyphs
  let globals := globalBodies table font
  { table, font, wanted, glyphs, fontDicts
    reaches := (Array.range font.fontDictCount).map fun fontDict =>
      if fontDicts.contains fontDict then reachOf table font globals glyphs fontDict else .empty }

def reach (subset : Subset) (fontDict : Nat) : Reach := subset.reaches.getD fontDict .empty

def localSubrs (subset : Subset) (fontDict : Nat) : DiscoverySet :=
  (subset.reach fontDict).localSubrs

/-- The global subroutines that the glyphs reach, Font DICT by Font DICT. -/
def globalSubrs (subset : Subset) : DiscoverySet :=
  subset.fontDicts.order.foldl
    (fun used fontDict => used.insertAll (subset.reach fontDict).globalSubrs.order) .empty

def localSubrCount (subset : Subset) : Nat :=
  subset.reaches.foldl (fun count reach => count + reach.localSubrs.size) 0

/-- The strings that a name-keyed font needs to become CID-keyed: the two that name its glyph
collection, and the name of its Font DICT. -/
def addedStringCount : Nat := 3

def maxStringCount : Nat := OutputError.maxU16

/-- The subset of the font with the given index. Glyph 0 is always kept, and glyphs that the font
lacks are ignored. -/
def select (table : Table) (fontIndex : Nat) (wanted : GlyphSet) : Except SubsetError Subset := do
  let some font := table.fonts[fontIndex]?
    | .error (.noSuchFont fontIndex table.fonts.size)
  let stringCount := table.strings.size + addedStringCount
  if ¬font.isCid ∧ maxStringCount < stringCount then
    .error (.tooManyStrings stringCount)
  return ofFont table font wanted

end Subset
end CompactFont
