import CompactFont.Subset.Basic

/-!
What is worth telling about how a subset came about, in the order in which it was noticed.
-/

set_option autoImplicit false

namespace CompactFont

inductive Note.Level where
  | trace
  | debug
  | warn
  deriving DecidableEq

inductive Note where
  | glyphOutOfRange (glyph : Nat) (fontName : String) (glyphCount : Nat)
  /-- a remark on some charstring -/
  | scan (remark : Charstring.Remark)
  | summary (fontName : String) (glyphs glyphCount globalSubrs globalSubrCount localSubrs
      fontDicts : Nat)
  deriving DecidableEq

namespace Note

def level : Note → Level
  | glyphOutOfRange _ _ _ => .warn
  | scan _ => .trace
  | summary _ _ _ _ _ _ _ => .debug

def message : Note → String
  | glyphOutOfRange glyph fontName glyphCount =>
    s!"glyph #{glyph} is out of range for font `{fontName}` with {glyphCount} glyphs; ignoring"
  | scan remark => remark.message
  | summary fontName glyphs glyphCount globalSubrs globalSubrCount localSubrs fontDicts =>
    s!"subset of font `{fontName}` uses {glyphs}/{glyphCount} glyphs, " ++
    s!"{globalSubrs}/{globalSubrCount} global subrs, {localSubrs} local subrs in " ++
    s!"{fontDicts} Font DICT(s)"

end Note

namespace Subset

def missingGlyphs (subset : Subset) : List Nat :=
  subset.wanted.glyphs.filter (subset.font.glyphCount ≤ ·)

def summary (subset : Subset) : Note :=
  .summary subset.font.name subset.glyphs.size subset.font.glyphCount subset.globalSubrs.size
    subset.table.globalSubrs.size subset.localSubrCount subset.fontDicts.size

def notes (subset : Subset) : List Note :=
  let missing := subset.missingGlyphs.map fun glyph =>
    Note.glyphOutOfRange glyph subset.font.name subset.font.glyphCount
  let remarks := subset.fontDicts.order.toList.flatMap fun fontDict =>
    (subset.reach fontDict).remarks.toList.map Note.scan
  missing ++ remarks ++ [subset.summary]

end Subset
end CompactFont
