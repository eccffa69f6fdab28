import CompactFont.Reader

/-!
An FDSelect assigns a Font DICT to every glyph of a CID-keyed font, either glyph by glyph or in
ranges. Glyphs that no range covers, and glyphs outside the font, belong to Font DICT 0.
-/

set_option autoImplicit false

namespace CompactFont

structure FdSelect where
  span : Span
  assigned : Array UInt8
  deriving DecidableEq

namespace FdSelect

def fontDict (select : FdSelect) (glyph : Nat) : Nat := (select.assigned.getD glyph 0).toNat

def extend (assigned : Array UInt8) (count : Nat) (index : UInt8) : Array UInt8 :=
  assigned ++ Array.replicate count index

variable {ε : Type} [Failure ε]

/-- Reads ranges, the first of which starts at glyph `first`: each gives the Font DICT and the first
glyph after the range. So far the glyphs below `first` are assigned. -/
def readRanges (glyphCount : Nat) : (count first : Nat) → (assigned : Array UInt8) →
    ReaderOf ε (Array UInt8)
  | 0, _, assigned => return assigned
  | count + 1, first, assigned => do
    let index ← Reader.u8
    let next ← Reader.u16
    if next < first ∨ glyphCount < next then
      Reader.fail (.spanOutOfBounds ⟨first, next⟩ glyphCount)
    let length ← Ranged.within (first ≤ next ∧ next ≤ glyphCount) (next - first)
    readRanges glyphCount count next (extend assigned length index)

def readAssigned (glyphCount : Nat) : ReaderOf ε (Array UInt8) := do
  let start ← Reader.position
  let format ← Reader.u8
  match format with
  | 0 =>
    let pos ← Reader.position
    let listed ← Reader.slice ⟨pos, pos + glyphCount⟩
    Reader.skip glyphCount
    return listed.data
  | 3 =>
    let count ← Reader.u16
    let first ← Reader.u16
    let assigned ← readRanges glyphCount count first (Array.replicate (min first glyphCount) 0)
    return extend assigned (← Ranged.sub glyphCount assigned.size) 0
  | _ => Reader.failAt start (.unexpectedFormat format)

def readAt (bytes : ByteArray) (offset glyphCount fontDictCount : Nat) :
    Except ε FdSelect :=
  Reader.readAt (do
    let assigned ← readAssigned glyphCount
    if let some index := assigned.find? (fontDictCount ≤ ·.toNat) then
      Reader.failAt offset (.noSuchFontDict index.toNat)
    return ⟨← Ranged.span offset (← Reader.position), assigned⟩) (.whole bytes) offset

def allZero (glyphCount : Nat) : List UInt8 :=
  3 :: (BigEndian.encode 2 1 ++ BigEndian.encode 2 0 ++ [0] ++ BigEndian.encode 2 glyphCount)

end FdSelect
end CompactFont
