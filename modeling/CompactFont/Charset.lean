import CompactFont.Reader

/-!
Charsets name the glyphs of a font. A subset keeps or replaces a charset as a whole, so only its
extent is determined: glyph 0 is never listed, and runs may reach past the last glyph.
-/

set_option autoImplicit false

namespace CompactFont

structure Charset where
  span : Span
  deriving DecidableEq

namespace Charset

variable {ε : Type} [Failure ε]

/-- Passes over runs until they cover `needed` glyphs. A run is a first name and the number of
glyphs that follow the first one, in `width` bytes. At most `room` runs are left. -/
def skipRuns (width : Nat) : (room needed : Nat) → ReaderOf ε Unit
  | _, 0 => return ()
  | 0, _ + 1 => Reader.fail .unexpectedEnd
  | room + 1, needed + 1 => do
    Reader.skip 2
    let left ← Reader.word width
    skipRuns width room (needed - left)

/-- Passes over the names of glyphs. Only a failure says where the charset starts. -/
def skipNames (start : Nat) (format : UInt8) (needed : Nat) : ReaderOf ε Unit := do
  match format with
  | 0 => Reader.skip (2 * needed)
  | 1 => skipRuns 1 (← Reader.remaining) needed
  | 2 => skipRuns 2 (← Reader.remaining) needed
  | _ => Reader.failAt start (.unexpectedFormat format)

/-- Passes over the charset of a font with the given number of glyphs. A font without glyphs counts
as having one. -/
def skip (glyphCount : Nat) : ReaderOf ε Unit := do
  let start ← Reader.position
  let format ← Reader.u8
  skipNames start format (glyphCount - 1)

def readAt (bytes : ByteArray) (offset glyphCount : Nat) : Except ε Charset :=
  Reader.readAt (do
    skip glyphCount
    return ⟨← Ranged.span offset (← Reader.position)⟩) (.whole bytes) offset

/-- The charset that gives every glyph its own number as its name, as one run from glyph 1 on. -/
def identity (glyphCount : Nat) : List UInt8 :=
  if glyphCount ≤ 1 then [2]
  else 2 :: (BigEndian.encode 2 1 ++ BigEndian.encode 2 (glyphCount - 2))

end Charset
end CompactFont
