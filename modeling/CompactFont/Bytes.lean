/-!
Ranges of byte positions, and the numbers that bytes spell. A span says where a structure lies; its
bytes are cut out only where they are needed, so a font description never copies the font.
-/

set_option autoImplicit false

namespace CompactFont

/-! ### Spans -/

/-- The positions from `start` up to, but not including, `stop`. -/
structure Span where
  start : Nat
  stop : Nat
  deriving DecidableEq, Inhabited

namespace Span

def length (span : Span) : Nat := span.stop - span.start

/-- The bytes at the positions of a span. Positions after the last byte hold none. -/
def slice (span : Span) (bytes : ByteArray) : ByteArray := bytes.extract span.start span.stop

theorem size_slice (span : Span) (bytes : ByteArray) :
    (span.slice bytes).size = min span.stop bytes.size - span.start := by
  simp only [slice, ByteArray.size_extract]

theorem size_slice_of_le {span : Span} {bytes : ByteArray} (inside : span.stop ≤ bytes.size) :
    (span.slice bytes).size = span.length := by
  rw [size_slice, Nat.min_eq_left inside, length]

end Span

def totalLength (lengths : List Nat) : Nat := lengths.foldl (· + ·) 0

/-! ### Big-endian integers

An encoding has exactly its width in bytes, and decoding it gives the number back up to a multiple
of the number of values that the width has. -/

namespace BigEndian

def valueCount (width : Nat) : Nat := 1 <<< (8 * width)

/-- The low `width` bytes of a number, the most significant one first. -/
def encode : (width : Nat) → (value : Nat) → List UInt8
  | 0, _ => []
  | width + 1, value => UInt8.ofNat (value >>> (8 * width)) :: encode width value

def decode (bytes : List UInt8) : Nat :=
  bytes.foldl (fun value byte => value * 256 + byte.toNat) 0

def signed (width value : Nat) : Int := (value : Int).bmod (valueCount width)

def encodeSigned (width : Nat) (value : Int) : List UInt8 :=
  encode width (value % valueCount width).toNat

theorem length_encode (width value : Nat) : (encode width value).length = width := by
  induction width with
  | zero => rfl
  | succ width induction => simp only [encode, List.length_cons, induction]

end BigEndian
end CompactFont
