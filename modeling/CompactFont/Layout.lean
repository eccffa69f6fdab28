import CompactFont.Index
import CompactFont.Number

/-!
Output with offsets that are not known while it is put together. It is a sequence of pieces; some
are offsets of places, which other pieces label. The length of a piece does not depend on where
places end up, so the places are found first and the offsets filled in afterwards.
-/

set_option autoImplicit false

namespace CompactFont.Layout

inductive OffsetForm where
  /-- a DICT operand of five bytes -/
  | dictOperand
  /-- a big-endian number of the given width -/
  | word (width : Nat)
  deriving DecidableEq

namespace OffsetForm

def size : OffsetForm → Nat
  | dictOperand => Number.fixedLength
  | word width => width

/-- The largest offset that can be written. Offsets of a `word` are expected to fit: one that is too
wide is an error here, although a linker could as well cut it off. -/
def limit : OffsetForm → Nat
  | dictOperand => OutputError.maxOperand
  | word width => BigEndian.valueCount width - 1

def encode : OffsetForm → Nat → List UInt8
  | dictOperand, offset => Number.encodeFixed offset
  | word width, offset => BigEndian.encode width offset

theorem length_encode (form : OffsetForm) (offset : Nat) :
    (form.encode offset).length = form.size := by
  cases form with
  | dictOperand => exact Number.length_encodeFixed offset
  | word width => exact BigEndian.length_encode width offset

end OffsetForm

inductive Piece (Label : Type) where
  | bytes (content : ByteArray)
  /-- the position of a place, counted from the place `base` or from the start of the output -/
  | offset (target : Label) (base : Option Label) (form : OffsetForm)
  /-- labels the place before the next piece -/
  | place (label : Label)

variable {Label : Type}

namespace Piece

def size : Piece Label → Nat
  | bytes content => content.size
  | offset _ _ form => form.size
  | place _ => 0

def literal (content : List UInt8) : Piece Label := .bytes content.toByteArray

def locator (target : Label) : Piece Label := .offset target none .dictOperand

end Piece

def size (pieces : List (Piece Label)) : Nat := totalLength (pieces.map Piece.size)

def placesFrom : (pos : Nat) → List (Piece Label) → List (Label × Nat)
  | _, [] => []
  | pos, .place label :: rest => (label, pos) :: placesFrom pos rest
  | pos, piece :: rest => placesFrom (pos + piece.size) rest

def places (pieces : List (Piece Label)) : List (Label × Nat) := placesFrom 0 pieces

variable {m : Type → Type} [Monad m] [Writer m]

def index (elements : List (List (Piece Label))) : m (List (Piece Label)) := do
  let header ← Index.header (elements.map size)
  return .bytes header :: elements.flatten

variable [Linker Label m]

def distance (places : List (Label × Nat)) (target : Label) (base : Option Label) : m Nat := do
  let stop ← Linker.position places target
  let start ← match base with
    | some label => Linker.position places label
    | none => pure 0
  Linker.distance Label start stop

def Piece.encode (places : List (Label × Nat)) : Piece Label → m ByteArray
  | .bytes content => pure content
  | .offset target base form => do
    let offset ← Writer.atMost form.limit .offset (← distance places target base)
    return (form.encode offset).toByteArray
  | .place label => do
    Linker.placed label (places.map Prod.fst)
    return .empty

/-- The bytes of pieces. Every label is expected to stand for one place only. -/
def assemble (pieces : List (Piece Label)) : m ByteArray := do
  let places := places pieces
  let bytes ← pieces.foldlM (fun bytes piece => (bytes ++ ·) <$> piece.encode places) .empty
  Writer.total bytes.size (size pieces)
  return bytes

end CompactFont.Layout
