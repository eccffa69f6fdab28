import CompactFont.OutputError
import CompactFont.Reader

/-!
An INDEX is an array of byte strings: a count, an offset size, one more offset than there are
elements, and the elements themselves. Offsets are counted from the byte before the elements, so
the first one is usually one.
-/

set_option autoImplicit false

namespace CompactFont

structure Index where
  /-- the position of the count -/
  start : Nat
  /-- the start of every element and the end of the last one; of an empty INDEX, only its end -/
  offsets : Array Nat
  deriving DecidableEq

namespace Index

def size (index : Index) : Nat := index.offsets.size - 1

def stop (index : Index) : Nat := index.offsets.getD index.size index.start

def span (index : Index) : Span := ⟨index.start, index.stop⟩

def elementSpan (index : Index) (i : Nat) : Span :=
  ⟨index.offsets.getD i index.stop, index.offsets.getD (i + 1) index.stop⟩

def element (index : Index) (bytes : ByteArray) (i : Nat) : ByteArray :=
  (index.elementSpan i).slice bytes

def elements (index : Index) (bytes : ByteArray) : Array ByteArray :=
  (Array.range index.size).map (index.element bytes)

def raw (index : Index) (bytes : ByteArray) : ByteArray := index.span.slice bytes

/-! ### Reading -/

section

variable {ε : Type} [Failure ε]

def count (index : Index) : Except ε Nat := Ranged.sub index.offsets.size 1

def locate (index : Index) (i : Nat) : Except ε Span := do
  return ⟨← Ranged.element index.offsets i index.stop,
    ← Ranged.element index.offsets (i + 1) index.stop⟩

theorem count_eq (index : Index) : index.count = .ok index.size := rfl

theorem locate_eq (index : Index) (i : Nat) : index.locate i = .ok (index.elementSpan i) := rfl

/-- The first fault among relative offsets of `width` bytes each, the first of them at position
`pos`. An offset is at least one and at least its predecessor `last`. -/
def offsetFault? (width : Nat) : (pos last : Nat) → List Nat → Option ReadError
  | _, _, [] => none
  | pos, last, offset :: rest =>
    if offset = 0 then some (.atOffset pos (.offsetOutOfBounds offset))
    else if offset < last then some (.atOffset pos .descendingOffsets)
    else offsetFault? width (pos + width) offset rest

def widestOffset : Nat := 4

/-- Reads the offsets of an INDEX that has elements and goes to its end. All offsets are read before
any of them is checked. -/
def readElements (start count width : Nat) : ReaderOf ε Index := do
  let offsetsStart ← Reader.position
  let relative ← Reader.times (count + 1) (Reader.offset width)
  let base ← Ranged.sub (← Reader.position) 1
  if let some fault := offsetFault? width offsetsStart 1 relative.toList then
    throw (Failure.ofError fault)
  let stop := base + (← Ranged.element relative count 0)
  Reader.require ⟨base + 1, stop⟩
  Reader.seek stop
  return ⟨start, relative.map (base + ·)⟩

def read : ReaderOf ε Index := do
  let start ← Reader.position
  let count ← Reader.u16
  if count = 0 then
    return ⟨start, #[← Reader.position]⟩
  let size ← Reader.u8
  let width := size.toNat
  unless 1 ≤ width ∧ width ≤ widestOffset do
    Reader.fail (.invalidOffsetSize size)
  readElements start count width

def readAt (bytes : ByteArray) (offset : Nat) : Except ε Index := read.readAt (.whole bytes) offset

end

/-! ### Writing

The header depends only on the lengths of the elements, which is what allows elements whose content
is decided later. -/

/-- The least number of bytes, out of one to four, that holds an offset. -/
def offsetWidth (offset : Nat) : Nat :=
  if offset < 0x100 then 1 else if offset < 0x10000 then 2 else if offset < 0x1000000 then 3 else 4

/-- The relative offsets of consecutive elements, from one on, with the end of the last element. -/
def relativeOffsets (lengths : List Nat) : Array Nat :=
  (lengths.foldl (fun (offsets, last) length => (offsets.push (last + length), last + length))
    (#[1], 1)).1

variable {m : Type → Type} [Monad m] [Writer m]

/-- Everything that precedes the elements: the count, the offset size and the offsets, which are cut
off from four bytes. An INDEX without elements is its count alone. -/
def header (lengths : List Nat) : m ByteArray := do
  let count ← Writer.atMost OutputError.maxU16 .indexCount lengths.length
  if count = 0 then
    return (BigEndian.encode 2 0).toByteArray
  let last ← Writer.atMost OutputError.maxU32 .indexPayload (totalLength lengths + 1)
  let width := offsetWidth last
  Writer.ordered width widestOffset
  let start := (BigEndian.encode 2 count ++ BigEndian.encode 1 width).toByteArray
  return (relativeOffsets lengths).foldl
    (fun bytes offset => bytes ++ (BigEndian.encode width offset).toByteArray) start

def encode (elements : List ByteArray) : m ByteArray := do
  let start ← header (elements.map ByteArray.size)
  return elements.foldl (· ++ ·) start

end CompactFont.Index
