import CompactFont.Dict.Operator
import CompactFont.Bytes

/-!
Failures of reading a font table: a cause, the position it was noticed at, and the structure that
was being read. The structure named is the innermost one, so it is attached at most once.
-/

set_option autoImplicit false

namespace CompactFont

inductive Part where
  | header
  | nameIndex
  | topDict
  | stringIndex
  | globalSubrs
  | charStrings
  | charset
  | fdSelect
  | fdArray
  | privateDict
  | localSubrs
  deriving DecidableEq

def Part.title : Part → String
  | header => "header"
  | nameIndex => "Name INDEX"
  | topDict => "Top DICT"
  | stringIndex => "String INDEX"
  | globalSubrs => "Global Subr INDEX"
  | charStrings => "CharStrings INDEX"
  | charset => "charset"
  | fdSelect => "FDSelect"
  | fdArray => "FDArray"
  | privateDict => "Private DICT"
  | localSubrs => "Local Subr INDEX"

namespace ReadError

inductive Cause where
  | unexpectedEnd
  /-- the header has a major version other than one -/
  | unexpectedVersion (major : UInt8)
  /-- an INDEX has offsets of a size outside one to four -/
  | invalidOffsetSize (size : UInt8)
  | offsetOutOfBounds (offset : Nat)
  /-- a span does not lie in the first `size` positions -/
  | spanOutOfBounds (span : Span) (size : Nat)
  /-- an INDEX offset is less than the one before it -/
  | descendingOffsets
  /-- a charset or FDSelect has an unknown format -/
  | unexpectedFormat (format : UInt8)
  /-- DICT data has a byte that starts neither an operand nor an operator -/
  | reservedByte (byte : UInt8)
  | missingEntry (operator : Dict.Operator)
  /-- a DICT entry lacks an operand that it must have -/
  | invalidEntry (operator : Dict.Operator)
  | unexpectedCharstringType (type : Int)
  /-- an FDSelect names a Font DICT that the FDArray lacks -/
  | noSuchFontDict (index : Nat)
  | noFontDicts
  | fontCountsDiffer (names topDicts : Nat)
  deriving DecidableEq

def Cause.message : Cause → String
  | unexpectedEnd => "unexpected end of the font data"
  | unexpectedVersion major => s!"unexpected CFF version ({major})"
  | invalidOffsetSize size => s!"INDEX offset size ({size}) is not in 1..=4"
  | offsetOutOfBounds offset => s!"offset ({offset}) inferred from the font data is out of bounds"
  | spanOutOfBounds span size =>
    s!"range ({span.start}..{span.stop}) inferred from the font data is out of bounds (..{size})"
  | descendingOffsets => "INDEX offsets are not monotonic"
  | unexpectedFormat format => s!"unexpected format ({format})"
  | reservedByte byte => s!"reserved byte ({byte}) in DICT data"
  | missingEntry operator => "missing `" ++ operator.title ++ "` DICT entry"
  | invalidEntry operator => "unexpected operands for `" ++ operator.title ++ "` DICT entry"
  | unexpectedCharstringType type => s!"unexpected charstring type ({type})"
  | noSuchFontDict index => s!"Font DICT #{index} is not present in FDArray"
  | noFontDicts => "FDArray contains no Font DICTs"
  | fontCountsDiffer names topDicts =>
    s!"Name INDEX has {names} entries, while Top DICT INDEX has {topDicts}"

end ReadError

structure ReadError where
  cause : ReadError.Cause
  offset : Nat
  part : Option Part
  deriving DecidableEq

namespace ReadError

def atOffset (offset : Nat) (cause : Cause) : ReadError := ⟨cause, offset, none⟩

/-- Attributes a failure to a structure, unless an inner structure has claimed it. -/
def inPart (part : Part) (error : ReadError) : ReadError :=
  { error with part := some (error.part.getD part) }

/-- The structure in brackets and the position, where known and not zero, before the cause. -/
def message (error : ReadError) : String :=
  let bracket := match error.part with
    | some part => "[" ++ part.title ++ "] "
    | none => ""
  let position := if error.offset = 0 then "" else s!"{error.offset}: "
  bracket ++ position ++ error.cause.message

/-- The innermost structure claims a failure. -/
theorem inPart_inPart (inner outer : Part) (error : ReadError) :
    (error.inPart inner).inPart outer = error.inPart inner :=
  rfl

end ReadError

/-! ### Ways to fail

A reader is written once for all ways to fail. Plain readers fail with a `ReadError`, and whatever
result an operation gives outside its range is used. Other readers may stop there. -/

/-- What a reader can fail with. -/
class Failure (ε : Type) where
  ofError : ReadError → ε
  inPart : Part → ε → ε
  /-- the failure of an operation that leaves its range, unless that goes unnoticed -/
  outOfRange : Option ε

@[default_instance]
instance : Failure ReadError := ⟨id, ReadError.inPart, none⟩

def ReadError.attributeTo {ε α : Type} [Failure ε] (part : Part) (result : Except ε α) :
    Except ε α :=
  result.mapError (Failure.inPart part)

/-! ### Operations with a range -/

namespace Ranged

variable {ε α : Type} {m : Type → Type} [Monad m] [MonadExcept ε m] [Failure ε]

/-- The value of an operation, which has its range if `fits` holds. -/
def within (fits : Prop) [Decidable fits] (value : α) : m α :=
  match (Failure.outOfRange : Option ε) with
  | none => pure value
  | some failure => if fits then pure value else throw failure

def sub (a b : Nat) : m Nat := within (b ≤ a) (a - b)

def slice (span : Span) (bytes : ByteArray) : m ByteArray :=
  within (span.start ≤ span.stop ∧ span.stop ≤ bytes.size) (span.slice bytes)

def element (xs : Array α) (i : Nat) (default : α) : m α := within (i < xs.size) (xs.getD i default)

def span (start stop : Nat) : m Span := within (start ≤ stop) ⟨start, stop⟩

end Ranged

/-! Plain computations never stop outside a range. -/

theorem Failure.ofError_eq (error : ReadError) : Failure.ofError error = error := rfl

namespace Ranged

variable {α : Type} {m : Type → Type} [Monad m] [MonadExcept ReadError m]

theorem sub_eq (a b : Nat) : (sub a b : m Nat) = pure (a - b) := rfl

theorem slice_eq (span : Span) (bytes : ByteArray) :
    (slice span bytes : m ByteArray) = pure (span.slice bytes) := rfl

theorem element_eq (xs : Array α) (i : Nat) (default : α) :
    (element xs i default : m α) = pure (xs.getD i default) := rfl

theorem span_eq (start stop : Nat) : (span start stop : m Span) = pure ⟨start, stop⟩ := rfl

end Ranged

end CompactFont
