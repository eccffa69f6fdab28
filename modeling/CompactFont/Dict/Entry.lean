import CompactFont.Number

/-!
DICT data is a sequence of entries, each some operands followed by an operator. Real operands are
passed over: no font structure depends on one. Every entry keeps the span it was read from, so that
it can be copied unchanged.
-/

set_option autoImplicit false

namespace CompactFont.Dict

inductive Operand where
  | integer (value : Int)
  /-- a real number, whose value is not decoded -/
  | real
  deriving DecidableEq

inductive Token where
  | operand (value : Operand)
  | operator (value : Operator)
  deriving DecidableEq

structure Entry where
  operator : Operator
  operands : Array Operand
  span : Span
  deriving DecidableEq

variable {ε : Type} [Failure ε]

namespace Entry

def invalid (entry : Entry) : ReadError :=
  .atOffset entry.span.start (.invalidEntry entry.operator)

def integer (entry : Entry) (i : Nat) : Except ε Int :=
  match entry.operands[i]? with
  | some (.integer value) => .ok value
  | _ => .error (Failure.ofError entry.invalid)

def natural (entry : Entry) (i : Nat) : Except ε Nat := do
  let value ← entry.integer i
  if value < 0 then .error (Failure.ofError entry.invalid) else .ok value.toNat

def raw (entry : Entry) (bytes : ByteArray) : ByteArray := entry.span.slice bytes

end Entry

/-- A byte of packed decimal digits ends a real number if one of its halves is the end mark. -/
def endsReal (byte : UInt8) : Bool := byte >>> 4 == 15 || byte &&& 15 == 15

def passReal : (room : Nat) → ReaderOf ε Unit
  | 0 => Reader.fail .unexpectedEnd
  | room + 1 => do
    let byte ← Reader.u8
    if endsReal byte then return () else passReal room

def readToken : ReaderOf ε Token := do
  let lead ← Reader.u8
  if lead = Operator.escape then return .operator (.ofEscaped (← Reader.u8))
  else if lead ≤ 27 ∨ lead = 31 then return .operator (.ofByte lead)
  else if lead = Number.leadOfTwo then return .operand (.integer (← Reader.signedWord 2))
  else if lead = Number.leadOfFour then return .operand (.integer (← Reader.signedWord 4))
  else if lead = 30 then
    passReal (← Reader.remaining)
    return .operand .real
  else if lead ≤ 254 then return .operand (.integer (← Number.readShort lead))
  else Reader.failAt (← Ranged.sub (← Reader.position) 1) (.reservedByte lead)

/-- Reads the rest of an entry that began at `start` with the given operands. At most `room` tokens
follow, one for each byte that is left. -/
def readEntryFrom (start : Nat) : (room : Nat) → (operands : Array Operand) → ReaderOf ε Entry
  | 0, _ => Reader.fail .unexpectedEnd
  | room + 1, operands => do
    match ← readToken with
    | .operand operand => readEntryFrom start room (operands.push operand)
    | .operator operator => return ⟨operator, operands, ⟨start, ← Reader.position⟩⟩

def readEntry : ReaderOf ε Entry := do
  readEntryFrom (← Reader.position) (← Reader.remaining) #[]

def readEntriesOnto : (room : Nat) → (found : Array Entry) → ReaderOf ε (Array Entry)
  | 0, found => return found
  | room + 1, found => do
    if ← Reader.atEnd then return found
    readEntriesOnto room (found.push (← readEntry))

def readEntries : ReaderOf ε (Array Entry) := do readEntriesOnto (← Reader.remaining) #[]

def readSpan (bytes : ByteArray) (span : Span) : Except ε (Array Entry) :=
  if inside : span.stop ≤ bytes.size then
    readEntries.readAt ⟨bytes, span.stop, inside⟩ span.start
  else .error (Failure.ofError (.atOffset 0 (.spanOutOfBounds ⟨0, span.stop⟩ bytes.size)))

end CompactFont.Dict
