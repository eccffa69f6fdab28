import CompactFont.Bytes
import CompactFont.ReadError

/-!
A reader walks over the bytes of a table. Positions are absolute; a source may hide the bytes after
a given position, so that a structure cannot be read past its end. A reader that fails stays where
it noticed the failure.
-/

set_option autoImplicit false

namespace CompactFont

structure Source where
  bytes : ByteArray
  stop : Nat
  stop_le : stop ≤ bytes.size

def Source.whole (bytes : ByteArray) : Source := ⟨bytes, bytes.size, Nat.le_refl _⟩

/-- A computation that walks over a source: the state is the position reached. -/
abbrev Reader {ε : Type} [Failure ε] (α : Type) := ReaderT Source (EStateM ε Nat) α

abbrev ReaderOf (ε : Type) [Failure ε] (α : Type) := @Reader ε _ α

namespace Reader

variable {ε α β : Type} [Failure ε]

def run (reader : ReaderOf ε α) (source : Source) (pos : Nat) : EStateM.Result ε Nat α :=
  ReaderT.run reader source pos

def position : ReaderOf ε Nat := get

def remaining : ReaderOf ε Nat := do Ranged.sub (← read).stop (← position)

def atEnd : ReaderOf ε Bool := do return decide ((← read).stop ≤ (← position))

def failAt (offset : Nat) (cause : ReadError.Cause) : ReaderOf ε α :=
  throw (Failure.ofError (.atOffset offset cause))

def fail (cause : ReadError.Cause) : ReaderOf ε α := do failAt (← position) cause

def inPart (part : Part) (reader : ReaderOf ε α) : ReaderOf ε α :=
  fun source pos =>
    match reader.run source pos with
    | .ok value pos => .ok value pos
    | .error error pos => .error (Failure.inPart part error) pos

def seek (offset : Nat) : ReaderOf ε Unit := do
  if (← read).stop < offset then fail (.offsetOutOfBounds offset) else set offset

def skip (count : Nat) : ReaderOf ε Unit := do
  if (← remaining) < count then fail .unexpectedEnd else modify (· + count)

def require (span : Span) : ReaderOf ε Unit := do
  let stop := (← read).stop
  unless span.start ≤ span.stop ∧ span.stop ≤ stop do
    failAt span.start (.spanOutOfBounds span stop)

def slice (span : Span) : ReaderOf ε ByteArray := do
  require span
  Ranged.slice span (← read).bytes

def u8 : ReaderOf ε UInt8 := do
  let source ← read
  let pos ← position
  if inside : pos < source.stop then
    set (pos + 1)
    return source.bytes.get pos (Nat.lt_of_lt_of_le inside source.stop_le)
  else fail .unexpectedEnd

/-- A big-endian number of `width` bytes; if fewer are left, none of them is consumed. -/
def word (width : Nat) : ReaderOf ε Nat := do
  let pos ← position
  skip width
  let digits ← Ranged.slice ⟨pos, pos + width⟩ (← read).bytes
  return BigEndian.decode digits.data.toList

def u16 : ReaderOf ε Nat := word 2

def u32 : ReaderOf ε Nat := word 4

def signedWord (width : Nat) : ReaderOf ε Int := return BigEndian.signed width (← word width)

/-- Positions are numbers of 64 bits. -/
def positionBound : Nat := 0x10000000000000000

def offsetDigits : (count value : Nat) → ReaderOf ε Nat
  | 0, value => return value
  | count + 1, value => do
    let byte ← u8
    offsetDigits count ((value * 256 + byte.toNat) % positionBound)

/-- A big-endian offset of `size` bytes, of which the low 64 bits count. Its bytes are consumed one
by one, so a truncated offset leaves the reader at the end of the source. -/
def offset (size : Nat) : ReaderOf ε Nat := offsetDigits size 0

def timesOnto (reader : ReaderOf ε α) : (count : Nat) → (found : Array α) → ReaderOf ε (Array α)
  | 0, found => return found
  | count + 1, found => do timesOnto reader count (found.push (← reader))

def times (count : Nat) (reader : ReaderOf ε α) : ReaderOf ε (Array α) := timesOnto reader count #[]

def readAt (reader : ReaderOf ε α) (source : Source) (offset : Nat) : Except ε α :=
  match (seek offset *> reader).run source 0 with
  | .ok value _ => .ok value
  | .error error _ => .error error

/-! ### What each reader does -/

theorem run_pure (value : α) (source : Source) (pos : Nat) :
    run (pure value : ReaderOf ε α) source pos = .ok value pos := rfl

theorem run_bind (reader : ReaderOf ε α) (next : α → ReaderOf ε β) (source : Source) (pos : Nat) :
    run (reader >>= next) source pos =
      match run reader source pos with
      | .ok value pos => run (next value) source pos
      | .error error pos => .error error pos := by
  change EStateM.bind (reader source) (fun value => next value source) pos = _
  unfold EStateM.bind run ReaderT.run
  cases reader source pos <;> rfl

theorem run_position (source : Source) (pos : Nat) : run position source pos = .ok pos pos := rfl

theorem run_remaining (source : Source) (pos : Nat) :
    run remaining source pos = .ok (source.stop - pos) pos := rfl

theorem run_atEnd (source : Source) (pos : Nat) :
    run atEnd source pos = .ok (decide (source.stop ≤ pos)) pos := rfl

theorem run_fail (cause : ReadError.Cause) (source : Source) (pos : Nat) :
    run (fail cause : Reader α) source pos = .error (.atOffset pos cause) pos := rfl

theorem run_inPart (part : Part) (reader : Reader α) (source : Source) (pos : Nat) :
    run (inPart part reader) source pos =
      match run reader source pos with
      | .ok value pos => .ok value pos
      | .error error pos => .error (error.inPart part) pos := by
  change inPart part reader source pos = _
  unfold inPart
  cases reader.run source pos <;> rfl

theorem run_seek (offset : Nat) (source : Source) (pos : Nat) :
    run (seek offset) source pos =
      if source.stop < offset then .error (.atOffset pos (.offsetOutOfBounds offset)) pos
      else .ok () offset := by
  change run (if source.stop < offset then fail _ else set offset) source pos = _
  split <;> rfl

theorem run_skip (count : Nat) (source : Source) (pos : Nat) :
    run (skip count) source pos =
      if source.stop - pos < count then .error (.atOffset pos .unexpectedEnd) pos
      else .ok () (pos + count) := by
  change run (if source.stop - pos < count then fail _ else modify (· + count)) source pos = _
  split <;> rfl

theorem run_require (span : Span) (source : Source) (pos : Nat) :
    run (require span) source pos =
      if span.start ≤ span.stop ∧ span.stop ≤ source.stop then .ok () pos
      else .error (.atOffset span.start (.spanOutOfBounds span source.stop)) pos := by
  change run (if span.start ≤ span.stop ∧ span.stop ≤ source.stop then _ else _) source pos = _
  split <;> rfl

theorem run_u8 (source : Source) (pos : Nat) :
    run u8 source pos =
      if inside : pos < source.stop then
        .ok (source.bytes.get pos (Nat.lt_of_lt_of_le inside source.stop_le)) (pos + 1)
      else .error (.atOffset pos .unexpectedEnd) pos := by
  change run (if inside : pos < source.stop then _ else _) source pos = _
  by_cases inside : pos < source.stop
  · rw [dif_pos inside, dif_pos inside]
    rfl
  · rw [dif_neg inside, dif_neg inside]
    rfl

theorem run_word (width : Nat) (source : Source) (pos : Nat) :
    run (word width) source pos =
      if source.stop - pos < width then .error (.atOffset pos .unexpectedEnd) pos
      else .ok (BigEndian.decode ((⟨pos, pos + width⟩ : Span).slice source.bytes).data.toList)
        (pos + width) := by
  unfold word
  simp only [run_bind, run_position, run_skip]
  by_cases short : source.stop - pos < width
  · simp only [short, ↓reduceIte]
  · simp only [short, ↓reduceIte]
    rfl

end Reader
end CompactFont
