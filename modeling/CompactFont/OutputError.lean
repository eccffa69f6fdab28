import CompactFont.Bytes

/-!
Reasons why a table cannot be written. Reading bounds most numbers; those that depend on the amount
of output are checked where they are encoded.
-/

set_option autoImplicit false

namespace CompactFont

inductive Quantity where
  | indexCount
  | indexPayload
  | offset
  | privateDictSize
  | dictOperand
  | glyphCount
  deriving DecidableEq

def Quantity.title : Quantity → String
  | indexCount => "number of INDEX elements"
  | indexPayload => "length of INDEX data"
  | offset => "offset"
  | privateDictSize => "length of a Private DICT"
  | dictOperand => "DICT operand"
  | glyphCount => "number of glyphs"

inductive OutputError where
  /-- a number exceeds what its encoding holds -/
  | tooLarge (quantity : Quantity) (value : Nat)
  /-- an offset refers to a place that the output lacks -/
  | unplacedTarget
  /-- an offset refers to a place that precedes the one it is counted from -/
  | targetBeforeBase
  deriving DecidableEq

namespace OutputError

def message : OutputError → String
  | tooLarge quantity value => s!"{quantity.title} ({value}) is too large to be written"
  | unplacedTarget => "an offset refers to a place outside the output"
  | targetBeforeBase => "an offset is negative"

def atMost (limit : Nat) (quantity : Quantity) (value : Nat) : Except OutputError Nat :=
  if value ≤ limit then .ok value else .error (tooLarge quantity value)

/-- The position of a place. Labels are expected to stand for one place each; of several places with
one label the first one counts. -/
def position {Label : Type} [DecidableEq Label] (places : List (Label × Nat)) (label : Label) :
    Except OutputError Nat :=
  match places.lookup label with
  | some pos => .ok pos
  | none => .error .unplacedTarget

def distance (start stop : Nat) : Except OutputError Nat :=
  if stop < start then .error .targetBeforeBase else .ok (stop - start)

def maxU16 : Nat := 0xFFFF

def maxU32 : Nat := 0xFFFFFFFF

def maxOperand : Nat := 0x7FFFFFFF

theorem atMost_eq_ok_iff {limit value result : Nat} {quantity : Quantity} :
    atMost limit quantity value = .ok result ↔ value ≤ limit ∧ result = value := by
  unfold atMost
  split
  · next inside => simp only [Except.ok.injEq, inside, true_and, eq_comm]
  · next outside => simp only [reduceCtorEq, outside, false_and]

theorem position_eq_ok_iff {Label : Type} [DecidableEq Label] {places : List (Label × Nat)}
    {label : Label} {pos : Nat} :
    position places label = .ok pos ↔ places.lookup label = some pos := by
  unfold position
  cases places.lookup label <;> simp

theorem distance_eq_ok_iff {start stop length : Nat} :
    distance start stop = .ok length ↔ start ≤ stop ∧ stop - start = length := by
  unfold distance
  split
  · next before => simp [Nat.not_le.2 before]
  · next ordered => simp [Nat.not_lt.1 ordered]

end OutputError

/-! ### What writing relies on

A writer is written once, with everything that it relies on. Plain writers check only the numbers
that could be too large, and the places that offsets refer to. -/

/-- A way to write: plainly, or with an account of all that is relied on. -/
class Writer (m : Type → Type) where
  /-- the bytes of a span, which lie in the given bytes -/
  slice (span : Span) (bytes : ByteArray) : m ByteArray
  /-- an array of the given size has an element -/
  element (i size : Nat) : m Unit
  /-- the difference of two numbers is not negative -/
  ordered (least most : Nat) : m Unit
  /-- as many bytes are written as were planned -/
  total (written planned : Nat) : m Unit
  /-- passes on a number that its encoding holds -/
  atMost (limit : Nat) (quantity : Quantity) (value : Nat) : m Nat

class Linker (Label : Type) (m : Type → Type) where
  /-- the position of the only place with a label -/
  position (places : List (Label × Nat)) (label : Label) : m Nat
  /-- a label is one of several, and the only one of its kind -/
  placed (label : Label) (labels : List Label) : m Unit
  /-- how far it is from one position to another -/
  distance (start stop : Nat) : m Nat

@[default_instance]
instance : Writer (Except OutputError) where
  slice span bytes := .ok (span.slice bytes)
  element _ _ := .ok ()
  ordered _ _ := .ok ()
  total _ _ := .ok ()
  atMost := OutputError.atMost

@[default_instance]
instance {Label : Type} [DecidableEq Label] : Linker Label (Except OutputError) where
  position := OutputError.position
  placed _ _ := .ok ()
  distance := OutputError.distance

namespace Writer

theorem slice_eq (span : Span) (bytes : ByteArray) :
    slice span bytes = Except.ok (span.slice bytes) := rfl

theorem element_eq (i size : Nat) : element i size = Except.ok () := rfl

theorem ordered_eq (least most : Nat) : ordered least most = Except.ok () := rfl

end Writer

namespace Linker

variable {Label : Type} [DecidableEq Label]

theorem position_eq (places : List (Label × Nat)) (label : Label) :
    position places label = OutputError.position places label := rfl

theorem distance_eq (start stop : Nat) :
    distance Label start stop = OutputError.distance start stop := rfl

end Linker
end CompactFont
