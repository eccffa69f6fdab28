import CompactFont.Number
import CompactFont.Reader

/-!
Checked computations stop where an operation would leave its range: a subtraction below zero, an
index beyond an array, a slice beyond some bytes, a number beyond 32 bits. Plain ones give such
operations some result; that both ways of failing come to the same says that no such result is ever
used. Agreement also means that failures are noticed inside the source.
-/

set_option autoImplicit false

namespace CompactFont

inductive Halt where
  /-- an operation would leave its range -/
  | outOfRange
  | failed (error : ReadError)

def Halt.inPart (part : Part) : Halt → Halt
  | outOfRange => outOfRange
  | failed error => failed (error.inPart part)

instance : Failure Halt := ⟨.failed, Halt.inPart, some .outOfRange⟩

abbrev CheckedReader (α : Type) := ReaderOf Halt α

/-! ### Agreement of readers -/

/-- A checked computation and a plain one come to the same, at a position up to `stop` and with a
known property; or they fail at such a position. -/
inductive Agree {α : Type} (stop : Nat) (known : α → Nat → Prop) :
    EStateM.Result Halt Nat α → EStateM.Result ReadError Nat α → Prop where
  | ok {value : α} {pos : Nat} : pos ≤ stop → known value pos →
      Agree stop known (.ok value pos) (.ok value pos)
  | error {error : ReadError} {pos : Nat} : error.offset ≤ stop →
      Agree stop known (.error (.failed error) pos) (.error error pos)

def AgreeAt {α : Type} (source : Source) (pos : Nat) (known : α → Nat → Prop)
    (checked : CheckedReader α) (reader : Reader α) : Prop :=
  Agree source.stop known (checked.run source pos) (reader.run source pos)

namespace AgreeAt

variable {α β : Type} {source : Source} {pos : Nat} {known : α → Nat → Prop}

theorem outcomes {checked : CheckedReader α} {reader : Reader α}
    (agree : AgreeAt source pos known checked reader) :
    (∃ value last, checked.run source pos = .ok value last ∧
      reader.run source pos = .ok value last ∧ last ≤ source.stop ∧ known value last) ∨
    ∃ error last, checked.run source pos = .error (.failed error) last ∧
      reader.run source pos = .error error last ∧ error.offset ≤ source.stop := by
  unfold AgreeAt at agree
  generalize checked.run source pos = left, reader.run source pos = right at agree ⊢
  cases agree with
  | ok inside holds => exact .inl ⟨_, _, rfl, rfl, inside, holds⟩
  | error inside => exact .inr ⟨_, _, rfl, rfl, inside⟩

/-- What is known of a result may be used together with how the plain reader came to it. -/
theorem imp_run {checked : CheckedReader α} {reader : Reader α} {next : α → Nat → Prop}
    (agree : AgreeAt source pos known checked reader)
    (holds : ∀ value last, reader.run source pos = .ok value last → known value last →
      next value last) :
    AgreeAt source pos next checked reader := by
  unfold AgreeAt
  rcases agree.outcomes with ⟨value, last, left, right, inside, found⟩ |
    ⟨error, last, left, right, inside⟩
  · rw [left, right]
    exact .ok inside (holds value last right found)
  · rw [left, right]
    exact .error inside

theorem imp {checked : CheckedReader α} {reader : Reader α} {less : α → Nat → Prop}
    (agree : AgreeAt source pos known checked reader)
    (weaker : ∀ value pos, known value pos → less value pos) :
    AgreeAt source pos less checked reader :=
  agree.imp_run fun value last _ => weaker value last

theorem pure {value : α} (inside : pos ≤ source.stop) (holds : known value pos) :
    AgreeAt source pos known (pure value) (pure value) := .ok inside holds

theorem bind {next : β → Nat → Prop} {checked : CheckedReader α} {reader : Reader α}
    {checkedNext : α → CheckedReader β} {readerNext : α → Reader β}
    (first : AgreeAt source pos known checked reader)
    (second : ∀ value pos, pos ≤ source.stop → known value pos →
      AgreeAt source pos next (checkedNext value) (readerNext value)) :
    AgreeAt source pos next (checked >>= checkedNext) (reader >>= readerNext) := by
  unfold AgreeAt
  rw [Reader.run_bind, Reader.run_bind]
  rcases first.outcomes with ⟨value, last, left, right, inside, holds⟩ |
    ⟨error, last, left, right, inside⟩
  · rw [left, right]
    exact second value last inside holds
  · rw [left, right]
    exact .error inside

theorem ite {condition : Prop} [Decidable condition] {checked other : CheckedReader α}
    {reader otherReader : Reader α}
    (positive : condition → AgreeAt source pos known checked reader)
    (negative : ¬condition → AgreeAt source pos known other otherReader) :
    AgreeAt source pos known (if condition then checked else other)
      (if condition then reader else otherReader) := by
  by_cases holds : condition
  · rw [if_pos holds, if_pos holds]
    exact positive holds
  · rw [if_neg holds, if_neg holds]
    exact negative holds

theorem thrown {error : ReadError} (inside : error.offset ≤ source.stop) :
    AgreeAt source pos known (throw (Failure.ofError error)) (throw (Failure.ofError error)) :=
  .error inside

theorem failAt {offset : Nat} {cause : ReadError.Cause} (inside : offset ≤ source.stop) :
    AgreeAt source pos known (Reader.failAt offset cause) (Reader.failAt offset cause) :=
  thrown inside

theorem fail {cause : ReadError.Cause} (inside : pos ≤ source.stop) :
    AgreeAt source pos known (Reader.fail cause) (Reader.fail cause) := .error inside

theorem fail_bind {known : β → Nat → Prop} {checked : CheckedReader α} {reader : Reader α}
    (failed : AgreeAt source pos (fun _ _ => False) checked reader)
    (checkedNext : α → CheckedReader β) (readerNext : α → Reader β) :
    AgreeAt source pos known (checked >>= checkedNext) (reader >>= readerNext) :=
  failed.bind fun _ _ _ never => never.elim

theorem inPart {checked : CheckedReader α} {reader : Reader α} (part : Part)
    (agree : AgreeAt source pos known checked reader) :
    AgreeAt source pos known (checked.inPart part) (reader.inPart part) := by
  unfold AgreeAt
  change Agree _ _ (Reader.inPart part checked source pos) (Reader.inPart part reader source pos)
  unfold Reader.inPart
  rcases agree.outcomes with ⟨value, last, left, right, inside, holds⟩ |
    ⟨error, last, left, right, inside⟩
  · rw [left, right]
    exact .ok inside holds
  · rw [left, right]
    exact .error inside

/-! ### Operations with a range -/

theorem within {fits : Prop} [Decidable fits] {value : α} (inside : pos ≤ source.stop)
    (holds : fits) :
    AgreeAt source pos (fun result last => value = result ∧ pos = last)
      (Ranged.within fits value) (Ranged.within fits value) := by
  change AgreeAt source pos _ (if fits then Pure.pure value else throw Halt.outOfRange)
    (Pure.pure value)
  rw [if_pos holds]
  exact .ok inside ⟨rfl, rfl⟩

theorem sub {a b : Nat} (inside : pos ≤ source.stop) (ordered : b ≤ a) :
    AgreeAt source pos (fun result last => a - b = result ∧ pos = last) (Ranged.sub a b)
      (Ranged.sub a b) := within inside ordered

/-! ### Steps of readers -/

theorem ask (inside : pos ≤ source.stop) :
    AgreeAt source pos (fun value last => source = value ∧ pos = last) read read :=
  .ok inside ⟨rfl, rfl⟩

theorem position (inside : pos ≤ source.stop) :
    AgreeAt source pos (fun value last => pos = value ∧ pos = last) Reader.position
      Reader.position := .ok inside ⟨rfl, rfl⟩

theorem atEnd (inside : pos ≤ source.stop) :
    AgreeAt source pos (fun _ last => pos = last) Reader.atEnd Reader.atEnd := .ok inside rfl

theorem remaining (inside : pos ≤ source.stop) :
    AgreeAt source pos (fun value last => source.stop - pos = value ∧ pos = last) Reader.remaining
      Reader.remaining := by
  apply AgreeAt.bind (AgreeAt.ask inside)
  rintro _ _ _ ⟨rfl, rfl⟩
  apply AgreeAt.bind (AgreeAt.position inside)
  rintro _ _ _ ⟨rfl, rfl⟩
  exact .sub inside inside

theorem skip (inside : pos ≤ source.stop) (count : Nat) :
    AgreeAt source pos (fun _ last => pos + count = last) (Reader.skip count)
      (Reader.skip count) := by
  apply AgreeAt.bind (AgreeAt.remaining inside)
  rintro _ _ _ ⟨rfl, rfl⟩
  apply AgreeAt.ite
  · intro short
    exact .fail inside
  · intro enough
    have room : pos + count ≤ source.stop := by omega
    exact .ok room rfl

theorem u8 (inside : pos ≤ source.stop) :
    AgreeAt source pos (fun _ last => pos + 1 = last) Reader.u8 Reader.u8 := by
  apply AgreeAt.bind (AgreeAt.ask inside)
  rintro _ _ _ ⟨rfl, rfl⟩
  apply AgreeAt.bind (AgreeAt.position inside)
  rintro _ _ _ ⟨rfl, rfl⟩
  by_cases left : pos < source.stop
  · rw [dif_pos left, dif_pos left]
    exact .ok left rfl
  · rw [dif_neg left, dif_neg left]
    exact .fail inside

theorem seek (inside : pos ≤ source.stop) (offset : Nat) :
    AgreeAt source pos (fun _ last => offset = last) (Reader.seek offset)
      (Reader.seek offset) := by
  apply AgreeAt.bind (AgreeAt.ask inside)
  rintro _ _ _ ⟨rfl, rfl⟩
  apply AgreeAt.ite
  · intro _
    exact .fail inside
  · intro reached
    exact .ok (Nat.not_lt.1 reached) rfl

theorem require {span : Span} (inside : pos ≤ source.stop) (starts : span.start ≤ source.stop) :
    AgreeAt source pos (fun _ last => pos = last ∧ span.start ≤ span.stop ∧ span.stop ≤ source.stop)
      (Reader.require span) (Reader.require span) := by
  apply AgreeAt.bind (AgreeAt.ask inside)
  rintro _ _ _ ⟨rfl, rfl⟩
  apply AgreeAt.ite
  · intro fits
    exact .pure inside ⟨rfl, fits⟩
  · intro _
    exact .failAt starts

end AgreeAt
end CompactFont
