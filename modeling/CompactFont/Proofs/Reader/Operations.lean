import CompactFont.Proofs.Checked.Readers

/-!
Operations of a reader one after the other, with any arguments and whichever of them fail. The
reader never leaves the bytes. An operation that fails leaves the reader where it was, except for an
offset: its bytes are consumed one by one, so of a truncated offset all bytes that are left are.
-/

set_option autoImplicit false

namespace CompactFont.Reader

variable {α β : Type}

theorem run_map (f : α → β) (reader : Reader α) (source : Source) (pos : Nat) :
    run (f <$> reader) source pos =
      match run reader source pos with
      | .ok value stop => .ok (f value) stop
      | .error error stop => .error error stop := by
  rw [← bind_pure_comp, run_bind]
  cases reader.run source pos <;> rfl

/-! ### Readers that consume all or nothing -/

/-- Wherever it starts, a reader fails and is where it was, or it succeeds and is in its source if it
was. -/
structure Steady (reader : Reader α) : Prop where
  outcome : ∀ source pos, (∃ error, reader.run source pos = .error error pos) ∨
    ∃ value stop, reader.run source pos = .ok value stop ∧ (pos ≤ source.stop → stop ≤ source.stop)

namespace Steady

variable {reader : Reader α} {source : Source} {pos stop : Nat}

theorem inside (steady : Steady reader) {value : α} (start : pos ≤ source.stop)
    (read : reader.run source pos = .ok value stop) : stop ≤ source.stop := by
  obtain ⟨error, failed⟩ | ⟨other, last, passed, stays⟩ := steady.outcome source pos
  · cases read.symm.trans failed
  · cases read.symm.trans passed
    exact stays start

theorem unmoved (steady : Steady reader) {error : ReadError}
    (read : reader.run source pos = .error error stop) : stop = pos := by
  obtain ⟨fault, failed⟩ | ⟨value, last, passed, _⟩ := steady.outcome source pos
  · cases read.symm.trans failed
    rfl
  · cases read.symm.trans passed

theorem map (steady : Steady reader) (f : α → β) : Steady (f <$> reader) := by
  constructor
  intro source pos
  rw [run_map]
  obtain ⟨error, failed⟩ | ⟨value, stop, passed, stays⟩ := steady.outcome source pos
  · rw [failed]
    exact .inl ⟨error, rfl⟩
  · rw [passed]
    exact .inr ⟨f value, stop, rfl, stays⟩

theorem u8 : Steady u8 := by
  constructor
  intro source pos
  rw [run_u8]
  by_cases more : pos < source.stop
  · rw [dif_pos more]
    exact .inr ⟨_, _, rfl, fun _ => more⟩
  · rw [dif_neg more]
    exact .inl ⟨_, rfl⟩

theorem word (width : Nat) : Steady (word width) := by
  constructor
  intro source pos
  rw [run_word]
  split
  · exact .inl ⟨_, rfl⟩
  · next enough => exact .inr ⟨_, _, rfl, fun start => by omega⟩

theorem seek (offset : Nat) : Steady (seek offset) := by
  constructor
  intro source pos
  rw [run_seek]
  split
  · exact .inl ⟨_, rfl⟩
  · next within => exact .inr ⟨_, _, rfl, fun _ => Nat.not_lt.1 within⟩

theorem skip (count : Nat) : Steady (skip count) := by
  constructor
  intro source pos
  rw [run_skip]
  split
  · exact .inl ⟨_, rfl⟩
  · next enough => exact .inr ⟨_, _, rfl, fun start => by omega⟩

theorem slice (span : Span) : Steady (slice span) := by
  constructor
  intro source pos
  unfold Reader.slice
  rw [run_bind, run_require]
  by_cases within : span.start ≤ span.stop ∧ span.stop ≤ source.stop
  · rw [if_pos within]
    exact .inr ⟨span.slice source.bytes, pos, rfl, fun start => start⟩
  · rw [if_neg within]
    exact .inl ⟨_, rfl⟩

end Steady

/-! ### Offsets -/

/-- Of a truncated offset, all bytes that are left are consumed. -/
theorem run_offsetDigits_of_short {count value : Nat} {source : Source} {pos : Nat}
    (inside : pos ≤ source.stop) (short : source.stop < pos + count) :
    (offsetDigits count value).run source pos =
      .error (.atOffset source.stop .unexpectedEnd) source.stop := by
  induction count generalizing pos value with
  | zero => omega
  | succ count induction =>
    unfold offsetDigits
    rw [run_bind, run_u8]
    by_cases more : pos < source.stop
    · rw [dif_pos more]
      exact induction more (by omega)
    · have last : pos = source.stop := by omega
      rw [dif_neg more, last]

/-! ### Operations in a row -/

inductive Operation where
  | u8
  | u16
  | u32
  | offset (size : Nat)
  | seek (target : Nat)
  | skip (count : Nat)
  | slice (span : Span)
  deriving DecidableEq

namespace Operation

inductive Answer where
  | number (value : Nat)
  | bytes (content : ByteArray)
  | moved

def perform : Operation → Reader Answer
  | .u8 => (fun byte : UInt8 => .number byte.toNat) <$> Reader.u8
  | .u16 => .number <$> Reader.u16
  | .u32 => .number <$> Reader.u32
  | .offset size => .number <$> Reader.offset size
  | .seek target => (fun _ => .moved) <$> Reader.seek target
  | .skip count => (fun _ => .moved) <$> Reader.skip count
  | .slice span => .bytes <$> Reader.slice span

/-- Where the reader stands after an operation, whether or not it succeeds. -/
def next (source : Source) (pos : Nat) (operation : Operation) : Nat :=
  match operation.perform.run source pos with
  | .ok _ stop => stop
  | .error _ stop => stop

def reached (source : Source) (operations : List Operation) : Nat :=
  operations.foldl (next source) 0

/-- All operations but reading an offset consume all or nothing. -/
theorem steady_perform {operation : Operation} (other : ∀ size, operation ≠ offset size) :
    Steady operation.perform := by
  cases operation with
  | u8 => exact Steady.u8.map _
  | u16 => exact (Steady.word 2).map _
  | u32 => exact (Steady.word 4).map _
  | offset size => exact absurd rfl (other size)
  | seek target => exact (Steady.seek target).map _
  | skip count => exact (Steady.skip count).map _
  | slice span => exact (Steady.slice span).map _

/-- Reading an offset fails exactly if it is truncated, and then goes to the end of the source. -/
theorem run_perform_offset_of_short {size : Nat} {source : Source} {pos : Nat}
    (inside : pos ≤ source.stop) (short : source.stop < pos + size) :
    (offset size).perform.run source pos =
      .error (.atOffset source.stop .unexpectedEnd) source.stop := by
  unfold perform
  rw [run_map, Reader.offset, run_offsetDigits_of_short inside short]

theorem run_perform_offset_of_enough {size : Nat} {source : Source} {pos : Nat}
    (enough : pos + size ≤ source.stop) :
    ∃ value, (offset size).perform.run source pos = .ok (.number value) (pos + size) ∧
      (size ≤ 8 → value =
        BigEndian.decode (listed ((⟨pos, pos + size⟩ : Span).slice source.bytes))) := by
  obtain ⟨content, holds, rfl⟩ := Source.Holds.exists_of_le enough
  have read := spelled_offsetDigits content pos 0 source holds
  refine ⟨content.foldl (fun value byte => (value * 256 + byte.toNat) % positionBound) 0, ?_,
    fun narrow => ?_⟩
  · unfold perform
    rw [run_map, Reader.offset, read]
  · have short := spelled_offset pos rfl narrow source holds
    rw [holds.1.slice_eq]
    rw [Reader.offset, read, EStateM.Result.ok.injEq] at short
    exact short.1

theorem next_le {source : Source} {pos : Nat} (inside : pos ≤ source.stop) (operation : Operation) :
    next source pos operation ≤ source.stop := by
  unfold next
  by_cases truncatable : ∃ size, operation = offset size
  · obtain ⟨size, rfl⟩ := truncatable
    by_cases short : source.stop < pos + size
    · exact Nat.le_of_eq (by rw [run_perform_offset_of_short inside short])
    · obtain ⟨value, read, _⟩ := run_perform_offset_of_enough (Nat.not_lt.1 short)
      rw [read]
      exact Nat.not_lt.1 short
  · have steady := steady_perform (not_exists.1 truncatable)
    split
    · next read => exact steady.inside inside read
    · next failed =>
      rw [steady.unmoved failed]
      exact inside

theorem foldl_next_le {source : Source} {pos : Nat} (inside : pos ≤ source.stop)
    (operations : List Operation) : operations.foldl (next source) pos ≤ source.stop := by
  induction operations generalizing pos with
  | nil => exact inside
  | cons operation operations induction => exact induction (next_le inside operation)

/-- Wherever operations lead from the start of some bytes, that is a position of the bytes, so the
number of bytes left can be computed. An operation that fails there leaves the reader where it is,
unless it is to read an offset. An offset with more bytes than are left is not read, and the reader
goes to the end of the bytes. Every other offset is read and passed over, and one of up to eight
bytes is the number that they spell. -/
theorem operations_exact {bytes : ByteArray} {operations : List Operation} {pos : Nat}
    (leads : reached (.whole bytes) operations = pos) :
    pos ≤ bytes.size ∧
    (Reader.remaining : CheckedReader Nat).run (.whole bytes) pos = .ok (bytes.size - pos) pos ∧
    (∀ operation error stop, (∀ size, operation ≠ offset size) →
      operation.perform.run (.whole bytes) pos = .error error stop → stop = pos) ∧
    ∀ size,
      (bytes.size < pos + size → ∃ error,
        (offset size).perform.run (.whole bytes) pos = .error error bytes.size) ∧
      (pos + size ≤ bytes.size → ∃ value,
        (offset size).perform.run (.whole bytes) pos = .ok (.number value) (pos + size) ∧
        (size ≤ 8 → value =
          BigEndian.decode (listed ((⟨pos, pos + size⟩ : Span).slice bytes)))) := by
  have inside : pos ≤ bytes.size := leads ▸ foldl_next_le (Nat.zero_le _) operations
  have among : pos ≤ (Source.whole bytes).stop := inside
  refine ⟨inside, ?_, ?_, fun size => ⟨?_, ?_⟩⟩
  · obtain ⟨left, last, checked, _, _, rfl, rfl⟩ | ⟨_, _, _, failed, _⟩ :=
      (AgreeAt.remaining among).outcomes
    · exact checked
    · cases failed
  · intro operation error stop other failed
    exact (steady_perform other).unmoved failed
  · intro short
    exact ⟨_, run_perform_offset_of_short inside short⟩
  · intro enough
    exact run_perform_offset_of_enough enough

def sevenBytes : ByteArray := ⟨#[1, 2, 3, 4, 5, 6, 7]⟩

/-- Operations of which the last two fail. -/
def fiveOperations : List Operation := [.u8, .u16, .offset 3, .u16, .seek 9]

theorem operations_exact_fiveOperations :
    reached (.whole sevenBytes) fiveOperations = 6 ∧
      (Reader.remaining : CheckedReader Nat).run (.whole sevenBytes) 6 = .ok 1 6 ∧
      (∃ error stop, (skip 2).perform.run (.whole sevenBytes) 6 = .error error stop ∧ stop = 6) ∧
      (∃ error, (offset 2).perform.run (.whole sevenBytes) 6 = .error error 7) ∧
      ∃ value, (offset 1).perform.run (.whole sevenBytes) 6 = .ok (.number value) 7 ∧ value = 7 := by
  have leads : reached (.whole sevenBytes) fiveOperations = 6 := by rfl
  obtain ⟨_, remaining, unmoved, each⟩ := operations_exact leads
  have failed : (skip 2).perform.run (.whole sevenBytes) 6 =
      .error (.atOffset 6 .unexpectedEnd) 6 := rfl
  have same := unmoved (skip 2) _ _ (fun _ other => by cases other) failed
  obtain ⟨value, read, spelled⟩ := (each 1).2 (by decide)
  exact ⟨leads, remaining, ⟨_, _, failed, same⟩, (each 2).1 (by decide), value, read,
    spelled (by decide)⟩

end Operation
end CompactFont.Reader
