import CompactFont.Proofs.Reader.Placement

/-!
A successful reading is decided by the bytes that it passes over: the same bytes read the same at
any other position, in any other table. `Spelled` says this of given bytes and a given value,
`Local` of everything that a reader accepts.
-/

set_option autoImplicit false

namespace CompactFont.Reader

variable {α β : Type}

theorem run_bind_eq_ok {reader : Reader α} {next : α → Reader β} {source : Source}
    {pos stop : Nat} {result : β} :
    (reader >>= next).run source pos = .ok result stop ↔
      ∃ value middle, reader.run source pos = .ok value middle ∧
        (next value).run source middle = .ok result stop := by
  rw [run_bind]
  cases reader.run source pos with
  | ok value middle =>
    constructor
    · intro read
      exact ⟨value, middle, rfl, read⟩
    · intro ⟨_, _, same, read⟩
      cases same
      exact read
  | error fault middle =>
    constructor
    · intro read
      cases read
    · intro ⟨_, _, same, _⟩
      cases same

theorem run_pure_eq_ok {value result : α} {source : Source} {pos stop : Nat} :
    (pure value : Reader α).run source pos = .ok result stop ↔ value = result ∧ pos = stop := by
  rw [run_pure, EStateM.Result.ok.injEq]

theorem run_position_eq_ok {source : Source} {pos result stop : Nat} :
    position.run source pos = .ok result stop ↔ pos = result ∧ pos = stop := by
  rw [run_position, EStateM.Result.ok.injEq]

theorem run_inPart_eq_ok {part : Part} {reader : Reader α} {source : Source} {pos stop : Nat}
    {value : α} :
    (reader.inPart part).run source pos = .ok value stop ↔ reader.run source pos = .ok value stop := by
  rw [run_inPart]
  cases reader.run source pos with
  | ok found last => rfl
  | error fault last => simp only [reduceCtorEq]

theorem run_seek_eq_ok {offset : Nat} {source : Source} {pos stop : Nat} {result : Unit} :
    (seek offset).run source pos = .ok result stop ↔ offset ≤ source.stop ∧ offset = stop := by
  rw [run_seek]
  split
  · next outside => simp only [reduceCtorEq, false_iff, not_and]; omega
  · next inside => simp only [EStateM.Result.ok.injEq, true_and]; omega

theorem run_require_eq_ok {span : Span} {source : Source} {pos stop : Nat} {result : Unit} :
    (require span).run source pos = .ok result stop ↔
      (span.start ≤ span.stop ∧ span.stop ≤ source.stop) ∧ pos = stop := by
  rw [run_require]
  split
  · next inside => simp only [EStateM.Result.ok.injEq, true_and, inside, and_self]
  · next outside => simp only [reduceCtorEq, outside, false_and]

/-- The reader takes the bytes at a position for the value and goes to their end, whatever surrounds
them. -/
def Spelled (reader : Reader α) (pos : Nat) (content : List UInt8) (value : α) : Prop :=
  ∀ source : Source, source.Holds pos content →
    reader.run source pos = .ok value (pos + content.length)

/-- What the reader accepts, it accepts at every position as the same value. -/
def Local (reader : Reader α) : Prop :=
  ∀ source pos value stop, pos ≤ source.stop → reader.run source pos = .ok value stop →
    ∃ content, source.Holds pos content ∧ stop = pos + content.length ∧
      ∀ pos, reader.Spelled pos content value

/-! ### Single bytes spell themselves -/

namespace Spelled

variable {pos : Nat} {content first second : List UInt8}

theorem pure (pos : Nat) (value : α) : Spelled (pure value) pos [] value :=
  fun _ _ => rfl

theorem position (pos : Nat) : Spelled position pos [] pos := fun _ _ => rfl

theorem bind {reader : Reader α} {next : α → Reader β} {value : α} {result : β}
    (front : reader.Spelled pos first value)
    (back : (next value).Spelled (pos + first.length) second result) :
    (reader >>= next).Spelled pos (first ++ second) result := by
  intro source holds
  rw [run_bind, front source holds.left]
  change (next value).run source (pos + first.length) = _
  rw [back source holds.right, List.length_append, Nat.add_assoc]

theorem bind_nil {reader : Reader α} {next : α → Reader β} {value : α} {result : β}
    (front : reader.Spelled pos [] value) (back : (next value).Spelled pos content result) :
    (reader >>= next).Spelled pos content result :=
  bind front back

theorem map {reader : Reader α} {value : α} (f : α → β) (spelled : reader.Spelled pos content value) :
    (f <$> reader).Spelled pos content (f value) := by
  have whole : (reader >>= fun value => Pure.pure (f value)).Spelled pos (content ++ []) (f value) :=
    bind spelled (pure (pos + content.length) (f value))
  rwa [List.append_nil] at whole

theorem u8 (pos : Nat) (byte : UInt8) : Reader.u8.Spelled pos [byte] byte := by
  intro source holds
  have inside : pos < source.stop := holds.2
  rw [run_u8, dif_pos inside, holds.1.get_eq]
  rfl

theorem bind_u8 {next : UInt8 → Reader β} {byte : UInt8} {result : β}
    (back : (next byte).Spelled (pos + 1) second result) :
    (Reader.u8 >>= next).Spelled pos (byte :: second) result :=
  (bind (u8 pos byte) back : (Reader.u8 >>= next).Spelled pos ([byte] ++ second) result)

theorem skip {count : Nat} (pos : Nat) (length : content.length = count) :
    (Reader.skip count).Spelled pos content () := by
  subst length
  intro source holds
  have bound := holds.2
  rw [run_skip, if_neg (by omega)]

theorem word {width : Nat} (pos : Nat) (length : content.length = width) :
    (Reader.word width).Spelled pos content (BigEndian.decode content) := by
  subst length
  intro source holds
  have bound := holds.2
  have read := holds.1.slice_eq
  rw [run_word, if_neg (by omega)]
  rw [listed] at read
  rw [read]

theorem signedWord {width : Nat} (pos : Nat) (length : content.length = width) :
    (Reader.signedWord width).Spelled pos content
      (BigEndian.signed width (BigEndian.decode content)) :=
  map (BigEndian.signed width) (word pos length)

theorem inPart {reader : Reader α} {value : α} (part : Part)
    (spelled : reader.Spelled pos content value) : (Reader.inPart part reader).Spelled pos content value := by
  intro source holds
  rw [run_inPart, spelled source holds]

/-- There are at least as many bytes left as the reader goes on to take. -/
theorem of_remaining {reader : Nat → Reader α} {value : α}
    (each : ∀ room, content.length ≤ room → (reader room).Spelled pos content value) :
    (remaining >>= reader).Spelled pos content value := by
  intro source holds
  have bound := holds.2
  rw [run_bind, run_remaining]
  exact each _ (by omega) source holds

theorem readAt {reader : Reader α} {value : α} {source : Source}
    (spelled : reader.Spelled pos content value) (holds : source.Holds pos content) :
    reader.readAt source pos = .ok value := by
  have bound := holds.2
  have sought : run (seek pos *> reader) source 0 = run reader source pos := by
    change run (seek pos >>= fun _ => reader) source 0 = _
    rw [run_bind, run_seek, if_neg (by omega)]
  rw [Reader.readAt, sought, spelled source holds]

end Spelled

/-! ### Readers built from local ones are local -/

namespace Local

theorem pure (value : α) : Local (pure value) := by
  intro source pos value stop inside read
  cases read
  exact ⟨[], .nil inside, rfl, fun pos => .pure pos _⟩

theorem throw (error : ReadError) : Local (throw error : Reader α) := by
  intro source pos value stop inside read
  cases read

theorem fail (cause : ReadError.Cause) : Local (fail cause : Reader α) := by
  intro source pos value stop inside read
  cases read

theorem bind {reader : Reader α} {next : α → Reader β} (front : Local reader)
    (back : ∀ value, Local (next value)) : Local (reader >>= next) := by
  intro source pos result stop inside read
  rw [run_bind] at read
  split at read
  · next value middle passed =>
    obtain ⟨first, holdsFirst, rfl, spelledFirst⟩ := front source pos value middle inside passed
    obtain ⟨second, holdsSecond, rfl, spelledSecond⟩ := back value source _ result stop holdsFirst.2 read
    refine ⟨first ++ second, holdsFirst.append holdsSecond, ?_, fun pos =>
      (spelledFirst pos).bind (spelledSecond _)⟩
    rw [List.length_append, Nat.add_assoc]
  · cases read

/-- Where bytes are accepted as a whole, none of their proper prefixes is. -/
theorem run_prefix_ne_ok {reader : Reader α} (whole : Local reader) {front rest : List UInt8}
    {value found : α} {stop : Nat} (spelled : reader.Spelled 0 (front ++ rest) value)
    (more : rest ≠ []) :
    reader.run (.whole front.toByteArray) 0 ≠ .ok found stop := by
  intro read
  obtain ⟨content, ⟨⟨before, after, split, start⟩, _⟩, rfl, each⟩ := whole _ 0 _ _ (Nat.zero_le _) read
  change listed front.toByteArray = before ++ content ++ after at split
  rw [listed_toByteArray, List.length_eq_zero_iff.1 start, List.nil_append] at split
  have all : Holds (front ++ rest).toByteArray 0 (front ++ rest) := .of_toByteArray _
  have short : Holds (front ++ rest).toByteArray 0 (content ++ (after ++ rest)) := by
    rwa [← List.append_assoc, ← split]
  have ends := (each 0 _ short.left.whole).symm.trans (spelled _ all.whole)
  rw [EStateM.Result.ok.injEq, split] at ends
  have length := ends.2
  simp only [List.length_append] at length
  exact more (List.length_eq_zero_iff.1 (by omega))

theorem map {reader : Reader α} (f : α → β) (whole : Local reader) : Local (f <$> reader) :=
  whole.bind fun value => pure (f value)

theorem ite {condition : Prop} [Decidable condition] {reader other : Reader α}
    (positive : Local reader) (negative : Local other) :
    Local (if condition then reader else other) := by
  split
  · exact positive
  · exact negative

/-- A reader that passes over a fixed number of bytes, whatever they are, is local. -/
theorem of_length {reader : Reader α} (count : Nat) (value : List UInt8 → α)
    (enough : ∀ source pos found stop, pos ≤ source.stop →
      reader.run source pos = .ok found stop → pos + count ≤ source.stop)
    (spelled : ∀ pos content, content.length = count →
      reader.Spelled pos content (value content)) : Local reader := by
  intro source pos found stop inside read
  obtain ⟨content, holds, length⟩ :=
    Source.Holds.exists_of_le (enough source pos found stop inside read)
  have expected := spelled pos content length source holds
  rw [read, EStateM.Result.ok.injEq] at expected
  obtain ⟨rfl, rfl⟩ := expected
  exact ⟨content, holds, rfl, fun pos => spelled pos content length⟩

theorem u8 : Local u8 := by
  refine of_length 1 (List.headD · 0) ?_ ?_
  · intro source pos found stop inside read
    rw [run_u8] at read
    by_cases enough : pos < source.stop
    · exact enough
    · rw [dif_neg enough] at read
      cases read
  · intro pos content length
    obtain ⟨byte, rfl⟩ := List.length_eq_one_iff.1 length
    exact .u8 pos byte

theorem skip (count : Nat) : Local (skip count) := by
  refine of_length count (fun _ => ()) ?_ fun pos content length => .skip pos length
  intro source pos found stop inside read
  rw [run_skip] at read
  split at read
  · cases read
  · omega

theorem word (width : Nat) : Local (word width) := by
  refine of_length width BigEndian.decode ?_ fun pos content length => .word pos length
  intro source pos found stop inside read
  rw [run_word] at read
  split at read
  · cases read
  · omega

theorem signedWord (width : Nat) : Local (signedWord width) := map _ (word width)

/-- A bound on the steps of a reader plays no part if as many steps as there are bytes always
suffice. -/
theorem of_remaining {reader : Nat → Reader α} (each : ∀ room, Local (reader room))
    (sufficient : ∀ room enough source pos value stop,
      (reader room).run source pos = .ok value stop → stop - pos ≤ enough →
        (reader enough).run source pos = .ok value stop) :
    Local (remaining >>= reader) := by
  intro source pos value stop inside read
  rw [run_bind, run_remaining] at read
  obtain ⟨content, holds, rfl, spelled⟩ := each _ source pos value stop inside read
  refine ⟨content, holds, rfl, fun pos other holds => ?_⟩
  have bound := holds.2
  rw [run_bind, run_remaining]
  exact sufficient _ _ other pos value _ (spelled pos other holds) (by omega)

/-- A reader that needs its position only to tell where it failed is local. -/
theorem of_position (reader : Nat → Reader α) (start : Nat) (whole : Local (reader start))
    (same : ∀ other source pos value stop, (reader other).run source pos = .ok value stop ↔
      (reader start).run source pos = .ok value stop) : Local (position >>= reader) := by
  intro source pos value stop inside read
  rw [run_bind, run_position] at read
  obtain ⟨content, holds, ends, spelled⟩ :=
    whole source pos value stop inside ((same pos source pos value stop).1 read)
  refine ⟨content, holds, ends, fun pos other holds => ?_⟩
  rw [run_bind, run_position]
  exact (same pos other pos value _).2 (spelled pos other holds)

end Local

theorem run_skip_eq_ok {count : Nat} {source : Source} {pos stop : Nat} {result : Unit} :
    (skip count).run source pos = .ok result stop ↔ count ≤ source.stop - pos ∧ stop = pos + count := by
  rw [run_skip]
  split
  · next short => simp only [reduceCtorEq, false_iff, not_and]; omega
  · next enough =>
    simp only [EStateM.Result.ok.injEq, true_and, Nat.not_lt.1 enough, eq_comm]

theorem stop_of_run_word {width value : Nat} {source : Source} {pos stop : Nat}
    (read : (word width).run source pos = .ok value stop) : stop = pos + width := by
  rw [run_word] at read
  split at read
  · cases read
  · cases read
    rfl

theorem run_u8_eq_ok {source : Source} {pos stop : Nat} {byte : UInt8} :
    u8.run source pos = .ok byte stop ↔ source.Holds pos [byte] ∧ stop = pos + 1 := by
  constructor
  · intro read
    rw [run_u8] at read
    by_cases inside : pos < source.stop
    · have room : pos + 1 ≤ source.stop := inside
      obtain ⟨content, holds, length⟩ := Source.Holds.exists_of_le room
      obtain ⟨byte, rfl⟩ := List.length_eq_one_iff.1 length
      rw [dif_pos inside, holds.1.get_eq, EStateM.Result.ok.injEq] at read
      obtain ⟨rfl, rfl⟩ := read
      exact ⟨holds, rfl⟩
    · rw [dif_neg inside] at read
      cases read
  · rintro ⟨holds, ends⟩
    rw [Spelled.u8 pos byte source holds, ends]
    rfl

end CompactFont.Reader
