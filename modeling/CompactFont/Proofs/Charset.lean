import CompactFont.Charset
import CompactFont.Proofs.Index.Offsets
import CompactFont.Proofs.Outcome

/-!
The extent of a charset is decided by its bytes and the number of glyphs, so a charset can be moved.
It is the extent of the names that the charset gives to all glyphs.
-/

set_option autoImplicit false

namespace CompactFont.Charset

open Reader

theorem local_skipRuns (width room needed : Nat) : Local (skipRuns width room needed) := by
  induction room generalizing needed with
  | zero =>
    cases needed with
    | zero => exact .pure ()
    | succ needed => exact .fail _
  | succ room induction =>
    cases needed with
    | zero => exact .pure ()
    | succ needed => exact .bind (.skip 2) fun _ => .bind (.word width) fun _ => induction _

/-- Every run takes bytes, so there are no more runs than bytes. -/
theorem run_skipRuns_of_enough {width room enough needed : Nat} {source : Source} {pos stop : Nat}
    {result : Unit} (read : (skipRuns width room needed).run source pos = .ok result stop)
    (sufficient : stop - pos ≤ enough) :
    pos ≤ stop ∧ (skipRuns width enough needed).run source pos = .ok result stop := by
  induction room generalizing enough needed pos with
  | zero =>
    cases needed with
    | zero =>
      cases read
      cases enough <;> exact ⟨Nat.le_refl _, rfl⟩
    | succ needed => cases read
  | succ room induction =>
    cases needed with
    | zero =>
      cases read
      cases enough <;> exact ⟨Nat.le_refl _, rfl⟩
    | succ needed =>
      obtain ⟨_, _, named, read⟩ := run_bind_eq_ok.1 read
      obtain ⟨left, middle, counted, read⟩ := run_bind_eq_ok.1 read
      have first := run_skip_eq_ok.1 named
      have second := stop_of_run_word counted
      have later := (induction read (Nat.le_refl (stop - middle))).1
      have positive : enough ≠ 0 := by omega
      obtain ⟨fewer, rfl⟩ := Nat.exists_eq_succ_of_ne_zero positive
      have small : stop - middle ≤ fewer := by omega
      have rest := (induction read small).2
      refine ⟨by omega, ?_⟩
      exact run_bind_eq_ok.2 ⟨_, _, named, run_bind_eq_ok.2 ⟨_, _, counted, rest⟩⟩

private theorem local_allRuns (width needed : Nat) :
    Local (remaining >>= fun room => skipRuns width room needed) :=
  .of_remaining (fun room => local_skipRuns width room needed)
    fun _ _ _ _ _ _ read sufficient => (run_skipRuns_of_enough read sufficient).2

private theorem local_skipNames (start : Nat) (format : UInt8) (needed : Nat) :
    Local (skipNames start format needed) := by
  unfold skipNames
  split
  · exact .skip _
  · exact local_allRuns 1 _
  · exact local_allRuns 2 _
  · exact .throw _

/-- Where a charset starts matters only for a failure. -/
private theorem run_skipNames_of_run {start other needed pos stop : Nat} {format : UInt8}
    {source : Source} (read : (skipNames start format needed).run source pos = .ok () stop) :
    (skipNames other format needed).run source pos = .ok () stop := by
  unfold skipNames at read ⊢
  split at read <;> first | exact read | cases read

theorem local_skip (glyphCount : Nat) : Local (skip glyphCount) := by
  apply Local.of_position
    (fun start => u8 >>= fun format => skipNames start format (glyphCount - 1)) 0
  · exact Local.bind .u8 fun format => local_skipNames 0 format _
  · intro start source pos value stop
    simp only [run_bind_eq_ok]
    constructor
    · intro ⟨format, middle, first, rest⟩
      exact ⟨format, middle, first, run_skipNames_of_run rest⟩
    · intro ⟨format, middle, first, rest⟩
      exact ⟨format, middle, first, run_skipNames_of_run rest⟩

theorem readAt_eq_ok {bytes : ByteArray} {offset glyphCount : Nat} {charset : Charset} :
    readAt bytes offset glyphCount = .ok charset ↔
      offset ≤ bytes.size ∧ ∃ stop, (skip glyphCount).run (.whole bytes) offset = .ok () stop ∧
        charset = ⟨⟨offset, stop⟩⟩ := by
  rw [readAt, Reader.readAt_eq_ok]
  have passed : ∀ stop, (do
      skip glyphCount
      return ⟨← Ranged.span offset (← position)⟩ : Reader Charset).run
      (.whole bytes) offset = .ok charset stop ↔
        (skip glyphCount).run (.whole bytes) offset = .ok () stop ∧ charset = ⟨⟨offset, stop⟩⟩ := by
    intro stop
    simp only [Ranged.span_eq, pure_bind, run_bind_eq_ok, run_position_eq_ok, run_pure_eq_ok]
    constructor
    · intro ⟨_, _, read, _, _, ⟨rfl, rfl⟩, same, rfl⟩
      exact ⟨read, same.symm⟩
    · intro ⟨read, same⟩
      exact ⟨(), stop, read, stop, stop, ⟨rfl, rfl⟩, same.symm, rfl⟩
  simp only [passed]
  rfl

/-- What a charset spans is passed over wherever it stands. -/
theorem spelled_of_readAt {bytes : ByteArray} {offset glyphCount : Nat} {charset : Charset}
    (read : readAt bytes offset glyphCount = .ok charset) (pos : Nat) :
    (skip glyphCount).Spelled pos (listed (charset.span.slice bytes)) () := by
  obtain ⟨inside, stop, passed, rfl⟩ := readAt_eq_ok.1 read
  obtain ⟨content, holds, rfl, spelled⟩ := local_skip glyphCount _ offset () stop inside passed
  have slice : listed ((⟨offset, offset + content.length⟩ : Span).slice bytes) = content :=
    holds.1.slice_eq
  simp only [slice]
  exact spelled pos

/-! ### Names -/

/-- Reads the names that runs give to `needed` glyphs: those from the first name of a run on, as many
as the run covers. -/
def readRuns (width : Nat) : (room needed : Nat) → Reader (List Nat)
  | _, 0 => return []
  | 0, _ + 1 => Reader.fail .unexpectedEnd
  | room + 1, needed + 1 => do
    let first ← Reader.word 2
    let left ← Reader.word width
    let later ← readRuns width room (needed - left)
    return List.range' first (min left needed + 1) ++ later

/-- Reads the names of the glyphs after glyph 0. In format 0 they are listed one by one, each of them
as a run without a count. -/
def readListed (format : UInt8) (needed : Nat) : Reader (List Nat) := do
  let start ← Reader.position
  match format with
  | 0 => readRuns 0 needed needed
  | 1 => readRuns 1 (← Reader.remaining) needed
  | 2 => readRuns 2 (← Reader.remaining) needed
  | _ => throw (.atOffset start (.unexpectedFormat format))

def readNames (glyphCount : Nat) : Reader (List Nat) := do
  let listed ← readListed (← Reader.u8) (glyphCount - 1)
  return (0 :: listed).take glyphCount

theorem run_skip_eq_ok_iff_word {width : Nat} {source : Source} {pos stop : Nat} {result : Unit} :
    (Reader.skip width).run source pos = .ok result stop ↔
      ∃ value, (Reader.word width).run source pos = .ok value stop := by
  rw [run_skip, run_word]
  split <;> simp

theorem readRuns_zero (width room : Nat) : readRuns width room 0 = pure [] := by
  cases room <;> rfl

/-- Passing over runs is reading the names that they give and forgetting these. -/
theorem run_skipRuns_eq_ok {width room needed : Nat} {source : Source} {pos stop : Nat} :
    (skipRuns width room needed).run source pos = .ok () stop ↔
      ∃ names, (readRuns width room needed).run source pos = .ok names stop := by
  induction room generalizing needed pos with
  | zero => cases needed <;> simp [skipRuns, readRuns, run_pure, run_fail]
  | succ room induction =>
    cases needed with
    | zero => simp [skipRuns, readRuns, run_pure]
    | succ needed =>
      simp only [skipRuns, readRuns, run_bind_eq_ok, run_pure_eq_ok, run_skip_eq_ok_iff_word,
        induction]
      constructor
      · rintro ⟨_, middle, ⟨first, named⟩, left, last, counted, names, read⟩
        exact ⟨_, first, middle, named, left, last, counted, names, stop, read, rfl, rfl⟩
      · rintro ⟨_, first, middle, named, left, last, counted, names, _, read, _, rfl⟩
        exact ⟨(), middle, ⟨first, named⟩, left, last, counted, names, read⟩

theorem run_word_zero (source : Source) (pos : Nat) :
    (Reader.word 0).run source pos = .ok 0 pos := by
  rw [run_word, if_neg (Nat.not_lt_zero _)]
  have empty : listed ((⟨pos, pos + 0⟩ : Span).slice source.bytes) = [] := by
    simp [listed_slice, Span.length]
  rw [listed] at empty
  rw [empty]
  rfl

/-- Names that are listed one by one take two bytes each. -/
theorem run_skipRuns_single {needed : Nat} {source : Source} {pos stop : Nat}
    (inside : pos ≤ source.stop) :
    (skipRuns 0 needed needed).run source pos = .ok () stop ↔
      (Reader.skip (2 * needed)).run source pos = .ok () stop := by
  induction needed generalizing pos with
  | zero => simp [skipRuns, run_pure, run_skip]
  | succ needed induction =>
    simp only [skipRuns, run_bind_eq_ok, run_skip_eq_ok, run_word_zero]
    constructor
    · rintro ⟨_, _, ⟨enough, rfl⟩, _, _, same, read⟩
      cases same
      have rest := (induction (by omega)).1 read
      rw [run_skip_eq_ok] at rest
      omega
    · intro ⟨enough, ends⟩
      refine ⟨(), pos + 2, ⟨by omega, rfl⟩, 0, pos + 2, rfl, (induction (by omega)).2 ?_⟩
      rw [run_skip_eq_ok]
      omega

private theorem run_skipNames_eq_ok {start needed : Nat} {format : UInt8} {source : Source}
    {pos stop : Nat} (inside : pos ≤ source.stop) :
    (skipNames start format needed).run source pos = .ok () stop ↔
      ∃ names, (readListed format needed).run source pos = .ok names stop := by
  unfold skipNames readListed
  rw [run_bind, run_position]
  split
  · exact (run_skipRuns_single inside).symm.trans run_skipRuns_eq_ok
  · simp only [run_bind, run_remaining, run_skipRuns_eq_ok]
  · simp only [run_bind, run_remaining, run_skipRuns_eq_ok]
  · simp only
    constructor
    · intro read
      cases read
    · rintro ⟨_, read⟩
      cases read

/-- The extent of a charset is that of the names which it gives to all glyphs of a font. -/
theorem run_skip_iff_readNames {glyphCount : Nat} {source : Source} {pos stop : Nat} :
    (skip glyphCount).run source pos = .ok () stop ↔
      ∃ names, (readNames glyphCount).run source pos = .ok names stop := by
  have whole : skip glyphCount = Reader.position >>= fun start => Reader.u8 >>= fun format =>
      skipNames start format (glyphCount - 1) := rfl
  rw [whole]
  simp only [readNames, run_bind_eq_ok, run_position_eq_ok, run_pure_eq_ok]
  constructor
  · rintro ⟨_, _, ⟨rfl, rfl⟩, format, middle, first, rest⟩
    obtain ⟨holds, rfl⟩ := run_u8_eq_ok.1 first
    obtain ⟨names, read⟩ := (run_skipNames_eq_ok holds.2).1 rest
    exact ⟨_, format, _, first, names, stop, read, rfl, rfl⟩
  · rintro ⟨_, format, middle, first, names, _, read, _, rfl⟩
    obtain ⟨holds, rfl⟩ := run_u8_eq_ok.1 first
    exact ⟨pos, pos, ⟨rfl, rfl⟩, format, _, first, (run_skipNames_eq_ok holds.2).2 ⟨names, read⟩⟩

private theorem spelled_listed_identity {glyphCount : Nat} (small : glyphCount < 0x10000) (pos : Nat) :
    (readListed 2 (glyphCount - 1)).Spelled pos (identity glyphCount).tail
      (List.range' 1 (glyphCount - 1)) := by
  have runs : readListed 2 (glyphCount - 1) = Reader.position >>= fun _ => Reader.remaining >>=
      fun room => readRuns 2 room (glyphCount - 1) := rfl
  rw [runs]
  apply Spelled.bind_nil (.position pos)
  apply Spelled.of_remaining
  intro room enough
  unfold identity at enough ⊢
  split at enough
  · next few =>
    rw [if_pos few, show glyphCount - 1 = 0 by omega, readRuns_zero]
    exact .pure _ []
  · next many =>
    have bound : 4 ≤ room := enough
    have positive : room ≠ 0 := by omega
    obtain ⟨room, rfl⟩ := Nat.exists_eq_succ_of_ne_zero positive
    have value : BigEndian.decode (BigEndian.encode 2 (glyphCount - 2)) = glyphCount - 2 :=
      BigEndian.decode_encode_of_lt (by omega)
    have counted := Spelled.word (pos + 2) (BigEndian.length_encode 2 (glyphCount - 2))
    rw [value] at counted
    rw [if_neg many, show glyphCount - 1 = glyphCount - 2 + 1 by omega, readRuns]
    apply Spelled.bind (.word pos (BigEndian.length_encode 2 1))
    rw [← List.append_nil (BigEndian.encode 2 (glyphCount - 2)), BigEndian.length_encode]
    apply Spelled.bind counted
    rw [Nat.sub_self, readRuns_zero]
    apply Spelled.bind_nil (.pure _ [])
    rw [Nat.min_self, List.append_nil]
    exact .pure _ _

theorem spelled_names_identity {glyphCount : Nat} (small : glyphCount < 0x10000) (pos : Nat) :
    (readNames glyphCount).Spelled pos (identity glyphCount) (List.range glyphCount) := by
  have format : identity glyphCount = 2 :: (identity glyphCount).tail := by
    unfold identity
    split <;> rfl
  have names : (0 :: List.range' 1 (glyphCount - 1)).take glyphCount = List.range glyphCount := by
    cases glyphCount with
    | zero => rfl
    | succ count =>
      rw [List.range_eq_range', List.range'_succ, Nat.add_sub_cancel]
      exact List.take_of_length_le (by simp)
  rw [format, ← names]
  apply Spelled.bind_u8
  exact (spelled_listed_identity small (pos + 1)).map fun listed => (0 :: listed).take glyphCount

theorem run_readNames_of_readAt {bytes : ByteArray} {offset glyphCount : Nat} {charset : Charset}
    (small : glyphCount < 0x10000) (read : readAt bytes offset glyphCount = .ok charset)
    (same : listed (charset.span.slice bytes) = identity glyphCount) :
    (readNames glyphCount).run (.whole bytes) charset.span.start =
      .ok (List.range glyphCount) charset.span.stop := by
  obtain ⟨inside, stop, passed, placed⟩ := readAt_eq_ok.1 read
  obtain ⟨content, holds, ends, _⟩ := local_skip glyphCount _ offset () stop inside passed
  have slice : listed (charset.span.slice bytes) = content := by
    rw [placed, ends]
    exact holds.1.slice_eq
  rw [← slice, same] at holds ends
  rw [placed, ends]
  exact spelled_names_identity small offset _ holds

/-- The charset that gives every glyph its own number ends with its last byte. -/
theorem spelled_identity {glyphCount : Nat} (small : glyphCount < 0x10000) (pos : Nat) :
    (skip glyphCount).Spelled pos (identity glyphCount) () :=
  fun source holds => run_skip_iff_readNames.2 ⟨_, spelled_names_identity small pos source holds⟩

end CompactFont.Charset
