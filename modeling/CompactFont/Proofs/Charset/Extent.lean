import CompactFont.Proofs.Charset
import CompactFont.Proofs.Index.Acceptance
import Mathlib.Order.Bounds.Basic

/-!
The extent of a charset, in terms of the numbers at its positions: it ends after the first run by which
all glyphs are named. Its bytes are a charset of the same extent wherever they stand, and none of their
proper prefixes is one.
-/

set_option autoImplicit false

namespace CompactFont.Charset

open Reader

/-! ### Runs -/

def coverAt (bytes : ByteArray) (width pos i : Nat) : Nat :=
  wordAt bytes (pos + i * (2 + width) + 2) width + 1

def covered (bytes : ByteArray) (width pos count : Nat) : Nat :=
  ((List.range count).map (coverAt bytes width pos)).sum

variable {bytes : ByteArray} {width pos needed : Nat}

theorem covered_succ (bytes : ByteArray) (width pos count : Nat) :
    covered bytes width pos (count + 1) =
      coverAt bytes width pos 0 + covered bytes width (pos + (2 + width)) count := by
  have shifted : coverAt bytes width pos ∘ Nat.succ = coverAt bytes width (pos + (2 + width)) := by
    funext i
    have place : pos + (i + 1) * (2 + width) = pos + (2 + width) + i * (2 + width) := by
      rw [Nat.succ_mul]
      omega
    simp only [Function.comp_apply, coverAt, Nat.succ_eq_add_one, place]
  rw [covered, List.range_succ_eq_map, List.map_cons, List.map_map, List.sum_cons, shifted, covered]

/-- One run more covers enough if the others do for what the first one leaves. -/
theorem isLeast_covered_succ {count : Nat}
    (least : IsLeast {k | needed - wordAt bytes (pos + 2) width ≤
      covered bytes width (pos + (2 + width)) k} count) :
    IsLeast {k | needed + 1 ≤ covered bytes width pos k} (count + 1) := by
  obtain ⟨enough, fewest⟩ := least
  have first : coverAt bytes width pos 0 = wordAt bytes (pos + 2) width + 1 := by
    rw [coverAt, Nat.zero_mul, Nat.add_zero]
  constructor
  · change needed + 1 ≤ covered bytes width pos (count + 1)
    change _ ≤ covered bytes width (pos + (2 + width)) count at enough
    rw [covered_succ, first]
    omega
  · intro k covers
    change needed + 1 ≤ covered bytes width pos k at covers
    cases k with
    | zero => cases covers
    | succ k =>
      rw [covered_succ, first] at covers
      have rest : needed - wordAt bytes (pos + 2) width ≤
          covered bytes width (pos + (2 + width)) k := by omega
      exact Nat.succ_le_succ (fewest rest)

/-- Runs are passed over up to the first one by which they cover enough glyphs. -/
theorem stop_of_run_skipRuns {room stop : Nat} (inside : pos ≤ bytes.size)
    (read : (skipRuns width room needed).run (.whole bytes) pos = .ok () stop) :
    ∃ count, IsLeast {k | needed ≤ covered bytes width pos k} count ∧
      stop = pos + count * (2 + width) := by
  induction room generalizing needed pos with
  | zero =>
    cases needed with
    | zero =>
      cases read
      exact ⟨0, ⟨Nat.zero_le _, fun _ _ => Nat.zero_le _⟩, by omega⟩
    | succ needed => cases read
  | succ room induction =>
    cases needed with
    | zero =>
      cases read
      exact ⟨0, ⟨Nat.zero_le _, fun _ _ => Nat.zero_le _⟩, by omega⟩
    | succ needed =>
      obtain ⟨_, _, named, read⟩ := run_bind_eq_ok.1 read
      obtain ⟨enough, rfl⟩ := run_skip_eq_ok.1 named
      obtain ⟨left, _, counted, read⟩ := run_bind_eq_ok.1 read
      have named : pos + 2 ≤ bytes.size := by
        change 2 ≤ bytes.size - pos at enough
        omega
      obtain ⟨fits, holds, rfl⟩ := (run_word_eq_ok named).1 counted
      have within := holds.2
      rw [BigEndian.length_encode] at within
      obtain ⟨count, least, rfl⟩ := induction within read
      rw [← wordAt_of_holds fits holds.1, Nat.add_assoc] at least
      refine ⟨count + 1, isLeast_covered_succ least, ?_⟩
      rw [Nat.succ_mul]
      omega

/-! ### Charsets -/

def formatAt (bytes : ByteArray) (pos : Nat) : Nat := wordAt bytes pos 1

/-- In format 0, the names of all glyphs but the first one are listed; in the formats 1 and 2, as many
runs as it takes to cover these glyphs, with counts of one byte and of two bytes. -/
def EndsAt (bytes : ByteArray) (pos glyphCount stop : Nat) : Prop :=
  (formatAt bytes pos = 0 ∧ stop = pos + (1 + 2 * (glyphCount - 1))) ∨
    ∃ width count, (width = 1 ∨ width = 2) ∧ formatAt bytes pos = width ∧
      IsLeast {k | glyphCount - 1 ≤ covered bytes width (pos + 1) k} count ∧
      stop = pos + (1 + count * (2 + width))

theorem endsAt_of_run_skip {glyphCount stop : Nat}
    (read : (skip glyphCount).run (.whole bytes) pos = .ok () stop) :
    EndsAt bytes pos glyphCount stop := by
  obtain ⟨_, _, placed, read⟩ := run_bind_eq_ok.1 read
  obtain ⟨rfl, rfl⟩ := run_position_eq_ok.1 placed
  obtain ⟨format, _, first, read⟩ := run_bind_eq_ok.1 read
  obtain ⟨holds, rfl⟩ := run_u8_eq_ok.1 first
  have said : formatAt bytes pos = format.toNat := wordAt_byte holds.1 Nat.one_pos
  have runs : ∀ width stop, (Reader.remaining >>= fun room => skipRuns width room (glyphCount - 1)).run
      (.whole bytes) (pos + 1) = .ok () stop →
      ∃ count, IsLeast {k | glyphCount - 1 ≤ covered bytes width (pos + 1) k} count ∧
        stop = pos + (1 + count * (2 + width)) := by
    intro width stop read
    rw [run_bind, run_remaining] at read
    obtain ⟨count, least, ends⟩ := stop_of_run_skipRuns holds.2 read
    exact ⟨count, least, by rw [ends, List.length_singleton, Nat.add_assoc]⟩
  unfold skipNames at read
  split at read
  · obtain ⟨_, rfl⟩ := run_skip_eq_ok.1 read
    exact .inl ⟨said, Nat.add_assoc _ _ _⟩
  · obtain ⟨count, least, ends⟩ := runs 1 _ read
    exact .inr ⟨1, count, .inl rfl, said, least, ends⟩
  · obtain ⟨count, least, ends⟩ := runs 2 _ read
    exact .inr ⟨2, count, .inr rfl, said, least, ends⟩
  · cases read

/-- What is read at a position ends with the listed names of all glyphs but the first one, or with the
first run by which these are covered. Copied to any other place it is read with the same length, and
none of its proper prefixes is accepted if nothing follows. -/
theorem extent_exact {bytes : ByteArray} {offset glyphCount : Nat} {charset : Charset}
    (read : readAt bytes offset glyphCount = .ok charset) :
    charset.span.start = offset ∧ charset.span.stop ≤ bytes.size ∧
      EndsAt bytes offset glyphCount charset.span.stop ∧
      (∀ before after : ByteArray,
        readAt (before ++ charset.span.slice bytes ++ after) before.size glyphCount =
          .ok ⟨⟨before.size, before.size + charset.span.length⟩⟩) ∧
      ∀ front rest : ByteArray, front ++ rest = charset.span.slice bytes → rest.size ≠ 0 →
        ∀ other, readAt front 0 glyphCount ≠ .ok other := by
  have spelled := spelled_of_readAt read
  obtain ⟨inside, stop, passed, rfl⟩ := readAt_eq_ok.1 read
  obtain ⟨content, holds, rfl, -⟩ := local_skip glyphCount _ offset () stop inside passed
  have within : offset + content.length ≤ bytes.size := holds.2
  refine ⟨rfl, within, endsAt_of_run_skip passed, ?_, ?_⟩
  · intro before after
    have placed := Holds.of_append before (Span.slice ⟨offset, offset + content.length⟩ bytes) after
    have bound := placed.le_size
    have length : (listed (Span.slice ⟨offset, offset + content.length⟩ bytes)).length =
        (⟨offset, offset + content.length⟩ : Span).length := by
      rw [length_listed, Span.size_slice_of_le within]
    refine readAt_eq_ok.2 ⟨Nat.le_trans (Nat.le_add_right _ _) bound, _,
      spelled before.size _ placed.whole, ?_⟩
    rw [length]
  · intro front rest split more other early
    obtain ⟨_, last, short, _⟩ := readAt_eq_ok.1 early
    have whole := spelled 0
    rw [← split, listed_append] at whole
    rw [← toByteArray_listed front] at short
    exact (local_skip glyphCount).run_prefix_ne_ok whole
      (fun none => more (List.length_eq_zero_iff.2 none)) short

/-- After another byte, two runs of which the second one reaches past the last of seven glyphs, and more
bytes after it. -/
def overlongCharset : ByteArray := ⟨#[9, 1, 0, 5, 3, 0, 9, 7, 1, 1, 1]⟩

theorem extent_exact_overlongCharset :
    ∃ charset, readAt overlongCharset 1 7 = .ok charset ∧ charset.span = ⟨1, 8⟩ ∧
      IsLeast {k | 6 ≤ covered overlongCharset 1 2 k} 2 ∧
      readAt (⟨#[7, 7]⟩ ++ charset.span.slice overlongCharset ++ ⟨#[8]⟩) 2 7 =
        .ok ⟨⟨2, 2 + charset.span.length⟩⟩ ∧
      ∀ other, readAt ⟨#[1, 0, 5, 3, 0, 9]⟩ 0 7 ≠ .ok other := by
  obtain ⟨charset, read, span, split⟩ : ∃ charset, readAt overlongCharset 1 7 = .ok charset ∧
      charset.span = ⟨1, 8⟩ ∧
      ⟨#[1, 0, 5, 3, 0, 9]⟩ ++ ⟨#[7]⟩ = charset.span.slice overlongCharset := by decide +kernel
  obtain ⟨_, _, ends, copied, rejected⟩ := extent_exact read
  refine ⟨charset, read, span, ?_, copied ⟨#[7, 7]⟩ ⟨#[8]⟩, rejected _ _ split (by decide)⟩
  have format : formatAt overlongCharset 1 = 1 := by decide +kernel
  obtain ⟨listed, _⟩ | ⟨width, count, _, said, least, stop⟩ := ends
  · exact absurd (format.symm.trans listed) (by decide)
  · rw [← format.symm.trans said, span] at stop
    rw [← format.symm.trans said] at least
    change 8 = _ at stop
    rwa [show count = 2 by omega] at least

end CompactFont.Charset
