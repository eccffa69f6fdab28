import CompactFont.Proofs.Checked.Readers
import CompactFont.Proofs.Table.Bounds

/-!
Checked readers of the structures of a table, and what keeps them from leaving a range: the readers
of an INDEX know at least one offset, and those of charsets and FDSelects never go back.
-/

set_option autoImplicit false

namespace CompactFont

/-! ### INDEXes -/

namespace Index

theorem agree_count {index : Index} {stop : Nat} (some : 0 < index.offsets.size) :
    AgreeOn stop (index.size = ·) index.count index.count := .within some

theorem agree_locate {index : Index} {stop i : Nat} (bound : i < index.size) :
    AgreeOn stop (index.elementSpan i = ·) (index.locate i) (index.locate i) := by
  unfold size at bound
  apply AgreeOn.bind (.within (by omega))
  rintro _ rfl
  apply AgreeOn.bind (.within (by omega))
  rintro _ rfl
  exact .ok rfl

theorem offset_le_of_offsetFault? {width pos last : Nat} {offsets : List Nat} {fault : ReadError}
    (found : offsetFault? width pos last offsets = some fault) :
    fault.offset ≤ pos + offsets.length * width := by
  induction offsets generalizing pos last with
  | nil => cases found
  | cons offset offsets induction =>
    rw [offsetFault?] at found
    split at found
    · cases found
      exact Nat.le_add_right _ _
    split at found
    · cases found
      exact Nat.le_add_right _ _
    · have rest := induction found
      rw [List.length_cons, Nat.succ_mul]
      omega

theorem agree_readElements {source : Source} {pos : Nat} (inside : pos ≤ source.stop)
    (positive : 0 < pos) (start count width : Nat) :
    AgreeAt source pos (fun index _ => 0 < index.offsets.size) (readElements start count width)
      (readElements start count width) := by
  apply AgreeAt.bind (AgreeAt.position inside)
  rintro _ _ _ ⟨rfl, rfl⟩
  apply AgreeAt.bind (AgreeAt.timesOnto (fun pos inside => AgreeAt.offset inside _) inside _ _)
  rintro relative _ listed ⟨length, rfl⟩
  apply AgreeAt.bind (AgreeAt.position listed)
  rintro _ _ _ ⟨rfl, rfl⟩
  apply AgreeAt.bind (AgreeAt.sub listed (by omega))
  rintro _ _ _ ⟨rfl, rfl⟩
  have total : relative.size = count + 1 := by
    rw [length]
    exact Nat.zero_add _
  cases fault : offsetFault? width pos 1 relative.toList with
  | some error =>
    have before := offset_le_of_offsetFault? fault
    rw [Array.length_toList, total] at before
    exact .fail_bind (.thrown (Nat.le_trans before listed)) _ _
  | none =>
    apply AgreeAt.bind (AgreeAt.within listed (by omega))
    rintro _ _ _ ⟨rfl, rfl⟩
    apply AgreeAt.bind (AgreeAt.require listed (by dsimp only; omega))
    rintro _ _ _ ⟨rfl, _, ends⟩
    apply AgreeAt.bind (AgreeAt.seek listed _)
    rintro _ _ sought rfl
    refine .pure sought ?_
    rw [Array.size_map, total]
    exact Nat.succ_pos count

theorem agree_read {source : Source} {pos : Nat} (inside : pos ≤ source.stop) :
    AgreeAt source pos (fun index _ => 0 < index.offsets.size) read read := by
  apply AgreeAt.bind (AgreeAt.position inside)
  rintro _ _ _ ⟨rfl, rfl⟩
  apply AgreeAt.bind (AgreeAt.word inside 2)
  rintro count _ counted ⟨_, rfl⟩
  apply AgreeAt.ite
  · intro _
    apply AgreeAt.bind (AgreeAt.position counted)
    rintro _ _ _ ⟨rfl, rfl⟩
    exact .pure counted Nat.zero_lt_one
  intro _
  apply AgreeAt.bind (AgreeAt.u8 counted)
  rintro size _ sized rfl
  apply AgreeAt.ite
  · intro narrow
    exact agree_readElements sized (Nat.succ_pos _) _ _ _
  · intro _
    exact .fail_bind (.fail sized) _ _

theorem agree_readAt (bytes : ByteArray) (offset : Nat) :
    AgreeOn bytes.size (fun index => index.Inside bytes.size ∧ offset ≤ bytes.size)
      (readAt bytes offset) (readAt bytes offset) := by
  apply AgreeOn.readAt (.whole bytes)
  intro inside
  exact (agree_read inside).imp_run fun _ _ read _ => ⟨inside_of_run_read inside read, inside⟩

end Index

/-! ### DICTs -/

namespace Dict

variable {source : Source} {pos : Nat}

theorem agree_passReal (inside : pos ≤ source.stop) (room : Nat) :
    AgreeAt source pos (fun _ last => pos ≤ last) (passReal room) (passReal room) := by
  induction room generalizing pos with
  | zero => exact .fail inside
  | succ room induction =>
    apply AgreeAt.bind (AgreeAt.u8 inside)
    rintro byte _ next rfl
    apply AgreeAt.ite
    · intro _
      exact .pure next (Nat.le_succ pos)
    · intro _
      exact (induction next).imp fun _ _ later => Nat.le_of_succ_le later

theorem agree_readToken (inside : pos ≤ source.stop) :
    AgreeAt source pos (fun _ last => pos ≤ last) readToken readToken := by
  apply AgreeAt.bind (AgreeAt.u8 inside)
  rintro lead _ next rfl
  apply AgreeAt.ite
  · intro _
    apply AgreeAt.bind (AgreeAt.u8 next)
    rintro _ _ bound rfl
    exact .pure bound (by omega)
  intro _
  apply AgreeAt.ite
  · intro _
    exact .pure next (Nat.le_succ pos)
  intro _
  apply AgreeAt.ite
  · intro _
    apply AgreeAt.bind (AgreeAt.signedWord next 2)
    rintro _ _ bound rfl
    exact .pure bound (by omega)
  intro _
  apply AgreeAt.ite
  · intro _
    apply AgreeAt.bind (AgreeAt.signedWord next 4)
    rintro _ _ bound rfl
    exact .pure bound (by omega)
  intro _
  apply AgreeAt.ite
  · intro _
    apply AgreeAt.bind (AgreeAt.remaining next)
    rintro room _ _ ⟨_, rfl⟩
    apply AgreeAt.bind (agree_passReal next room)
    intro _ last bound later
    exact .pure bound (Nat.le_of_succ_le later)
  intro _
  apply AgreeAt.ite
  · intro _
    apply AgreeAt.bind (AgreeAt.readShort next)
    intro _ last bound later
    exact .pure bound (Nat.le_of_succ_le later)
  · intro _
    apply AgreeAt.bind (AgreeAt.position next)
    rintro _ _ _ ⟨rfl, rfl⟩
    apply AgreeAt.bind (AgreeAt.sub next (Nat.succ_pos pos))
    rintro _ _ _ ⟨rfl, rfl⟩
    exact .failAt inside

theorem agree_readEntryFrom (inside : pos ≤ source.stop) (start room : Nat)
    (operands : Array Operand) :
    AgreeAt source pos (fun _ _ => True) (readEntryFrom start room operands)
      (readEntryFrom start room operands) := by
  induction room generalizing pos operands with
  | zero => exact .fail inside
  | succ room induction =>
    apply AgreeAt.bind (agree_readToken inside)
    intro token last bound _
    cases token with
    | operand operand => exact induction bound _
    | operator operator =>
      apply AgreeAt.bind (AgreeAt.position bound)
      rintro _ _ _ ⟨rfl, rfl⟩
      exact .pure bound trivial

theorem agree_readEntry (inside : pos ≤ source.stop) :
    AgreeAt source pos (fun _ _ => True) readEntry readEntry := by
  apply AgreeAt.bind (AgreeAt.position inside)
  rintro _ _ _ ⟨rfl, rfl⟩
  apply AgreeAt.bind (AgreeAt.remaining inside)
  rintro room _ _ ⟨_, rfl⟩
  exact agree_readEntryFrom inside _ _ _

theorem agree_readEntriesOnto (inside : pos ≤ source.stop) (room : Nat) (found : Array Entry) :
    AgreeAt source pos (fun _ _ => True) (readEntriesOnto room found)
      (readEntriesOnto room found) := by
  induction room generalizing pos found with
  | zero => exact .pure inside trivial
  | succ room induction =>
    apply AgreeAt.bind (AgreeAt.atEnd inside)
    rintro ended _ _ rfl
    apply AgreeAt.ite
    · intro _
      exact .pure inside trivial
    · intro _
      apply AgreeAt.bind (agree_readEntry inside)
      intro entry last bound _
      exact induction bound _

theorem agree_readSpan (bytes : ByteArray) (span : Span) :
    AgreeOn bytes.size
      (fun entries => span.Inside bytes.size ∧ ∀ entry ∈ entries, entry.span.Inside bytes.size)
      (readSpan bytes span) (readSpan bytes span) := by
  have agree : AgreeOn bytes.size (fun _ => True) (readSpan bytes span)
      (readSpan bytes span) := by
    unfold readSpan
    by_cases inside : span.stop ≤ bytes.size
    · rw [dif_pos inside, dif_pos inside]
      have agree : AgreeOn span.stop (fun _ => True)
          (readEntries.readAt ⟨bytes, span.stop, inside⟩ span.start)
          (readEntries.readAt ⟨bytes, span.stop, inside⟩ span.start) := by
        apply AgreeOn.readAt ⟨bytes, span.stop, inside⟩
        intro ordered
        apply AgreeAt.bind (AgreeAt.remaining ordered)
        rintro room _ _ ⟨_, rfl⟩
        exact agree_readEntriesOnto ordered room #[]
      exact agree.widen inside
    · rw [dif_neg inside, dif_neg inside]
      exact .error (Nat.zero_le _)
  exact (agree.and_ok fun _ read => inside_of_readSpan read).imp fun _ known => known.2

end Dict

/-! ### Charsets -/

namespace Charset

variable {source : Source} {pos : Nat}

theorem agree_skipRuns (inside : pos ≤ source.stop) (width room needed : Nat) :
    AgreeAt source pos (fun _ last => pos ≤ last) (skipRuns width room needed)
      (skipRuns width room needed) := by
  induction room generalizing pos needed with
  | zero =>
    cases needed with
    | zero => exact .pure inside (Nat.le_refl pos)
    | succ needed => exact .fail inside
  | succ room induction =>
    cases needed with
    | zero => exact .pure inside (Nat.le_refl pos)
    | succ needed =>
      apply AgreeAt.bind (AgreeAt.skip inside 2)
      rintro _ _ first rfl
      apply AgreeAt.bind (AgreeAt.word first width)
      rintro left _ second ⟨_, rfl⟩
      exact (induction second _).imp fun _ _ later => by omega

theorem agree_skipNames (inside : pos ≤ source.stop) {start : Nat} (starts : start ≤ source.stop)
    (format : UInt8) (needed : Nat) :
    AgreeAt source pos (fun _ last => pos ≤ last) (skipNames start format needed)
      (skipNames start format needed) := by
  unfold skipNames
  split
  · exact (AgreeAt.skip inside _).imp fun _ _ ends => by omega
  · apply AgreeAt.bind (AgreeAt.remaining inside)
    rintro room _ _ ⟨_, rfl⟩
    exact agree_skipRuns inside 1 room needed
  · apply AgreeAt.bind (AgreeAt.remaining inside)
    rintro room _ _ ⟨_, rfl⟩
    exact agree_skipRuns inside 2 room needed
  · exact .failAt starts

theorem agree_skip (inside : pos ≤ source.stop) (glyphCount : Nat) :
    AgreeAt source pos (fun _ last => pos ≤ last) (skip glyphCount) (skip glyphCount) := by
  apply AgreeAt.bind (AgreeAt.position inside)
  rintro _ _ _ ⟨rfl, rfl⟩
  apply AgreeAt.bind (AgreeAt.u8 inside)
  rintro format _ next rfl
  exact (agree_skipNames next inside format _).imp fun _ _ later => Nat.le_of_succ_le later

theorem agree_readAt (bytes : ByteArray) (offset glyphCount : Nat) :
    AgreeOn bytes.size (fun charset => charset.span.Inside bytes.size)
      (readAt bytes offset glyphCount) (readAt bytes offset glyphCount) := by
  apply AgreeOn.readAt (.whole bytes)
  intro inside
  apply AgreeAt.bind (agree_skip inside glyphCount)
  intro _ last bound later
  apply AgreeAt.bind (AgreeAt.position bound)
  rintro _ _ _ ⟨rfl, rfl⟩
  apply AgreeAt.bind (AgreeAt.within bound later)
  rintro _ _ _ ⟨rfl, rfl⟩
  exact .pure bound ⟨later, bound⟩

end Charset

/-! ### FDSelects -/

namespace FdSelect

variable {source : Source} {pos : Nat}

/-- The glyphs below `first` are assigned, as far as the font has them. -/
theorem agree_readRanges (inside : pos ≤ source.stop) {glyphCount first : Nat}
    {assigned : Array UInt8} (count : Nat) (size : assigned.size = min first glyphCount) :
    AgreeAt source pos (fun all last => all.size ≤ glyphCount ∧ pos ≤ last)
      (readRanges glyphCount count first assigned)
      (readRanges glyphCount count first assigned) := by
  induction count generalizing pos first assigned with
  | zero => exact .pure inside ⟨by omega, Nat.le_refl pos⟩
  | succ count induction =>
    apply AgreeAt.bind (AgreeAt.u8 inside)
    rintro index _ bound rfl
    apply AgreeAt.bind (AgreeAt.word bound 2)
    rintro next _ second ⟨_, rfl⟩
    apply AgreeAt.ite
    · intro _
      exact .fail_bind (.fail second) _ _
    · intro ordered
      apply AgreeAt.bind (AgreeAt.within second (by omega))
      rintro _ _ _ ⟨rfl, rfl⟩
      have longer : (extend assigned (next - first) index).size = min next glyphCount := by
        rw [extend, Array.size_append, Array.size_replicate, size]
        omega
      exact (induction second longer).imp fun _ _ known => ⟨known.1, by omega⟩

theorem agree_readAssigned (inside : pos ≤ source.stop) (glyphCount : Nat) :
    AgreeAt source pos (fun assigned last => assigned.size = glyphCount ∧ pos ≤ last)
      (readAssigned glyphCount) (readAssigned glyphCount) := by
  apply AgreeAt.bind (AgreeAt.position inside)
  rintro _ _ _ ⟨rfl, rfl⟩
  apply AgreeAt.bind (AgreeAt.u8 inside)
  rintro format _ next rfl
  split
  · apply AgreeAt.bind (AgreeAt.position next)
    rintro _ _ _ ⟨rfl, rfl⟩
    apply AgreeAt.bind (AgreeAt.slice next next)
    rintro listed _ _ ⟨size, rfl⟩
    apply AgreeAt.bind (AgreeAt.skip next glyphCount)
    rintro _ _ bound rfl
    refine .pure bound ⟨?_, by omega⟩
    exact size.trans (Nat.add_sub_cancel_left _ _)
  · apply AgreeAt.bind (AgreeAt.word next 2)
    rintro count _ counted ⟨_, rfl⟩
    apply AgreeAt.bind (AgreeAt.word counted 2)
    rintro first _ started ⟨_, rfl⟩
    apply AgreeAt.bind (agree_readRanges started count (Array.size_replicate ..))
    rintro assigned last bound ⟨few, later⟩
    apply AgreeAt.bind (AgreeAt.sub bound few)
    rintro _ _ _ ⟨rfl, rfl⟩
    refine .pure bound ⟨?_, by omega⟩
    rw [extend, Array.size_append, Array.size_replicate]
    omega
  · exact .failAt inside

theorem agree_readAt (bytes : ByteArray) (offset glyphCount fontDictCount : Nat) :
    AgreeOn bytes.size (fun select => select.Inside glyphCount fontDictCount bytes.size)
      (readAt bytes offset glyphCount fontDictCount)
      (readAt bytes offset glyphCount fontDictCount) := by
  apply AgreeOn.readAt (.whole bytes)
  intro inside
  apply AgreeAt.bind (agree_readAssigned inside glyphCount)
  rintro assigned last bound ⟨size, later⟩
  cases unknown : assigned.find? (fontDictCount ≤ ·.toNat) with
  | some index => exact .fail_bind (.failAt inside) _ _
  | none =>
    apply AgreeAt.bind (AgreeAt.position bound)
    rintro _ _ _ ⟨rfl, rfl⟩
    apply AgreeAt.bind (AgreeAt.within bound later)
    rintro _ _ _ ⟨rfl, rfl⟩
    refine .pure bound ⟨⟨later, bound⟩, size, fun index found => ?_⟩
    have small := Array.find?_eq_none.1 unknown index found
    simpa using small

end FdSelect
end CompactFont
