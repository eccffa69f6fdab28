import CompactFont.Proofs.FdSelect.Form
import CompactFont.Proofs.Outcome

/-!
The assignment of glyphs to Font DICTs is decided by the bytes of an FDSelect and the number of
glyphs, so an FDSelect can be moved. One that is read names only Font DICTs that exist.
-/

set_option autoImplicit false

namespace CompactFont.FdSelect

open Reader

theorem local_readAssigned (glyphCount : Nat) : Local (readAssigned glyphCount) := by
  intro source pos assigned stop inside read
  obtain ⟨form, valid, holds, rfl, rfl⟩ := run_readAssigned_eq_ok.1 read
  exact ⟨form.encode, holds, rfl,
    fun pos source holds => run_readAssigned_eq_ok.2 ⟨form, valid, holds, rfl, rfl⟩⟩

/-- The FDSelect of a font with one Font DICT assigns that one to every glyph. -/
theorem spelled_allZero {glyphCount : Nat} (small : glyphCount < 0x10000) (pos : Nat) :
    (readAssigned glyphCount).Spelled pos (allZero glyphCount) (Array.replicate glyphCount 0) := by
  have written : allZero glyphCount = (Form.ranged 0 [⟨glyphCount, 0⟩]).encode := by
    rw [Form.encode, Run.encodeFrom, Nat.zero_add]
    simp only [allZero, Run.encodeFrom, List.length_singleton, List.append_nil, List.append_assoc,
      List.cons_append, List.nil_append]
  have total : Run.total [⟨glyphCount, 0⟩] = glyphCount := Nat.add_zero glyphCount
  have all : (Form.ranged 0 [⟨glyphCount, 0⟩]).assigned glyphCount = List.replicate glyphCount 0 := by
    rw [Form.assigned_ranged_zero total, Run.expand, List.flatMap_singleton]
  have valid : (Form.ranged 0 [⟨glyphCount, 0⟩]).Valid glyphCount := by
    refine ⟨Nat.succ_pos _, Nat.succ_lt_succ (Nat.succ_pos _), fun _ => ?_⟩
    rw [total, Nat.zero_add]
    exact ⟨Nat.le_refl _, small⟩
  intro source holds
  rw [written] at holds ⊢
  refine run_readAssigned_eq_ok.2 ⟨_, valid, holds, ?_, rfl⟩
  rw [all, List.toArray_replicate]

theorem readAt_eq_ok {bytes : ByteArray} {offset glyphCount fontDictCount : Nat}
    {select : FdSelect} :
    readAt bytes offset glyphCount fontDictCount = .ok select ↔
      offset ≤ bytes.size ∧ ∃ stop,
        (readAssigned glyphCount).run (.whole bytes) offset = .ok select.assigned stop ∧
        (∀ index ∈ select.assigned, index.toNat < fontDictCount) ∧ select.span = ⟨offset, stop⟩ := by
  rw [readAt, Reader.readAt_eq_ok]
  refine and_congr_right fun _ => exists_congr fun stop => ?_
  constructor
  · intro read
    obtain ⟨assigned, _, listed, read⟩ := run_bind_eq_ok.1 read
    split at read
    · cases read
    · next present =>
      have known := Option.eq_none_iff_forall_ne_some.2 present
      obtain ⟨_, _, last, read⟩ := run_bind_eq_ok.1 read
      obtain ⟨rfl, rfl⟩ := run_position_eq_ok.1 last
      obtain ⟨rfl, rfl⟩ := run_pure_eq_ok.1 read
      refine ⟨listed, fun index found => ?_, rfl⟩
      have small := Array.find?_eq_none.1 known index found
      simpa using small
  · intro ⟨listed, known, span⟩
    refine run_bind_eq_ok.2 ⟨select.assigned, stop, listed, ?_⟩
    have absent : select.assigned.find? (fontDictCount ≤ ·.toNat) = none := by
      rw [Array.find?_eq_none]
      intro index found
      simpa using known index found
    rw [absent]
    refine run_bind_eq_ok.2 ⟨stop, stop, rfl, ?_⟩
    rw [Ranged.span_eq, pure_bind, ← span]
    rfl

/-- What an FDSelect spans is read as the same assignment wherever it stands. -/
theorem spelled_of_readAt {bytes : ByteArray} {offset glyphCount fontDictCount : Nat}
    {select : FdSelect}
    (read : readAt bytes offset glyphCount fontDictCount = .ok select) (pos : Nat) :
    (readAssigned glyphCount).Spelled pos (listed (select.span.slice bytes)) select.assigned := by
  obtain ⟨inside, stop, assigned, _, span⟩ := readAt_eq_ok.1 read
  obtain ⟨content, holds, rfl, spelled⟩ :=
    local_readAssigned glyphCount _ offset select.assigned stop inside assigned
  have slice : listed ((⟨offset, offset + content.length⟩ : Span).slice bytes) = content :=
    holds.1.slice_eq
  rw [span, slice]
  exact spelled pos

end CompactFont.FdSelect
