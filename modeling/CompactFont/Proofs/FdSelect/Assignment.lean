import CompactFont.Proofs.FdSelect
import CompactFont.Proofs.Index.Acceptance

/-!
What an FDSelect says, in terms of the numbers at its positions: the Font DICT that is listed for a
glyph, or the one of the range that the glyph lies in. Every assignment of glyphs can be written in
both formats, in the second one with any division into runs, and is read back from either.
-/

set_option autoImplicit false

namespace CompactFont.FdSelect

/-! ### The fields -/

def formatAt (bytes : ByteArray) (pos : Nat) : Nat := wordAt bytes pos 1

def listedAt (bytes : ByteArray) (pos glyph : Nat) : Nat := wordAt bytes (pos + 1 + glyph) 1

def rangeCountAt (bytes : ByteArray) (pos : Nat) : Nat := wordAt bytes (pos + 1) 2

/-- The first glyph of a range; for the number after that of the last range, the glyph after all
ranges. -/
def firstAt (bytes : ByteArray) (pos i : Nat) : Nat := wordAt bytes (pos + 3 + 3 * i) 2

def rangeDictAt (bytes : ByteArray) (pos i : Nat) : Nat := wordAt bytes (pos + 5 + 3 * i) 1

/-- The FDSelect says what is listed at a position. -/
structure ListedAs (select : FdSelect) (bytes : ByteArray) (pos glyphCount : Nat) : Prop where
  format : formatAt bytes pos = 0
  span : select.span = ⟨pos, pos + (1 + glyphCount)⟩
  fontDict : ∀ glyph < glyphCount, select.fontDict glyph = listedAt bytes pos glyph

/-- The FDSelect says what ranges at a position do. -/
structure RangedAs (select : FdSelect) (bytes : ByteArray) (pos glyphCount : Nat) : Prop where
  format : formatAt bytes pos = 3
  span : select.span = ⟨pos, pos + (5 + 3 * rangeCountAt bytes pos)⟩
  ascending : ∀ i < rangeCountAt bytes pos, firstAt bytes pos i ≤ firstAt bytes pos (i + 1)
  within : ∀ i < rangeCountAt bytes pos, firstAt bytes pos (i + 1) ≤ glyphCount
  fontDict : ∀ i < rangeCountAt bytes pos, ∀ glyph, firstAt bytes pos i ≤ glyph →
    glyph < firstAt bytes pos (i + 1) → select.fontDict glyph = rangeDictAt bytes pos i
  before : ∀ glyph < firstAt bytes pos 0, select.fontDict glyph = 0
  after : ∀ glyph, firstAt bytes pos (rangeCountAt bytes pos) ≤ glyph → select.fontDict glyph = 0

section

variable {bytes : ByteArray} {pos glyphCount first i : Nat} {runs : List Run}

theorem words_of_holds_encodeFrom (small : first + Run.total runs < 0x10000)
    (holds : Holds bytes pos (Run.encodeFrom first runs)) (inside : i < runs.length) :
    wordAt bytes (pos + 3 * i) 1 = runs[i].index.toNat ∧
      wordAt bytes (pos + 3 * i + 1) 2 = first + Run.total (runs.take (i + 1)) := by
  have last := Run.total_take_succ inside
  have bound := Run.total_take_le (i + 1) runs
  rw [← List.take_append_drop i runs, List.drop_eq_getElem_cons inside, Run.encodeFrom_append,
    Run.encodeFrom] at holds
  have own := holds.right
  rw [Run.length_encodeFrom, List.length_take, Nat.min_eq_left (Nat.le_of_lt inside)] at own
  constructor
  · exact wordAt_byte own (Nat.succ_pos _)
  · rw [← List.singleton_append] at own
    rw [last, ← Nat.add_assoc]
    exact wordAt_of_holds (by omega) own.right.left

theorem rangeCountAt_eq (valid : (Form.ranged first runs).Valid glyphCount)
    (holds : Holds bytes pos (Form.ranged first runs).encode) :
    rangeCountAt bytes pos = runs.length :=
  wordAt_of_holds valid.2.1 (Form.holds_fields holds.whole.tail).1.1

theorem firstAt_eq (valid : (Form.ranged first runs).Valid glyphCount)
    (holds : Holds bytes pos (Form.ranged first runs).encode) (inside : i ≤ runs.length) :
    firstAt bytes pos i = first + Run.total (runs.take i) := by
  obtain ⟨small, few, fit⟩ := valid
  obtain ⟨_, holdsFirst, holdsRanges⟩ := Form.holds_fields holds.whole.tail
  cases i with
  | zero => exact wordAt_of_holds small holdsFirst.1
  | succ i =>
    have fits := (fit (List.ne_nil_of_length_pos (by omega))).2
    rw [← (words_of_holds_encodeFrom fits holdsRanges.1 inside).2, firstAt]
    congr 1
    omega

theorem rangeDictAt_eq (valid : (Form.ranged first runs).Valid glyphCount)
    (holds : Holds bytes pos (Form.ranged first runs).encode) (inside : i < runs.length) :
    rangeDictAt bytes pos i = runs[i].index.toNat := by
  obtain ⟨small, few, fit⟩ := valid
  have fits := (fit (List.ne_nil_of_length_pos (by omega))).2
  exact (words_of_holds_encodeFrom fits (Form.holds_fields holds.whole.tail).2.2.1 inside).1

end

/-! ### What is read -/

section

variable {bytes : ByteArray} {pos glyphCount : Nat} {select : FdSelect}

theorem fontDict_eq {content : List UInt8} (same : select.assigned = content.toArray) (glyph : Nat) :
    select.fontDict glyph = (content.getD glyph 0).toNat := by
  rw [fontDict, same, Array.getD_eq_getD_getElem?, List.getElem?_toArray, List.getD_eq_getElem?_getD]

theorem listedAs_of_holds {indices : List UInt8} (holds : Holds bytes pos (Form.listed indices).encode)
    (same : select.assigned = indices.toArray)
    (span : select.span = ⟨pos, pos + (Form.listed indices).encode.length⟩) :
    select.ListedAs bytes pos indices.length where
  format := wordAt_byte holds (Nat.succ_pos _)
  span := by rw [span, Form.encode, List.length_cons, Nat.add_comm 1]
  fontDict glyph inside := by
    rw [fontDict_eq same, List.getD_eq_getElem _ _ inside, listedAt]
    rw [Form.encode, ← List.singleton_append] at holds
    exact (wordAt_byte holds.right inside).symm

theorem rangedAs_of_holds {first : Nat} {runs : List Run}
    (valid : (Form.ranged first runs).Valid glyphCount)
    (holds : Holds bytes pos (Form.ranged first runs).encode)
    (same : select.assigned = ((Form.ranged first runs).assigned glyphCount).toArray)
    (span : select.span = ⟨pos, pos + (Form.ranged first runs).encode.length⟩) :
    select.RangedAs bytes pos glyphCount := by
  have count := rangeCountAt_eq valid holds
  have starts : ∀ i ≤ runs.length, firstAt bytes pos i = first + Run.total (runs.take i) :=
    fun i inside => firstAt_eq valid holds inside
  have found : ∀ glyph, select.fontDict glyph =
      (if first ≤ glyph then (Run.expand runs).getD (glyph - first) 0 else 0).toNat := by
    intro glyph
    rw [fontDict_eq same, Form.getD_assigned_ranged valid.2.2]
  constructor
  · exact wordAt_byte holds (Nat.succ_pos _)
  · rw [span, Form.length_encode_ranged, count]
  · intro i inside
    rw [count] at inside
    rw [starts i (by omega), starts (i + 1) inside, Run.total_take_succ inside]
    omega
  · intro i inside
    rw [count] at inside
    have bound := Run.total_take_le (i + 1) runs
    have fits := (valid.2.2 (List.ne_nil_of_length_pos (by omega))).1
    rw [starts (i + 1) inside]
    omega
  · intro i inside glyph lower upper
    rw [count] at inside
    rw [starts i (by omega)] at lower
    rw [starts (i + 1) inside] at upper
    rw [found, if_pos (by omega), rangeDictAt_eq valid holds inside,
      Run.getD_expand inside (by omega) (by omega)]
  · intro glyph early
    rw [starts 0 (Nat.zero_le _), List.take_zero] at early
    rw [found, if_neg (by change glyph < first at early; omega)]
    rfl
  · intro glyph late
    rw [count, starts _ (Nat.le_refl _), List.take_length] at late
    rw [found, if_pos (by omega), List.getD_eq_default _ _ (by rw [Run.length_expand]; omega)]
    rfl

end

/-- A form is read wherever it stands if it names only Font DICTs that exist. -/
theorem readAt_encode {form : Form} {glyphCount fontDictCount : Nat} (valid : form.Valid glyphCount)
    (known : ∀ index ∈ form.assigned glyphCount, index.toNat < fontDictCount)
    (before after : ByteArray) :
    readAt (before ++ form.encode.toByteArray ++ after) before.size glyphCount fontDictCount =
      .ok ⟨⟨before.size, before.size + form.encode.length⟩, (form.assigned glyphCount).toArray⟩ := by
  have holds := Holds.of_append before form.encode.toByteArray after
  rw [listed_toByteArray] at holds
  have bound := holds.le_size
  refine readAt_eq_ok.2 ⟨by omega, _, run_readAssigned_eq_ok.2 ⟨form, valid, holds.whole, rfl, rfl⟩,
    ?_, rfl⟩
  intro index found
  exact known index (List.mem_toArray.1 found)

/-- What is read at a position assigns to every glyph a Font DICT that exists: the one that is listed
for it, or that of the range that it lies in, and Font DICT 0 outside of all ranges. Every assignment
that is written with the Font DICTs of all glyphs, or with any runs that they divide into, is read back
from wherever it stands. -/
theorem assignment_exact :
    (∀ bytes offset glyphCount fontDictCount select,
      readAt bytes offset glyphCount fontDictCount = .ok select →
      select.span.stop ≤ bytes.size ∧
      (∀ glyph < glyphCount, select.fontDict glyph < fontDictCount) ∧
      (∀ glyph, glyphCount ≤ glyph → select.fontDict glyph = 0) ∧
      (select.ListedAs bytes offset glyphCount ∨ select.RangedAs bytes offset glyphCount)) ∧
    ∀ (indices : List UInt8) (fontDictCount : Nat) (runs : List Run) (before after : ByteArray),
      indices.length < 0x10000 → (∀ index ∈ indices, index.toNat < fontDictCount) →
      Run.expand runs = indices → runs.length < 0x10000 →
      ∃ one two,
        readAt (before ++ (Form.listed indices).encode.toByteArray ++ after) before.size
          indices.length fontDictCount = .ok one ∧
        readAt (before ++ (Form.ranged 0 runs).encode.toByteArray ++ after) before.size
          indices.length fontDictCount = .ok two ∧
        ∀ glyph, one.fontDict glyph = (indices.getD glyph 0).toNat ∧
          two.fontDict glyph = (indices.getD glyph 0).toNat := by
  constructor
  · intro bytes offset glyphCount fontDictCount select read
    obtain ⟨_, stop, reading, known, span⟩ := readAt_eq_ok.1 read
    obtain ⟨form, valid, holds, same, rfl⟩ := run_readAssigned_eq_ok.1 reading
    have length := Form.length_assigned valid
    refine ⟨by rw [span]; exact holds.2, ?_, ?_, ?_⟩
    · intro glyph inside
      rw [fontDict_eq same, List.getD_eq_getElem _ _ (by rwa [length])]
      refine known _ ?_
      rw [same]
      exact List.mem_toArray.2 (List.getElem_mem _)
    · intro glyph outside
      rw [fontDict_eq same, List.getD_eq_default _ _ (by rwa [length])]
      rfl
    · cases form with
      | listed indices =>
        refine .inl ?_
        rw [← show indices.length = glyphCount from valid]
        exact listedAs_of_holds holds.1 same span
      | ranged first runs => exact .inr (rangedAs_of_holds valid holds.1 same span)
  · intro indices fontDictCount runs before after small known divided few
    have total : Run.total runs = indices.length := by rw [← divided, Run.length_expand]
    have all : (Form.ranged 0 runs).assigned indices.length = indices := by
      rw [Form.assigned_ranged_zero total, divided]
    have valid : (Form.ranged 0 runs).Valid indices.length :=
      ⟨Nat.succ_pos _, few, fun _ => by rw [total]; omega⟩
    have each : (Form.listed indices).Valid indices.length := rfl
    refine ⟨_, _, readAt_encode each known before after,
      readAt_encode valid (by rwa [all]) before after, fun glyph => ⟨fontDict_eq rfl glyph, ?_⟩⟩
    rw [← congrArg (List.getD · glyph 0) all]
    exact fontDict_eq rfl glyph

/-- After another byte, ranges of which the second one is empty; they leave out both the first glyph and
the last one of four. -/
def gapSelect : ByteArray := ⟨#[0xFF, 3, 0, 2, 0, 1, 1, 0, 3, 9, 0, 3]⟩

theorem assignment_exact_gapSelect :
    (∃ select, readAt gapSelect 1 4 2 = .ok select ∧ select.RangedAs gapSelect 1 4 ∧
      select.fontDict 0 = 0 ∧ select.fontDict 2 = 1 ∧ select.fontDict 3 = 0) ∧
    ∃ one two,
      readAt (⟨#[7]⟩ ++ (Form.listed [1, 1, 0]).encode.toByteArray ++ ⟨#[8]⟩) 1 3 2 = .ok one ∧
      readAt (⟨#[7]⟩ ++ (Form.ranged 0 [⟨2, 1⟩, ⟨0, 9⟩, ⟨1, 0⟩]).encode.toByteArray ++ ⟨#[8]⟩) 1 3 2 =
        .ok two ∧
      one.fontDict 1 = 1 ∧ two.fontDict 1 = 1 := by
  obtain ⟨meaning, both⟩ := assignment_exact
  constructor
  · obtain ⟨select, read, first, middle, last⟩ : ∃ select, readAt gapSelect 1 4 2 = .ok select ∧
        select.fontDict 0 = 0 ∧ select.fontDict 2 = 1 ∧ select.fontDict 3 = 0 := by decide +kernel
    obtain ⟨_, _, _, forms⟩ := meaning _ _ _ _ _ read
    have format : formatAt gapSelect 1 = 3 := by decide +kernel
    have ranged := forms.resolve_left fun listed => absurd (format.symm.trans listed.format) (by decide)
    exact ⟨select, read, ranged, first, middle, last⟩
  · have known : ∀ index ∈ [(1 : UInt8), 1, 0], index.toNat < 2 := by decide +kernel
    obtain ⟨one, two, readOne, readTwo, same⟩ :=
      both _ 2 [⟨2, 1⟩, ⟨0, 9⟩, ⟨1, 0⟩] ⟨#[7]⟩ ⟨#[8]⟩ (by decide) known rfl (by decide)
    exact ⟨one, two, readOne, readTwo, (same 1).1, (same 1).2⟩

end CompactFont.FdSelect
