import CompactFont.Proofs.Outcome
import CompactFont.Subset.Bytes

/-!
When subsetting completes. A font of the table is chosen, a name-keyed one only if the strings that
it needs fit, and the subset of that font is written.
-/

set_option autoImplicit false

namespace CompactFont

variable {table : Table} {fontIndex : Nat} {wanted : GlyphSet} {subset : Subset} {out : ByteArray}

theorem Subset.select_eq_ok :
    Subset.select table fontIndex wanted = .ok subset ↔
      ∃ font, table.fonts[fontIndex]? = some font ∧
        (font.isCid = false → table.strings.size + addedStringCount ≤ maxStringCount) ∧
        subset = ofFont table font wanted := by
  unfold select
  cases table.fonts[fontIndex]? with
  | none => simp only [reduceCtorEq, false_and, exists_false]
  | some font =>
    simp only [Option.some.injEq, exists_eq_left']
    by_cases refused : ¬font.isCid = true ∧ maxStringCount < table.strings.size + addedStringCount
    · rw [if_pos refused]
      have named := Bool.eq_false_iff.2 refused.1
      constructor
      · intro completed
        cases completed
      · rintro ⟨fits, _⟩
        exact absurd (fits named) (Nat.not_le.2 refused.2)
    · rw [if_neg refused]
      constructor
      · intro completed
        cases completed
        refine ⟨fun named => ?_, rfl⟩
        exact Nat.not_lt.1 fun tooMany => refused ⟨Bool.eq_false_iff.1 named, tooMany⟩
      · rintro ⟨_, same⟩
        rw [same]
        rfl

theorem subsetFont_eq_ok :
    subsetFont table fontIndex wanted = .ok (subset, out) ↔
      Subset.select table fontIndex wanted = .ok subset ∧ subset.encode = Except.ok out := by
  simp only [subsetFont, bind_eq_ok, mapError_eq_ok, pure_eq_ok, Prod.mk.injEq]
  constructor
  · rintro ⟨_, selected, _, written, same, last⟩
    cases same
    cases last
    exact ⟨selected, written⟩
  · rintro ⟨selected, written⟩
    exact ⟨subset, selected, out, written, rfl, rfl⟩

theorem subsetFirst_eq_ok {bytes : ByteArray} :
    subsetFirst bytes wanted = .ok (subset, out) ↔
      ∃ table, Table.read bytes = .ok table ∧ subsetFont table 0 wanted = .ok (subset, out) := by
  simp only [subsetFirst, readForSubset, bind_eq_ok, mapError_eq_ok]

end CompactFont
