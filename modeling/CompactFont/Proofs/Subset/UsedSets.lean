import CompactFont.Proofs.FdSelect
import CompactFont.Proofs.Reach.Closure
import CompactFont.Proofs.Table.Reading
import CompactFont.Subset.Basic

/-!
The members of the used sets of a subset. The Font DICTs used are those of the glyphs that are kept,
and the subroutines used are found for each of these Font DICTs by itself.
-/

set_option autoImplicit false

namespace CompactFont

open Charstring

theorem DiscoverySet.mem_insertAll (used : DiscoverySet) (found : Array Nat) (i : Nat) :
    i ∈ used.insertAll found ↔ i ∈ found ∨ i ∈ used := by
  rw [insertAll, ← Array.foldl_toList, ← Array.mem_toList_iff]
  induction found.toList generalizing used with
  | nil => simp only [List.foldl_nil, List.not_mem_nil, false_or]
  | cons first rest induction =>
    rw [List.foldl_cons, induction, mem_insert, List.mem_cons, or_left_comm, or_assoc]

namespace Subset

variable {table : Table} {font : Font} {wanted : GlyphSet}

theorem mem_keptGlyphs {glyph : Nat} :
    glyph ∈ keptGlyphs font wanted ↔ glyph < font.glyphCount ∧ (glyph = 0 ∨ glyph ∈ wanted) := by
  have asked : glyph ∈ (wanted.glyphs.filter (· < font.glyphCount)).toArray ↔
      glyph ∈ wanted ∧ glyph < font.glyphCount := by
    rw [List.mem_toArray, List.mem_filter, decide_eq_true_iff]
    rfl
  unfold keptGlyphs
  rw [DiscoverySet.mem_insertAll, asked]
  by_cases none : font.glyphCount = 0
  · simp only [none, ↓reduceIte, Nat.not_lt_zero, and_false, DiscoverySet.not_mem_empty, or_self,
      false_and]
  · rw [if_neg none, DiscoverySet.mem_insert]
    simp only [DiscoverySet.not_mem_empty, or_false]
    constructor
    · intro either
      rcases either with ⟨listed, inside⟩ | rfl
      · exact ⟨inside, .inr listed⟩
      · exact ⟨Nat.pos_of_ne_zero none, .inl rfl⟩
    · intro ⟨inside, either⟩
      exact either.elim .inr fun listed => .inl ⟨listed, inside⟩

theorem mem_usedFontDicts {glyphs : DiscoverySet} {fontDict : Nat} :
    fontDict ∈ usedFontDicts font glyphs ↔ ∃ glyph ∈ glyphs, font.fontDictOf glyph = fontDict := by
  rw [usedFontDicts, DiscoverySet.mem_insertAll, Array.mem_map]
  simp only [DiscoverySet.not_mem_empty, or_false]
  rfl

theorem mem_charstrings {bytes code : ByteArray} {glyphs : DiscoverySet} {fontDict : Nat} :
    code ∈ charstrings bytes font glyphs fontDict ↔ ∃ glyph ∈ glyphs,
      font.fontDictOf glyph = fontDict ∧ font.charStrings.element bytes glyph = code := by
  unfold charstrings
  simp only [Array.mem_map, Array.mem_filter, decide_eq_true_iff, and_assoc]
  rfl

theorem mem_globalSubrs {subset : Subset} {i : Nat} :
    i ∈ subset.globalSubrs ↔ ∃ fontDict ∈ subset.fontDicts,
      (⟨.globalSubrs, i⟩ : Subr) ∈ subset.reach fontDict := by
  have fold : ∀ (fontDicts : List Nat) (used : DiscoverySet),
      i ∈ fontDicts.foldl (fun used fontDict =>
        used.insertAll (subset.reach fontDict).globalSubrs.order) used ↔
      (∃ fontDict ∈ fontDicts, i ∈ (subset.reach fontDict).globalSubrs) ∨ i ∈ used := by
    intro fontDicts
    induction fontDicts with
    | nil => simp only [List.foldl_nil, List.not_mem_nil, false_and, exists_false, false_or,
        implies_true]
    | cons first rest induction =>
      intro used
      rw [List.foldl_cons, induction, DiscoverySet.mem_insertAll, List.exists_mem_cons_iff,
        or_left_comm, or_assoc]
      rfl
  rw [globalSubrs, ← Array.foldl_toList, fold]
  simp only [DiscoverySet.not_mem_empty, or_false, Array.mem_toList_iff]
  rfl

theorem mem_localSubrs {subset : Subset} {fontDict i : Nat} :
    i ∈ subset.localSubrs fontDict ↔ (⟨.localSubrs, i⟩ : Subr) ∈ subset.reach fontDict := Iff.rfl

/-! ### Subsets of fonts -/

theorem reach_ofFont {fontDict : Nat} (inside : fontDict < font.fontDictCount) :
    (ofFont table font wanted).reach fontDict =
      if fontDict ∈ (ofFont table font wanted).fontDicts then
        reachOf table font (globalBodies table font) (keptGlyphs font wanted) fontDict
      else .empty := by
  unfold reach ofFont
  rw [Array.getD_eq_getD_getElem?, Array.getElem?_map, Array.getElem?_range, if_pos inside]
  simp only [Option.map_some, Option.getD_some, DiscoverySet.contains_iff]

theorem reach_ofFont_of_le {fontDict : Nat} (outside : font.fontDictCount ≤ fontDict) :
    (ofFont table font wanted).reach fontDict = .empty := by
  unfold reach ofFont
  rw [Array.getD_eq_getD_getElem?, Array.getElem?_map, Array.getElem?_range,
    if_neg (Nat.not_lt.2 outside)]
  rfl

end Subset

theorem Table.fontDictOf_lt {bytes : ByteArray} {table : Table} {font : Font} {i : Nat}
    (read : Table.read bytes = .ok table) (present : table.fonts[i]? = some font) (glyph : Nat) :
    font.fontDictOf glyph < font.fontDictCount := by
  obtain ⟨_, _, _, _, each⟩ := Table.read_eq_ok.1 read
  obtain ⟨top, found⟩ := Font.read_eq_ok.1 (each i font present)
  have keying := found.keying
  unfold Font.readKeying at keying
  split at keying
  · obtain ⟨_, _, fontDicts, select, _, _, _, some, assigned, same⟩ := Font.readCid_eq_ok.1 keying
    obtain ⟨_, _, _, known, _⟩ := FdSelect.readAt_eq_ok.1 assigned
    simp only [Font.fontDictOf, Font.fontDictCount, same, FdSelect.fontDict]
    by_cases inside : glyph < select.assigned.size
    · rw [Array.getD_eq_getD_getElem?, Array.getElem?_eq_getElem inside, Option.getD_some]
      exact known _ (Array.getElem_mem inside)
    · rw [Array.getD_eq_getD_getElem?, Array.getElem?_eq_none (Nat.not_lt.1 inside)]
      exact Array.size_pos_iff.2 some
  · obtain ⟨_, _, same⟩ := Font.readNamed_eq_ok.1 keying
    simp only [Font.fontDictOf, Font.fontDictCount, same, Nat.zero_lt_one]

end CompactFont
