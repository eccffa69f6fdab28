import CompactFont.Proofs.Reach.Agreement
import CompactFont.Proofs.Subset.Closure
import CompactFont.Proofs.Subset.Completion

/-!
What glyphs use together. A subroutine is used if a single glyph that is kept reaches it, so the used
sets of two sets of glyphs make up those of their union, and the glyphs of a Font DICT alone decide
which of its local subroutines are used.
-/

set_option autoImplicit false

namespace CompactFont

open Charstring

namespace GlyphSet

def union (first second : GlyphSet) : GlyphSet := ofList (first.glyphs ++ second.glyphs)

theorem mem_union {first second : GlyphSet} {glyph : Nat} :
    glyph ∈ first.union second ↔ glyph ∈ first ∨ glyph ∈ second := by
  rw [union, mem_ofList, List.mem_append]
  rfl

end GlyphSet

/-- What charstrings reach, one of them does by itself. -/
theorem Reaches.iff_exists {context : SubrContext} {code : ByteArray → Prop} {subr : Subr} :
    Reaches context code subr ↔ ∃ body, code body ∧ Reaches context (· = body) subr := by
  constructor
  · intro reached
    induction reached with
    | code own called => exact ⟨_, own, .code rfl called⟩
    | subr _ called induction =>
      obtain ⟨body, own, reached⟩ := induction
      exact ⟨body, own, .subr reached called⟩
  · intro ⟨body, own, reached⟩
    exact reached.of_calls fun _ same _ called => .code (same ▸ own) called

/-- Numbers that ascend are listed as they are, even if the first of them is known. -/
theorem DiscoverySet.pairwise_insertAll {used : DiscoverySet} {found : Array Nat}
    (ordered : used.order.toList.Pairwise (· < ·)) (ascending : found.toList.Pairwise (· < ·))
    (later : ∀ i ∈ used, ∀ j ∈ found.toList, i ≤ j) :
    (used.insertAll found).order.toList.Pairwise (· < ·) := by
  rw [insertAll, ← Array.foldl_toList]
  generalize found.toList = found at *
  induction found generalizing used with
  | nil => exact ordered
  | cons first rest induction =>
    obtain ⟨least, ascending⟩ := List.pairwise_cons.1 ascending
    refine induction ?_ ascending ?_
    · unfold insert
      split
      · exact ordered
      · next absent =>
        rw [Array.toList_push, List.pairwise_append]
        refine ⟨ordered, List.pairwise_singleton _ _, ?_⟩
        intro i known j single
        rw [List.mem_singleton] at single
        subst single
        have member : i ∈ used := Array.mem_toList_iff.1 known
        have distinct : i ≠ j := fun same => absent ((used.contains_iff j).2 (same ▸ member))
        exact Nat.lt_of_le_of_ne (later i member j List.mem_cons_self) distinct
    · intro i known j listed
      rcases (used.mem_insert first i).1 known with rfl | known
      · exact Nat.le_of_lt (least j listed)
      · exact later i known j (List.mem_cons_of_mem first listed)

namespace Subset

variable {bytes : ByteArray} {table : Table} {font : Font} {fontIndex fontDict : Nat}
  {wanted first second : GlyphSet}

/-! ### One glyph at a time -/

theorem mem_reach_iff_exists (read : Table.read bytes = .ok table)
    (present : table.fonts[fontIndex]? = some font) {subr : Subr} :
    subr ∈ (ofFont table font wanted).reach fontDict ↔
      ∃ glyph, Retains font wanted glyph ∧ font.fontDictOf glyph = fontDict ∧
        Reaches (subrContext table font fontDict)
          (· = font.charStrings.element table.bytes glyph) subr := by
  have code : Reaches (subrContext table font fontDict) (RetainedCode table font wanted fontDict)
      subr ↔ ∃ glyph, Retains font wanted glyph ∧ font.fontDictOf glyph = fontDict ∧
        Reaches (subrContext table font fontDict)
          (· = font.charStrings.element table.bytes glyph) subr := by
    rw [Reaches.iff_exists]
    constructor
    · rintro ⟨_, ⟨glyph, retained, belongs, rfl⟩, reached⟩
      exact ⟨glyph, retained, belongs, reached⟩
    · intro ⟨glyph, retained, belongs, reached⟩
      exact ⟨_, ⟨glyph, retained, belongs, rfl⟩, reached⟩
  by_cases used : fontDict ∈ (ofFont table font wanted).fontDicts
  · obtain ⟨glyph, _, rfl⟩ := mem_fontDicts_ofFont.1 used
    rw [mem_reach_iff_reaches (Table.fontDictOf_lt read present glyph) used, code]
  · rw [reach_of_not_mem_fontDicts used]
    constructor
    · intro found
      exact absurd found (Reach.mem_empty subr)
    · intro ⟨glyph, retained, belongs, _⟩
      exact absurd (mem_fontDicts_ofFont.2 ⟨glyph, retained, belongs⟩) used

theorem mem_globalSubrs_iff_exists (read : Table.read bytes = .ok table)
    (present : table.fonts[fontIndex]? = some font) {i : Nat} :
    i ∈ (ofFont table font wanted).globalSubrs ↔
      ∃ glyph, Retains font wanted glyph ∧
        Reaches (subrContext table font (font.fontDictOf glyph))
          (· = font.charStrings.element table.bytes glyph) ⟨.globalSubrs, i⟩ := by
  rw [mem_globalSubrs]
  constructor
  · intro ⟨_, _, reached⟩
    obtain ⟨glyph, retained, rfl, reached⟩ := (mem_reach_iff_exists read present).1 reached
    exact ⟨glyph, retained, reached⟩
  · intro ⟨glyph, retained, reached⟩
    exact ⟨font.fontDictOf glyph, mem_fontDicts_ofFont.2 ⟨glyph, retained, rfl⟩,
      (mem_reach_iff_exists read present).2 ⟨glyph, retained, rfl, reached⟩⟩

theorem retains_union {glyph : Nat} :
    Retains font (first.union second) glyph ↔
      Retains font first glyph ∨ Retains font second glyph := by
  unfold Retains
  rw [GlyphSet.mem_union, or_or_distrib_left, and_or_left]

/-- What holds of a glyph that is kept for a union, holds of one that is kept for one of the sets. -/
theorem exists_retains_union {p : Nat → Prop} :
    (∃ glyph, Retains font (first.union second) glyph ∧ p glyph) ↔
      (∃ glyph, Retains font first glyph ∧ p glyph) ∨
        ∃ glyph, Retains font second glyph ∧ p glyph := by
  simp only [retains_union, or_and_right, exists_or]

/-! ### One Font DICT at a time -/

theorem pairwise_keptGlyphs (font : Font) (wanted : GlyphSet) :
    (keptGlyphs font wanted).order.toList.Pairwise (· < ·) := by
  have ascending := wanted.ascending.filter (· < font.glyphCount)
  unfold keptGlyphs
  dsimp only
  split
  · exact DiscoverySet.pairwise_insertAll .nil ascending
      fun i known => absurd known (DiscoverySet.not_mem_empty i)
  · refine DiscoverySet.pairwise_insertAll (List.pairwise_singleton _ 0) ascending ?_
    intro i known j _
    rcases (DiscoverySet.empty.mem_insert 0 i).1 known with rfl | known
    · exact Nat.zero_le j
    · exact absurd known (DiscoverySet.not_mem_empty i)

def AgreeOn (font : Font) (fontDict : Nat) (first second : GlyphSet) : Prop :=
  ∀ glyph, font.fontDictOf glyph = fontDict →
    (Retains font first glyph ↔ Retains font second glyph)

theorem charstrings_congr (agree : AgreeOn font fontDict first second) :
    charstrings bytes font (keptGlyphs font first) fontDict =
      charstrings bytes font (keptGlyphs font second) fontDict := by
  -- lists that ascend are determined by their members
  have ascending : ∀ wanted, ((keptGlyphs font wanted).order.toList.filter
      (font.fontDictOf · = fontDict)).Pairwise (· < ·) :=
    fun wanted => (pairwise_keptGlyphs font wanted).filter _
  have members : ∀ wanted glyph, glyph ∈ (keptGlyphs font wanted).order.toList.filter
      (font.fontDictOf · = fontDict) ↔
        Retains font wanted glyph ∧ font.fontDictOf glyph = fontDict := by
    intro wanted glyph
    rw [List.mem_filter, decide_eq_true_iff, Array.mem_toList_iff]
    exact and_congr_left' mem_keptGlyphs
  have same : GlyphSet.mk _ (ascending first) = GlyphSet.mk _ (ascending second) := by
    apply GlyphSet.ext
    intro glyph
    exact (members first glyph).trans
      ((and_congr_left (agree glyph)).trans (members second glyph).symm)
  unfold charstrings
  congr 1
  apply Array.ext'
  rw [Array.toList_filter, Array.toList_filter]
  exact congrArg GlyphSet.glyphs same

/-- The search for a Font DICT is the same, step by step, if the sets ask for the same of its glyphs. -/
theorem reach_congr (agree : AgreeOn font fontDict first second) :
    (ofFont table font first).reach fontDict = (ofFont table font second).reach fontDict := by
  have used : fontDict ∈ (ofFont table font first).fontDicts ↔
      fontDict ∈ (ofFont table font second).fontDicts := by
    rw [mem_fontDicts_ofFont, mem_fontDicts_ofFont]
    exact exists_congr fun glyph => and_congr_left (agree glyph)
  by_cases inside : fontDict < font.fontDictCount
  · rw [reach_ofFont inside, reach_ofFont inside, if_congr used rfl rfl, reachOf, reachOf,
      charstrings_congr agree]
  · rw [reach_ofFont_of_le (Nat.not_lt.1 inside), reach_ofFont_of_le (Nat.not_lt.1 inside)]

theorem agreeOn_union (other : ∀ glyph ∈ second, glyph < font.glyphCount →
    font.fontDictOf glyph ≠ fontDict) : AgreeOn font fontDict (first.union second) first := by
  intro glyph belongs
  rw [retains_union]
  refine ⟨fun either => either.elim id ?_, .inl⟩
  intro ⟨inside, asked⟩
  exact ⟨inside, asked.imp_right fun found => absurd belongs (other glyph found inside)⟩

/-- The used sets for a union of glyph sets are the unions of the used sets for each of them. So further
glyphs take nothing away, and those of other Font DICTs leave the local subroutines of a Font DICT as
they are, in their order. -/
theorem used_sets_union {one : Subset} (read : Table.read bytes = .ok table)
    (selected : select table fontIndex first = .ok one) (second : GlyphSet) :
    ∃ two both, select table fontIndex second = .ok two ∧
      select table fontIndex (first.union second) = .ok both ∧
      (∀ i, i ∈ both.glyphs ↔ i ∈ one.glyphs ∨ i ∈ two.glyphs) ∧
      (∀ i, i ∈ both.fontDicts ↔ i ∈ one.fontDicts ∨ i ∈ two.fontDicts) ∧
      (∀ i, i ∈ both.globalSubrs ↔ i ∈ one.globalSubrs ∨ i ∈ two.globalSubrs) ∧
      (∀ fontDict i, i ∈ both.localSubrs fontDict ↔
        i ∈ one.localSubrs fontDict ∨ i ∈ two.localSubrs fontDict) ∧
      ∀ fontDict, (∀ glyph ∈ second, glyph < one.font.glyphCount →
        one.font.fontDictOf glyph ≠ fontDict) →
        both.localSubrs fontDict = one.localSubrs fontDict := by
  obtain ⟨font, present, fits, rfl⟩ := select_eq_ok.1 selected
  refine ⟨_, _, select_eq_ok.2 ⟨font, present, fits, rfl⟩, select_eq_ok.2 ⟨font, present, fits, rfl⟩,
    ?_, ?_, ?_, ?_, ?_⟩
  · intro i
    exact mem_keptGlyphs.trans (retains_union.trans
      (or_congr mem_keptGlyphs.symm mem_keptGlyphs.symm))
  · intro i
    rw [mem_fontDicts_ofFont, mem_fontDicts_ofFont, mem_fontDicts_ofFont, exists_retains_union]
  · intro i
    rw [mem_globalSubrs_iff_exists read present, mem_globalSubrs_iff_exists read present,
      mem_globalSubrs_iff_exists read present, exists_retains_union]
  · intro fontDict i
    rw [mem_localSubrs, mem_localSubrs, mem_localSubrs, mem_reach_iff_exists read present,
      mem_reach_iff_exists read present, mem_reach_iff_exists read present, exists_retains_union]
  · intro fontDict other
    have agree : AgreeOn font fontDict (first.union second) first := agreeOn_union other
    rw [localSubrs, localSubrs, reach_congr agree]

/-- The last glyph adds a local subroutine of its own Font DICT, and none of that of glyph 0. -/
theorem used_sets_union_sharedSubr :
    ∃ table one two both, Table.read sharedSubrTable = .ok table ∧
      select table 0 (.ofList []) = .ok one ∧ select table 0 (.ofList [2]) = .ok two ∧
      select table 0 (.union (.ofList []) (.ofList [2])) = .ok both ∧
      1 ∉ one.localSubrs 1 ∧ 1 ∈ both.localSubrs 1 ∧ 0 ∈ one.localSubrs 0 ∧
      both.localSubrs 0 = one.localSubrs 0 := by
  obtain ⟨table, read, one, selected, absent, listed, apart, two, selectedLast, found⟩ :
      ∃ table, Table.read sharedSubrTable = .ok table ∧
        ∃ one, select table 0 (.ofList []) = .ok one ∧ 1 ∉ one.localSubrs 1 ∧
          0 ∈ one.localSubrs 0 ∧ one.font.fontDictOf 2 ≠ 0 ∧
          ∃ two, select table 0 (.ofList [2]) = .ok two ∧ 1 ∈ two.localSubrs 1 := by
    decide +kernel
  obtain ⟨last, both, again, selectedBoth, _, _, _, locals, unchanged⟩ :=
    used_sets_union read selected (.ofList [2])
  cases Except.ok.inj (selectedLast.symm.trans again)
  refine ⟨table, one, two, both, read, selected, selectedLast, selectedBoth, absent,
    (locals 1 1).2 (.inr found), listed, unchanged 0 ?_⟩
  intro glyph asked _
  rw [GlyphSet.mem_ofList, List.mem_singleton] at asked
  rwa [asked]

end Subset
end CompactFont
