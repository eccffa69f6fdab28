import CompactFont.Proofs.Subset.Rescan

/-!
Subsets of subsets. What is kept after two selections is what both keep, because blank glyphs call
nothing and the bodies that are reached are the same in the copy. So the second table is the one
that a single selection of the glyphs in both sets gives.
-/

set_option autoImplicit false

namespace CompactFont

open Charstring Subset

namespace GlyphSet

def inter (first second : GlyphSet) : GlyphSet where
  glyphs := first.glyphs.filter (· ∈ second.glyphs)
  ascending := first.ascending.filter _

theorem mem_inter {first second : GlyphSet} {glyph : Nat} :
    glyph ∈ first.inter second ↔ glyph ∈ first ∧ glyph ∈ second := by
  change glyph ∈ first.glyphs.filter (· ∈ second.glyphs) ↔ _
  rw [List.mem_filter, decide_eq_true_iff]
  rfl

end GlyphSet

/-- Every glyph of the font that the second set asks for belongs to a Font DICT that also holds glyph
0 or a glyph that is in both sets. -/
def Covers (font : Font) (first second : GlyphSet) : Prop :=
  ∀ glyph ∈ second, glyph < font.glyphCount →
    ∃ other, Retains font (first.inter second) other ∧
      font.fontDictOf other = font.fontDictOf glyph

theorem calls_blankGlyph (context : SubrContext) : calls context blankGlyph = #[] := rfl

namespace CopyOf

variable {table written : Table} {font copy : Font} {first second : GlyphSet} {fontDict glyph : Nat}

theorem retains_inter (copyOf : CopyOf table font first written copy) :
    Retains font (first.inter second) glyph ↔
      Retains font first glyph ∧ Retains copy second glyph := by
  unfold Retains
  rw [copyOf.glyphCount_eq, GlyphSet.mem_inter]
  by_cases zero : glyph = 0
  · simp only [zero, true_or, and_true, and_self]
  · simp only [zero, false_or]
    constructor
    · intro ⟨inside, asked, alsoAsked⟩
      exact ⟨⟨inside, asked⟩, inside, alsoAsked⟩
    · intro ⟨⟨inside, asked⟩, _, alsoAsked⟩
      exact ⟨inside, asked, alsoAsked⟩

/-- The second selection uses no Font DICT that the glyphs in both sets do not use. -/
theorem mem_fontDicts_inter (copyOf : CopyOf table font first written copy)
    (covers : Covers font first second) :
    fontDict ∈ (ofFont written copy second).fontDicts ↔
      fontDict ∈ (ofFont table font (first.inter second)).fontDicts := by
  rw [mem_fontDicts_ofFont, mem_fontDicts_ofFont]
  constructor
  · intro ⟨glyph, ⟨inside, asked⟩, belongs⟩
    rw [copyOf.glyphCount_eq] at inside
    rw [copyOf.fontDictOf_eq] at belongs
    rcases asked with zero | asked
    · exact ⟨glyph, ⟨inside, .inl zero⟩, belongs⟩
    · obtain ⟨other, retains, same⟩ := covers glyph asked inside
      exact ⟨other, retains, same.trans belongs⟩
  · intro ⟨glyph, retains, belongs⟩
    exact ⟨glyph, (copyOf.retains_inter.1 retains).2, copyOf.fontDictOf_eq.trans belongs⟩

theorem mem_fontDicts_of_inter (copyOf : CopyOf table font first written copy)
    (used : fontDict ∈ (ofFont table font (first.inter second)).fontDicts) :
    fontDict ∈ (ofFont table font first).fontDicts := by
  obtain ⟨glyph, retains, belongs⟩ := mem_fontDicts_ofFont.1 used
  exact mem_fontDicts_ofFont.2 ⟨glyph, (copyOf.retains_inter.1 retains).1, belongs⟩

theorem retainedCode_of_inter (copyOf : CopyOf table font first written copy) {code : ByteArray}
    (retained : RetainedCode table font (first.inter second) fontDict code) :
    RetainedCode table font first fontDict code := by
  obtain ⟨glyph, retains, belongs, same⟩ := retained
  exact ⟨glyph, (copyOf.retains_inter.1 retains).1, belongs, same⟩

/-- The glyphs of the second selection make the calls of those that are in both sets: the others are
blank. -/
theorem reaches_inter (copyOf : CopyOf table font first written copy) (context : SubrContext)
    {subr : Subr} :
    Reaches context (RetainedCode written copy second fontDict) subr ↔
      Reaches context (RetainedCode table font (first.inter second) fontDict) subr := by
  constructor
  · apply Reaches.of_calls
    intro body ⟨glyph, retains, belongs, same⟩ subr called
    rw [copyOf.fontDictOf_eq] at belongs
    by_cases kept : Retains font first glyph
    · rw [copyOf.element_of_retains kept] at same
      exact .code ⟨glyph, copyOf.retains_inter.2 ⟨kept, retains⟩, belongs, same⟩ called
    · have inside := retains.1
      rw [copyOf.glyphCount_eq] at inside
      rw [← same, copyOf.charStrings.blank glyph inside fun asked => kept ⟨inside, asked⟩,
        calls_blankGlyph] at called
      exact absurd called (Array.not_mem_empty subr)
  · apply Reaches.of_calls
    intro body ⟨glyph, retains, belongs, same⟩ subr called
    obtain ⟨kept, again⟩ := copyOf.retains_inter.1 retains
    rw [← copyOf.element_of_retains kept] at same
    exact .code ⟨glyph, again, copyOf.fontDictOf_eq.trans belongs, same⟩ called

/-- The second selection finds the subroutines that the glyphs in both sets reach in the source. -/
theorem mem_reach_inter (copyOf : CopyOf table font first written copy)
    (covers : Covers font first second)
    (used : fontDict ∈ (ofFont table font (first.inter second)).fontDicts) {subr : Subr} :
    subr ∈ (ofFont written copy second).reach fontDict ↔
      subr ∈ (ofFont table font (first.inter second)).reach fontDict := by
  have usedFirst := copyOf.mem_fontDicts_of_inter used
  have usedSecond := (copyOf.mem_fontDicts_inter covers).2 used
  have inside := copyOf.lt_of_mem_fontDicts usedFirst
  have insideCopy := inside
  rw [← copyOf.fontDictCount_eq] at insideCopy
  have agree : (subrContext table font fontDict).Agree (subrContext written copy fontDict)
      (Reaches (subrContext table font fontDict)
        (RetainedCode table font (first.inter second) fontDict)) :=
    (copyOf.agree_reaches usedFirst).imp fun _ => Reaches.of_calls fun _ retained _ called =>
      .code (copyOf.retainedCode_of_inter retained) called
  rw [mem_reach_iff_reaches insideCopy usedSecond, mem_reach_iff_reaches inside used,
    copyOf.reaches_inter, Reaches.congr agree]

theorem mem_reach_of_inter (copyOf : CopyOf table font first written copy)
    (used : fontDict ∈ (ofFont table font (first.inter second)).fontDicts) {subr : Subr}
    (reached : subr ∈ (ofFont table font (first.inter second)).reach fontDict) :
    subr ∈ (ofFont table font first).reach fontDict := by
  have usedFirst := copyOf.mem_fontDicts_of_inter used
  have inside := copyOf.lt_of_mem_fontDicts usedFirst
  rw [mem_reach_iff_reaches inside used] at reached
  rw [mem_reach_iff_reaches inside usedFirst]
  exact reached.of_calls fun _ retained _ called =>
    .code (copyOf.retainedCode_of_inter retained) called

theorem mem_globalSubrs_inter (copyOf : CopyOf table font first written copy)
    (covers : Covers font first second) {i : Nat} :
    i ∈ (ofFont table font first).globalSubrs ∧ i ∈ (ofFont written copy second).globalSubrs ↔
      i ∈ (ofFont table font (first.inter second)).globalSubrs := by
  rw [mem_globalSubrs, mem_globalSubrs, mem_globalSubrs]
  constructor
  · intro ⟨_, fontDict, used, reached⟩
    have both := (copyOf.mem_fontDicts_inter covers).1 used
    exact ⟨fontDict, both, (copyOf.mem_reach_inter covers both).1 reached⟩
  · intro ⟨fontDict, both, reached⟩
    exact ⟨⟨fontDict, copyOf.mem_fontDicts_of_inter both, copyOf.mem_reach_of_inter both reached⟩,
      fontDict, (copyOf.mem_fontDicts_inter covers).2 both,
      (copyOf.mem_reach_inter covers both).2 reached⟩

theorem kept_fontDicts_copy (copyOf : CopyOf table font first written copy) :
    (ofFont written copy second).kept.fontDicts fontDict = true ↔
      fontDict ∈ (ofFont written copy second).fontDicts := by
  change ((ofFont written copy second).fontDicts.contains fontDict || !copy.isCid) = true ↔ _
  rw [copyOf.isCid, Bool.not_true, Bool.or_false, DiscoverySet.contains_iff]

/-- The only Font DICT of a name-keyed font is in use, whatever glyphs are wanted. -/
theorem mem_fontDicts_of_named (copyOf : CopyOf table font first written copy)
    (nonempty : 0 < font.glyphCount) (named : font.isCid = false)
    (inside : fontDict < font.fontDictCount) (wanted : GlyphSet) :
    fontDict ∈ (ofFont table font wanted).fontDicts := by
  obtain ⟨privateDict, keying⟩ := Font.isCid_eq_false.1 named
  have only : font.fontDictCount = 1 := by rw [Font.fontDictCount, keying]
  have belongs := copyOf.fontDictOf_lt 0
  exact mem_fontDicts_ofFont.2 ⟨0, ⟨nonempty, .inl rfl⟩, by omega⟩

theorem agree_inter (copyOf : CopyOf table font first written copy)
    (covers : Covers font first second) (nonempty : 0 < font.glyphCount) :
    ((ofFont table font first).kept.inter (ofFont written copy second).kept).Agree
      (ofFont table font (first.inter second)).kept font.fontDictCount := by
  constructor
  · intro i
    rw [Bool.eq_iff_iff]
    change ((keptGlyphs font first).contains i && (keptGlyphs copy second).contains i) = true ↔
      (keptGlyphs font (first.inter second)).contains i = true
    rw [Bool.and_eq_true, DiscoverySet.contains_iff, DiscoverySet.contains_iff,
      DiscoverySet.contains_iff, mem_keptGlyphs, mem_keptGlyphs, mem_keptGlyphs]
    exact copyOf.retains_inter.symm
  · intro i
    rw [Bool.eq_iff_iff]
    change ((ofFont table font first).globalSubrs.contains i &&
      (ofFont written copy second).globalSubrs.contains i) = true ↔
        (ofFont table font (first.inter second)).globalSubrs.contains i = true
    rw [Bool.and_eq_true, DiscoverySet.contains_iff, DiscoverySet.contains_iff,
      DiscoverySet.contains_iff]
    exact copyOf.mem_globalSubrs_inter covers
  · intro fontDict inside
    rw [Bool.eq_iff_iff]
    change (((ofFont table font first).fontDicts.contains fontDict || !font.isCid) &&
      (ofFont written copy second).kept.fontDicts fontDict) = true ↔
        ((ofFont table font (first.inter second)).fontDicts.contains fontDict || !font.isCid) = true
    rw [Bool.and_eq_true, copyOf.kept_fontDicts_copy, copyOf.mem_fontDicts_inter covers]
    cases cid : font.isCid with
    | true =>
      rw [Bool.not_true, Bool.or_false, Bool.or_false, DiscoverySet.contains_iff,
        DiscoverySet.contains_iff]
      exact and_iff_right_of_imp copyOf.mem_fontDicts_of_inter
    | false =>
      have used := copyOf.mem_fontDicts_of_named nonempty cid inside (first.inter second)
      simp only [Bool.not_false, Bool.or_true, true_and, iff_true]
      exact used
  · intro fontDict inside kept i
    have again : (ofFont written copy second).kept.fontDicts fontDict = true :=
      (Bool.and_eq_true_iff.1 kept).2
    have used := (copyOf.mem_fontDicts_inter covers).1 (copyOf.kept_fontDicts_copy.1 again)
    rw [Bool.eq_iff_iff]
    change (((ofFont table font first).localSubrs fontDict).contains i &&
      ((ofFont written copy second).localSubrs fontDict).contains i) = true ↔
        ((ofFont table font (first.inter second)).localSubrs fontDict).contains i = true
    rw [Bool.and_eq_true, DiscoverySet.contains_iff, DiscoverySet.contains_iff,
      DiscoverySet.contains_iff, mem_localSubrs, mem_localSubrs, mem_localSubrs,
      copyOf.mem_reach_inter covers used]
    exact and_iff_right_of_imp (copyOf.mem_reach_of_inter used)

end CopyOf

/-- The glyphs of a name-keyed font share one Font DICT, and a set covers its subsets. -/
theorem covers_of_named_or_subset {font : Font} {first second : GlyphSet}
    (nonempty : 0 < font.glyphCount)
    (either : font.isCid = false ∨ ∀ glyph ∈ second, glyph ∈ first) :
    Covers font first second := by
  intro glyph asked inside
  rcases either with named | inFirst
  · refine ⟨0, ⟨nonempty, .inl rfl⟩, ?_⟩
    obtain ⟨privateDict, keying⟩ := Font.isCid_eq_false.1 named
    rw [Font.fontDictOf, Font.fontDictOf, keying]
  · exact ⟨glyph, ⟨inside, .inr (GlyphSet.mem_inter.2 ⟨inFirst glyph asked, asked⟩)⟩, rfl⟩

/-- Selecting glyphs from a subset gives the table that selecting the glyphs in both sets from the
source gives, byte for byte, provided that the second selection uses no Font DICT which these glyphs
do not use. For a name-keyed font that is always so, and also if the first set includes the second. -/
theorem subsetFirst_subsetFont {data once twice direct : ByteArray} {table : Table} {font : Font}
    {fontIndex : Nat} {first second : GlyphSet} {subset again both : Subset}
    (read : Table.read data = .ok table) (present : table.fonts[fontIndex]? = some font)
    (nonempty : 0 < font.glyphCount)
    (subsetOnce : subsetFont table fontIndex first = .ok (subset, once))
    (subsetTwice : subsetFirst once second = .ok (again, twice))
    (subsetBoth : subsetFont table fontIndex (first.inter second) = .ok (both, direct)) :
    (font.isCid = false ∨ (∀ glyph ∈ second, glyph ∈ first) → Covers font first second) ∧
      (Covers font first second → twice = direct) := by
  refine ⟨covers_of_named_or_subset nonempty, fun covers => ?_⟩
  obtain ⟨selected, encoded⟩ := subsetFont_eq_ok.1 subsetOnce
  obtain ⟨_, found, _, rfl⟩ := select_eq_ok.1 selected
  cases Option.some.inj (present.symm.trans found)
  obtain ⟨selectedBoth, encodedBoth⟩ := subsetFont_eq_ok.1 subsetBoth
  obtain ⟨_, found, _, rfl⟩ := select_eq_ok.1 selectedBoth
  cases Option.some.inj (present.symm.trans found)
  obtain ⟨written, copy, readOnce, only, copyOf⟩ := exists_copy read present encoded
  obtain ⟨_, readAgain, subsetAgain⟩ := subsetFirst_eq_ok.1 subsetTwice
  cases Except.ok.inj (readOnce.symm.trans readAgain)
  have single : written.fonts[0]? = some copy := by rw [only]; rfl
  obtain ⟨selectedAgain, encodedAgain⟩ := subsetFont_eq_ok.1 subsetAgain
  obtain ⟨_, found, _, rfl⟩ := select_eq_ok.1 selectedAgain
  cases Option.some.inj (single.symm.trans found)
  have agree := copyOf.agree_inter covers nonempty
  rw [← Font.fontDictCount_content table font] at agree
  have writtenTwice := (Subset.exists_read readOnce single encodedAgain).1
  rw [copyOf.content, Font.Content.restrict_restrict, Font.Content.restrict_congr agree]
    at writtenTwice
  have writtenDirect := (Subset.exists_read read present encodedBoth).1
  exact Except.ok.inj (writtenTwice.symm.trans writtenDirect)

/-- The second set need not be a part of the first one: its last glyph shares a Font DICT with a
glyph of both. -/
theorem subsetFirst_subsetFont_sharedSubr :
    ∃ table font subset again both once twice direct, Table.read sharedSubrTable = .ok table ∧
      table.fonts[0]? = some font ∧ font.isCid = true ∧ 0 < font.glyphCount ∧
      subsetFont table 0 (.ofList [1]) = .ok (subset, once) ∧
      subsetFirst once (.ofList [1, 2]) = .ok (again, twice) ∧
      subsetFont table 0 (.inter (.ofList [1]) (.ofList [1, 2])) = .ok (both, direct) ∧
      Covers font (.ofList [1]) (.ofList [1, 2]) ∧ twice = direct := by
  obtain ⟨table, read, font, present, cid, inside, shared, ⟨both, direct⟩, subsetBoth,
      ⟨subset, once⟩, subsetOnce, ⟨again, twice⟩, subsetTwice, _⟩ :
      ∃ table, Table.read sharedSubrTable = .ok table ∧ ∃ font : Font, font ∈ table.fonts[0]? ∧
        font.isCid = true ∧ 1 < font.glyphCount ∧ font.fontDictOf 1 = font.fontDictOf 2 ∧
        ∃ both, subsetFont table 0 (.inter (.ofList [1]) (.ofList [1, 2])) = .ok both ∧
        ∃ once, subsetFont table 0 (.ofList [1]) = .ok once ∧
        ∃ twice, subsetFirst once.2 (.ofList [1, 2]) = .ok twice ∧ True := by
    decide +kernel
  have covers : Covers font (.ofList [1]) (.ofList [1, 2]) := by
    intro glyph asked _
    have bothAsk : 1 ∈ GlyphSet.inter (.ofList [1]) (.ofList [1, 2]) :=
      GlyphSet.mem_inter.2 ⟨GlyphSet.mem_ofList.2 (by decide), GlyphSet.mem_ofList.2 (by decide)⟩
    refine ⟨1, ⟨inside, .inr bothAsk⟩, ?_⟩
    rw [GlyphSet.mem_ofList, List.mem_pair] at asked
    rcases asked with rfl | rfl
    · rfl
    · exact shared
  have nonempty : 0 < font.glyphCount := by omega
  exact ⟨table, font, subset, again, both, once, twice, direct, read, present, cid, nonempty,
    subsetOnce, subsetTwice, subsetBoth, covers,
    (subsetFirst_subsetFont read present nonempty subsetOnce subsetTwice subsetBoth).2 covers⟩

end CompactFont
