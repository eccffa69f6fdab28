import CompactFont.Proofs.Subset.Completion
import CompactFont.Proofs.Subset.Copy

/-!
The copy that is read from the table of a subset has the same calls as its source, so the same glyphs
reach the same subroutines in it, found in the same order.
-/

set_option autoImplicit false

namespace CompactFont

open Charstring Subset

namespace CopyOf

variable {table written : Table} {font copy : Font} {wanted : GlyphSet} {fontDict glyph : Nat}

theorem keptGlyphs_eq (copyOf : CopyOf table font wanted written copy) :
    keptGlyphs copy wanted = keptGlyphs font wanted := by
  rw [keptGlyphs, keptGlyphs, copyOf.glyphCount_eq]

theorem fontDicts_eq (copyOf : CopyOf table font wanted written copy) :
    (ofFont written copy wanted).fontDicts = (ofFont table font wanted).fontDicts := by
  have assigned : copy.fontDictOf = font.fontDictOf := funext fun _ => copyOf.fontDictOf_eq
  change usedFontDicts copy (keptGlyphs copy wanted) = usedFontDicts font (keptGlyphs font wanted)
  rw [copyOf.keptGlyphs_eq, usedFontDicts, usedFontDicts, assigned]

theorem element_of_retains (copyOf : CopyOf table font wanted written copy)
    (retains : Retains font wanted glyph) :
    copy.charStrings.element written.bytes glyph = font.charStrings.element table.bytes glyph :=
  copyOf.charStrings.same glyph retains.1 retains.2

theorem charstrings_eq (copyOf : CopyOf table font wanted written copy) :
    charstrings written.bytes copy (keptGlyphs font wanted) fontDict =
      charstrings table.bytes font (keptGlyphs font wanted) fontDict := by
  have assigned : copy.fontDictOf = font.fontDictOf := funext fun _ => copyOf.fontDictOf_eq
  rw [charstrings, charstrings, assigned]
  apply Array.map_congr_left
  intro glyph listed
  exact copyOf.element_of_retains (mem_keptGlyphs.1 (Array.mem_filter.1 listed).1)

theorem agree_reaches (copyOf : CopyOf table font wanted written copy)
    (used : fontDict ∈ (ofFont table font wanted).fontDicts) :
    (subrContext table font fontDict).Agree (subrContext written copy fontDict)
      (Reaches (subrContext table font fontDict) (RetainedCode table font wanted fontDict)) :=
  (copyOf.agree used).imp fun _ reached =>
    (mem_reach_iff_reaches (copyOf.lt_of_mem_fontDicts used) used).2 reached

theorem reach_eq (copyOf : CopyOf table font wanted written copy) (fontDict : Nat) :
    (ofFont written copy wanted).reach fontDict = (ofFont table font wanted).reach fontDict := by
  by_cases inside : fontDict < font.fontDictCount
  · by_cases used : fontDict ∈ (ofFont table font wanted).fontDicts
    · have again : fontDict ∈ (ofFont written copy wanted).fontDicts := by
        rwa [copyOf.fontDicts_eq]
      have same : (· ∈ charstrings table.bytes font (keptGlyphs font wanted) fontDict) =
          RetainedCode table font wanted fontDict :=
        funext fun _ => propext mem_charstrings_keptGlyphs
      have agree := copyOf.agree_reaches used
      rw [← same] at agree
      rw [reach_of_mem_fontDicts inside used, Reach.ofCharstrings_congr agree
        (copyOf.size_subrContext used).symm]
      rw [← copyOf.fontDictCount_eq] at inside
      rw [reach_of_mem_fontDicts inside again, copyOf.keptGlyphs_eq, copyOf.charstrings_eq]
    · have again : fontDict ∉ (ofFont written copy wanted).fontDicts := by
        rwa [copyOf.fontDicts_eq]
      rw [reach_ofFont inside, if_neg used]
      rw [← copyOf.fontDictCount_eq] at inside
      rw [reach_ofFont inside, if_neg again]
  · have outside := Nat.not_lt.1 inside
    rw [reach_ofFont_of_le outside]
    rw [← copyOf.fontDictCount_eq] at outside
    rw [reach_ofFont_of_le outside]

theorem globalSubrs_eq (copyOf : CopyOf table font wanted written copy) :
    (ofFont written copy wanted).globalSubrs = (ofFont table font wanted).globalSubrs := by
  have reach : (ofFont written copy wanted).reach = (ofFont table font wanted).reach :=
    funext copyOf.reach_eq
  rw [Subset.globalSubrs, Subset.globalSubrs, copyOf.fontDicts_eq, reach]

theorem calls_element (copyOf : CopyOf table font wanted written copy)
    (retains : Retains font wanted glyph) :
    calls (subrContext written copy (font.fontDictOf glyph))
        (copy.charStrings.element written.bytes glyph) =
      calls (subrContext table font (font.fontDictOf glyph))
        (font.charStrings.element table.bytes glyph) := by
  have used : font.fontDictOf glyph ∈ (ofFont table font wanted).fontDicts :=
    mem_fontDicts_ofFont.2 ⟨glyph, retains, rfl⟩
  rw [copyOf.element_of_retains retains]
  exact (calls_eq ((copyOf.agree_reaches used).imp fun _ called =>
    .code ⟨glyph, retains, rfl, rfl⟩ called)).symm

theorem calls_body (copyOf : CopyOf table font wanted written copy)
    (used : fontDict ∈ (ofFont table font wanted).fontDicts) {subr : Subr}
    (reached : Reaches (subrContext table font fontDict)
      (RetainedCode table font wanted fontDict) subr) :
    calls (subrContext written copy fontDict) ((subrContext written copy fontDict).body subr) =
      calls (subrContext table font fontDict) ((subrContext table font fontDict).body subr) := by
  have agree := copyOf.agree_reaches used
  rw [← agree.body subr reached]
  exact (calls_eq (agree.imp fun _ called => .subr reached called)).symm

end CopyOf

/-- The table of a subset makes the same calls as its source, from every glyph kept and from every
subroutine that these reach, in the same order. So the same glyphs select the same subset of it. -/
theorem subsetFont_calls {data out : ByteArray} {table : Table} {fontIndex : Nat}
    {wanted : GlyphSet} {subset : Subset} (read : Table.read data = .ok table)
    (completed : subsetFont table fontIndex wanted = .ok (subset, out)) :
    ∃ font written copy again, table.fonts[fontIndex]? = some font ∧
      Table.read out = .ok written ∧ written.fonts = #[copy] ∧
      (∀ fontDict ∈ subset.fontDicts,
        (∀ glyph, Retains font wanted glyph → font.fontDictOf glyph = fontDict →
          copy.fontDictOf glyph = fontDict ∧
          calls (subrContext written copy fontDict) (copy.charStrings.element out glyph) =
            calls (subrContext table font fontDict) (font.charStrings.element data glyph)) ∧
        ∀ subr, Reaches (subrContext table font fontDict)
            (RetainedCode table font wanted fontDict) subr →
          calls (subrContext written copy fontDict)
              ((subrContext written copy fontDict).body subr) =
            calls (subrContext table font fontDict) ((subrContext table font fontDict).body subr)) ∧
      Subset.select written 0 wanted = .ok again ∧
      again.glyphs = subset.glyphs ∧ again.fontDicts = subset.fontDicts ∧
      (∀ fontDict, again.localSubrs fontDict = subset.localSubrs fontDict) ∧
      again.globalSubrs = subset.globalSubrs := by
  obtain ⟨selected, encoded⟩ := subsetFont_eq_ok.1 completed
  obtain ⟨font, present, _, rfl⟩ := select_eq_ok.1 selected
  obtain ⟨written, copy, readAgain, only, copyOf⟩ := exists_copy read present encoded
  obtain ⟨rfl, _⟩ := Table.read_eq_ok.1 read
  have single : written.fonts[0]? = some copy := by rw [only]; rfl
  have selectedAgain : Subset.select written 0 wanted = .ok (ofFont written copy wanted) := by
    refine select_eq_ok.2 ⟨copy, single, fun named => ?_, rfl⟩
    rw [copyOf.isCid] at named
    cases named
  refine ⟨font, written, copy, _, present, readAgain, only, fun fontDict used => ⟨?_, ?_⟩,
    selectedAgain, copyOf.keptGlyphs_eq, copyOf.fontDicts_eq, fun fontDict => ?_,
    copyOf.globalSubrs_eq⟩
  · intro glyph retains belongs
    subst belongs
    obtain ⟨rfl, _⟩ := Table.read_eq_ok.1 readAgain
    exact ⟨copyOf.fontDictOf_eq, copyOf.calls_element retains⟩
  · intro subr reached
    exact copyOf.calls_body used reached
  · rw [Subset.localSubrs, Subset.localSubrs, copyOf.reach_eq]

/-- The glyph of the second Font DICT reaches the local subroutine through the global one, and the
search of the written table finds the same. -/
theorem subsetFont_calls_sharedSubr :
    ∃ table subset out written copy again, Table.read sharedSubrTable = .ok table ∧
      subsetFont table 0 (.ofList [1]) = .ok (subset, out) ∧ Table.read out = .ok written ∧
      written.fonts = #[copy] ∧ copy.fontDictOf 1 = 1 ∧
      calls (subrContext written copy 1) (copy.charStrings.element out 1) =
        #[⟨.globalSubrs, 0⟩, ⟨.localSubrs, 0⟩] ∧
      Subset.select written 0 (.ofList [1]) = .ok again ∧ again.glyphs.order = #[0, 1] ∧
      again.fontDicts.order = #[0, 1] ∧ (again.localSubrs 1).order = #[0] ∧
      again.globalSubrs.order = #[0] := by
  obtain ⟨table, read, font, present, inside, belongs, called, ⟨subset, out⟩, completed, inUse,
      glyphOrder, fontDictOrder, localOrder, globalOrder⟩ :
      ∃ table, Table.read sharedSubrTable = .ok table ∧ ∃ font : Font, font ∈ table.fonts[0]? ∧
        1 < font.glyphCount ∧ font.fontDictOf 1 = 1 ∧
        calls (subrContext table font 1) (font.charStrings.element sharedSubrTable 1) =
          #[⟨.globalSubrs, 0⟩, ⟨.localSubrs, 0⟩] ∧
        ∃ written, subsetFont table 0 (.ofList [1]) = .ok written ∧ 1 ∈ written.1.fontDicts ∧
          written.1.glyphs.order = #[0, 1] ∧ written.1.fontDicts.order = #[0, 1] ∧
          (written.1.localSubrs 1).order = #[0] ∧ written.1.globalSubrs.order = #[0] := by
    decide +kernel
  obtain ⟨_, written, copy, again, found, readAgain, only, traces, selected, glyphs, fontDicts,
    locals, globals⟩ := subsetFont_calls read completed
  cases Option.some.inj (found.symm.trans present)
  have retains : Retains font (.ofList [1]) 1 :=
    ⟨inside, .inr (GlyphSet.mem_ofList.2 (by decide))⟩
  have ⟨belongsAgain, same⟩ := (traces 1 inUse).1 1 retains belongs
  rw [called] at same
  rw [← glyphs] at glyphOrder
  rw [← fontDicts] at fontDictOrder
  rw [← locals] at localOrder
  rw [← globals] at globalOrder
  exact ⟨table, subset, out, written, copy, again, read, completed, readAgain, only, belongsAgain,
    same, selected, glyphOrder, fontDictOrder, localOrder, globalOrder⟩

end CompactFont
