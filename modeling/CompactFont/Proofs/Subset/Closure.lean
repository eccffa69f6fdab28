import CompactFont.Proofs.Subset.UsedSets
import Mathlib.Order.Bounds.Basic

/-!
What a subset keeps of the subroutines: for each Font DICT in use the least set that contains all
calls of the charstrings kept and all calls of its own members.
-/

set_option autoImplicit false

namespace CompactFont

open Charstring

/-- A set of subroutines contains all calls of some charstrings and all calls of its members. -/
structure ClosedUnderCalls (context : SubrContext) (code : ByteArray → Prop) (set : Set Subr) :
    Prop where
  code : ∀ body, code body → ∀ subr ∈ calls context body, subr ∈ set
  subr : ∀ caller ∈ set, ∀ subr ∈ calls context (context.body caller), subr ∈ set

theorem Reaches.isLeast (context : SubrContext) (code : ByteArray → Prop) :
    IsLeast {set | ClosedUnderCalls context code set} {subr | Reaches context code subr} := by
  constructor
  · exact ⟨fun _ source _ called => .code source called, fun _ reached _ called =>
      .subr reached called⟩
  · intro set closed subr reached
    induction reached with
    | code source called => exact closed.code _ source _ called
    | subr _ called induction => exact closed.subr _ induction _ called

namespace Subset

variable {table : Table} {font : Font} {wanted : GlyphSet} {fontDict : Nat}

def subrContext (table : Table) (font : Font) (fontDict : Nat) : SubrContext :=
  ⟨localBodies table.bytes font fontDict, globalBodies table font⟩

/-- A glyph of the font that is kept if some glyphs are asked for: glyph 0, or one of these. -/
def Retains (font : Font) (wanted : GlyphSet) (glyph : Nat) : Prop :=
  glyph < font.glyphCount ∧ (glyph = 0 ∨ glyph ∈ wanted)

def RetainedCode (table : Table) (font : Font) (wanted : GlyphSet) (fontDict : Nat)
    (code : ByteArray) : Prop :=
  ∃ glyph, Retains font wanted glyph ∧ font.fontDictOf glyph = fontDict ∧
    font.charStrings.element table.bytes glyph = code

theorem mem_charstrings_keptGlyphs {code : ByteArray} :
    code ∈ charstrings table.bytes font (keptGlyphs font wanted) fontDict ↔
      RetainedCode table font wanted fontDict code := by
  simp only [mem_charstrings, mem_keptGlyphs, RetainedCode, Retains]

theorem mem_fontDicts_ofFont :
    fontDict ∈ (ofFont table font wanted).fontDicts ↔
      ∃ glyph, Retains font wanted glyph ∧ font.fontDictOf glyph = fontDict := by
  change fontDict ∈ usedFontDicts font (keptGlyphs font wanted) ↔ _
  simp only [mem_usedFontDicts, mem_keptGlyphs, Retains]

theorem reach_of_mem_fontDicts (inside : fontDict < font.fontDictCount)
    (used : fontDict ∈ (ofFont table font wanted).fontDicts) :
    (ofFont table font wanted).reach fontDict =
      .ofCharstrings (subrContext table font fontDict)
        (charstrings table.bytes font (keptGlyphs font wanted) fontDict) := by
  rw [reach_ofFont inside, if_pos used]
  rfl

theorem reach_of_not_mem_fontDicts (unused : fontDict ∉ (ofFont table font wanted).fontDicts) :
    (ofFont table font wanted).reach fontDict = .empty := by
  by_cases inside : fontDict < font.fontDictCount
  · rw [reach_ofFont inside, if_neg unused]
  · exact reach_ofFont_of_le (Nat.not_lt.1 inside)

theorem localSubrs_of_not_mem_fontDicts
    (unused : fontDict ∉ (ofFont table font wanted).fontDicts) :
    (ofFont table font wanted).localSubrs fontDict = .empty := by
  rw [localSubrs, reach_of_not_mem_fontDicts unused]
  rfl

theorem mem_reach_iff_reaches (inside : fontDict < font.fontDictCount)
    (used : fontDict ∈ (ofFont table font wanted).fontDicts) {subr : Subr} :
    subr ∈ (ofFont table font wanted).reach fontDict ↔
      Reaches (subrContext table font fontDict) (RetainedCode table font wanted fontDict) subr := by
  have same : (· ∈ charstrings table.bytes font (keptGlyphs font wanted) fontDict) =
      RetainedCode table font wanted fontDict := funext fun _ => propext mem_charstrings_keptGlyphs
  rw [reach_of_mem_fontDicts inside used, Reach.mem_ofCharstrings, same]

/-- The used sets of a subset are those of the least closed sets, one for each Font DICT in use. The
search for each of them ends by itself: no more subroutines are scanned than there are, and further
rounds change nothing. A global subroutine that several Font DICTs reach contributes its local calls
in each of them. -/
theorem used_subrs_least {bytes : ByteArray} {fontIndex : Nat}
    (read : Table.read bytes = .ok table) (present : table.fonts[fontIndex]? = some font)
    (wanted : GlyphSet) :
    let subset := ofFont table font wanted
    ∃ reached : Nat → Set Subr,
      (∀ fontDict, fontDict ∈ subset.fontDicts ↔
        ∃ glyph, Retains font wanted glyph ∧ font.fontDictOf glyph = fontDict) ∧
      (∀ fontDict ∈ subset.fontDicts,
        IsLeast {set | ClosedUnderCalls (subrContext table font fontDict)
          (RetainedCode table font wanted fontDict) set} (reached fontDict) ∧
        (∀ i, i ∈ subset.localSubrs fontDict ↔ ⟨.localSubrs, i⟩ ∈ reached fontDict) ∧
        (subset.reach fontDict).order.size ≤ (subrContext table font fontDict).size ∧
        ∀ rounds, (subrContext table font fontDict).size ≤ rounds →
          Reach.addSubrs (subrContext table font fontDict) rounds 0
            ((charstrings table.bytes font subset.glyphs fontDict).foldl
              (Reach.addCharstring (subrContext table font fontDict)) .empty) =
            subset.reach fontDict) ∧
      (∀ i, i ∈ subset.globalSubrs ↔
        ∃ fontDict ∈ subset.fontDicts, ⟨.globalSubrs, i⟩ ∈ reached fontDict) ∧
      (∀ fontDict, fontDict ∉ subset.fontDicts → subset.localSubrs fontDict = .empty) ∧
      (∀ first ∈ subset.fontDicts, ∀ second ∈ subset.fontDicts, ∀ i,
        ⟨.globalSubrs, i⟩ ∈ reached first → ⟨.globalSubrs, i⟩ ∈ reached second →
        ∀ j, ⟨.localSubrs, j⟩ ∈ calls (subrContext table font second)
          ((globalBodies table font).body i) → j ∈ subset.localSubrs second) ∧
      subset.glyphs.order.toList.Nodup ∧ subset.fontDicts.order.toList.Nodup ∧
      subset.globalSubrs.order.toList.Nodup ∧
      ∀ fontDict, (subset.localSubrs fontDict).order.toList.Nodup := by
  intro subset
  have inside : ∀ fontDict ∈ subset.fontDicts, fontDict < font.fontDictCount := by
    intro fontDict used
    obtain ⟨glyph, _, rfl⟩ := mem_fontDicts_ofFont.1 used
    exact Table.fontDictOf_lt read present glyph
  have members : ∀ fontDict ∈ subset.fontDicts, ∀ subr, subr ∈ subset.reach fontDict ↔
      Reaches (subrContext table font fontDict) (RetainedCode table font wanted fontDict) subr :=
    fun fontDict used _ => mem_reach_iff_reaches (inside fontDict used) used
  refine ⟨fun fontDict => {subr | Reaches (subrContext table font fontDict)
    (RetainedCode table font wanted fontDict) subr}, fun _ => mem_fontDicts_ofFont, ?_, ?_,
    fun _ => localSubrs_of_not_mem_fontDicts, ?_, subset.glyphs.nodup, subset.fontDicts.nodup,
    subset.globalSubrs.nodup, fun fontDict => (subset.localSubrs fontDict).nodup⟩
  · intro fontDict used
    refine ⟨Reaches.isLeast _ _, fun i => members fontDict used ⟨.localSubrs, i⟩, ?_⟩
    rw [reach_of_mem_fontDicts (inside fontDict used) used]
    exact ⟨Reach.size_order_ofCharstrings _ _,
      fun _ enough => Reach.ofCharstrings_eq_addSubrs _ _ enough⟩
  · intro i
    rw [mem_globalSubrs]
    refine exists_congr fun fontDict => and_congr_right fun used => ?_
    exact members fontDict used ⟨.globalSubrs, i⟩
  · intro first _ second used i _ reached j called
    exact (members second used ⟨.localSubrs, j⟩).2 (.subr reached called)

/-- A table with a font of three glyphs, of which glyph 0 belongs to one Font DICT and the others to
a second one. The glyphs 0 and 1 call the same global subroutine, which calls a local one; the last
glyph calls a local subroutine itself. -/
def sharedSubrTable : ByteArray := List.toByteArray <|
  [1, 0, 4, 1] ++
  [0, 1, 1, 1, 2, 78] ++
  [0, 1, 1, 1, 14, 139, 139, 139, 12, 30, 191, 17, 207, 12, 36, 180, 12, 37] ++
  [0, 0] ++
  [0, 2, 1, 1, 4, 6, 32, 10, 11, 139, 11] ++
  -- FDSelect, then charstrings
  [3, 0, 2, 0, 0, 0, 0, 1, 1, 0, 3] ++
  [0, 3, 1, 1, 4, 7, 10, 32, 29, 14, 32, 29, 14, 33, 10, 14] ++
  -- Font DICTs, and their Private DICTs, each with its subroutines
  [0, 2, 1, 1, 4, 7, 141, 219, 18, 141, 228, 18] ++
  [141, 19, 0, 1, 1, 1, 3, 139, 11] ++
  [141, 19, 0, 2, 1, 1, 3, 5, 139, 11, 140, 11]

/-- Both Font DICTs are in use, and the global subroutine contributes its local call in each. -/
theorem used_subrs_least_sharedSubr :
    ∃ table font, ∃ reached : Nat → Set Subr,
      Table.read sharedSubrTable = .ok table ∧ table.fonts[0]? = some font ∧
      (∀ fontDict < 2,
        IsLeast {set | ClosedUnderCalls (subrContext table font fontDict)
          (RetainedCode table font (.ofList [1]) fontDict) set} (reached fontDict) ∧
        ⟨.globalSubrs, 0⟩ ∈ reached fontDict ∧ ⟨.localSubrs, 0⟩ ∈ reached fontDict) ∧
      ⟨.localSubrs, 1⟩ ∉ reached 1 := by
  obtain ⟨table, read, font, present, first, second⟩ :
      ∃ table, Table.read sharedSubrTable = .ok table ∧ ∃ font : Font, font ∈ table.fonts[0]? ∧
        (∀ glyph < 2, glyph < font.glyphCount ∧ font.fontDictOf glyph = glyph ∧
          ⟨.globalSubrs, 0⟩ ∈ calls (subrContext table font glyph)
            (font.charStrings.element table.bytes glyph) ∧
          0 ∈ (ofFont table font (.ofList [1])).localSubrs glyph) ∧
        1 ∉ (ofFont table font (.ofList [1])).localSubrs 1 := by
    decide +kernel
  have ⟨reached, inUse, each, _⟩ := used_subrs_least read present (.ofList [1])
  have retains : ∀ glyph < 2, Retains font (.ofList [1]) glyph := by
    intro glyph bound
    have asked : glyph = 0 ∨ glyph ∈ [1] := by
      rw [List.mem_singleton]
      omega
    exact ⟨(first glyph bound).1, asked.imp_right GlyphSet.mem_ofList.2⟩
  have used : ∀ fontDict < 2, fontDict ∈ (ofFont table font (.ofList [1])).fontDicts :=
    fun glyph bound => (inUse glyph).2 ⟨glyph, retains glyph bound, (first glyph bound).2.1⟩
  refine ⟨table, font, reached, read, present, fun fontDict bound => ?_,
    fun called => second (((each 1 (used 1 (by decide))).2.1 1).2 called)⟩
  have ⟨least, locals, _⟩ := each fontDict (used fontDict bound)
  have ⟨_, belongs, called, listed⟩ := first fontDict bound
  exact ⟨least, least.1.code _ ⟨fontDict, retains fontDict bound, belongs, rfl⟩ _ called,
    (locals 0).1 listed⟩

end Subset
end CompactFont
