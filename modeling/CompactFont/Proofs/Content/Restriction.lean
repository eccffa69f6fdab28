import CompactFont.Proofs.Content.RoundTrip
import CompactFont.Proofs.Content.Writing

/-!
Restricting a content keeps it sound, and restricting it twice keeps what both restrictions keep. So
the table of a subset is read back as the restricted content, which can be restricted again.
-/

set_option autoImplicit false

namespace CompactFont

open Subset

/-! ### Soundness -/

theorem length_replaceUnless (kept : Nat → Bool) (blank : ByteArray) (elements : List ByteArray) :
    (replaceUnless kept blank elements).length = elements.length := List.length_mapIdx

theorem PrivateDict.Content.Sound.restrict {content : PrivateDict.Content} (sound : content.Sound)
    (kept : Nat → Bool) : (content.restrict kept).Sound where
  entries := sound.entries
  located := by
    change (content.subrs.map _).isSome ↔ none ∈ content.entries
    rw [Option.isSome_map]
    exact sound.located

theorem FontDict.Content.Sound.restrict {content : FontDict.Content} (sound : content.Sound)
    (kept : Kept) (i : Nat) : (content.restrict kept i).Sound := by
  unfold FontDict.Content.restrict
  split
  · refine ⟨sound.entries, ?_, ?_⟩
    · rw [← sound.located, Option.isSome_map]
    · intro privateDict present
      obtain ⟨own, given, rfl⟩ := Option.map_eq_some_iff.1 present
      exact (sound.privateDict own given).restrict _
  · exact ⟨⟨by simp, by simp⟩, by simp, by simp⟩

namespace Font.Content

theorem length_charStrings_restrict (content : Font.Content) (kept : Kept) :
    (content.restrict kept).charStrings.length = content.charStrings.length :=
  length_replaceUnless _ _ _

theorem length_fontDicts_restrict (content : Font.Content) (kept : Kept) :
    (content.restrict kept).fontDicts.length = content.fontDicts.length := List.length_mapIdx

theorem Sound.restrict {content : Font.Content} (sound : content.Sound) (kept : Kept) :
    (content.restrict kept).Sound where
  header := sound.header
  headerSize := sound.headerSize
  topDict := sound.topDict
  top := sound.top
  strings := sound.strings
  fdSelect := by
    rw [length_charStrings_restrict]
    exact sound.fdSelect
  assigned := by
    rw [length_fontDicts_restrict]
    exact sound.assigned
  charset := by
    rw [length_charStrings_restrict]
    exact sound.charset
  fontDicts := by
    intro fontDict listed
    obtain ⟨i, bound, rfl⟩ := List.mem_mapIdx.1 listed
    exact (sound.fontDicts _ (List.getElem_mem bound)).restrict kept i
  someFontDict := by
    intro none
    rw [← List.length_eq_zero_iff, length_fontDicts_restrict, List.length_eq_zero_iff] at none
    exact sound.someFontDict none

end Font.Content

/-! ### Restricting twice -/

theorem replaceUnless_replaceUnless (first second : Nat → Bool) (blank : ByteArray)
    (elements : List ByteArray) :
    replaceUnless second blank (replaceUnless first blank elements) =
      replaceUnless (fun i => first i && second i) blank elements := by
  unfold replaceUnless
  rw [List.mapIdx_mapIdx]
  congr 1
  funext i element
  change (if second i then (if first i then element else blank) else blank) =
    if first i && second i then element else blank
  cases first i <;> cases second i <;> simp

theorem replaceUnless_congr {first second : Nat → Bool} {blank : ByteArray}
    {elements : List ByteArray} (same : ∀ i < elements.length, first i = second i) :
    replaceUnless first blank elements = replaceUnless second blank elements := by
  apply List.ext_getElem
  · rw [length_replaceUnless, length_replaceUnless]
  · intro i bound _
    rw [length_replaceUnless] at bound
    simp only [replaceUnless, List.getElem_mapIdx, same i bound]

namespace Kept

def inter (first second : Kept) : Kept where
  glyphs i := first.glyphs i && second.glyphs i
  globalSubrs i := first.globalSubrs i && second.globalSubrs i
  fontDicts i := first.fontDicts i && second.fontDicts i
  localSubrs fontDict i := first.localSubrs fontDict i && second.localSubrs fontDict i

/-- Both keep the same of a font with the given number of Font DICTs. -/
structure Agree (first second : Kept) (fontDictCount : Nat) : Prop where
  glyphs : ∀ i, first.glyphs i = second.glyphs i
  globalSubrs : ∀ i, first.globalSubrs i = second.globalSubrs i
  fontDicts : ∀ i < fontDictCount, first.fontDicts i = second.fontDicts i
  localSubrs : ∀ fontDict < fontDictCount, first.fontDicts fontDict = true →
    ∀ i, first.localSubrs fontDict i = second.localSubrs fontDict i

end Kept

theorem PrivateDict.Content.restrict_restrict (content : PrivateDict.Content)
    (first second : Nat → Bool) :
    (content.restrict first).restrict second = content.restrict fun i => first i && second i := by
  unfold PrivateDict.Content.restrict
  simp only [Option.map_map, PrivateDict.Content.mk.injEq, true_and]
  congr 1
  funext elements
  exact replaceUnless_replaceUnless first second blankSubr elements

theorem FontDict.Content.restrict_restrict (content : FontDict.Content) (first second : Kept)
    (i : Nat) :
    (content.restrict first i).restrict second i = content.restrict (first.inter second) i := by
  have both : (first.inter second).fontDicts i = (first.fontDicts i && second.fontDicts i) := rfl
  unfold FontDict.Content.restrict
  rw [both]
  by_cases firstKept : first.fontDicts i = true
  · by_cases secondKept : second.fontDicts i = true
    · simp only [firstKept, secondKept, ↓reduceIte, Bool.and_self, Option.map_map,
        FontDict.Content.mk.injEq, true_and]
      congr 1
      funext privateDict
      exact privateDict.restrict_restrict _ _
    · simp only [firstKept, secondKept, ↓reduceIte, Bool.and_false, Bool.false_eq_true]
  · simp only [firstKept, ↓reduceIte, Bool.false_and, Bool.false_eq_true, Option.map_none, ite_self]

theorem FontDict.Content.restrict_congr {content : FontDict.Content} {first second : Kept} {i : Nat}
    (used : first.fontDicts i = second.fontDicts i)
    (subrs : first.fontDicts i = true → first.localSubrs i = second.localSubrs i) :
    content.restrict first i = content.restrict second i := by
  unfold FontDict.Content.restrict
  rw [← used]
  split
  · next kept => rw [subrs kept]
  · rfl

namespace Font.Content

theorem restrict_restrict (content : Font.Content) (first second : Kept) :
    (content.restrict first).restrict second = content.restrict (first.inter second) := by
  ext1 <;> try rfl
  · exact replaceUnless_replaceUnless _ _ _ _
  · change (content.fontDicts.mapIdx _).mapIdx _ = content.fontDicts.mapIdx _
    rw [List.mapIdx_mapIdx]
    congr 1
    funext i fontDict
    exact fontDict.restrict_restrict first second i
  · exact replaceUnless_replaceUnless _ _ _ _

theorem restrict_congr {content : Font.Content} {first second : Kept}
    (agree : first.Agree second content.fontDicts.length) :
    content.restrict first = content.restrict second := by
  ext1 <;> try rfl
  · exact replaceUnless_congr fun i _ => agree.globalSubrs i
  · apply List.ext_getElem
    · rw [length_fontDicts_restrict, length_fontDicts_restrict]
    · intro i bound _
      rw [length_fontDicts_restrict] at bound
      simp only [Font.Content.restrict, List.getElem_mapIdx]
      exact FontDict.Content.restrict_congr (agree.fontDicts i bound)
        fun kept => funext (agree.localSubrs i bound kept)
  · exact replaceUnless_congr fun i _ => agree.glyphs i

end Font.Content

/-! ### Reading a subset -/

/-- The table of a subset is read as a table with one font, the content of which is restricted to
what the subset keeps. -/
theorem Subset.exists_read {bytes out : ByteArray} {table : Table} {font : Font} {i : Nat}
    {wanted : GlyphSet} (read : Table.read bytes = .ok table)
    (present : table.fonts[i]? = some font)
    (encoded : (ofFont table font wanted).encode = Except.ok out) :
    ((font.content table).restrict (ofFont table font wanted).kept).encode = .ok out ∧
      ∃ written own, Table.read out = .ok written ∧ written.fonts = #[own] ∧ own.isCid = true ∧
        own.content written = (font.content table).restrict (ofFont table font wanted).kept ∧
        own.LocatesOwn out ∧ ∃ pos, Span.Tile 0 written.spans pos ∧ own.Tiles out pos := by
  have sound : (font.content table).Sound :=
    Table.sound_content read present fun named =>
      @valid_promotedStrings (ofFont table font wanted) out encoded named
  have restricted := @encode_content (ofFont table font wanted) out sound.fontDicts encoded
  exact ⟨restricted, Font.Content.exists_read (sound.restrict _) restricted⟩

end CompactFont
