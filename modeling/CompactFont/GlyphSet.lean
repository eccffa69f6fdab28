import Std.Data.TreeSet

/-!
Sets of glyphs that a subset is asked to keep. A set has one form only, its glyphs in ascending
order, so sets with the same members are equal.
-/

set_option autoImplicit false

namespace CompactFont

structure GlyphSet where
  glyphs : List Nat
  ascending : glyphs.Pairwise (· < ·)
  deriving DecidableEq

namespace GlyphSet

instance : Membership Nat GlyphSet := ⟨fun set glyph => glyph ∈ set.glyphs⟩

def ofList (glyphs : List Nat) : GlyphSet where
  glyphs := (Std.TreeSet.ofList glyphs compare).toList
  ascending := Std.TreeSet.ordered_toList.imp fun less => Nat.compare_eq_lt.1 less

theorem mem_ofList {glyphs : List Nat} {glyph : Nat} : glyph ∈ ofList glyphs ↔ glyph ∈ glyphs := by
  change glyph ∈ (Std.TreeSet.ofList glyphs compare).toList ↔ glyph ∈ glyphs
  rw [Std.TreeSet.mem_toList, Std.TreeSet.mem_ofList, List.contains_iff_mem]

private theorem eq_of_mem_iff {left right : List Nat} (ascendingLeft : left.Pairwise (· < ·))
    (ascendingRight : right.Pairwise (· < ·)) (same : ∀ i, i ∈ left ↔ i ∈ right) :
    left = right := by
  refine List.Perm.eq_of_pairwise (fun _ _ _ _ less more => absurd more (Nat.lt_asymm less))
    ascendingLeft ascendingRight ?_
  refine (List.perm_ext_iff_of_nodup ?_ ?_).2 same
  · exact ascendingLeft.imp Nat.ne_of_lt
  · exact ascendingRight.imp Nat.ne_of_lt

theorem ext {left right : GlyphSet} (same : ∀ glyph, glyph ∈ left ↔ glyph ∈ right) :
    left = right := by
  cases left
  cases right
  congr
  exact eq_of_mem_iff ‹_› ‹_› same

end GlyphSet
end CompactFont
