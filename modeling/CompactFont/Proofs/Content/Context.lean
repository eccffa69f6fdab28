import CompactFont.Proofs.Content.Restriction
import CompactFont.Proofs.Reach.Agreement
import CompactFont.Proofs.Subset.Closure

/-!
What a subset keeps is decided by the content of a font: the subroutines that its charstrings can
call are part of the content, and so is the assignment of glyphs to Font DICTs.
-/

set_option autoImplicit false

namespace CompactFont

open Charstring Subset

namespace Font.Content

def localSubrs (content : Font.Content) (fontDict : Nat) : Option (List ByteArray) :=
  content.fontDicts[fontDict]?.bind fun fontDict =>
    fontDict.privateDict.bind PrivateDict.Content.subrs

def context (content : Font.Content) (fontDict : Nat) : SubrContext where
  localSubrs := (content.localSubrs fontDict).map fun bodies =>
    ⟨bodies.toArray, content.charstringType⟩
  globalSubrs := ⟨content.globalSubrs.toArray, content.charstringType⟩

end Font.Content

def Font.localIndex (font : Font) (fontDict : Nat) : Option Index :=
  (font.privateDict fontDict).bind PrivateDict.subrs

theorem Index.getElem?_elements (bytes : ByteArray) {index : Index} {i : Nat}
    (inside : i < index.size) :
    (index.elements bytes).toList[i]? = some (index.element bytes i) := by
  rw [Index.elements, Array.toList_map, List.getElem?_map, Array.toList_range,
    List.getElem?_range inside, Option.map_some]

namespace Font

variable {table : Table} {font : Font} {fontDict glyph : Nat}

theorem glyphCount_content (table : Table) (font : Font) :
    (font.content table).charStrings.length = font.glyphCount :=
  Index.length_elements _

theorem fontDictCount_content (table : Table) (font : Font) :
    (font.content table).fontDicts.length = font.fontDictCount := by
  unfold content fontDictCount
  cases font.keying with
  | named privateDict => rfl
  | cid select fontDicts => simp only [List.length_map, Array.length_toList]

theorem fontDictOf_content (table : Table) (font : Font) (glyph : Nat) :
    ((font.content table).assigned.getD glyph 0).toNat = font.fontDictOf glyph := by
  unfold content fontDictOf
  cases font.keying with
  | named privateDict =>
    dsimp only
    rw [Array.getD_eq_getD_getElem?, Array.getElem?_replicate]
    split <;> rfl
  | cid select fontDicts => rfl

theorem localSubrs_content (table : Table) (inside : fontDict < font.fontDictCount) :
    (font.content table).localSubrs fontDict =
      (font.localIndex fontDict).map fun index => (index.elements table.bytes).toList := by
  unfold Font.Content.localSubrs localIndex privateDict content
  unfold fontDictCount at inside
  cases keying : font.keying with
  | named privateDict =>
    rw [keying] at inside
    obtain rfl : fontDict = 0 := Nat.lt_one_iff.1 inside
    cases privateDict <;> rfl
  | cid select fontDicts =>
    dsimp only
    rw [List.getElem?_map, Array.getElem?_toList]
    cases fontDicts[fontDict]? with
    | none => rfl
    | some own =>
      simp only [Option.map_some, Option.bind_some, FontDict.content]
      cases own.privateDict <;> rfl

theorem localBodies_eq :
    localBodies table.bytes font fontDict = (font.localIndex fontDict).map fun index =>
      .ofIndex table.bytes index font.charstringType := by
  unfold localBodies localIndex
  cases font.privateDict fontDict with
  | none => rfl
  | some privateDict =>
    have bound : (some privateDict).bind PrivateDict.subrs = privateDict.subrs := rfl
    rw [bound]
    change (privateDict.subrs >>= fun subrs => _) = _
    cases privateDict.subrs <;> rfl

theorem context_content (inside : fontDict < font.fontDictCount) :
    (font.content table).context fontDict = subrContext table font fontDict := by
  rw [Font.Content.context, localSubrs_content table inside, Option.map_map, subrContext, localBodies_eq]
  rfl

end Font

/-! ### Restricted contents -/

theorem getElem?_replaceUnless {kept : Nat → Bool} {blank : ByteArray} {elements : List ByteArray}
    {i : Nat} : (replaceUnless kept blank elements)[i]? =
      elements[i]?.map fun element => if kept i then element else blank := List.getElem?_mapIdx

section

variable {kept : Nat → Bool} {blank : ByteArray} {bodies : List ByteArray} {type : CharstringType}

theorem size_replaceUnless :
    (⟨(replaceUnless kept blank bodies).toArray, type⟩ : SubrBodies).size =
      (⟨bodies.toArray, type⟩ : SubrBodies).size := by
  simp only [SubrBodies.size, List.size_toArray, length_replaceUnless]

theorem resolve_replaceUnless (operand : Int) :
    (⟨(replaceUnless kept blank bodies).toArray, type⟩ : SubrBodies).resolve operand =
      (⟨bodies.toArray, type⟩ : SubrBodies).resolve operand := by
  simp only [SubrBodies.resolve, SubrBodies.bias, size_replaceUnless]
  rfl

theorem body_replaceUnless {i : Nat} (known : kept i = true) :
    (⟨(replaceUnless kept blank bodies).toArray, type⟩ : SubrBodies).body i =
      (⟨bodies.toArray, type⟩ : SubrBodies).body i := by
  simp only [SubrBodies.body, Array.getD_eq_getD_getElem?, List.getElem?_toArray,
    getElem?_replaceUnless, known, ↓reduceIte, Option.map_id']

end

def Kept.subr (kept : Kept) (fontDict : Nat) (subr : Subr) : Bool :=
  match subr.scope with
  | .localSubrs => kept.localSubrs fontDict subr.index
  | .globalSubrs => kept.globalSubrs subr.index

namespace Font.Content

variable {content : Font.Content} {kept : Kept} {fontDict : Nat}

theorem localSubrs_restrict (used : kept.fontDicts fontDict = true) :
    (content.restrict kept).localSubrs fontDict =
      (content.localSubrs fontDict).map (replaceUnless (kept.localSubrs fontDict) blankSubr) := by
  unfold localSubrs restrict
  rw [List.getElem?_mapIdx]
  cases content.fontDicts[fontDict]? with
  | none => rfl
  | some own =>
    simp only [Option.map_some, Option.bind_some, FontDict.Content.restrict, used, ↓reduceIte]
    cases own.privateDict <;> rfl

theorem localSubrs_restrict_of_unused (unused : kept.fontDicts fontDict = false) :
    (content.restrict kept).localSubrs fontDict = none := by
  unfold localSubrs restrict
  rw [List.getElem?_mapIdx]
  cases content.fontDicts[fontDict]? with
  | none => rfl
  | some own =>
    simp only [Option.map_some, Option.bind_some, FontDict.Content.restrict, unused,
      Bool.false_eq_true, ↓reduceIte, Option.bind_none]

theorem context_restrict (used : kept.fontDicts fontDict = true) :
    (content.restrict kept).context fontDict = {
      localSubrs := (content.localSubrs fontDict).map fun bodies =>
        ⟨(replaceUnless (kept.localSubrs fontDict) blankSubr bodies).toArray,
          content.charstringType⟩
      globalSubrs := ⟨(replaceUnless kept.globalSubrs blankSubr content.globalSubrs).toArray,
        content.charstringType⟩ } := by
  rw [context, localSubrs_restrict used, Option.map_map]
  rfl

/-- Calls are resolved as before, and reach the same bodies as far as these are kept. -/
theorem agree_restrict (used : kept.fontDicts fontDict = true) :
    (content.context fontDict).Agree ((content.restrict kept).context fontDict)
      fun subr => kept.subr fontDict subr = true := by
  rw [context_restrict used]
  constructor
  · intro scope operand
    cases operand with
    | none => rfl
    | some operand =>
      cases scope with
      | globalSubrs =>
        simp only [SubrContext.target, SubrContext.inScope, context, resolve_replaceUnless]
      | localSubrs =>
        simp only [SubrContext.target, SubrContext.inScope, context]
        cases content.localSubrs fontDict with
        | none => rfl
        | some bodies => simp only [Option.map_some, resolve_replaceUnless]
  · intro subr known
    obtain ⟨scope, i⟩ := subr
    cases scope with
    | globalSubrs =>
      simp only [SubrContext.body, SubrContext.inScope, context]
      rw [body_replaceUnless known]
    | localSubrs =>
      simp only [SubrContext.body, SubrContext.inScope, context]
      cases content.localSubrs fontDict with
      | none => rfl
      | some bodies =>
        simp only [Option.map_some]
        rw [body_replaceUnless known]

theorem size_context_restrict (used : kept.fontDicts fontDict = true) :
    ((content.restrict kept).context fontDict).size = (content.context fontDict).size := by
  rw [context_restrict used]
  simp only [SubrContext.size, context, size_replaceUnless]
  cases content.localSubrs fontDict with
  | none => rfl
  | some bodies => simp only [Option.map_some, Option.elim_some, size_replaceUnless]

end Font.Content
end CompactFont
