import CompactFont.Proofs.Charstring.Continuation
import CompactFont.Proofs.Charstring.Explicit
import CompactFont.Proofs.Charstring.Slack
import CompactFont.Proofs.Subset.Closure

/-!
What a subset keeps for the sake of a glyph, compared with the subroutines that the glyph calls in a
scan without a limit on tokens. The search makes up for calls that are not followed by scanning the
subroutines by themselves, but it does not know the operands and stem hints that these would have
left to their callers.
-/

set_option autoImplicit false

namespace CompactFont

open Charstring

namespace Subset

variable {table : Table} {font : Font} {wanted : GlyphSet} {fontDict glyph : Nat}

/-- The subset keeps a subroutine that the glyphs of a Font DICT can call. -/
def Uses (subset : Subset) (fontDict : Nat) (subr : Subr) : Prop :=
  match subr.scope with
  | .localSubrs => subr.index ∈ subset.localSubrs fontDict
  | .globalSubrs => subr.index ∈ subset.globalSubrs

theorem uses_of_mem_reach {subset : Subset} (used : fontDict ∈ subset.fontDicts) {subr : Subr}
    (reached : subr ∈ subset.reach fontDict) : subset.Uses fontDict subr := by
  rcases subr with ⟨_ | _, index⟩
  · exact mem_localSubrs.2 reached
  · exact mem_globalSubrs.2 ⟨fontDict, used, reached⟩

section Retained

variable {bytes : ByteArray} {fontIndex : Nat}

theorem fontDictOf_mem_fontDicts (table : Table) (retained : Retains font wanted glyph) :
    font.fontDictOf glyph ∈ (ofFont table font wanted).fontDicts :=
  mem_fontDicts_ofFont.2 ⟨glyph, retained, rfl⟩

theorem mem_reach_iff_of_retains (read : Table.read bytes = .ok table)
    (present : table.fonts[fontIndex]? = some font) (retained : Retains font wanted glyph)
    {subr : Subr} :
    subr ∈ (ofFont table font wanted).reach (font.fontDictOf glyph) ↔
      Reaches (subrContext table font (font.fontDictOf glyph))
        (RetainedCode table font wanted (font.fontDictOf glyph)) subr :=
  mem_reach_iff_reaches (Table.fontDictOf_lt read present glyph)
    (fontDictOf_mem_fontDicts table retained)

/-- Compares what a subset keeps with the calls that a retained glyph makes if no scan is stopped by
a limit on tokens. A scan that is not stopped is the same, so nothing is missing then. In one that
is, what was called until then is kept. What a glyph calls afterwards is kept if the charstrings
involved are explicit: then it does not depend on the subroutines that are no longer followed. -/
theorem uses_of_unlimited (read : Table.read bytes = .ok table)
    (present : table.fonts[fontIndex]? = some font) (retained : Retains font wanted glyph) :
    let subset := ofFont table font wanted
    let fontDict := font.fontDictOf glyph
    let context := subrContext table font fontDict
    let code := font.charStrings.element table.bytes glyph
    ∃ full, EndsUnlimited context Limits.standard.nesting code full ∧
      (∃ common, common <+: full.trace.toList ∧ common <+: (scan context code).toList ∧
        (common = full.trace.toList ∨ Limits.standard.tokens ≤ full.inlined ∧
          ∃ event rest, event.ofLimit = true ∧
            (scan context code).toList = common ++ event :: rest) ∧
        ∀ subr, .call subr ∈ common → subset.Uses fontDict subr) ∧
      (full.inlined ≤ Limits.standard.tokens → ∀ subr, .call subr ∈ full.trace →
        subset.Uses fontDict subr) ∧
      (Explicit code →
        (∀ tokens subr, .call subr ∈ (scanWith ⟨0, tokens⟩ context code).trace →
          subset.Uses fontDict subr) ∧
        ((∀ subr ∈ subset.reach fontDict, Explicit (context.body subr)) →
          ∀ subr, .call subr ∈ full.trace → subset.Uses fontDict subr)) := by
  intro subset fontDict context code
  have source : RetainedCode table font wanted fontDict code := ⟨glyph, retained, rfl, rfl⟩
  have reach : ∀ subr, subr ∈ subset.reach fontDict ↔
      Reaches context (RetainedCode table font wanted fontDict) subr :=
    fun _ => mem_reach_iff_of_retains read present retained
  have uses : ∀ subr, Reaches context (RetainedCode table font wanted fontDict) subr →
      subset.Uses fontDict subr := fun subr reached =>
    uses_of_mem_reach (fontDictOf_mem_fontDicts table retained) ((reach subr).2 reached)
  obtain ⟨full, unlimited⟩ := exists_endsUnlimited context Limits.standard.nesting code
  obtain ⟨common, shared, early, split⟩ := unlimited.exists_common .standard
  rw [← scan] at early split
  have kept : ∀ subr, .call subr ∈ common → subset.Uses fontDict subr := by
    intro subr called
    have listed : .call subr ∈ scan context code := Array.mem_toList_iff.1 (early.subset called)
    exact uses subr (.code source (mem_calls.2 listed))
  refine ⟨full, unlimited, ⟨common, shared, early, split, kept⟩, ?_, fun explicit => ⟨?_, ?_⟩⟩
  · intro few subr called
    have found : subr ∈ full.calls :=
      List.mem_filterMap.2 ⟨_, Array.mem_toList_iff.2 called, rfl⟩
    rw [← unlimited.calls_eq few, ← toList_calls, Array.mem_toList_iff] at found
    exact uses subr (.code source found)
  · intro tokens subr called
    exact uses subr (callsOnly_reaches_shallow source explicit tokens subr called)
  · intro bodies subr called
    obtain ⟨enough, same⟩ := unlimited
    rw [← same enough (Nat.le_refl _)] at called
    apply uses
    apply callsOnly_reaches source explicit _ subr called
    intro other reached
    exact bodies other ((reach other).2 reached)

end Retained

/-- Glyph 1 of the table with shared subroutines is explicit, and so is all that it reaches. -/
theorem uses_of_unlimited_sharedSubr :
    ∃ table font full, Table.read sharedSubrTable = .ok table ∧ table.fonts[0]? = some font ∧
      EndsUnlimited (subrContext table font 1) 10 (font.charStrings.element table.bytes 1) full ∧
      Event.call ⟨.localSubrs, 0⟩ ∈ full.trace ∧
      ∀ subr, .call subr ∈ full.trace → (ofFont table font (.ofList [1])).Uses 1 subr := by
  obtain ⟨table, read, font, present, bound, belongs, ⟨few, called⟩, explicit, locals, globals⟩ :
      ∃ table, Table.read sharedSubrTable = .ok table ∧ ∃ font : Font, font ∈ table.fonts[0]? ∧
        1 < font.glyphCount ∧ font.fontDictOf 1 = 1 ∧
        (let context := subrContext table font 1
         let code := font.charStrings.element table.bytes 1
         let reach := (ofFont table font (.ofList [1])).reach 1
         ((scanWith .standard context code).inlined < 4096 ∧
           Event.call ⟨.localSubrs, 0⟩ ∈ (scanWith .standard context code).trace) ∧
         Explicit code ∧
         (∀ i ∈ reach.localSubrs.order, Explicit (context.body ⟨.localSubrs, i⟩)) ∧
         ∀ i ∈ reach.globalSubrs.order, Explicit (context.body ⟨.globalSubrs, i⟩)) := by
    decide +kernel
  have retained : Retains font (.ofList [1]) 1 := ⟨bound, .inr (GlyphSet.mem_ofList.2 (by decide))⟩
  have ⟨full, unlimited, _, _, uses⟩ := uses_of_unlimited read present retained
  rw [belongs] at unlimited uses
  have same := (endsUnlimited_of_inlined_lt few).eq unlimited
  refine ⟨table, font, full, read, present, unlimited, same ▸ called, (uses explicit).2 ?_⟩
  rintro ⟨_ | _, i⟩ reached
  · exact locals i reached
  · exact globals i reached

/-! ### Hints of subroutines that are not followed -/

/-- A table with a font of two glyphs. Glyph 1 calls local subroutine 0 until no tokens are left, and
then subroutine 2, which declares nine hints but is not followed. So the mask after it is taken to
be one byte long, and its second byte for the beginning of an operand that ends with the call of
subroutine 3. -/
def lostHintsTable : ByteArray := List.toByteArray <|
  [1, 0, 4, 1] ++
  [0, 1, 1, 1, 2, 78] ++
  [0, 1, 1, 1, 6, 163, 17, 141, 210, 18] ++
  [0, 0] ++
  [0, 0] ++
  [0, 2, 1, 1, 2, 42] ++ [14] ++
  (List.replicate 16 [32, 10]).flatten ++ [34, 10, 19, 255, 28, 35, 10, 14] ++
  -- the Private DICT, and its subroutines
  [141, 19] ++
  [0, 4, 1, 1, 32, 47, 67, 70] ++
  (List.replicate 15 [33, 10]).flatten ++ [11] ++
  (List.replicate 7 [139, 22]).flatten ++ [11] ++
  List.replicate 18 139 ++ [18, 11] ++
  [139, 22, 11]

def firstRun (context : SubrContext) : ScanState :=
  follow ⟨10, 1000⟩ context 10 ⟨.localSubrs, 0⟩ .start

def CallsFirstThree (state : ScanState) : Prop :=
  ∀ subr ∈ state.trace.toList.filterMap Event.call?, subr.scope = .localSubrs ∧ subr.index < 3

instance (state : ScanState) : Decidable (CallsFirstThree state) :=
  inferInstanceAs (Decidable (∀ subr ∈ _, _))

theorem CallsFirstThree.of_mem_calls {context : SubrContext} {code : ByteArray} {subr : Subr}
    (only : CallsFirstThree (scanWith .standard context code)) (called : subr ∈ calls context code) :
    subr.scope = .localSubrs ∧ subr.index < 3 := by
  rw [calls, ← Array.mem_toList_iff, Array.toList_filterMap, scan] at called
  exact only subr called

/-- A subroutine that a retained glyph calls itself is dropped. -/
theorem not_uses_of_lostHints :
    ∃ table font full, Table.read lostHintsTable = .ok table ∧ table.fonts[0]? = some font ∧
      Retains font (.ofList [1]) 1 ∧
      EndsUnlimited (subrContext table font (font.fontDictOf 1)) 10
        (font.charStrings.element table.bytes 1) full ∧
      Event.call ⟨.localSubrs, 3⟩ ∈ full.trace ∧
      ¬(ofFont table font (.ofList [1])).Uses (font.fontDictOf 1) ⟨.localSubrs, 3⟩ := by
  let known : Subr := ⟨.localSubrs, 0⟩
  obtain ⟨table, read, font, present, glyphs, target, below, ⟨few, last⟩, blank, direct, nested⟩ :
      ∃ table, Table.read lostHintsTable = .ok table ∧ ∃ font : Font, font ∈ table.fonts[0]? ∧
        font.glyphCount = 2 ∧
        (let context := subrContext table font (font.fontDictOf 1)
         let code := font.charStrings.element table.bytes
         let run := firstRun context
         context.target .localSubrs (some (-107)) = .ok known ∧ run.inlined < 1000 ∧
         (let full := scanKnown ⟨10, 8192⟩ context known run (code 1)
          full.inlined < 8192 ∧ full.trace.toList.getLast? = some (.call ⟨.localSubrs, 3⟩)) ∧
         CallsFirstThree (scanWith .standard context (code 0)) ∧
         CallsFirstThree (scanKnown .standard context known run (code 1)) ∧
         ∀ i < 3, CallsFirstThree (scanWith .standard context (context.body ⟨.localSubrs, i⟩))) := by
    decide +kernel
  have retained : Retains font (.ofList [1]) 1 :=
    ⟨by omega, .inr (GlyphSet.mem_ofList.2 (by decide))⟩
  have callable : (subrContext table font (font.fontDictOf 1)).Callable known := ⟨_, _, target⟩
  have ran : follow ⟨10, 1000⟩ (subrContext table font (font.fontDictOf 1)) 10 known .start =
      firstRun (subrContext table font (font.fontDictOf 1)) := rfl
  rw [scanKnown_eq ⟨10, 8192⟩ callable ran below] at few last
  rw [scanKnown_eq .standard callable ran below] at direct
  have closed : ∀ subr, Reaches (subrContext table font (font.fontDictOf 1))
      (RetainedCode table font (.ofList [1]) (font.fontDictOf 1)) subr →
      subr.scope = .localSubrs ∧ subr.index < 3 := by
    intro subr reached
    induction reached with
    | code source called =>
      obtain ⟨glyph, ⟨bound, _⟩, _, rfl⟩ := source
      obtain rfl | rfl : glyph = 0 ∨ glyph = 1 := by omega
      · exact blank.of_mem_calls called
      · exact direct.of_mem_calls called
    | @subr caller _ _ called induction =>
      obtain ⟨scope, i⟩ := caller
      obtain ⟨rfl, small⟩ := induction
      exact (nested i small).of_mem_calls called
  refine ⟨table, font, _, read, present, retained, endsUnlimited_of_inlined_lt few,
    Array.mem_toList_iff.1 (List.mem_of_getLast? last), fun used => ?_⟩
  have reached := (mem_reach_iff_of_retains read present retained).1 (mem_localSubrs.1 used)
  exact absurd (closed _ reached).2 (Nat.lt_irrefl 3)

end Subset
end CompactFont
