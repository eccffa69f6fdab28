import CompactFont.Proofs.Checked.Structures
import CompactFont.Proofs.Table.Reading

/-!
Checked readers of fonts and of tables. Reading a table agrees with reading it checked: it never
leaves a range, it fails only at positions of the table, and everything that it describes lies in
the table.
-/

set_option autoImplicit false

namespace CompactFont

variable {bytes : ByteArray}

/-! ### Operands of entries -/

namespace Dict.Entry

variable {entry : Entry} {stop : Nat}

theorem agree_integer (inside : entry.span.Inside stop) (i : Nat) :
    AgreeOn stop (fun _ => True) (entry.integer i) (entry.integer i) := by
  unfold integer
  split
  · exact .ok trivial
  · exact .failed (Nat.le_trans inside.ordered inside.inside)

theorem agree_natural (inside : entry.span.Inside stop) (i : Nat) :
    AgreeOn stop (fun _ => True) (entry.natural i) (entry.natural i) := by
  apply AgreeOn.bind (agree_integer inside i)
  intro value _
  split
  · exact .failed (Nat.le_trans inside.ordered inside.inside)
  · exact .ok trivial

end Dict.Entry

/-! ### Private DICTs and Font DICTs -/

namespace PrivateDict

theorem agree_locateSubrs {start : Nat} {found : Option Index} {entry : Dict.Entry}
    (inside : entry.span.Inside bytes.size) (known : ∀ index ∈ found, index.Inside bytes.size) :
    AgreeOn bytes.size (fun subrs => ∀ index ∈ subrs, index.Inside bytes.size)
      (locateSubrs bytes start found entry) (locateSubrs bytes start found entry) := by
  unfold locateSubrs
  split
  · apply AgreeOn.bind (Dict.Entry.agree_natural inside 0)
    intro offset _
    apply AgreeOn.bind (AgreeOn.attributeTo _ (Index.agree_readAt bytes (start + offset)))
    intro index placed
    refine .ok fun other same => ?_
    cases same
    exact placed.1
  · exact .ok known

theorem agree_readSpan (bytes : ByteArray) (span : Span) :
    AgreeOn bytes.size (fun privateDict => privateDict.Inside bytes.size)
      (readSpan bytes span) (readSpan bytes span) := by
  apply AgreeOn.bind (Dict.agree_readSpan bytes span)
  intro entries ⟨placed, each⟩
  have located : AgreeOn bytes.size (fun subrs => ∀ index ∈ subrs, index.Inside bytes.size)
      (entries.foldlM (locateSubrs bytes span.start) none)
      (entries.foldlM (locateSubrs bytes span.start) none) := by
    apply AgreeOn.array_foldlM
    · intro found known entry listed
      exact agree_locateSubrs (each entry listed) known
    · intro index absent
      cases absent
  apply AgreeOn.bind located
  intro subrs known
  exact .ok ⟨placed, each, known⟩

theorem agree_ofEntry {entry : Dict.Entry} (inside : entry.span.Inside bytes.size) :
    AgreeOn bytes.size (fun privateDict => privateDict.Inside bytes.size)
      (ofEntry bytes entry) (ofEntry bytes entry) := by
  apply AgreeOn.bind (Dict.Entry.agree_natural inside 0)
  intro size _
  apply AgreeOn.bind (Dict.Entry.agree_natural inside 1)
  intro offset _
  exact AgreeOn.attributeTo _ (agree_readSpan bytes _)

end PrivateDict

namespace FontDict

theorem agree_readSpan (bytes : ByteArray) (span : Span) :
    AgreeOn bytes.size (fun fontDict => fontDict.Inside bytes.size) (readSpan bytes span)
      (readSpan bytes span) := by
  apply AgreeOn.bind (Dict.agree_readSpan bytes span)
  intro entries ⟨_, each⟩
  cases located : entries.find? (·.operator = .privateDict) with
  | none => exact .ok ⟨each, fun _ absent => nomatch absent⟩
  | some entry =>
    apply AgreeOn.bind (PrivateDict.agree_ofEntry (each entry (Array.mem_of_find?_eq_some located)))
    intro privateDict inside
    refine .ok ⟨each, fun other same => ?_⟩
    cases same
    exact inside

theorem agree_readArray (bytes : ByteArray) (offset : Nat) :
    AgreeOn bytes.size
      (fun fontDicts => offset ≤ bytes.size ∧ fontDicts.size ≤ 65535 ∧
        ∀ fontDict ∈ fontDicts, fontDict.Inside bytes.size)
      (readArray bytes offset) (readArray bytes offset) := by
  apply AgreeOn.bind (Index.agree_readAt bytes offset)
  intro index ⟨inside, bound⟩
  apply AgreeOn.bind (Index.agree_count inside.some)
  rintro _ rfl
  have listed : AgreeOn bytes.size
      (fun fontDicts => ∀ fontDict ∈ fontDicts, fontDict.Inside bytes.size)
      ((Array.range index.size).mapM fun i => do readSpan bytes (← index.locate i))
      ((Array.range index.size).mapM fun i => do readSpan bytes (← index.locate i)) := by
    apply AgreeOn.array_mapM
    intro i found
    apply AgreeOn.bind (Index.agree_locate (Array.mem_range.1 found))
    rintro _ rfl
    exact agree_readSpan bytes _
  have counted := listed.and_ok fun _ read => (range_mapM_eq_ok.1 read).1
  apply counted.imp
  intro fontDicts ⟨each, size⟩
  exact ⟨bound, size ▸ inside.few, each⟩

end FontDict

/-! ### Fonts -/

namespace TopDict

def PrivateInside (stop : Nat) (top : TopDict) : Prop :=
  ∀ entry ∈ top.privateDict, entry.span.Inside stop

variable {stop : Nat}

theorem agree_add {top : TopDict} {entry : Dict.Entry} (known : top.PrivateInside stop)
    (inside : entry.span.Inside stop) :
    AgreeOn stop (PrivateInside stop) (top.add entry) (top.add entry) := by
  unfold add
  split
  case h_4 =>
    refine .ok fun other same => ?_
    cases same
    exact inside
  case h_2 | h_3 | h_5 | h_6 =>
    apply AgreeOn.bind (Dict.Entry.agree_natural inside 0)
    intro _ _
    exact .ok known
  case h_7 =>
    apply AgreeOn.bind (Dict.Entry.agree_integer inside 0)
    intro number _
    split
    · exact .ok known
    · exact .failed (Nat.le_trans inside.ordered inside.inside)
  all_goals exact .ok known

theorem agree_ofEntries {entries : Array Dict.Entry}
    (inside : ∀ entry ∈ entries, entry.span.Inside stop) :
    AgreeOn stop (PrivateInside stop) (ofEntries entries) (ofEntries entries) := by
  apply AgreeOn.array_foldlM
  · intro top known entry listed
    exact agree_add known (inside entry listed)
  · intro entry absent
    cases absent

theorem agree_required (operator : Dict.Operator) (value : Option Nat) (stop : Nat) :
    AgreeOn stop (fun _ => True) (required operator value) (required operator value) := by
  apply AgreeOn.attributeTo
  split
  · exact .ok trivial
  · exact .failed (Nat.zero_le stop)

end TopDict

theorem CharstringType.number_eq (type : CharstringType) : type.number = 1 ∨ type.number = 2 := by
  cases type with
  | type1 => exact .inl rfl
  | type2 => exact .inr rfl

namespace Font

theorem agree_readCharset (bytes : ByteArray) (offset : Option Nat) (glyphCount : Nat) :
    AgreeOn bytes.size (fun charset => ∀ found ∈ charset, found.span.Inside bytes.size)
      (readCharset bytes offset glyphCount) (readCharset bytes offset glyphCount) := by
  unfold readCharset
  cases offset with
  | none => exact .ok fun _ absent => nomatch absent
  | some offset =>
    dsimp only
    split
    · exact .ok fun _ absent => nomatch absent
    · apply AgreeOn.attributeTo
      apply AgreeOn.map _ (Charset.agree_readAt bytes offset glyphCount)
      intro charset inside found same
      cases same
      exact inside

theorem agree_readCid (bytes : ByteArray) (top : TopDict) (glyphCount : Nat) :
    AgreeOn bytes.size (fun keying => keying.Inside glyphCount bytes.size)
      (readCid bytes top glyphCount) (readCid bytes top glyphCount) := by
  apply AgreeOn.bind (TopDict.agree_required .fdArray top.fdArray bytes.size)
  intro fdArray _
  apply AgreeOn.bind (AgreeOn.attributeTo _ (FontDict.agree_readArray bytes fdArray))
  intro fontDicts ⟨bound, few, each⟩
  by_cases none : fontDicts.isEmpty = true
  · simp only [none, ↓reduceIte]
    exact .error bound
  · simp only [none]
    apply AgreeOn.bind (TopDict.agree_required .fdSelect top.fdSelect bytes.size)
    intro fdSelect _
    apply AgreeOn.bind (AgreeOn.attributeTo _
      (FdSelect.agree_readAt bytes fdSelect glyphCount fontDicts.size))
    intro select known
    refine .ok ⟨known, ?_, few, each⟩
    rw [Array.isEmpty_iff] at none
    exact Array.size_pos_iff.2 none

theorem agree_readNamed {top : TopDict} {glyphCount : Nat}
    (inside : top.PrivateInside bytes.size) :
    AgreeOn bytes.size (fun keying => keying.Inside glyphCount bytes.size)
      (readNamed bytes top) (readNamed bytes top) := by
  unfold readNamed
  cases present : top.privateDict with
  | none => exact .ok fun _ absent => nomatch absent
  | some entry =>
    apply AgreeOn.map _ (PrivateDict.agree_ofEntry (inside entry present))
    intro privateDict known found same
    cases same
    exact known

theorem agree_read {nameSpan : Span} (inside : nameSpan.Inside bytes.size) (topDictSpan : Span) :
    AgreeOn bytes.size (fun font => font.Inside bytes.size)
      (read bytes nameSpan topDictSpan) (read bytes nameSpan topDictSpan) := by
  apply AgreeOn.bind (.within ⟨inside.ordered, inside.inside⟩)
  rintro _ rfl
  apply AgreeOn.bind (AgreeOn.attributeTo _ (Dict.agree_readSpan bytes topDictSpan))
  intro entries ⟨_, each⟩
  apply AgreeOn.bind (AgreeOn.attributeTo _ (TopDict.agree_ofEntries each))
  intro top located
  apply AgreeOn.bind (TopDict.agree_required .charStrings top.charStrings bytes.size)
  intro offset _
  apply AgreeOn.bind (AgreeOn.attributeTo _ (Index.agree_readAt bytes offset))
  intro charStrings ⟨glyphs, _⟩
  apply AgreeOn.bind (Index.agree_count glyphs.some)
  rintro _ rfl
  apply AgreeOn.bind (agree_readCharset bytes top.charset charStrings.size)
  intro charset named
  have built : ∀ keying : Keying, keying.Inside charStrings.size bytes.size →
      Font.Inside ⟨Text.Utf8.decode (nameSpan.slice bytes), nameSpan, entries, top.charstringType,
        charStrings, charset, keying⟩ bytes.size :=
    fun _ known => ⟨inside, each, top.charstringType.number_eq, glyphs, named, known⟩
  by_cases cid : top.isCid = true
  · simp only [cid, ↓reduceIte]
    exact AgreeOn.bind (agree_readCid bytes top charStrings.size)
      fun keying known => .ok (built keying known)
  · simp only [cid, Bool.false_eq_true, ↓reduceIte]
    exact AgreeOn.bind (agree_readNamed located) fun keying known => .ok (built keying known)

end Font
end CompactFont
