import CompactFont.Proofs.Checked.Tables
import CompactFont.Proofs.Demands.FontDicts
import CompactFont.Proofs.Subset.Closure
import CompactFont.Proofs.Subset.Completion

/-!
What writing a subset relies on. Counts and string numbers are small because they are those of
structures that were read, and all that the Top DICT locates is placed once; only the size of the
output can be too large.
-/

set_option autoImplicit false

namespace CompactFont

open Subset Layout

namespace Accounts

variable {subset : Subset}

theorem glyphCount (inside : subset.Inside) :
    Accounts (· = subset.font.glyphCount) subset.glyphCount subset.glyphCount := by
  apply bind (ordered inside.font.charStrings.some)
  rintro _ rfl
  exact .pure rfl

theorem promotionEntries (inside : subset.Inside) :
    Accounts (Linked [] []) subset.promotionEntries subset.promotionEntries := by
  have strings := inside.table.strings.few
  have glyphs := inside.font.charStrings.few
  apply ite
  · intro _
    exact .pure .nil
  intro _
  have names : ∀ value ∈ [subset.table.nextStringId, subset.table.nextStringId + 1, 0],
      value ≤ OutputError.maxOperand := by
    unfold Table.nextStringId Table.firstStringId OutputError.maxOperand
    simp only [List.mem_cons, List.not_mem_nil, or_false, forall_eq_or_imp, forall_eq]
    omega
  have count : ∀ value ∈ [subset.font.glyphCount], value ≤ OutputError.maxOperand := by
    unfold Font.glyphCount OutputError.maxOperand
    simp only [List.mem_singleton, forall_eq]
    omega
  apply bind (firstAddedString inside)
  rintro _ rfl
  apply bind (encodeEntry names _)
  intro ros _
  apply bind (glyphCount inside)
  rintro _ rfl
  apply bind (encodeEntry count _)
  intro cidCount _
  exact .pure (.bytes _ .nil)

theorem topDictPieces (inside : subset.Inside) :
    Accounts (fun pieces => ∀ known : List Place,
        [Place.fdArray, .fdSelect, .charset, .charStrings] ⊆ known → Linked [] known pieces)
      subset.topDictPieces subset.topDictPieces := by
  apply bind (promotionEntries inside)
  intro promotion added
  have copies : ∀ entry ∈ subset.font.topDict.toList.filter (!isReplaced ·.operator),
      Accounts (fun piece => ∃ content, piece = .bytes content)
        (Subset.copyEntry subset.table.bytes entry) (Subset.copyEntry subset.table.bytes entry) := by
    intro entry listed
    have source := Array.mem_toList_iff.1 (List.mem_filter.1 listed).1
    exact copyEntry (inside.font.topDict entry source)
  apply bind (forall_mapM copies)
  intro kept copied
  refine .pure fun known places => ?_
  have fdArray : Place.fdArray ∈ known := places (by decide)
  have fdSelect : Place.fdSelect ∈ known := places (by decide)
  have charset : Place.charset ∈ known := places (by decide)
  have charStrings : Place.charStrings ∈ known := places (by decide)
  have front := (added.mono (List.nil_sublist known)).append (.of_bytes copied)
  have located := ((front.append (.locate fdArray .fdArray)).append
    (.locate fdSelect .fdSelect)).append (.locate charset .charset)
  exact located.append (.locate charStrings .charStrings)

theorem promotionStrings (inside : subset.Inside) :
    Accounts (fun added => added.length = addedStringCount) subset.promotionStrings
      subset.promotionStrings := by
  have name := inside.font.nameSpan
  apply bind (slice ⟨name.ordered, name.inside⟩)
  rintro _ rfl
  exact .pure rfl

theorem stringPieces (inside : subset.Inside) :
    Accounts (Linked [] []) subset.stringPieces subset.stringPieces := by
  have strings := inside.table.strings
  apply ite
  · intro _
    apply bind (element (Nat.sub_lt strings.some Nat.zero_lt_one))
    rintro _ rfl
    apply bind (slice ⟨strings.span.ordered, strings.span.inside⟩)
    rintro _ rfl
    exact .pure (.bytes _ .nil)
  · intro named
    have fits := inside.strings (Bool.eq_false_iff.2 named)
    apply bind (promotionStrings inside)
    intro added few
    apply bind (ordered strings.some)
    rintro _ rfl
    apply bind (mapM fun i listed => copyElement strings (List.mem_range.1 listed))
    intro kept each
    apply (index _).imp
    · rintro _ ⟨header, rfl⟩
      refine .bytes header (.flatten fun part listed => ?_)
      obtain ⟨string, _, rfl⟩ := List.mem_map.1 listed
      exact .bytes string .nil
    · rw [List.length_map, List.length_append, few, ← each.length_eq, List.length_range]
      exact fits

/-! ### FDSelects and charsets -/

theorem encodableGlyphCount (inside : subset.Inside) :
    Accounts (fun _ => True) subset.encodableGlyphCount subset.encodableGlyphCount := by
  apply bind (glyphCount inside)
  rintro _ rfl
  exact (atMost (.inl inside.font.charStrings.few)).imp fun _ _ => trivial

theorem encodeFdSelect (inside : subset.Inside) :
    Accounts (fun _ => True) subset.encodeFdSelect subset.encodeFdSelect := by
  have within := inside.font.keying
  unfold Subset.encodeFdSelect
  cases keying : subset.font.keying with
  | named privateDict =>
    apply bind (encodableGlyphCount inside)
    intro _ _
    exact .pure trivial
  | cid select fontDicts =>
    rw [keying] at within
    have span := within.1.span
    exact (slice ⟨span.ordered, span.inside⟩).imp fun _ _ => trivial

theorem encodeIdentity (inside : subset.Inside) :
    Accounts (fun _ => True) subset.encodeIdentity subset.encodeIdentity := by
  apply bind (encodableGlyphCount inside)
  intro count _
  apply ite
  · intro _
    exact .pure trivial
  · intro many
    apply bind (ordered (Nat.not_le.1 many))
    rintro _ rfl
    exact .pure trivial

theorem encodeCharset (inside : subset.Inside) :
    Accounts (fun _ => True) subset.encodeCharset subset.encodeCharset := by
  unfold Subset.encodeCharset
  cases subset.font.keying with
  | named privateDict => exact encodeIdentity inside
  | cid select fontDicts =>
    cases custom : subset.font.charset with
    | none => exact encodeIdentity inside
    | some charset =>
      have span := inside.font.charset charset custom
      exact (slice ⟨span.ordered, span.inside⟩).imp fun _ _ => trivial

/-! ### The whole table -/

/-- No place is labelled twice, and all that pieces refer to is labelled. -/
theorem pieces (inside : subset.Inside) :
    Accounts (fun pieces => (labels pieces).Nodup ∧
        ∀ piece ∈ pieces, piece.Resolves (labels pieces))
      subset.pieces subset.pieces := by
  have nameSpan := inside.font.nameSpan
  apply bind (slice ⟨Nat.zero_le _, inside.table.header.2⟩)
  intro header _
  apply bind (slice ⟨nameSpan.ordered, nameSpan.inside⟩)
  intro name _
  apply bind (index_singleton _)
  rintro _ ⟨nameHeader, rfl⟩
  apply bind (topDictPieces inside)
  intro topDict topDictLinked
  apply bind (index_singleton topDict)
  rintro _ ⟨topDictHeader, rfl⟩
  apply bind (stringPieces inside)
  intro strings stringsLinked
  apply bind (encodeKept inside.table.globalSubrs _ _)
  intro globalSubrs _
  apply bind (encodeFdSelect inside)
  intro fdSelect _
  apply bind (encodeCharset inside)
  intro charset _
  apply bind (fontDictPieces inside)
  intro fontDicts ⟨blocks, distinct, fontDictsLinked⟩
  apply bind (encodeKept inside.font.charStrings _ _)
  intro charStrings _
  have start : Linked [] (tablePlaces blocks) [.bytes header, .bytes nameHeader, .bytes name] :=
    .bytes header (.bytes nameHeader (.bytes name .nil))
  have located : [Place.fdArray, .fdSelect, .charset, .charStrings] ⊆ tablePlaces blocks :=
    fun _ listed => mem_tablePlaces listed
  have front := (start.append ((topDictLinked _ located).bytes topDictHeader)).append
    (stringsLinked.mono (List.nil_sublist _))
  have middle : Linked [Place.fdSelect, .charset] (tablePlaces blocks) [.bytes globalSubrs,
      .place .fdSelect, .bytes fdSelect, .place .charset, .bytes charset] :=
    .bytes _ (.place (located (by decide)) (.bytes _ (.place (located (by decide)) (.bytes _ .nil))))
  have last : Linked [Place.charStrings] (tablePlaces blocks)
      [.place .charStrings, .bytes charStrings] := .place (located (by decide)) (.bytes _ .nil)
  have whole := ((front.append middle).append fontDictsLinked).append last
  have labelled : labels _ = tablePlaces blocks := whole.labels
  refine .pure ⟨?_, ?_⟩
  · exact labelled ▸ nodup_tablePlaces distinct
  · exact labelled ▸ whole.resolves

theorem encode (inside : subset.Inside) :
    Accounts (fun _ => True) subset.encode subset.encode := by
  apply bind (pieces inside)
  intro pieces ⟨distinct, resolves⟩
  exact assemble distinct resolves

end Accounts

namespace Subset

variable {data : ByteArray} {table : Table} {fontIndex : Nat} {wanted : GlyphSet} {subset : Subset}

theorem inside_of_select (read : Table.read data = .ok table)
    (selected : select table fontIndex wanted = .ok subset) : subset.Inside := by
  obtain ⟨font, present, fits, rfl⟩ := select_eq_ok.1 selected
  obtain ⟨rfl, inside⟩ := Table.inside_of_read read
  refine ⟨inside, inside.fonts font (Array.mem_of_getElem? present), fits, ?_⟩
  exact (Array.size_map ..).trans Array.size_range

/-- All that writing a subset relies on holds, whatever the table is and whichever glyphs are wanted,
except that INDEX payloads, lengths of Private DICTs and offsets may be too large. There is output
if none of them is; otherwise writing fails because of one that is. -/
theorem encode_demands (read : Table.read data = .ok table)
    (selected : select table fontIndex wanted = .ok subset) :
    let written : Demanding ByteArray := subset.encode
    (∀ demand ∈ written.demands, demand.Met ∨ demand.OfSize) ∧
      ((∃ out, subset.encode = Except.ok out) ↔
        ∀ demand ∈ written.demands, demand.OfSize → demand.Met) ∧
      (∀ out, subset.encode = Except.ok out → out = written.value) ∧
      ∀ error, subset.encode = Except.error error →
        ∃ demand ∈ written.demands, demand.OfSize ∧ demand.Raises error := by
  intro written
  have accounts := Accounts.encode (inside_of_select read selected)
  have settled := accounts.settled
  refine ⟨settled, ?_⟩
  rcases accounts.outcome with ⟨done, met⟩ | ⟨fault, failed, demand, listed, raises⟩
  · rw [done]
    refine ⟨⟨fun _ demand listed _ => met demand listed, fun _ => ⟨_, rfl⟩⟩, ?_, ?_⟩
    · intro out same
      cases same
      rfl
    · intro error same
      cases same
  · rw [failed]
    have sized := (settled demand listed).resolve_left raises.not_met
    refine ⟨⟨?_, fun all => absurd (all demand listed sized) raises.not_met⟩, ?_, ?_⟩
    · rintro ⟨out, same⟩
      cases same
    · intro out same
      cases same
    · intro error same
      cases same
      exact ⟨demand, listed, sized, raises⟩

/-- The local subroutines of Font DICT 1 are labelled once, six bytes after its Private DICT, and the
output is small enough. -/
theorem encode_demands_sharedSubr :
    ∃ table subset out, Table.read sharedSubrTable = .ok table ∧
      select table 0 (.ofList [1]) = .ok subset ∧ subset.encode = Except.ok out ∧
      let written : Demanding ByteArray := subset.encode
      out = written.value ∧ .atMost OutputError.maxOperand .offset 6 ∈ written.demands ∧
      .placed (.localSubrs 1) [.fdSelect, .charset, .fdArray, .privateDict 0, .localSubrs 0,
        .privateDict 1, .localSubrs 1, .charStrings] ∈ written.demands ∧
      ∀ demand ∈ written.demands, demand.Met := by
  obtain ⟨table, read, subset, selected, ⟨offset, placed⟩, out, encoded, _⟩ :
      ∃ table, Table.read sharedSubrTable = .ok table ∧
        ∃ subset, select table 0 (.ofList [1]) = .ok subset ∧
        (.atMost OutputError.maxOperand .offset 6 ∈ (subset.encode : Demanding _).demands ∧
          .placed (.localSubrs 1) [.fdSelect, .charset, .fdArray, .privateDict 0, .localSubrs 0,
            .privateDict 1, .localSubrs 1, .charStrings] ∈ (subset.encode : Demanding _).demands) ∧
        ∃ out, subset.encode = Except.ok out ∧ out.size = 136 := by
    decide +kernel
  obtain ⟨settled, sized, same, _⟩ := encode_demands read selected
  refine ⟨table, subset, out, read, selected, encoded, same out encoded, offset, placed, ?_⟩
  intro demand listed
  exact (settled demand listed).elim id (sized.1 ⟨out, encoded⟩ demand listed)

end Subset
end CompactFont
