import CompactFont.Proofs.Subset.Completion
import CompactFont.Proofs.Subset.Copy

/-!
DICTs of a written subset. Their entries are those of the source, byte by byte and in the same
order, except that those which locate structures say where these are now.
-/

set_option autoImplicit false

namespace CompactFont

open Subset

/-! ### Copied entries -/

namespace Dict

structure Entry.Copied (bytes out : ByteArray) (source copy : Entry) : Prop where
  operator : copy.operator = source.operator
  operands : copy.operands = source.operands
  raw : copy.raw out = source.raw bytes

/-- An entry is a copy of another one, or it locates a structure, as the other one does. -/
structure Entry.CopiedUnless (locating : Operator) (located : Entry → Prop) (bytes out : ByteArray)
    (source copy : Entry) : Prop where
  operator : copy.operator = source.operator
  copied : source.operator ≠ locating → source.Copied bytes out copy
  located : source.operator = locating → located copy

variable {bytes out : ByteArray}

theorem Entry.Copied.of_form {source copy : Entry}
    (same : Form.ofEntry out copy = Form.ofEntry bytes source) : source.Copied bytes out copy :=
  ⟨congrArg Form.operator same, congrArg Form.operands same,
    listed_injective (congrArg Form.raw same)⟩

theorem forall₂_copied {sources copies : List Entry}
    (same : copies.map (Form.ofEntry out) = sources.map (Form.ofEntry bytes)) :
    List.Forall₂ (Entry.Copied bytes out) sources copies := by
  have forms : List.Forall₂ Eq (sources.map (Form.ofEntry bytes)) (copies.map (Form.ofEntry out)) := by
    rw [List.forall₂_eq_eq_eq, same]
  rw [List.forall₂_map_left_iff, List.forall₂_map_right_iff] at forms
  exact forms.imp fun _ _ equal => .of_form equal.symm

theorem map_operator_of_forall₂ {sources copies : List Entry}
    (copied : List.Forall₂ (Entry.Copied bytes out) sources copies) :
    copies.map (·.operator) = sources.map (·.operator) := by
  induction copied with
  | nil => rfl
  | cons first _ induction => rw [List.map_cons, List.map_cons, first.operator, induction]

theorem Entry.CopiedUnless.of_content {locating : Operator} {located : Entry → Prop}
    {source copy : Entry}
    (same : (if copy.operator = locating then none else some (Form.ofEntry out copy)) =
      if source.operator = locating then none else some (Form.ofEntry bytes source))
    (locates : copy.operator = locating → located copy) :
    source.CopiedUnless locating located bytes out copy := by
  split at same
  · next here =>
    split at same
    · next there => exact ⟨here.trans there.symm, fun other => absurd there other, fun _ => locates here⟩
    · cases same
  · next other =>
    split at same
    · cases same
    · next there =>
      have copied := Entry.Copied.of_form (Option.some.inj same)
      exact ⟨copied.operator, fun _ => copied, fun known => absurd known there⟩

theorem located_of_forall₂ {locating : Operator} {located : Entry → Prop}
    {sources copies : List Entry}
    (copied : List.Forall₂ (Entry.CopiedUnless locating located bytes out) sources copies)
    (all : ∀ entry ∈ sources, entry.operator = locating) :
    ∀ entry ∈ copies, entry.operator = locating ∧ located entry := by
  induction copied with
  | nil =>
    intro entry listed
    cases listed
  | cons first _ induction =>
    obtain ⟨own, rest⟩ := List.forall_mem_cons.1 all
    exact List.forall_mem_cons.2 ⟨⟨first.operator.trans own, first.located own⟩, induction rest⟩

/-- DICTs with the same content have the same entries, as far as these do not locate a structure. -/
theorem forall₂_copiedUnless {locating : Operator} {located : Entry → Prop}
    {sources copies : Array Entry}
    (same : Dict.content out locating copies = Dict.content bytes locating sources)
    (locates : ∀ entry ∈ copies, entry.operator = locating → located entry) :
    List.Forall₂ (Entry.CopiedUnless locating located bytes out) sources.toList copies.toList := by
  simp only [← Array.mem_toList_iff] at locates
  unfold Dict.content at same
  generalize sources.toList = xs, copies.toList = ys at *
  induction xs generalizing ys with
  | nil =>
    rw [List.map_nil, List.map_eq_nil_iff] at same
    rw [same]
    exact .nil
  | cons x xs induction =>
    cases ys with
    | nil => cases same
    | cons y ys =>
      rw [List.map_cons, List.map_cons, List.cons.injEq] at same
      obtain ⟨first, rest⟩ := List.forall_mem_cons.1 locates
      exact .cons (.of_content same.1 first) (induction ys same.2 rest)

end Dict

/-! ### What locates structures -/

def Dict.Entry.Locates (privateDict : Option PrivateDict) (entry : Dict.Entry) : Prop :=
  ∃ own, privateDict = some own ∧
    entry.operands = #[.integer own.span.length, .integer own.span.start]

/-- A `Subrs` entry that gives the length of its Private DICT, which the local subroutines follow. -/
def Dict.Entry.LocatesSubrs (own : PrivateDict) (entry : Dict.Entry) : Prop :=
  entry.operands = #[.integer own.span.length] ∧
    ∃ index, own.subrs = some index ∧ index.start = own.span.stop

def Font.fontDict? (font : Font) (i : Nat) : Option FontDict :=
  match font.keying with
  | .named _ => none
  | .cid _ fontDicts => fontDicts[i]?

theorem Font.exists_fontDict? {font : Font} {i : Nat} (cid : font.isCid = true)
    (inside : i < font.fontDictCount) : ∃ source, font.fontDict? i = some source := by
  obtain ⟨select, fontDicts, keying⟩ := Font.isCid_eq_true.1 cid
  rw [Font.fontDictCount, keying] at inside
  rw [Font.fontDict?, keying]
  exact ⟨_, Array.getElem?_eq_getElem inside⟩

theorem Font.privateDict_eq_bind {font : Font} (cid : font.isCid = true) (i : Nat) :
    font.privateDict i = (font.fontDict? i).bind FontDict.privateDict := by
  obtain ⟨select, fontDicts, keying⟩ := Font.isCid_eq_true.1 cid
  rw [Font.privateDict, Font.fontDict?, keying]

def Font.Content.privateEntries (content : Font.Content) (i : Nat) :
    Option (List (Option Dict.Form)) :=
  (content.fontDicts[i]?.bind FontDict.Content.privateDict).map PrivateDict.Content.entries

/-- The content of a font has the Private DICTs of the font, and one without entries where promotion
adds it. -/
theorem Font.privateEntries_content (table : Table) {font : Font} {i : Nat}
    (inside : i < font.fontDictCount) :
    (∀ source ∈ font.privateDict i, (font.content table).privateEntries i =
      some (Dict.content table.bytes .subrs source.entries)) ∧
    (font.privateDict i = none → ∀ entries ∈ (font.content table).privateEntries i,
      entries = []) := by
  unfold Font.Content.privateEntries Font.content Font.privateDict
  unfold Font.fontDictCount at inside
  cases keying : font.keying with
  | named privateDict =>
    rw [keying] at inside
    obtain rfl : i = 0 := Nat.lt_one_iff.1 inside
    cases privateDict with
    | none =>
      refine ⟨fun _ present => (Option.not_mem_none _ present).elim, fun _ entries found => ?_⟩
      cases found
      rfl
    | some privateDict =>
      refine ⟨fun source present => ?_, fun absent => absurd absent (Option.some_ne_none _)⟩
      cases present
      rfl
  | cid select fontDicts =>
    simp only [List.getElem?_map, Array.getElem?_toList]
    cases fontDicts[i]? with
    | none => exact ⟨fun _ present => (Option.not_mem_none _ present).elim,
        fun _ _ found => (Option.not_mem_none _ found).elim⟩
    | some own =>
      simp only [Option.map_some, Option.bind_some, FontDict.content]
      cases own.privateDict with
      | none => exact ⟨fun _ present => (Option.not_mem_none _ present).elim,
          fun _ _ found => (Option.not_mem_none _ found).elim⟩
      | some privateDict =>
        refine ⟨fun source present => ?_, fun absent => absurd absent (Option.some_ne_none _)⟩
        cases present
        rfl

namespace CopyOf

variable {table written : Table} {font copy : Font} {wanted : GlyphSet} {i : Nat}

/-! ### The Top DICT -/

/-- The entries of the written Top DICT are those that promotion adds, those that are kept, and those
that locate structures. -/
theorem topDict (copyOf : CopyOf table font wanted written copy) :
    ∃ promotion kept locating, copy.topDict.toList = promotion ++ kept ++ locating ∧
      promotion.map (.ofEntry written.bytes) =
        (if font.isCid then [] else Font.promotedEntries table font) ∧
      List.Forall₂ (Dict.Entry.Copied table.bytes written.bytes)
        (font.topDict.toList.filter (!isReplaced ·.operator)) kept ∧
      locating.map (·.operator) = [.fdArray, .fdSelect, .charset, .charStrings] := by
  obtain ⟨forms, fdArray, fdSelect, charset, charStrings, ends, copied⟩ := copyOf.locatesOwn.topDict
  have content : TopDict.keptForms written.bytes copy.topDict.toList =
      (if font.isCid then [] else Font.promotedEntries table font) ++
        TopDict.keptForms table.bytes font.topDict.toList := by
    have same := congrArg Font.Content.topDict copyOf.content
    simp only [Font.Content.restrict, Font.content, copyOf.isCid, ↓reduceIte, List.nil_append] at same
    exact same
  rw [TopDict.keptForms_eq_filter, ends, Font.Content.filter_append_locators copied] at content
  rw [content] at ends
  obtain ⟨front, locating, whole, frontForms, locators⟩ := List.map_eq_append_iff.1 ends
  obtain ⟨promotion, kept, rfl, promoted, same⟩ := List.map_eq_append_iff.1 frontForms
  refine ⟨promotion, kept, locating, whole, promoted, Dict.forall₂_copied same, ?_⟩
  have operators := congrArg (List.map Dict.Form.operator) locators
  rw [List.map_map] at operators
  exact operators

/-! ### Font DICTs and Private DICTs -/

theorem fontDict?_content (copyOf : CopyOf table font wanted written copy)
    (kept : (ofFont table font wanted).kept.fontDicts i = true) :
    (copy.fontDict? i).map (FontDict.content written.bytes) =
      (font.content table).fontDicts[i]?.map fun own => { own with
        privateDict := own.privateDict.map
          (.restrict ((ofFont table font wanted).kept.localSubrs i)) } := by
  obtain ⟨select, fontDicts, keying⟩ := Font.isCid_eq_true.1 copyOf.isCid
  have restrict : FontDict.Content.restrict (ofFont table font wanted).kept i =
      fun own => { own with
        privateDict := own.privateDict.map
          (.restrict ((ofFont table font wanted).kept.localSubrs i)) } := by
    funext own
    rw [FontDict.Content.restrict, if_pos kept]
  have same := congrArg (fun content => content.fontDicts[i]?) copyOf.content
  simp only [Font.Content.restrict, List.getElem?_mapIdx, restrict] at same
  rw [← same]
  simp only [Font.fontDict?, Font.content, keying, List.getElem?_map, Array.getElem?_toList]

theorem privateDict_eq (copyOf : CopyOf table font wanted written copy) (i : Nat) :
    copy.privateDict i = (copy.fontDict? i).bind FontDict.privateDict :=
  Font.privateDict_eq_bind copyOf.isCid i

theorem locatesOwn_of_fontDict? (copyOf : CopyOf table font wanted written copy)
    {own : FontDict} (present : copy.fontDict? i = some own) : own.LocatesOwn := by
  unfold Font.fontDict? at present
  split at present
  · cases present
  · next select fontDicts keying =>
    exact copyOf.locatesOwn.fontDicts select fontDicts keying own (Array.mem_of_getElem? present)

theorem fontDict (copyOf : CopyOf table font wanted written copy)
    (used : i ∈ (ofFont table font wanted).fontDicts) {source : FontDict}
    (present : font.fontDict? i = some source) :
    ∃ target, copy.fontDict? i = some target ∧
      List.Forall₂ (Dict.Entry.CopiedUnless .privateDict (Dict.Entry.Locates (copy.privateDict i))
        table.bytes written.bytes) source.entries.toList target.entries.toList := by
  have content : (font.content table).fontDicts[i]? = some (source.content table.bytes) := by
    unfold Font.fontDict? at present
    unfold Font.content
    split at present
    · cases present
    · next keying =>
      simp only [keying, List.getElem?_map, Array.getElem?_toList, present, Option.map_some]
  have same := copyOf.fontDict?_content (kept_fontDicts_of_mem used)
  rw [content, Option.map_some, Option.map_eq_some_iff] at same
  obtain ⟨target, found, same⟩ := same
  have locates := copyOf.locatesOwn_of_fontDict? found
  refine ⟨target, found, Dict.forall₂_copiedUnless (congrArg FontDict.Content.entries same) ?_⟩
  intro entry listed operator
  rw [copyOf.privateDict_eq, found]
  exact locates.entries entry listed operator

theorem adjoins_of_privateDict (copyOf : CopyOf table font wanted written copy)
    {own : PrivateDict} (present : copy.privateDict i = some own) : own.Adjoins := by
  rw [copyOf.privateDict_eq] at present
  obtain ⟨fontDict, found, given⟩ := Option.bind_eq_some_iff.1 present
  exact (copyOf.locatesOwn_of_fontDict? found).privateDict own given

theorem privateDict_content (copyOf : CopyOf table font wanted written copy)
    (kept : (ofFont table font wanted).kept.fontDicts i = true) :
    (copy.privateDict i).map (fun own => Dict.content written.bytes .subrs own.entries) =
      (font.content table).privateEntries i := by
  unfold Font.Content.privateEntries
  have same := copyOf.fontDict?_content kept
  rw [copyOf.privateDict_eq]
  cases source : (font.content table).fontDicts[i]? with
  | none =>
    rw [source, Option.map_none, Option.map_eq_none_iff] at same
    rw [same]
    rfl
  | some own =>
    rw [source, Option.map_some, Option.map_eq_some_iff] at same
    obtain ⟨target, found, same⟩ := same
    have entries := congrArg (fun content : FontDict.Content =>
      content.privateDict.map PrivateDict.Content.entries) same
    simp only [FontDict.content, Option.map_map] at entries
    rw [found]
    exact entries

/-- The entries of a Private DICT. Promotion of a font without one adds one without entries. -/
theorem privateDict (copyOf : CopyOf table font wanted written copy)
    (emitted : i ∈ (ofFont table font wanted).fontDicts ∨ font.isCid = false ∧ i = 0) :
    (∀ source ∈ font.privateDict i, ∃ target ∈ copy.privateDict i,
      List.Forall₂ (Dict.Entry.CopiedUnless .subrs (Dict.Entry.LocatesSubrs target) table.bytes
        written.bytes) source.entries.toList target.entries.toList) ∧
    (font.privateDict i = none → ∀ target ∈ copy.privateDict i, target.entries = #[]) := by
  have kept : (ofFont table font wanted).kept.fontDicts i = true := by
    rcases emitted with used | ⟨named, _⟩
    · exact kept_fontDicts_of_mem used
    · rw [Subset.kept, Bool.or_eq_true]
      exact .inr (by rw [ofFont, named]; rfl)
  have inside : i < font.fontDictCount := by
    rcases emitted with used | ⟨named, rfl⟩
    · exact copyOf.lt_of_mem_fontDicts used
    · exact Nat.lt_of_le_of_lt (Nat.zero_le _) (copyOf.fontDictOf_lt 0)
  have content := copyOf.privateDict_content kept
  obtain ⟨given, added⟩ := Font.privateEntries_content table inside
  refine ⟨fun source present => ?_, fun absent target found => ?_⟩
  · rw [given source present, Option.map_eq_some_iff] at content
    obtain ⟨target, found, same⟩ := content
    exact ⟨target, found, Dict.forall₂_copiedUnless same (copyOf.adjoins_of_privateDict found)⟩
  · have none := added absent (Dict.content written.bytes .subrs target.entries)
    rw [← content, Option.mem_def, found] at none
    have empty := none rfl
    rw [Dict.content, List.map_eq_nil_iff, Array.toList_eq_nil_iff] at empty
    exact empty

end CopyOf

def locatingOperators : List Dict.Operator :=
  [.encoding, .privateDict, .fdSelect, .fdArray, .charset, .charStrings]

theorem Subset.isReplaced_iff {operator : Dict.Operator} :
    isReplaced operator = true ↔ operator ∈ locatingOperators := by
  unfold isReplaced locatingOperators
  cases operator <;> simp

/-- DICTs of a subset that is written, as they are read again: the Top DICT has the entries of its
source, except those that locate structures, after the ones that make a font CID-keyed and before
the ones that locate the structures of the output. Font DICTs in use have all of their entries, and
each `Private` entry gives the size and the position of the Private DICT. Private DICTs have all of
theirs, and each `Subrs` entry gives the length of the Private DICT, where the local subroutines
start. -/
theorem subsetFont_entries {data out : ByteArray} {table : Table} {fontIndex : Nat}
    {wanted : GlyphSet} {subset : Subset} (read : Table.read data = .ok table)
    (completed : subsetFont table fontIndex wanted = .ok (subset, out)) :
    ∃ font written copy, table.fonts[fontIndex]? = some font ∧
      Table.read out = .ok written ∧ written.fonts = #[copy] ∧
      (∃ promotion kept locating, copy.topDict.toList = promotion ++ kept ++ locating ∧
        promotion.map (fun entry => (entry.operator, entry.operands)) =
          (if font.isCid then [] else
            [(.ros, #[.integer table.nextStringId, .integer (table.nextStringId + 1 : Nat),
              .integer 0]), (.cidCount, #[.integer font.glyphCount])]) ∧
        List.Forall₂ (Dict.Entry.Copied data out)
          (font.topDict.toList.filter (·.operator ∉ locatingOperators)) kept ∧
        locating.map (·.operator) = [.fdArray, .fdSelect, .charset, .charStrings]) ∧
      (font.isCid = true → ∀ i ∈ subset.fontDicts, ∃ source target,
        font.fontDict? i = some source ∧ copy.fontDict? i = some target ∧
        List.Forall₂ (Dict.Entry.CopiedUnless .privateDict
          (Dict.Entry.Locates (copy.privateDict i)) data out)
          source.entries.toList target.entries.toList) ∧
      ∀ i, (i ∈ subset.fontDicts ∨ font.isCid = false ∧ i = 0) →
        (∀ source ∈ font.privateDict i, ∃ target ∈ copy.privateDict i,
          List.Forall₂ (Dict.Entry.CopiedUnless .subrs (Dict.Entry.LocatesSubrs target) data out)
            source.entries.toList target.entries.toList) ∧
        (font.privateDict i = none → ∀ target ∈ copy.privateDict i, target.entries = #[]) := by
  obtain ⟨selected, encoded⟩ := subsetFont_eq_ok.1 completed
  obtain ⟨font, present, _, rfl⟩ := select_eq_ok.1 selected
  obtain ⟨written, copy, readAgain, only, copyOf⟩ := exists_copy read present encoded
  obtain ⟨rfl, _⟩ := Table.read_eq_ok.1 read
  obtain ⟨rfl, _⟩ := Table.read_eq_ok.1 readAgain
  obtain ⟨promotion, kept, locating, whole, promoted, copied, located⟩ := copyOf.topDict
  refine ⟨font, written, copy, present, readAgain, only,
    ⟨promotion, kept, locating, whole, ?_, ?_, located⟩, ?_, fun i => copyOf.privateDict⟩
  · have given := congrArg
      (List.map fun form : Dict.Form => (form.operator, form.operands)) promoted
    rw [List.map_map] at given
    refine given.trans ?_
    split <;> rfl
  · have same : (font.topDict.toList.filter (·.operator ∉ locatingOperators)) =
        font.topDict.toList.filter (!isReplaced ·.operator) := by
      apply List.filter_congr
      intro entry _
      rw [decide_not, ← Bool.decide_coe (isReplaced entry.operator)]
      simp only [isReplaced_iff]
    rw [same]
    exact copied
  · intro cid i used
    obtain ⟨source, found⟩ := Font.exists_fontDict? cid (copyOf.lt_of_mem_fontDicts used)
    obtain ⟨target, written, entries⟩ := copyOf.fontDict used found
    exact ⟨source, target, found, written, entries⟩

/-- The Top DICT keeps its first entry; the only entries of Font DICT 1 and of its Private DICT locate
what they did before. -/
theorem subsetFont_entries_sharedSubr :
    ∃ table subset out written copy target own, Table.read sharedSubrTable = .ok table ∧
      subsetFont table 0 (.ofList [1]) = .ok (subset, out) ∧ Table.read out = .ok written ∧
      written.fonts = #[copy] ∧
      copy.topDict.toList.map (·.operator) = [.ros, .fdArray, .fdSelect, .charset, .charStrings] ∧
      copy.fontDict? 1 = some target ∧ target.entries.size = 1 ∧ copy.privateDict 1 = some own ∧
      own.entries.size = 1 ∧
      (∀ entry ∈ target.entries, entry.operator = .privateDict ∧ entry.Locates (some own)) ∧
      ∀ entry ∈ own.entries, entry.operator = .subrs ∧ entry.LocatesSubrs own := by
  obtain ⟨table, read, font, present, cid, kept, ⟨source, sourceAt, single, locates⟩, ⟨origin,
      originAt, one, locatesSubrs⟩, ⟨subset, out⟩, completed, used⟩ :
      ∃ table, Table.read sharedSubrTable = .ok table ∧ ∃ font : Font, font ∈ table.fonts[0]? ∧
        font.isCid = true ∧
        (font.topDict.toList.filter (·.operator ∉ locatingOperators)).map (·.operator) = [.ros] ∧
        (∃ source ∈ font.fontDict? 1, source.entries.size = 1 ∧
          ∀ entry ∈ source.entries.toList, entry.operator = .privateDict) ∧
        (∃ origin ∈ font.privateDict 1, origin.entries.size = 1 ∧
          ∀ entry ∈ origin.entries.toList, entry.operator = .subrs) ∧
        ∃ written, subsetFont table 0 (.ofList [1]) = .ok written ∧ 1 ∈ written.1.fontDicts := by
    decide +kernel
  obtain ⟨_, written, copy, found, readAgain, only, ⟨promotion, copies, locating, whole, promoted,
    copied, located⟩, fontDicts, privateDicts⟩ := subsetFont_entries read completed
  cases Option.some.inj (found.symm.trans present)
  obtain ⟨_, target, own, targetAt, entries⟩ := fontDicts cid 1 used
  cases Option.some.inj (own.symm.trans sourceAt)
  obtain ⟨privateDict, privateAt, subrs⟩ := (privateDicts 1 (.inl used)).1 origin originAt
  rw [privateAt] at entries
  have added : promotion = [] := by
    rw [cid, if_pos rfl, List.map_eq_nil_iff] at promoted
    exact promoted
  have size := entries.length_eq
  have privateSize := subrs.length_eq
  refine ⟨table, subset, out, written, copy, target, privateDict, read, completed, readAgain, only,
    ?_, targetAt, size.symm.trans single, privateAt, privateSize.symm.trans one, ?_, ?_⟩
  · rw [whole, added, List.nil_append, List.map_append, Dict.map_operator_of_forall₂ copied, kept,
      located]
    rfl
  · intro entry listed
    exact Dict.located_of_forall₂ entries locates entry (Array.mem_toList_iff.2 listed)
  · intro entry listed
    exact Dict.located_of_forall₂ subrs locatesSubrs entry (Array.mem_toList_iff.2 listed)

end CompactFont
