import CompactFont.Proofs.Content.Labels
import CompactFont.Proofs.Content.Soundness
import CompactFont.Proofs.Layout.Tiling

/-!
A table that is written from a sound content is read, and the font in it has that content. Each
structure is read where its place is, and its DICT says so.
-/

set_option autoImplicit false

namespace CompactFont

open Subset Layout

variable {out : ByteArray} {places : List (Place × Nat)} {pos : Nat}

/-! ### DICTs in the output -/

/-- The form of an entry: the one that was given, or one that locates a structure. -/
def Fills (located : Dict.Form → Prop) : Option Dict.Form → Dict.Form → Prop
  | some given, form => form = given
  | none, form => located form

def StandsAs (out : ByteArray) (places : List (Place × Nat)) (located : Dict.Form → Prop)
    (entry : Option Dict.Form) (part : List TablePiece) : Prop :=
  ∀ pos, Stands out places pos part → ∃ form, Fills located entry form ∧ form.Sound ∧
    Holds out pos form.raw ∧ form.raw.length = Layout.size part

theorem forms_of_standsAs {located : Dict.Form → Prop} {entries : List (Option Dict.Form)}
    {parts : List (List TablePiece)}
    (each : List.Forall₂ (StandsAs out places located) entries parts)
    (stands : Stands out places pos parts.flatten) :
    ∃ forms, List.Forall₂ (Fills located) entries forms ∧ (∀ form ∈ forms, form.Sound) ∧
      Holds out pos (Dict.raws forms) ∧ (Dict.raws forms).length = Layout.size parts.flatten := by
  induction each generalizing pos with
  | nil => exact ⟨[], .nil, by simp, .nil stands.le_size, rfl⟩
  | cons first _ induction =>
    rw [List.flatten_cons] at stands ⊢
    obtain ⟨form, related, sound, holds, length⟩ := first pos stands.left
    have later := stands.right
    rw [← length] at later
    obtain ⟨forms, others, sounds, rest, total⟩ := induction later
    refine ⟨form :: forms, .cons related others, ?_, ?_, ?_⟩
    · intro other listed
      rcases List.mem_cons.1 listed with rfl | listed
      · exact sound
      · exact sounds other listed
    · rw [Dict.raws_cons]
      exact holds.append rest
    · rw [Dict.raws_cons, List.length_append, length, total, size_append]

theorem stands_locator {target : Place} {base : Option Place} {operator : Dict.Operator}
    (stands : Stands out places pos
      [.offset target base .dictOperand, .literal operator.encode]) :
    ∃ offset, distance places target base = Except.ok offset ∧ offset ≤ OutputError.maxOperand ∧
      Holds out pos (Dict.Form.locator offset operator).raw := by
  obtain ⟨offset, measured, small, holds, rest⟩ := stands.offset
  obtain ⟨code, _⟩ := rest.literal
  refine ⟨offset, measured, small, holds.append ?_⟩
  rw [OffsetForm.length_encode]
  exact code

theorem length_locator (offset : Nat) (operator : Dict.Operator) :
    (Dict.Form.locator offset operator).raw.length = Number.fixedLength + operator.encode.length := by
  rw [Dict.Form.locator, List.length_append, Number.length_encodeFixed]

theorem content_entriesFrom {forms : List Dict.Form} {locating : Dict.Operator}
    (holds : Holds out pos (Dict.raws forms)) :
    Dict.content out locating (Dict.entriesFrom pos forms).toArray =
      forms.map fun form => if form.operator = locating then none else some form := by
  have given := Dict.map_ofEntry_entriesFrom holds
  conv_rhs => rw [← given]
  rw [Dict.content, List.map_map]
  rfl

section

variable {located : Dict.Form → Prop} {locating : Dict.Operator}
  {entries : List (Option Dict.Form)} {forms : List Dict.Form}

theorem map_of_fills (fills : List.Forall₂ (Fills located) entries forms)
    (sound : Dict.SoundContent locating entries)
    (operator : ∀ form, located form → form.operator = locating) :
    (forms.map fun form => if form.operator = locating then none else some form) = entries := by
  have other := sound.other
  clear sound
  induction fills with
  | nil => rfl
  | @cons entry form entries forms first _ induction =>
    rw [List.map_cons, induction fun form listed => other form (List.mem_cons_of_mem entry listed)]
    congr 1
    cases entry with
    | none => exact if_pos (operator form first)
    | some given =>
      rw [if_neg]
      · exact congrArg some first
      · rw [show form = given from first]
        exact other given List.mem_cons_self

theorem located_of_fills (fills : List.Forall₂ (Fills located) entries forms)
    (sound : Dict.SoundContent locating entries) {form : Dict.Form} (listed : form ∈ forms)
    (same : form.operator = locating) : located form := by
  obtain ⟨i, bound, rfl⟩ := List.mem_iff_getElem.1 listed
  obtain ⟨length, each⟩ := List.forall₂_iff_get.1 fills
  have inside : i < entries.length := by omega
  have filled := each i inside bound
  simp only [List.get_eq_getElem] at filled
  cases known : entries[i] with
  | none =>
    rw [known] at filled
    exact filled
  | some given =>
    rw [known] at filled
    have present : some given ∈ entries := known ▸ List.getElem_mem _
    exact absurd ((congrArg Dict.Form.operator filled).symm.trans same)
      (sound.other given present)

theorem exists_located_of_fills (fills : List.Forall₂ (Fills located) entries forms)
    (marked : none ∈ entries) : ∃ form ∈ forms, located form := by
  obtain ⟨i, bound, known⟩ := List.mem_iff_getElem.1 marked
  obtain ⟨length, each⟩ := List.forall₂_iff_get.1 fills
  have filled := each i bound (by omega)
  simp only [List.get_eq_getElem, known] at filled
  exact ⟨_, List.getElem_mem _, filled⟩

theorem mem_entriesFrom {pos : Nat} {forms : List Dict.Form} {entry : Dict.Entry} :
    entry ∈ Dict.entriesFrom pos forms → ∃ form ∈ forms, ∃ start, entry = form.placed start := by
  intro listed
  induction forms generalizing pos with
  | nil => cases listed
  | cons form forms induction =>
    rcases List.mem_cons.1 listed with rfl | later
    · exact ⟨form, List.mem_cons_self, pos, rfl⟩
    · obtain ⟨other, present, place, same⟩ := induction later
      exact ⟨other, List.mem_cons_of_mem form present, place, same⟩

theorem exists_mem_entriesFrom (pos : Nat) {forms : List Dict.Form} {form : Dict.Form}
    (listed : form ∈ forms) : ∃ start, form.placed start ∈ Dict.entriesFrom pos forms := by
  induction forms generalizing pos with
  | nil => cases listed
  | cons first forms induction =>
    rcases List.mem_cons.1 listed with rfl | later
    · exact ⟨pos, List.mem_cons_self⟩
    · obtain ⟨place, present⟩ := induction (pos + first.raw.length) later
      exact ⟨place, List.mem_cons_of_mem _ present⟩

theorem standsAs_given {form : Dict.Form} (sound : form.Sound) :
    StandsAs out places located (some form) [.literal form.raw] := by
  intro pos stands
  refine ⟨form, rfl, sound, stands.literal.1, ?_⟩
  rw [size_cons, Piece.size_literal]
  rfl

theorem exists_dict_of_standsAs {parts : List (List TablePiece)}
    (sound : Dict.SoundContent locating entries)
    (operator : ∀ form, located form → form.operator = locating)
    (each : List.Forall₂ (StandsAs out places located) entries parts)
    (stands : Stands out places pos parts.flatten) :
    ∃ forms, List.Forall₂ (Fills located) entries forms ∧
      Dict.content out locating (Dict.entriesFrom pos forms).toArray = entries ∧
      Dict.readSpan out ⟨pos, pos + Layout.size parts.flatten⟩ =
        .ok (Dict.entriesFrom pos forms).toArray := by
  obtain ⟨forms, fills, sounds, holds, length⟩ := forms_of_standsAs each stands
  refine ⟨forms, fills, ?_, Dict.readSpan_eq_ok.2 ⟨forms, sounds, holds, by rw [length], rfl⟩⟩
  rw [content_entriesFrom holds, map_of_fills fills sound operator]

end

/-! ### Entries that locate structures -/

theorem Dict.find?_eq_none_of_content {bytes : ByteArray} {locating : Dict.Operator}
    {entries : Array Dict.Entry} (unmarked : none ∉ Dict.content bytes locating entries) :
    entries.find? (·.operator = locating) = none := by
  rw [Array.find?_eq_none]
  intro entry listed same
  exact unmarked (Dict.none_mem_content.2 ⟨entry, listed, of_decide_eq_true same⟩)

theorem Dict.exists_find?_of_content {bytes : ByteArray} {locating : Dict.Operator}
    {entries : Array Dict.Entry} (marked : none ∈ Dict.content bytes locating entries) :
    ∃ entry ∈ entries, entry.operator = locating ∧
      entries.find? (·.operator = locating) = some entry := by
  obtain ⟨entry, listed, operator⟩ := Dict.none_mem_content.1 marked
  have first : (entries.find? (·.operator = locating)).isSome := by
    rw [Array.find?_isSome]
    exact ⟨entry, listed, decide_eq_true operator⟩
  obtain ⟨found, locates⟩ := Option.isSome_iff_exists.1 first
  have matched := Array.find?_some locates
  exact ⟨found, Array.mem_of_find?_eq_some locates, of_decide_eq_true matched, locates⟩

/-! ### Private DICTs -/

namespace PrivateDict

variable {bytes : ByteArray} {start : Nat}

theorem foldlM_locateSubrs_of_forall_ne {entries : List Dict.Entry} {found : Option Index}
    (other : ∀ entry ∈ entries, entry.operator ≠ .subrs) :
    entries.foldlM (locateSubrs bytes start) found = .ok found := by
  induction entries with
  | nil => rfl
  | cons entry entries induction =>
    rw [List.foldlM_cons]
    refine bind_eq_ok.2 ⟨found, ?_, induction fun later listed =>
      other later (List.mem_cons_of_mem entry listed)⟩
    rw [locateSubrs, if_neg (other entry List.mem_cons_self)]
    rfl

/-- If all `Subrs` entries locate one INDEX, it is the one that counts. -/
theorem foldlM_locateSubrs_eq {entries : List Dict.Entry} {found : Option Index} {offset : Nat}
    {index : Index} (read : Index.readAt bytes (start + offset) = .ok index)
    (each : ∀ entry ∈ entries, entry.operator = .subrs → entry.natural 0 = .ok offset)
    (located : found = some index ∨ ∃ entry ∈ entries, entry.operator = .subrs) :
    entries.foldlM (locateSubrs bytes start) found = .ok (some index) := by
  induction entries generalizing found with
  | nil =>
    rcases located with rfl | ⟨_, listed, _⟩
    · rfl
    · cases listed
  | cons entry entries induction =>
    have rest := fun later listed => each later (List.mem_cons_of_mem entry listed)
    rw [List.foldlM_cons]
    by_cases same : entry.operator = .subrs
    · refine bind_eq_ok.2 ⟨some index, ?_, induction rest (.inl rfl)⟩
      rw [locateSubrs, if_pos same]
      exact bind_eq_ok.2 ⟨offset, each entry List.mem_cons_self same, bind_eq_ok.2
        ⟨index, attributeTo_eq_ok.2 read, rfl⟩⟩
    · refine bind_eq_ok.2 ⟨found, ?_, induction rest ?_⟩
      · rw [locateSubrs, if_neg same]
        rfl
      · rcases located with given | ⟨later, listed, known⟩
        · exact .inl given
        · rcases List.mem_cons.1 listed with rfl | listed
          · exact absurd known same
          · exact .inr ⟨later, listed, known⟩

def LocatesSubrs (places : List (Place × Nat)) (i : Nat) (form : Dict.Form) : Prop :=
  ∃ offset, distance places (.localSubrs i) (some (.privateDict i)) = Except.ok offset ∧
    form = .locator offset .subrs

theorem LocatesSubrs.operator {i : Nat} {form : Dict.Form} (locates : LocatesSubrs places i form) :
    form.operator = .subrs := by
  obtain ⟨_, _, rfl⟩ := locates
  rfl

theorem standsAs_entryPieces {entries : List (Option Dict.Form)}
    (sound : Dict.SoundContent .subrs entries) (i : Nat) :
    List.Forall₂ (StandsAs out places (LocatesSubrs places i)) entries
      (entries.map (Content.entryPieces i)) := by
  rw [List.forall₂_map_right_iff, List.forall₂_same]
  intro entry listed
  cases entry with
  | some form => exact standsAs_given (sound.sound form listed)
  | none =>
    intro pos stands
    obtain ⟨offset, measured, small, holds⟩ := stands_locator stands
    refine ⟨_, ⟨offset, measured, rfl⟩,
      Dict.Form.sound_locator small (Dict.spells_ofByte 19 (by decide) (by decide)), holds, ?_⟩
    rw [length_locator]
    rfl

/-- All entries that locate local subroutines locate the INDEX that was written. -/
theorem foldlM_locateSubrs_entriesFrom {entries : List (Option Dict.Form)} {forms : List Dict.Form}
    {i offset : Nat} {index : Index} (sound : Dict.SoundContent .subrs entries)
    (fills : List.Forall₂ (Fills (LocatesSubrs places i)) entries forms) (marked : none ∈ entries)
    (measured : distance places (.localSubrs i) (some (.privateDict i)) = Except.ok offset)
    (located : Index.readAt out (pos + offset) = .ok index) :
    (Dict.entriesFrom pos forms).toArray.foldlM (locateSubrs out pos) none = .ok (some index) := by
  rw [List.foldlM_toArray]
  apply foldlM_locateSubrs_eq located
  · intro entry listed same
    obtain ⟨form, present, place, rfl⟩ := mem_entriesFrom listed
    obtain ⟨_, distance, rfl⟩ := located_of_fills fills sound present same
    rw [measured] at distance
    cases distance
    exact Dict.Entry.natural_eq_ok rfl
  · obtain ⟨form, present, _, _, rfl⟩ := exists_located_of_fills fills marked
    obtain ⟨place, listed⟩ := exists_mem_entriesFrom pos present
    exact .inr ⟨_, listed, rfl⟩

/-- The local subroutines of a Private DICT follow it directly, as each of its `Subrs` entries says. -/
def Adjoins (privateDict : PrivateDict) : Prop :=
  ∀ entry ∈ privateDict.entries, entry.operator = .subrs →
    entry.operands = #[.integer privateDict.span.length] ∧
      ∃ index, privateDict.subrs = some index ∧ index.start = privateDict.span.stop

def spans (privateDict : PrivateDict) : List Span :=
  privateDict.span :: (privateDict.subrs.map Index.span).toList

/-- The Private DICT and its local subroutines are read where they stand. -/
theorem Content.exists_read {content : PrivateDict.Content} {i : Nat} {block : PrivateBlock}
    (sound : content.Sound) (laid : content.block i = .ok block)
    (stands : Stands out places pos block.placed) :
    places.lookup (.privateDict i) = some pos ∧ ∃ privateDict,
      readSpan out ⟨pos, pos + Layout.size block.pieces⟩ = .ok privateDict ∧
        privateDict.content out = content ∧ privateDict.Adjoins ∧
        Span.Tile pos privateDict.spans (pos + Layout.size block.placed) := by
  obtain ⟨subrs, encoded, same⟩ := bind_eq_ok.1 laid
  cases same
  rw [PrivateBlock.placed, List.cons_append] at stands
  obtain ⟨placed, stands⟩ := stands.place
  refine ⟨placed, ?_⟩
  unfold PrivateBlock.placed
  dsimp only at stands ⊢
  rw [List.flatMap_def] at stands ⊢
  obtain ⟨forms, fills, entries, read⟩ := exists_dict_of_standsAs sound.entries
    (fun _ => LocatesSubrs.operator) (standsAs_entryPieces sound.entries i) stands.left
  have tail := stands.right
  rcases mapM_option_eq_ok.1 encoded with ⟨none, rfl⟩ | ⟨bodies, raw, some, rfl, written⟩
  · have other : ∀ entry ∈ Dict.entriesFrom pos forms, entry.operator ≠ .subrs := by
      intro entry listed same
      have marked : Option.none ∈ content.entries := by
        rw [← entries]
        exact Dict.none_mem_content.2 ⟨entry, List.mem_toArray.2 listed, same⟩
      have located := sound.located.2 marked
      rw [none] at located
      cases located
    refine ⟨⟨_, (Dict.entriesFrom pos forms).toArray, Option.none⟩,
      readSpan_eq_ok.2 ⟨rfl, read, ?_⟩, ?_, fun entry listed same => ?_, ?_⟩
    · rw [List.foldlM_toArray]
      exact foldlM_locateSubrs_of_forall_ne other
    · rw [PrivateDict.content, entries, Option.map_none, ← none]
    · exact absurd same (other entry (List.mem_toArray.1 listed))
    · rw [List.append_nil, size_cons, Piece.size, Nat.zero_add]
      exact .single pos _
  · obtain ⟨target, tail⟩ := tail.place
    obtain ⟨holdsSubrs, _⟩ := tail.bytes
    obtain ⟨index, located, elements, span⟩ := Index.exists_readAt_of_encode written holdsSubrs
    have measured := distance_of_lookup target placed (Nat.le_add_right _ _)
    rw [Nat.add_sub_cancel_left] at measured
    have marked := sound.located.1 (by rw [some]; rfl)
    refine ⟨⟨_, (Dict.entriesFrom pos forms).toArray, Option.some index⟩, readSpan_eq_ok.2 ⟨rfl,
      read, foldlM_locateSubrs_entriesFrom sound.entries fills marked measured located⟩, ?_,
      fun entry listed same => ⟨?_, index, rfl, congrArg Span.start span⟩, ?_⟩
    · rw [PrivateDict.content, entries, Option.map_some, elements, ← some]
    · obtain ⟨form, present, place, rfl⟩ := mem_entriesFrom (List.mem_toArray.1 listed)
      obtain ⟨_, distance, rfl⟩ := located_of_fills fills sound.entries present same
      rw [measured] at distance
      cases distance
      rw [Span.length, Nat.add_sub_cancel_left]
      rfl
    · rw [List.cons_append, size_cons, Piece.size, Nat.zero_add, size_append, ← Nat.add_assoc]
      have total : Layout.size [(.place (.localSubrs i) : TablePiece), .bytes raw] = raw.size := by
        rw [size_cons, size_singleton, Piece.size, Piece.size, Nat.zero_add]
      refine (Span.Tile.single pos _).append ?_
      rw [Option.map_some, span, total]
      exact .single _ _

end PrivateDict

/-! ### Font DICTs -/

def Subset.FontDictBlock.placed (block : FontDictBlock) : List TablePiece :=
  block.privateBlock.toList.flatMap PrivateBlock.placed

theorem Subset.flatMap_placed (blocks : List FontDictBlock) :
    (blocks.filterMap FontDictBlock.privateBlock).flatMap PrivateBlock.placed =
      (blocks.map FontDictBlock.placed).flatten := by
  induction blocks with
  | nil => rfl
  | cons block blocks induction =>
    rw [List.map_cons, List.flatten_cons, ← induction, FontDictBlock.placed]
    cases own : block.privateBlock <;> simp [own]

namespace FontDict

theorem stands_entry {block : PrivateBlock} {part : List TablePiece}
    (written : block.entry = Except.ok part) (stands : Stands out places pos part) :
    ∃ start, places.lookup (.privateDict block.fontDict) = some start ∧
      (Dict.Form.extent (Layout.size block.pieces) start .privateDict).Sound ∧
      Holds out pos (Dict.Form.extent (Layout.size block.pieces) start .privateDict).raw ∧
      (Dict.Form.extent (Layout.size block.pieces) start .privateDict).raw.length =
        Layout.size part := by
  obtain ⟨size, bounded, same⟩ := bind_eq_ok.1 written
  obtain ⟨smallSize, rfl⟩ := OutputError.atMost_eq_ok_iff.1 bounded
  cases same
  obtain ⟨holdsSize, rest⟩ := stands.literal
  obtain ⟨start, measured, small, holds⟩ := stands_locator rest
  refine ⟨start, distance_from_start.1 measured, Dict.Form.sound_extent smallSize small
    (Dict.spells_ofByte 18 (by decide) (by decide)), holdsSize.append holds, ?_⟩
  rw [size_cons, Piece.size_literal, Dict.Form.extent, List.length_append, List.length_append,
    Number.length_encodeFixed]
  rfl

def LocatesPrivate (places : List (Place × Nat)) (block : Option PrivateBlock) (form : Dict.Form) :
    Prop :=
  ∃ own start, block = some own ∧ places.lookup (.privateDict own.fontDict) = some start ∧
    form = .extent (Layout.size own.pieces) start .privateDict

theorem LocatesPrivate.operator {block : Option PrivateBlock} {form : Dict.Form}
    (locates : LocatesPrivate places block form) : form.operator = .privateDict := by
  obtain ⟨_, _, _, _, rfl⟩ := locates
  rfl

theorem standsAs_entryPieces {entries : List (Option Dict.Form)} {block : Option PrivateBlock}
    {parts : List (List TablePiece)} (sound : Dict.SoundContent .privateDict entries)
    (located : none ∈ entries → block.isSome)
    (written : entries.mapM (Content.entryPieces block) = .ok parts) :
    List.Forall₂ (StandsAs out places (LocatesPrivate places block)) entries parts := by
  have members :=
    (List.forall₂_and_left _ _).2 ⟨fun entry listed => listed, mapM_eq_ok.1 written⟩
  refine members.imp fun entry part ⟨listed, filled⟩ => ?_
  cases entry with
  | some form =>
    cases filled
    exact standsAs_given (sound.sound form listed)
  | none =>
    intro pos stands
    obtain ⟨own, rfl⟩ := Option.isSome_iff_exists.1 (located listed)
    obtain ⟨start, found, entrySound, holds, length⟩ := stands_entry filled stands
    exact ⟨_, ⟨own, start, rfl, found, rfl⟩, entrySound, holds, length⟩

/-- Every `Private` entry of a Font DICT gives the size and the position of its Private DICT, which
its local subroutines follow. -/
structure LocatesOwn (fontDict : FontDict) : Prop where
  entries : ∀ entry ∈ fontDict.entries, entry.operator = .privateDict →
    ∃ own, fontDict.privateDict = some own ∧
      entry.operands = #[.integer own.span.length, .integer own.span.start]
  privateDict : ∀ own ∈ fontDict.privateDict, own.Adjoins

def privateSpans (fontDict : FontDict) : List Span :=
  fontDict.privateDict.toList.flatMap PrivateDict.spans

/-- A Font DICT is read where it stands, and its Private DICT where it is said to stand. -/
theorem Content.exists_read {content : FontDict.Content} {i : Nat} {block : FontDictBlock}
    (sound : content.Sound) (laid : content.block i = .ok block)
    (stands : Stands out places pos block.pieces)
    (others : ∀ own ∈ block.privateBlock, ∃ start, Stands out places start own.placed) :
    ∃ fontDict, readSpan out ⟨pos, pos + Layout.size block.pieces⟩ = .ok fontDict ∧
      fontDict.content out = content ∧ fontDict.LocatesOwn ∧
      ∀ start, Stands out places start block.placed →
        Span.Tile start fontDict.privateSpans (start + Layout.size block.placed) := by
  obtain ⟨own, ownLaid, laid⟩ := bind_eq_ok.1 laid
  obtain ⟨parts, written, same⟩ := bind_eq_ok.1 laid
  cases same
  dsimp only at stands others ⊢
  have known : none ∈ content.entries → own.isSome := by
    rw [isSome_of_mapM ownLaid]
    exact sound.located.2
  obtain ⟨forms, fills, entries, read⟩ := exists_dict_of_standsAs sound.entries
    (fun _ => LocatesPrivate.operator) (standsAs_entryPieces sound.entries known written) stands
  rcases mapM_option_eq_ok.1 ownLaid with ⟨absent, rfl⟩ | ⟨inner, located, present, rfl, innerLaid⟩
  · have unmarked : none ∉ content.entries := by
      intro marked
      cases known marked
    rw [← entries] at unmarked
    have other : ∀ entry ∈ (Dict.entriesFrom pos forms).toArray,
        entry.operator ≠ .privateDict := fun entry listed same =>
      unmarked (Dict.none_mem_content.2 ⟨entry, listed, same⟩)
    refine ⟨⟨_, none⟩, readSpan_eq_ok.2 ⟨read, ?_⟩, ?_, ⟨fun entry listed same => ?_,
      fun _ present => nomatch present⟩, fun _ _ => rfl⟩
    · rw [Dict.find?_eq_none_of_content unmarked]
      rfl
    · rw [FontDict.content, entries, Option.map_none, ← absent]
    · exact absurd same (other entry listed)
  · obtain ⟨start, standsInner⟩ := others located rfl
    obtain ⟨placed, privateDict, readInner, same, adjoins, tile⟩ :=
      PrivateDict.Content.exists_read (sound.privateDict inner present) innerLaid standsInner
    obtain ⟨span, _⟩ := PrivateDict.readSpan_eq_ok.1 readInner
    have marked := sound.located.1 (by rw [present]; rfl)
    rw [← entries] at marked
    -- all entries that locate the Private DICT are written alike
    have locates : ∀ entry ∈ (Dict.entriesFrom pos forms).toArray, entry.operator = .privateDict →
        entry.operands = #[.integer privateDict.span.length, .integer privateDict.span.start] ∧
          PrivateDict.ofEntry out entry = .ok privateDict := by
      intro entry listed operator
      obtain ⟨form, given, place, rfl⟩ := mem_entriesFrom (List.mem_toArray.1 listed)
      obtain ⟨_, position, same, lookup, rfl⟩ :=
        located_of_fills fills sound.entries given operator
      cases same
      rw [(PrivateDict.Content.labels_of_block innerLaid).1, placed] at lookup
      cases lookup
      refine ⟨?_, PrivateDict.ofEntry_eq_ok.2 ⟨_, _, Dict.Entry.natural_eq_ok rfl,
        Dict.Entry.natural_eq_ok rfl, readInner⟩⟩
      rw [span, Span.length, Nat.add_sub_cancel_left]
      rfl
    obtain ⟨found, listed, operator, first⟩ := Dict.exists_find?_of_content marked
    refine ⟨⟨_, some privateDict⟩, readSpan_eq_ok.2 ⟨read, ?_⟩, ?_, ⟨fun entry listed same =>
      ⟨privateDict, rfl, (locates entry listed same).1⟩, fun own given => ?_⟩, fun begin other => ?_⟩
    · rw [first]
      exact mapM_option_eq_ok.2 (.inr ⟨found, privateDict, rfl, rfl,
        (locates found listed operator).2⟩)
    · rw [FontDict.content, entries, Option.map_some, same, ← present]
    · cases given
      exact adjoins
    · rw [FontDictBlock.placed, Option.toList_some, List.flatMap_singleton] at other ⊢
      -- a label is placed once, so the Private DICT stands nowhere else
      have again := other.place.1
      rw [(PrivateDict.Content.labels_of_block innerLaid).1, placed] at again
      cases again
      rw [privateSpans, Option.toList_some, List.flatMap_singleton]
      exact tile

end FontDict

end CompactFont
