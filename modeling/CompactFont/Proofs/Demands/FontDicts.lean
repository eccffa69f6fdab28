import CompactFont.Proofs.Content.Labels
import CompactFont.Proofs.Demands.Layout
import CompactFont.Proofs.Table.Bounds

/-!
What writing copies of INDEXes and DICTs relies on. The source lies in the bytes that it was read
from, and a Font DICT refers to its Private DICT, which is placed once with its local subroutines.
-/

set_option autoImplicit false

namespace CompactFont

open Subset Layout

/-- The structures of a subset lie in the bytes of its table, and the strings that promotion adds
fit. -/
structure Subset.Inside (subset : Subset) : Prop where
  table : subset.table.Inside subset.table.bytes.size
  font : subset.font.Inside subset.table.bytes.size
  strings : subset.font.isCid = false →
    subset.table.strings.size + addedStringCount ≤ maxStringCount
  reaches : subset.reaches.size = subset.font.fontDictCount

structure Subset.PrivateBlock.Placed (i : Nat) (block : PrivateBlock) : Prop where
  fontDict : block.fontDict = i
  pieces : Linked [] (privatePlaces block) block.pieces

structure Subset.FontDictBlock.Placed (i : Nat) (block : FontDictBlock) : Prop where
  pieces : Linked [] (block.privateBlock.elim [] privatePlaces) block.pieces
  privateBlock : ∀ privateBlock ∈ block.privateBlock, privateBlock.Placed i

theorem Subset.PrivateBlock.Placed.linked {i : Nat} {block : PrivateBlock} (placed : block.Placed i) :
    Linked (privatePlaces block) (privatePlaces block) block.placed := by
  obtain ⟨number, pieces, subrs⟩ := block
  have own := placed.pieces
  cases subrs with
  | none => exact .place List.mem_cons_self (own.append .nil)
  | some subrs =>
    have last : Linked [.localSubrs number] [.privateDict number, .localSubrs number]
        [.place (.localSubrs number), .bytes subrs] :=
      .place (List.mem_cons_of_mem _ List.mem_cons_self) (.bytes subrs .nil)
    exact .place List.mem_cons_self (own.append last)

/-! ### The places of Font DICTs in those of the table -/

namespace Layout

variable {blocks : List FontDictBlock}

theorem sublist_blockPlaces {privateBlock : PrivateBlock}
    (listed : privateBlock ∈ blocks.filterMap FontDictBlock.privateBlock) :
    (privatePlaces privateBlock).Sublist (blockPlaces blocks) :=
  List.sublist_flatten_of_mem (List.mem_map_of_mem listed)

theorem sublist_tablePlaces : (blockPlaces blocks).Sublist (tablePlaces blocks) :=
  (List.sublist_append_right _ _).trans (List.sublist_append_left _ _)

theorem mem_tablePlaces {place : Place}
    (listed : place ∈ [Place.fdArray, .fdSelect, .charset, .charStrings]) :
    place ∈ tablePlaces blocks := by
  simp only [List.mem_cons, List.not_mem_nil, or_false] at listed
  rcases listed with rfl | rfl | rfl | rfl <;> simp [tablePlaces]

theorem linked_fontDicts (placed : ∀ block ∈ blocks, ∃ i, block.Placed i) :
    Linked [] (blockPlaces blocks) (blocks.map FontDictBlock.pieces).flatten := by
  apply Linked.flatten
  intro part listed
  obtain ⟨block, present, rfl⟩ := List.mem_map.1 listed
  obtain ⟨i, own⟩ := placed block present
  apply own.pieces.mono
  cases found : block.privateBlock with
  | none => exact List.nil_sublist _
  | some privateBlock => exact sublist_blockPlaces (List.mem_filterMap.2 ⟨block, present, found⟩)

theorem linked_privateDicts (placed : ∀ block ∈ blocks, ∃ i, block.Placed i) :
    Linked (blockPlaces blocks) (blockPlaces blocks)
      ((blocks.filterMap FontDictBlock.privateBlock).flatMap PrivateBlock.placed) := by
  apply Linked.flatMap
  intro privateBlock listed
  obtain ⟨block, present, found⟩ := List.mem_filterMap.1 listed
  obtain ⟨i, own⟩ := placed block present
  exact (own.privateBlock privateBlock found).linked.mono (sublist_blockPlaces listed)

end Layout

namespace Accounts

variable {bytes : ByteArray} {subset : Subset}

/-! ### Elements and entries -/

theorem copyElement {index : Index} (inside : index.Inside bytes.size) {i : Nat}
    (bound : i < index.size) :
    Accounts (fun _ => True) (Subset.copyElement bytes index i)
      (Subset.copyElement bytes index i) := by
  have counted : index.size = index.offsets.size - 1 := rfl
  have span := inside.elementSpan bound
  apply bind (element (by omega))
  rintro _ rfl
  apply bind (element (by omega))
  rintro _ rfl
  exact (slice ⟨span.ordered, span.inside⟩).imp fun _ _ => trivial

theorem encodeKept {index : Index} (inside : index.Inside bytes.size) (kept : DiscoverySet)
    (blank : ByteArray) :
    Accounts (fun _ => True) (Subset.encodeKept bytes index kept blank)
      (Subset.encodeKept bytes index kept blank) := by
  apply bind (ordered inside.some)
  rintro _ rfl
  have elements : ∀ i ∈ List.range index.size, Accounts (fun _ => True)
      (if kept.contains i then Subset.copyElement bytes index i else Pure.pure blank)
      (if kept.contains i then Subset.copyElement bytes index i else Pure.pure blank) := by
    intro i listed
    apply ite
    · intro _
      exact copyElement inside (List.mem_range.1 listed)
    · intro _
      exact .pure trivial
  apply bind (mapM elements)
  intro bodies each
  apply encodeIndex
  rw [← each.length_eq, List.length_range]
  exact inside.few

theorem encodeEntry {operands : List Nat} (fits : ∀ value ∈ operands, value ≤ OutputError.maxOperand)
    (operator : Dict.Operator) :
    Accounts (fun _ => True) (Subset.encodeEntry operands operator)
      (Subset.encodeEntry operands operator) := by
  apply bind (mapM fun value listed => atMost (.inl (fits value listed)))
  intro _ _
  exact .pure trivial

theorem copyEntry {entry : Dict.Entry} (inside : entry.span.Inside bytes.size) :
    Accounts (fun piece => ∃ content, piece = .bytes content) (Subset.copyEntry bytes entry)
      (Subset.copyEntry bytes entry) := by
  apply bind (slice ⟨inside.ordered, inside.inside⟩)
  intro content _
  exact .pure ⟨content, rfl⟩

theorem singleton_copyEntry {entry : Dict.Entry} (inside : entry.span.Inside bytes.size)
    (known : List Place) :
    Accounts (Linked [] known) (do return [← Subset.copyEntry bytes entry])
      (do return [← Subset.copyEntry bytes entry]) := by
  apply bind (copyEntry inside)
  rintro _ ⟨content, rfl⟩
  exact .pure (.bytes content .nil)

/-! ### Private DICTs -/

theorem privateEntry {entry : Dict.Entry} (inside : entry.span.Inside bytes.size) (i : Nat)
    (subrs : Option ByteArray) :
    Accounts (Linked [] (privatePlaces ⟨i, [], subrs⟩))
      (Subset.privateEntry bytes i subrs.isSome entry)
      (Subset.privateEntry bytes i subrs.isSome entry) := by
  apply ite
  · intro located
    obtain ⟨content, rfl⟩ := Option.isSome_iff_exists.1 located.2
    refine .pure ⟨rfl, List.forall_mem_cons.2 ⟨⟨rfl, ?_, ?_⟩, List.forall_mem_singleton.2 trivial⟩⟩
    · exact List.mem_cons_of_mem _ (List.mem_singleton_self _)
    · intro place counted
      cases counted
      exact List.Sublist.refl _
  · intro _
    exact singleton_copyEntry inside _

theorem privateBlock (inside : subset.Inside) {i : Nat} (bound : i < subset.font.fontDictCount)
    {privateDict : PrivateDict} (within : privateDict.Inside subset.table.bytes.size) :
    Accounts (PrivateBlock.Placed i) (Subset.privateBlock subset i privateDict)
      (Subset.privateBlock subset i privateDict) := by
  have subrs : ∀ index ∈ privateDict.subrs, Accounts (fun _ => True)
      (do
        Writer.element i subset.reaches.size
        Subset.encodeKept subset.table.bytes index (subset.localSubrs i) blankSubr)
      (do
        Writer.element i subset.reaches.size
        Subset.encodeKept subset.table.bytes index (subset.localSubrs i) blankSubr) := by
    intro index present
    apply bind (element (inside.reaches ▸ bound))
    rintro _ rfl
    exact encodeKept (within.subrs index present) _ _
  apply bind (mapM_option subrs)
  intro subrs _
  apply bind (forall_mapM fun entry listed =>
    privateEntry (within.entries entry (Array.mem_toList_iff.1 listed)) i subrs)
  intro parts linked
  exact .pure ⟨rfl, .flatten linked⟩

theorem blockEntry (block : PrivateBlock) :
    Accounts (Linked [] (privatePlaces block)) block.entry block.entry := by
  have sized : (Demand.atMost OutputError.maxOperand .privateDictSize
    (Layout.size block.pieces)).OfSize := rfl
  apply bind (atMost (.inr sized))
  intro size _
  refine .pure (.bytes _ (.locate ?_ _))
  exact List.mem_cons_self

/-! ### Font DICTs -/

theorem fontDictEntry {entry : Dict.Entry} (inside : entry.span.Inside bytes.size)
    (block : Option PrivateBlock) :
    Accounts (Linked [] (block.elim [] privatePlaces))
      (Subset.fontDictEntry bytes block entry) (Subset.fontDictEntry bytes block entry) := by
  unfold Subset.fontDictEntry
  cases entry.operator with
  | privateDict =>
    cases block with
    | some block => exact blockEntry block
    | none => exact singleton_copyEntry inside _
  | _ => exact singleton_copyEntry inside _

theorem fontDictBlock (inside : subset.Inside) {i : Nat} (bound : i < subset.font.fontDictCount)
    {fontDict : FontDict} (within : fontDict.Inside subset.table.bytes.size) :
    Accounts (FontDictBlock.Placed i) (subset.fontDictBlock i fontDict)
      (subset.fontDictBlock i fontDict) := by
  apply ite
  · intro _
    apply bind (mapM_option fun privateDict present =>
      privateBlock inside bound (within.privateDict privateDict present))
    intro block placed
    apply bind (forall_mapM fun entry listed =>
      fontDictEntry (within.entries entry (Array.mem_toList_iff.1 listed)) block)
    intro parts linked
    exact .pure ⟨.flatten linked, placed⟩
  · intro _
    exact .pure ⟨.nil, fun _ absent => nomatch absent⟩

theorem firstAddedString (inside : subset.Inside) :
    Accounts (· = subset.table.nextStringId) subset.firstAddedString subset.firstAddedString := by
  apply bind (ordered inside.table.strings.some)
  rintro _ rfl
  exact .pure rfl

theorem promotedFontDict (inside : subset.Inside) {privateDict : Option PrivateDict}
    (keying : subset.font.keying = .named privateDict) :
    Accounts (FontDictBlock.Placed 0) (subset.promotedFontDict privateDict)
      (subset.promotedFontDict privateDict) := by
  have fits : ∀ value ∈ [subset.table.nextStringId + 2], value ≤ OutputError.maxOperand := by
    have few := inside.table.strings.few
    intro value listed
    cases List.mem_singleton.1 listed
    unfold Table.nextStringId Table.firstStringId OutputError.maxOperand
    omega
  have fontDict : ∀ block : PrivateBlock, block.Placed 0 → Accounts (FontDictBlock.Placed 0)
      (do
        let name ← Subset.encodeEntry [(← subset.firstAddedString) + 2] .fontName
        return ⟨.literal name :: (← block.entry), some block⟩)
      (do
        let name ← Subset.encodeEntry [(← subset.firstAddedString) + 2] .fontName
        return ⟨.literal name :: (← block.entry), some block⟩) := by
    intro block placed
    apply bind (firstAddedString inside)
    rintro _ rfl
    apply bind (encodeEntry fits _)
    intro name _
    apply bind (blockEntry block)
    intro entry linked
    refine .pure ⟨.bytes _ linked, fun other same => ?_⟩
    cases same
    exact placed
  cases privateDict with
  | none => exact fontDict (.blank 0) ⟨rfl, .nil⟩
  | some privateDict =>
    have within := inside.font.keying
    rw [keying] at within
    have bound : 0 < subset.font.fontDictCount := by
      rw [Font.fontDictCount, keying]
      exact Nat.zero_lt_one
    exact bind (privateBlock inside bound (within privateDict rfl)) fontDict

theorem fontDictBlocks (inside : subset.Inside) :
    Accounts (fun blocks => blocks.length = subset.font.fontDictCount ∧
        ∀ (i : Nat) (block : FontDictBlock), blocks[i]? = some block → block.Placed i)
      subset.fontDictBlocks subset.fontDictBlocks := by
  have within := inside.font.keying
  unfold Subset.fontDictBlocks
  cases keying : subset.font.keying with
  | named privateDict =>
    apply bind (promotedFontDict inside keying)
    intro block placed
    refine .pure ⟨?_, fun i other listed => ?_⟩
    · rw [Font.fontDictCount, keying]
      rfl
    · obtain ⟨bound, rfl⟩ := List.getElem?_eq_some_iff.1 listed
      obtain rfl : i = 0 := Nat.lt_one_iff.1 bound
      exact placed
  | cid select fontDicts =>
    rw [keying] at within
    have count : subset.font.fontDictCount = fontDicts.size := by rw [Font.fontDictCount, keying]
    have each : ∀ entry ∈ fontDicts.toList.zipIdx, Accounts (fun block => block.Placed entry.2)
        (subset.fontDictBlock entry.2 entry.1) (subset.fontDictBlock entry.2 entry.1) := by
      intro entry listed
      have bound := List.snd_lt_of_mem_zipIdx listed
      rw [Nat.add_zero, Array.length_toList, ← count] at bound
      exact fontDictBlock inside bound
        (within.2.2.2 _ (Array.mem_toList_iff.1 (List.fst_mem_of_mem_zipIdx listed)))
    apply (mapM each).imp
    intro blocks placed
    obtain ⟨length, holds⟩ := List.forall₂_iff_get.1 placed
    rw [List.length_zipIdx, Array.length_toList] at length
    refine ⟨length.symm.trans count.symm, fun i block listed => ?_⟩
    obtain ⟨bound, rfl⟩ := List.getElem?_eq_some_iff.1 listed
    have known := holds i (by rw [List.length_zipIdx, Array.length_toList, length]; exact bound) bound
    rwa [List.get_eq_getElem, List.get_eq_getElem, List.getElem_zipIdx, Nat.zero_add] at known

/-- Font DICTs refer to no places but those of their Private DICTs. -/
theorem fontDictPieces (inside : subset.Inside) :
    Accounts (fun pieces => ∃ blocks, (blockPlaces blocks).Nodup ∧
        Linked (.fdArray :: blockPlaces blocks) (tablePlaces blocks) pieces)
      subset.fontDictPieces subset.fontDictPieces := by
  apply bind (fontDictBlocks inside)
  intro blocks ⟨length, placed⟩
  have few : (blocks.map FontDictBlock.pieces).length ≤ OutputError.maxU16 := by
    rw [List.length_map, length]
    exact inside.font.fontDictCount_le
  apply bind (index few)
  rintro _ ⟨header, rfl⟩
  have known : ∀ block ∈ blocks, ∃ i, block.Placed i := by
    intro block listed
    obtain ⟨i, found⟩ := List.mem_iff_getElem?.1 listed
    exact ⟨i, placed i block found⟩
  obtain ⟨_, distinct⟩ := Font.Content.nodup_labels_privateDicts blocks
    fun i block privateBlock listed present =>
      let known := (placed i block listed).privateBlock privateBlock present
      ⟨known.fontDict, known.pieces.labels⟩
  have whole := ((linked_fontDicts known).append (linked_privateDicts known)).bytes header
  exact .pure ⟨blocks, distinct, .place (mem_tablePlaces (by decide)) (whole.mono sublist_tablePlaces)⟩

end Accounts
end CompactFont
