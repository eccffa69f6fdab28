import CompactFont.Proofs.Content.Basic
import Mathlib.Data.List.Nodup

/-!
No place of a written table is labelled twice: the Private DICTs and Local Subr INDEXes are told
apart by the number of their Font DICT.
-/

set_option autoImplicit false

namespace CompactFont

open Subset Layout

theorem labels_cons_literal (content : List UInt8) (rest : List TablePiece) :
    labels (.literal content :: rest) = labels rest := rfl

theorem labels_cons_bytes (content : ByteArray) (rest : List TablePiece) :
    labels (.bytes content :: rest) = labels rest := rfl

theorem labels_cons_place (place : Place) (rest : List TablePiece) :
    labels (.place place :: rest) = place :: labels rest := rfl

theorem labels_flatten {parts : List (List TablePiece)}
    (unlabelled : ∀ part ∈ parts, labels part = []) : labels parts.flatten = [] := by
  induction parts with
  | nil => rfl
  | cons part parts induction =>
    rw [List.flatten_cons, labels_append, unlabelled part List.mem_cons_self,
      induction fun other listed => unlabelled other (List.mem_cons_of_mem part listed)]
    rfl

theorem labels_index {elements : List (List TablePiece)} {pieces : List TablePiece}
    (laid : Layout.index elements = Except.ok pieces)
    (unlabelled : ∀ element ∈ elements, labels element = []) : labels pieces = [] := by
  obtain ⟨header, _, rfl⟩ := index_eq_ok.1 laid
  rw [labels_cons_bytes, labels_flatten unlabelled]

/-! ### DICTs have no places -/

theorem PrivateDict.Content.labels_of_block {i : Nat} {content : PrivateDict.Content}
    {block : PrivateBlock} (laid : content.block i = .ok block) :
    block.fontDict = i ∧ labels block.pieces = [] := by
  obtain ⟨subrs, _, same⟩ := bind_eq_ok.1 laid
  cases same
  refine ⟨rfl, ?_⟩
  rw [List.flatMap_def]
  apply labels_flatten
  intro part listed
  obtain ⟨entry, _, rfl⟩ := List.mem_map.1 listed
  cases entry <;> rfl

theorem PrivateBlock.labels_entry {block : PrivateBlock} {pieces : List TablePiece}
    (laid : block.entry = Except.ok pieces) : labels pieces = [] := by
  obtain ⟨size, _, same⟩ := bind_eq_ok.1 laid
  cases same
  rfl

theorem FontDict.Content.labels_of_block {i : Nat} {content : FontDict.Content}
    {block : FontDictBlock} (laid : content.block i = .ok block) :
    labels block.pieces = [] ∧ ∀ privateBlock ∈ block.privateBlock,
      privateBlock.fontDict = i ∧ labels privateBlock.pieces = [] := by
  obtain ⟨privateBlock, privateLaid, laid⟩ := bind_eq_ok.1 laid
  obtain ⟨parts, entries, same⟩ := bind_eq_ok.1 laid
  cases same
  constructor
  · apply labels_flatten
    intro part listed
    obtain ⟨entry, _, encoded⟩ := exists_of_mem_mapM entries listed
    unfold FontDict.Content.entryPieces at encoded
    split at encoded
    · cases encoded
      rfl
    split at encoded
    · exact PrivateBlock.labels_entry encoded
    · cases encoded
      rfl
  · intro found present
    rcases mapM_option_eq_ok.1 privateLaid with ⟨_, none⟩ | ⟨_, _, _, some, laid⟩
    · rw [none] at present
      cases present
    · rw [some] at present
      cases present
      exact PrivateDict.Content.labels_of_block laid

/-! ### The places of all Font DICTs -/

theorem labels_flatMap {α : Type} (xs : List α) (pieces : α → List TablePiece) :
    labels (xs.flatMap pieces) = xs.flatMap fun x => labels (pieces x) := by
  induction xs with
  | nil => rfl
  | cons x xs induction => rw [List.flatMap_cons, labels_append, induction, List.flatMap_cons]

def privatePlaces (block : PrivateBlock) : List Place :=
  .privateDict block.fontDict :: match block.subrs with
    | none => []
    | some _ => [.localSubrs block.fontDict]

theorem labels_placed {block : PrivateBlock} (unlabelled : labels block.pieces = []) :
    labels block.placed = privatePlaces block := by
  obtain ⟨i, pieces, subrs⟩ := block
  rw [PrivateBlock.placed, List.cons_append, labels_cons_place, labels_append, unlabelled]
  cases subrs <;> rfl

theorem eq_of_mem_privatePlaces {block : PrivateBlock} {place : Place}
    (listed : place ∈ privatePlaces block) :
    place = .privateDict block.fontDict ∨ place = .localSubrs block.fontDict := by
  unfold privatePlaces at listed
  split at listed
  · exact .inl (List.mem_singleton.1 listed)
  · rcases List.mem_cons.1 listed with first | second
    · exact .inl first
    · exact .inr (List.mem_singleton.1 second)

theorem nodup_privatePlaces (block : PrivateBlock) : (privatePlaces block).Nodup := by
  unfold privatePlaces
  split
  · exact List.nodup_singleton _
  · rw [List.nodup_cons, List.mem_singleton]
    exact ⟨Place.noConfusion, List.nodup_singleton _⟩

theorem disjoint_privatePlaces {first second : PrivateBlock}
    (differ : first.fontDict ≠ second.fontDict) :
    List.Disjoint (privatePlaces first) (privatePlaces second) := by
  intro place left right
  rcases eq_of_mem_privatePlaces left with rfl | rfl <;>
    rcases eq_of_mem_privatePlaces right with same | same <;>
    simp only [Place.privateDict.injEq, Place.localSubrs.injEq, reduceCtorEq] at same
  · exact differ same
  · exact differ same

def blockPlaces (blocks : List FontDictBlock) : List Place :=
  (blocks.filterMap FontDictBlock.privateBlock).flatMap privatePlaces

def tablePlaces (blocks : List FontDictBlock) : List Place :=
  [.fdSelect, .charset, .fdArray] ++ blockPlaces blocks ++ [.charStrings]

theorem not_mem_of_mem_blockPlaces {blocks : List FontDictBlock} {place : Place}
    (listed : place ∈ blockPlaces blocks) :
    place ∉ [Place.fdSelect, .charset, .fdArray] ∧ place ≠ .charStrings := by
  obtain ⟨block, _, found⟩ := List.mem_flatMap.1 listed
  rcases eq_of_mem_privatePlaces found with rfl | rfl <;> simp

theorem nodup_tablePlaces {blocks : List FontDictBlock} (distinct : (blockPlaces blocks).Nodup) :
    (tablePlaces blocks).Nodup := by
  rw [tablePlaces, List.nodup_append, List.nodup_append]
  refine ⟨⟨by decide, distinct, ?_⟩, by decide, ?_⟩
  · intro place first other second same
    exact (not_mem_of_mem_blockPlaces second).1 (same ▸ first)
  · intro place first other second same
    rw [List.mem_singleton] at second
    rcases List.mem_append.1 first with early | late
    · rw [same, second] at early
      exact absurd early (by decide)
    · exact (not_mem_of_mem_blockPlaces late).2 (same.trans second)

namespace Font.Content

variable {content : Font.Content}

/-- The places of the Private DICTs of blocks that carry their own numbers. -/
theorem nodup_labels_privateDicts (blocks : List FontDictBlock)
    (numbered : ∀ (i : Nat) (block : FontDictBlock) (privateBlock : PrivateBlock),
      blocks[i]? = some block → privateBlock ∈ block.privateBlock →
        privateBlock.fontDict = i ∧ labels privateBlock.pieces = []) :
    labels ((blocks.filterMap FontDictBlock.privateBlock).flatMap PrivateBlock.placed) =
        blockPlaces blocks ∧ (blockPlaces blocks).Nodup := by
  constructor
  · rw [labels_flatMap]
    apply List.flatMap_congr
    intro privateBlock listed
    obtain ⟨block, present, found⟩ := List.mem_filterMap.1 listed
    obtain ⟨i, place⟩ := List.mem_iff_getElem?.1 present
    exact labels_placed (numbered i block privateBlock place found).2
  · rw [blockPlaces, List.nodup_flatMap]
    refine ⟨fun block _ => nodup_privatePlaces block, ?_⟩
    rw [List.pairwise_filterMap, List.pairwise_iff_getElem]
    intro i j first second less left leftFound right rightFound
    apply disjoint_privatePlaces
    have leftNumber := (numbered i _ left (List.getElem?_eq_getElem first) leftFound).1
    have rightNumber := (numbered j _ right (List.getElem?_eq_getElem second) rightFound).1
    omega

theorem labels_topDictPieces (content : Font.Content) : labels content.topDictPieces = [] := by
  have copied : ∀ forms : List Dict.Form,
      labels (forms.map fun form => (.literal form.raw : TablePiece)) = [] := by
    intro forms
    induction forms with
    | nil => rfl
    | cons form forms induction => exact induction
  rw [topDictPieces, labels_append, copied]
  rfl

theorem nodup_labels {pieces : List TablePiece} (laid : content.pieces = .ok pieces) :
    (labels pieces).Nodup := by
  obtain ⟨name, nameLaid, laid⟩ := bind_eq_ok.1 laid
  obtain ⟨topDict, topDictLaid, laid⟩ := bind_eq_ok.1 laid
  obtain ⟨globalSubrs, _, laid⟩ := bind_eq_ok.1 laid
  obtain ⟨fontDicts, fontDictsLaid, laid⟩ := bind_eq_ok.1 laid
  obtain ⟨charStrings, _, laid⟩ := bind_eq_ok.1 laid
  cases laid
  obtain ⟨blocks, blocksLaid, laid⟩ := bind_eq_ok.1 fontDictsLaid
  obtain ⟨fdArray, fdArrayLaid, laid⟩ := bind_eq_ok.1 laid
  cases laid
  obtain ⟨length, each⟩ := zipIdx_mapM_eq_ok.1 blocksLaid
  have numbered : ∀ (i : Nat) (block : FontDictBlock), blocks[i]? = some block →
      labels block.pieces = [] ∧ ∀ privateBlock ∈ block.privateBlock,
        privateBlock.fontDict = i ∧ labels privateBlock.pieces = [] := by
    intro i block present
    have bound := (List.getElem?_eq_some_iff.1 present).1
    have source := List.getElem?_eq_getElem (l := content.fontDicts) (i := i) (by omega)
    exact FontDict.Content.labels_of_block (each i _ block source present)
  have nameLabels := labels_index nameLaid (by simp [labels, Piece.literal, Piece.label?])
  have topDictLabels := labels_index topDictLaid (by simp [labels_topDictPieces])
  have fdArrayLabels := labels_index fdArrayLaid (by
    intro element listed
    obtain ⟨block, present, rfl⟩ := List.mem_map.1 listed
    obtain ⟨i, place⟩ := List.mem_iff_getElem?.1 present
    exact (numbered i block place).1)
  obtain ⟨privateLabels, privateNodup⟩ := nodup_labels_privateDicts blocks
    fun i block privateBlock present found => (numbered i block present).2 privateBlock found
  have whole := nodup_tablePlaces privateNodup
  simp only [labels_append, labels_cons_literal, labels_cons_bytes, labels_cons_place, nameLabels,
    topDictLabels, fdArrayLabels, privateLabels]
  exact whole

end Font.Content
end CompactFont
