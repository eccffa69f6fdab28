import CompactFont.Proofs.Demands.Basic
import CompactFont.Proofs.Layout.Assembly
import Mathlib.Data.List.Nodup

/-!
What INDEXes and assembled pieces rely on. If no place is labelled twice, and every offset refers to
places that are labelled, the one it counts from first, then only offsets that are too large keep
pieces from being assembled.
-/

set_option autoImplicit false

namespace CompactFont

open Layout

/-! ### INDEXes -/

namespace Accounts

theorem header {lengths : List Nat} (few : lengths.length ≤ OutputError.maxU16) :
    Accounts (fun _ => True) (Index.header lengths) (Index.header lengths) := by
  apply bind (atMost (.inl few))
  rintro _ rfl
  apply ite
  · intro _
    exact .pure trivial
  intro _
  have sized : (Demand.atMost OutputError.maxU32 .indexPayload (totalLength lengths + 1)).OfSize :=
    rfl
  apply bind (atMost (.inr sized))
  rintro _ rfl
  apply bind (ordered (Index.offsetWidth_bounds _).2)
  rintro _ rfl
  exact .pure trivial

theorem encodeIndex {elements : List ByteArray} (few : elements.length ≤ OutputError.maxU16) :
    Accounts (fun _ => True) (Index.encode elements) (Index.encode elements) := by
  rw [← List.length_map ByteArray.size] at few
  apply bind (header few)
  intro _ _
  exact .pure trivial

theorem index {elements : List (List TablePiece)} (few : elements.length ≤ OutputError.maxU16) :
    Accounts (fun pieces => ∃ content, pieces = .bytes content :: elements.flatten)
      (Layout.index elements) (Layout.index elements) := by
  rw [← List.length_map Layout.size] at few
  apply bind (header few)
  intro content _
  exact .pure ⟨content, rfl⟩

theorem index_singleton (element : List TablePiece) :
    Accounts (fun pieces => ∃ content, pieces = .bytes content :: element)
      (Layout.index [element]) (Layout.index [element]) := by
  have few : [element].length ≤ OutputError.maxU16 := Nat.le_of_ble_eq_true rfl
  apply (index few).imp
  rintro _ ⟨content, rfl⟩
  exact ⟨content, congrArg _ (List.append_nil element)⟩

end Accounts

/-! ### Pieces -/

def Layout.Piece.Resolves (labels : List Place) : TablePiece → Prop
  | .bytes _ => True
  | .offset target base form => form = .dictOperand ∧ target ∈ labels ∧
    ∀ place ∈ base, [place, target].Sublist labels
  | .place label => label ∈ labels

namespace Layout

variable {Label : Type}

theorem le_of_mem_placesFrom {pos : Nat} {pieces : List (Piece Label)} {place : Label × Nat}
    (listed : place ∈ placesFrom pos pieces) : pos ≤ place.2 := by
  induction pieces generalizing pos with
  | nil => cases listed
  | cons piece rest induction =>
    rw [placesFrom_cons, List.mem_append] at listed
    rcases listed with first | later
    · cases piece with
      | place label =>
        cases List.mem_singleton.1 first
        exact Nat.le_refl pos
      | bytes => cases first
      | offset => cases first
    · exact Nat.le_trans (Nat.le_add_right _ _) (induction later)

/-- Later places do not lie before earlier ones. -/
theorem pairwise_placesFrom (pos : Nat) (pieces : List (Piece Label)) :
    (placesFrom pos pieces).Pairwise (·.2 ≤ ·.2) := by
  induction pieces generalizing pos with
  | nil => exact .nil
  | cons piece rest induction =>
    cases piece with
    | place label => exact .cons (fun _ listed => le_of_mem_placesFrom listed) (induction pos)
    | bytes content => exact induction _
    | offset => exact induction _

end Layout

namespace Accounts

variable {places : List (Place × Nat)}

theorem positionOf (distinct : (places.map Prod.fst).Nodup) {place : Place × Nat}
    (listed : place ∈ places) :
    Accounts (· = place.2) (Linker.position places place.1) (Linker.position places place.1) :=
  position (List.count_eq_one_of_mem distinct (List.mem_map_of_mem listed))
    (lookup_of_mem distinct listed)

/-- An offset does not count backwards if its target comes after the place that it counts from. -/
theorem distanceOf (distinct : (places.map Prod.fst).Nodup)
    (ascending : places.Pairwise (·.2 ≤ ·.2)) {target : Place} {base : Option Place}
    (known : target ∈ places.map Prod.fst)
    (counted : ∀ place ∈ base, [place, target].Sublist (places.map Prod.fst)) :
    Accounts (fun _ => True) (Layout.distance places target base)
      (Layout.distance places target base) := by
  cases base with
  | none =>
    obtain ⟨place, listed, rfl⟩ := List.mem_map.1 known
    apply bind (positionOf distinct listed)
    rintro _ rfl
    apply bind (.pure rfl)
    rintro _ rfl
    exact (distance (Nat.zero_le _)).imp fun _ _ => trivial
  | some base =>
    obtain ⟨entries, among, same⟩ := List.sublist_map_iff.1 (counted base rfl)
    obtain ⟨start, stop, rfl⟩ := List.length_eq_two.1 (by
      rw [← List.length_map Prod.fst, ← same]
      rfl : entries.length = 2)
    cases same
    have before : start.2 ≤ stop.2 := List.rel_of_pairwise_cons (ascending.sublist among)
      (List.mem_singleton_self stop)
    have listed := among.subset
    apply bind (positionOf distinct (listed (List.mem_cons_of_mem _ (List.mem_singleton_self _))))
    rintro _ rfl
    apply bind (positionOf distinct (listed List.mem_cons_self))
    rintro _ rfl
    exact (distance before).imp fun _ _ => trivial

theorem encodePiece {pieces : List TablePiece} (distinct : (labels pieces).Nodup)
    {piece : TablePiece} (resolves : piece.Resolves (labels pieces)) :
    Accounts (fun content => content.size = piece.size)
      (piece.encode (Layout.places pieces)) (piece.encode (Layout.places pieces)) := by
  have labelled : (Layout.places pieces).map Prod.fst = labels pieces := map_fst_placesFrom 0 pieces
  rw [← labelled] at distinct resolves
  cases piece with
  | bytes content => exact .pure rfl
  | offset target base form =>
    obtain ⟨rfl, known, counted⟩ := resolves
    apply bind (distanceOf distinct (pairwise_placesFrom 0 pieces) known counted)
    intro offset _
    have sized : (Demand.atMost OutputError.maxOperand .offset offset).OfSize := rfl
    apply bind (atMost (.inr sized))
    rintro _ rfl
    refine .pure ?_
    rw [← length_listed, listed_toByteArray, OffsetForm.length_encode]
    rfl
  | place label =>
    apply bind (placed (List.count_eq_one_of_mem distinct resolves))
    rintro _ rfl
    exact .pure rfl

theorem assemble {pieces : List TablePiece} (distinct : (labels pieces).Nodup)
    (resolves : ∀ piece ∈ pieces, piece.Resolves (labels pieces)) :
    Accounts (fun _ => True) (Layout.assemble pieces) (Layout.assemble pieces) := by
  let planned (rest : List TablePiece) (bytes : ByteArray) : Prop :=
    bytes.size + Layout.size rest = Layout.size pieces
  have written : Accounts (planned []) (pieces.foldlM (fun bytes piece =>
        (bytes ++ ·) <$> piece.encode (Layout.places pieces)) .empty)
      (pieces.foldlM (fun bytes piece => (bytes ++ ·) <$> piece.encode (Layout.places pieces))
        .empty) := by
    apply foldlM
    · intro bytes piece listed rest so
      apply map _ (encodePiece distinct (resolves piece listed))
      intro content size
      have total : bytes.size + Layout.size (piece :: rest) = Layout.size pieces := so
      change (bytes ++ content).size + _ = _
      rw [ByteArray.size_append, size, Nat.add_assoc, ← size_cons, total]
    · exact Nat.zero_add _
  apply bind written
  intro bytes so
  apply bind (total so)
  rintro _ rfl
  exact .pure trivial

end Accounts
/-! ### Pieces that refer to places -/

/-- Pieces with the labels `own`, which refer to places with the labels `known` only. -/
structure Layout.Linked (own known : List Place) (pieces : List TablePiece) : Prop where
  labels : labels pieces = own
  resolves : ∀ piece ∈ pieces, piece.Resolves known

namespace Layout

theorem Piece.Resolves.mono {known more : List Place} {piece : TablePiece}
    (resolves : piece.Resolves known) (sub : known.Sublist more) : piece.Resolves more := by
  cases piece with
  | bytes content => trivial
  | offset target base form =>
    obtain ⟨operand, listed, counted⟩ := resolves
    exact ⟨operand, sub.subset listed, fun place from' => (counted place from').trans sub⟩
  | place label => exact sub.subset resolves

namespace Linked

variable {own other known : List Place} {pieces rest : List TablePiece}

theorem mono {more : List Place} (linked : Linked own known pieces) (sub : known.Sublist more) :
    Linked own more pieces :=
  ⟨linked.labels, fun piece listed => (linked.resolves piece listed).mono sub⟩

theorem nil : Linked [] known [] := ⟨rfl, fun _ listed => absurd listed List.not_mem_nil⟩

theorem append (first : Linked own known pieces) (second : Linked other known rest) :
    Linked (own ++ other) known (pieces ++ rest) := by
  constructor
  · rw [labels_append, first.labels, second.labels]
  · exact List.forall_mem_append.2 ⟨first.resolves, second.resolves⟩

theorem bytes (content : ByteArray) (linked : Linked own known rest) :
    Linked own known (.bytes content :: rest) :=
  ⟨linked.labels, List.forall_mem_cons.2 ⟨trivial, linked.resolves⟩⟩

theorem place {label : Place} (listed : label ∈ known) (linked : Linked own known rest) :
    Linked (label :: own) known (.place label :: rest) :=
  ⟨congrArg (label :: ·) linked.labels, List.forall_mem_cons.2 ⟨listed, linked.resolves⟩⟩

theorem locate {label : Place} (listed : label ∈ known) (operator : Dict.Operator) :
    Linked [] known (Subset.locate label operator) := by
  refine ⟨rfl, List.forall_mem_cons.2 ⟨⟨rfl, listed, ?_⟩, List.forall_mem_singleton.2 trivial⟩⟩
  intro place counted
  cases counted

theorem of_bytes (each : ∀ piece ∈ pieces, ∃ content, piece = .bytes content) :
    Linked [] known pieces := by
  induction pieces with
  | nil => exact nil
  | cons piece pieces induction =>
    obtain ⟨content, rfl⟩ := each piece List.mem_cons_self
    exact bytes content (induction fun other listed => each other (List.mem_cons_of_mem _ listed))

theorem flatMap {α : Type} {xs : List α} {owns : α → List Place} {parts : α → List TablePiece}
    (each : ∀ x ∈ xs, Linked (owns x) known (parts x)) :
    Linked (xs.flatMap owns) known (xs.flatMap parts) := by
  induction xs with
  | nil => exact nil
  | cons x xs induction =>
    rw [List.flatMap_cons, List.flatMap_cons]
    have later := induction fun other listed => each other (List.mem_cons_of_mem x listed)
    exact (each x List.mem_cons_self).append later

theorem flatten {parts : List (List TablePiece)} (each : ∀ part ∈ parts, Linked [] known part) :
    Linked [] known parts.flatten := by
  have all : Linked (parts.flatMap fun _ => []) known (parts.flatMap id) := flatMap each
  rwa [List.flatMap_id, List.flatMap_eq_nil_iff.2 fun _ _ => rfl] at all

end Linked
end Layout
end CompactFont
