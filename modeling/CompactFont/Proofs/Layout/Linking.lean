import CompactFont.Proofs.Dict.Written
import CompactFont.Proofs.Layout.Tiling

/-!
Output that is put together from pieces and INDEXes, of which offsets are filled in when all places are
known. If no place is labelled twice and every offset can be counted and fits, all of it is written:
each piece takes the bytes that were set aside for it, an offset reads as the distance of its places,
and an INDEX reads as the elements it was given.
-/

set_option autoImplicit false

namespace CompactFont

namespace Layout

variable {Label : Type}

/-! ### Putting output together -/

inductive Block (Label : Type) where
  | pieces (content : List (Piece Label))
  /-- an INDEX with elements that consist of pieces -/
  | index (elements : List (List (Piece Label)))

def Block.lay : Block Label → Except OutputError (List (Piece Label))
  | pieces content => .ok content
  | index elements => Layout.index elements

def lay : List (Block Label) → Except OutputError (List (Piece Label))
  | [] => .ok []
  | block :: rest => do
    let own ← block.lay
    let others ← lay rest
    return own ++ others

/-- An INDEX can hold the elements: there are at most 65,535 of them, and their offsets take at most
four bytes. -/
def Holdable (elements : List (List (Piece Label))) : Prop :=
  elements.length ≤ OutputError.maxU16 ∧ (elements.map size).sum < OutputError.maxU32

instance (elements : List (List (Piece Label))) : Decidable (Holdable elements) :=
  inferInstanceAs (Decidable (_ ∧ _))

theorem exists_lay_iff {blocks : List (Block Label)} :
    (∃ pieces, lay blocks = .ok pieces) ↔ ∀ elements, .index elements ∈ blocks → Holdable elements := by
  induction blocks with
  | nil => exact ⟨fun _ _ member => (nomatch member), fun _ => ⟨_, rfl⟩⟩
  | cons block rest induction =>
    have own : (∃ pieces, block.lay = .ok pieces) ↔
        ∀ elements, .index elements = block → Holdable elements := by
      cases block with
      | pieces content => exact ⟨fun _ _ same => (nomatch same), fun _ => ⟨content, rfl⟩⟩
      | index elements =>
        have header : (∃ bytes, Index.header (elements.map size) = .ok bytes) ↔ Holdable elements := by
          rw [Index.exists_header_iff, List.length_map, Holdable]
        simp only [Block.lay, index_eq_ok, Block.index.injEq, forall_eq, ← header]
        exact ⟨fun ⟨_, bytes, written, _⟩ => ⟨bytes, written⟩, fun ⟨bytes, written⟩ =>
          ⟨_, bytes, written, rfl⟩⟩
    simp only [List.mem_cons, or_imp, forall_and, ← induction, ← own, lay, bind_eq_ok, pure_eq_ok]
    constructor
    · rintro ⟨_, pieces, laid, others, later, _⟩
      exact ⟨⟨pieces, laid⟩, others, later⟩
    · rintro ⟨⟨pieces, laid⟩, others, later⟩
      exact ⟨_, pieces, laid, others, later, rfl⟩

theorem lay_append_cons_eq_ok {front back : List (Block Label)} {block : Block Label}
    {pieces : List (Piece Label)} (laid : lay (front ++ block :: back) = .ok pieces) :
    ∃ before own after, lay front = .ok before ∧ block.lay = .ok own ∧
      pieces = before ++ (own ++ after) := by
  induction front generalizing pieces with
  | nil =>
    obtain ⟨own, begun, rest⟩ := bind_eq_ok.1 laid
    obtain ⟨after, _, rest⟩ := bind_eq_ok.1 rest
    cases rest
    exact ⟨[], own, after, rfl, begun, rfl⟩
  | cons first front induction =>
    obtain ⟨content, begun, rest⟩ := bind_eq_ok.1 laid
    obtain ⟨others, later, rest⟩ := bind_eq_ok.1 rest
    cases rest
    obtain ⟨before, own, after, left, middle, rfl⟩ := induction later
    refine ⟨content ++ before, own, after, ?_, middle, (List.append_assoc ..).symm⟩
    exact bind_eq_ok.2 ⟨content, begun, bind_eq_ok.2 ⟨before, left, rfl⟩⟩

variable [DecidableEq Label]

/-! ### Offsets -/

def origin (places : List (Label × Nat)) : (base : Option Label) → Option Nat
  | none => some 0
  | some label => places.lookup label

/-- The places of an offset are labelled, the one it is counted to is not before the one it is counted
from, and there is room for the distance. -/
def Reaches (places : List (Label × Nat)) (target : Label) (base : Option Label) (form : OffsetForm) :
    Prop :=
  ∃ start stop, origin places base = some start ∧ places.lookup target = some stop ∧ start ≤ stop ∧
    stop - start ≤ form.limit

instance (places : List (Label × Nat)) (target : Label) (base : Option Label) (form : OffsetForm) :
    Decidable (Reaches places target base form) :=
  decidable_of_iff (∃ start ∈ origin places base, ∃ stop ∈ places.lookup target,
      start ≤ stop ∧ stop - start ≤ form.limit) <| by
    simp only [Reaches, Option.mem_def, exists_and_left]

def OffsetForm.Readable : OffsetForm → Prop
  | dictOperand => True
  | word width => 1 ≤ width ∧ width ≤ 4

instance : DecidablePred OffsetForm.Readable
  | .dictOperand => .isTrue trivial
  | .word width => inferInstanceAs (Decidable (1 ≤ width ∧ width ≤ 4))

def Piece.Linkable (places : List (Label × Nat)) : Piece Label → Prop
  | offset target base form => Reaches places target base form ∧ form.Readable
  | _ => True

instance (places : List (Label × Nat)) : DecidablePred (Piece.Linkable places)
  | .bytes _ => .isTrue trivial
  | .offset target base form =>
    inferInstanceAs (Decidable (Reaches places target base form ∧ form.Readable))
  | .place _ => .isTrue trivial

structure Linkable (pieces : List (Piece Label)) : Prop where
  distinct : (labels pieces).Nodup
  each : ∀ piece ∈ pieces, piece.Linkable (places pieces)

instance : DecidablePred (Linkable : List (Piece Label) → Prop) := fun pieces =>
  decidable_of_iff ((labels pieces).Nodup ∧ ∀ piece ∈ pieces, piece.Linkable (places pieces))
    ⟨fun holds => ⟨holds.1, holds.2⟩, fun linkable => ⟨linkable.distinct, linkable.each⟩⟩

theorem distance_eq_ok {places : List (Label × Nat)} {target : Label} {base : Option Label}
    {offset : Nat} :
    distance places target base = Except.ok offset ↔
      ∃ start stop, origin places base = some start ∧ places.lookup target = some stop ∧
        start ≤ stop ∧ stop - start = offset := by
  cases base with
  | none =>
    simp only [distance, bind_eq_ok, pure_eq_ok, Linker.position_eq, Linker.distance_eq,
      OutputError.position_eq_ok_iff, OutputError.distance_eq_ok_iff, origin, Option.some.injEq,
      exists_and_left, exists_eq_left']
  | some base =>
    simp only [distance, bind_eq_ok, Linker.position_eq, Linker.distance_eq,
      OutputError.position_eq_ok_iff, OutputError.distance_eq_ok_iff, origin]
    constructor
    · rintro ⟨stop, ends, start, starts, measured⟩
      exact ⟨start, stop, starts, ends, measured⟩
    · rintro ⟨start, stop, starts, ends, measured⟩
      exact ⟨stop, ends, start, starts, measured⟩

theorem exists_render {places : List (Label × Nat)} {pieces : List (Piece Label)}
    (linkable : ∀ piece ∈ pieces, piece.Linkable places) :
    ∃ content, render places pieces = .ok content := by
  induction pieces with
  | nil => exact ⟨[], rfl⟩
  | cons piece rest induction =>
    obtain ⟨others, rendered⟩ := induction fun piece member =>
      linkable piece (List.mem_cons_of_mem _ member)
    have own : ∃ content, piece.encode places = Except.ok content := by
      cases piece with
      | bytes content => exact ⟨content, rfl⟩
      | place label => exact ⟨.empty, rfl⟩
      | offset target base form =>
        obtain ⟨start, stop, starts, ends, ordered, small⟩ := (linkable _ List.mem_cons_self).1
        have measured := distance_eq_ok.2 ⟨start, stop, starts, ends, ordered, rfl⟩
        have bounded : Writer.atMost form.limit .offset (stop - start) = Except.ok (stop - start) :=
          OutputError.atMost_eq_ok_iff.2 ⟨small, rfl⟩
        exact ⟨_, bind_eq_ok.2 ⟨_, measured, bind_eq_ok.2 ⟨_, bounded, rfl⟩⟩⟩
    obtain ⟨content, encoded⟩ := own
    exact ⟨_, bind_eq_ok.2 ⟨content, encoded, bind_eq_ok.2 ⟨others, rendered, rfl⟩⟩⟩

/-! ### What is read from the output -/

def OffsetForm.Reads (out : ByteArray) (pos offset : Nat) : OffsetForm → Prop
  | dictOperand => Dict.readToken.run (.whole out) pos =
      .ok (.operand (.integer offset)) (pos + Number.fixedLength)
  | word width => (Reader.offset width).run (.whole out) pos = .ok offset (pos + width)

theorem OffsetForm.reads_of_holds {out : ByteArray} {pos offset : Nat} {form : OffsetForm}
    (readable : form.Readable) (small : offset ≤ form.limit) (holds : Holds out pos (form.encode offset)) :
    form.Reads out pos offset := by
  cases form with
  | dictOperand =>
    have read := Dict.spelled_encodeFixed pos (Dict.fits_of_le small) _ holds.whole
    rwa [Number.length_encodeFixed] at read
  | word width =>
    have positive : 0 < 256 ^ width := Nat.pow_pos (by decide)
    have bound : offset < 256 ^ width := by
      rw [OffsetForm.limit, BigEndian.valueCount_eq] at small
      omega
    have inside : pos ≤ out.size := Nat.le_trans (Nat.le_add_right _ _) holds.le_size
    exact (Reader.run_offset_eq_ok inside (Nat.le_trans readable.2 (by decide))).2
      ⟨bound, holds.whole, rfl⟩

/-- A piece has been filled in: its bytes are there, or the distance of its places is read, or the place
is where it is taken to be. -/
def Piece.Linked (out : ByteArray) (places : List (Label × Nat)) (pos : Nat) : Piece Label → Prop
  | bytes content => Holds out pos (listed content)
  | offset target base form => ∃ start stop, origin places base = some start ∧
      places.lookup target = some stop ∧ start ≤ stop ∧ form.Reads out pos (stop - start)
  | place label => places.lookup label = some pos

def ReadsIndex (out : ByteArray) (places : List (Label × Nat)) (pos : Nat)
    (elements : List (List (Piece Label))) : Prop :=
  ∃ index : Index, Index.readAt out pos = .ok index ∧ index.size = elements.length ∧
    ∀ i (inside : i < elements.length),
      render places elements[i] = .ok (listed (index.element out i))

theorem Stands.linked {out : ByteArray} {places : List (Label × Nat)} {pos : Nat} {piece : Piece Label}
    (stands : Stands out places pos [piece]) (linkable : piece.Linkable places) :
    piece.Linked out places pos := by
  cases piece with
  | bytes content => exact stands.bytes.1
  | place label => exact stands.place.1
  | offset target base form =>
    obtain ⟨offset, measured, small, holds, _⟩ := stands.offset
    obtain ⟨start, stop, starts, ends, ordered, rfl⟩ := distance_eq_ok.1 measured
    exact ⟨start, stop, starts, ends, ordered, OffsetForm.reads_of_holds linkable.2 small holds⟩

theorem Stands.readsIndex {out : ByteArray} {places : List (Label × Nat)} {pos : Nat}
    {elements : List (List (Piece Label))} {pieces : List (Piece Label)}
    (laid : Layout.index elements = Except.ok pieces) (stands : Stands out places pos pieces) :
    ReadsIndex out places pos elements := by
  obtain ⟨index, read, size, each⟩ := stands.index laid
  have inside : pos ≤ out.size := Nat.le_trans (Nat.le_add_right _ _) stands.le_size
  refine ⟨index, Reader.readAt_eq_ok.2 ⟨inside, _, read⟩, size, fun i bound => ?_⟩
  obtain ⟨span, element⟩ := each i bound
  obtain ⟨content, rendered, holds⟩ := element.rendered
  rw [rendered, Index.element, span, ← length_of_render rendered]
  exact congrArg _ holds.slice_eq.symm

/-- The output consists of what was written for the pieces before, as many bytes as their sizes say, of
what a piece says, and of the rest. -/
def Emits (out : ByteArray) (places : List (Label × Nat)) (before : List (Piece Label))
    (piece : Piece Label) : Prop :=
  ∃ front own back, render places before = .ok front ∧ piece.encode places = Except.ok own ∧
    listed out = front ++ listed own ++ back ∧ front.length = size before ∧ own.size = piece.size

/-- Blocks whose INDEXes can hold their elements are laid, and if their offsets can be written, they are
linked exactly: every piece takes as many bytes as its size says, directly after those before it, and
says what it is for; INDEXes are read where they stand, with the linked bytes of their elements. -/
theorem linking_exact {blocks : List (Block Label)}
    (holdable : ∀ elements, .index elements ∈ blocks → Holdable elements) :
    ∃ pieces, lay blocks = .ok pieces ∧ (Linkable pieces →
      ∃ out, assemble pieces = Except.ok out ∧ out.size = size pieces ∧
        (∀ before piece after, pieces = before ++ piece :: after →
          Emits out (places pieces) before piece ∧ piece.Linked out (places pieces) (size before)) ∧
        ∀ front elements back, blocks = front ++ .index elements :: back →
          ∃ before, lay front = .ok before ∧
            ReadsIndex out (places pieces) (size before) elements) := by
  obtain ⟨pieces, laid⟩ := exists_lay_iff.2 holdable
  refine ⟨pieces, laid, fun linkable => ?_⟩
  obtain ⟨content, rendered⟩ := exists_render linkable.each
  have assembled : assemble pieces = Except.ok content.toByteArray := by
    rw [assemble_eq, rendered]
    rfl
  have stands := Stands.of_assemble linkable.distinct assembled
  refine ⟨_, assembled, size_of_assemble assembled, ?_, ?_⟩
  · intro before piece after whole
    constructor
    · rw [whole, render_append_eq_ok] at rendered
      obtain ⟨front, others, written, rendered, rfl⟩ := rendered
      obtain ⟨own, encoded, rendered⟩ := bind_eq_ok.1 rendered
      obtain ⟨back, _, rendered⟩ := bind_eq_ok.1 rendered
      cases rendered
      rw [← whole] at written encoded
      refine ⟨front, own, back, written, encoded, ?_, length_of_render written,
        Piece.size_of_encode encoded⟩
      rw [listed_toByteArray, List.append_assoc]
    · apply Stands.linked _ (linkable.each piece (whole ▸ List.mem_append_right _ List.mem_cons_self))
      have split : pieces = before ++ ([piece] ++ after) := whole
      have later : Stands content.toByteArray (places pieces) 0 (before ++ ([piece] ++ after)) :=
        split ▸ stands
      have own := later.right.left
      rwa [Nat.zero_add] at own
  · rintro front elements back rfl
    obtain ⟨before, own, after, begun, index, rfl⟩ := lay_append_cons_eq_ok laid
    have later := stands.right.left
    rw [Nat.zero_add] at later
    exact ⟨before, begun, later.readsIndex index⟩

def crossedElements : List (List (Piece Nat)) :=
  [[.literal [1, 2], .place 1, .offset 2 none (.word 1)], [], [.offset 1 (some 0) (.word 3)]]

/-- Offsets into an INDEX, out of it, and from one of its elements to another one. -/
def crossing : List (Block Nat) :=
  [.pieces [.place 0, .offset 1 none .dictOperand, .offset 2 (some 0) (.word 2)],
    .index crossedElements, .pieces [.literal [14], .place 2]]

theorem linking_exact_crossing :
    (∀ elements, .index elements ∈ crossing → Holdable elements) ∧
      ∃ pieces, lay crossing = .ok pieces ∧ Linkable pieces ∧
        ∃ out, assemble pieces = Except.ok out ∧ out.size = size pieces ∧
          ReadsIndex out (places pieces) 7 crossedElements := by
  have holdable : ∀ elements, .index elements ∈ crossing → Holdable elements := by
    intro elements member
    simp only [crossing, List.mem_cons, reduceCtorEq, Block.index.injEq, List.not_mem_nil, or_false,
      false_or] at member
    subst member
    decide
  have checked : (lay crossing).toOption.any (fun pieces => decide (Linkable pieces)) = true := by
    decide +kernel
  obtain ⟨pieces, laid, linked⟩ := linking_exact holdable
  rw [laid] at checked
  have linkable : Linkable pieces := of_decide_eq_true checked
  obtain ⟨out, assembled, total, _, indexes⟩ := linked linkable
  obtain ⟨before, begun, read⟩ := indexes [_] crossedElements [_] rfl
  cases begun
  exact ⟨holdable, pieces, laid, linkable, out, assembled, total, read⟩

end Layout
end CompactFont
