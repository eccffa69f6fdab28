import CompactFont.Layout
import CompactFont.Proofs.Index.Written

/-!
Assembled output is the concatenation of its pieces. If no place is labelled twice, every place is
where the pieces before it end, and the offsets that refer to it say so.
-/

set_option autoImplicit false

namespace CompactFont.Layout

variable {Label : Type}

theorem size_append (first second : List (Piece Label)) :
    size (first ++ second) = size first + size second := by
  simp only [size, totalLength_eq_sum, List.map_append, List.sum_append]

theorem size_nil : size ([] : List (Piece Label)) = 0 := rfl

theorem size_cons (piece : Piece Label) (rest : List (Piece Label)) :
    size (piece :: rest) = piece.size + size rest := by
  simp only [size, totalLength_eq_sum, List.map_cons, List.sum_cons]

theorem size_singleton (piece : Piece Label) : size [piece] = piece.size := by
  rw [size_cons, size_nil, Nat.add_zero]

theorem size_flatten (parts : List (List (Piece Label))) :
    size parts.flatten = (parts.map size).sum := by
  induction parts with
  | nil => rfl
  | cons part parts induction =>
    rw [List.flatten_cons, size_append, induction, List.map_cons, List.sum_cons]

namespace Piece

def label? : Piece Label → Option Label
  | place label => some label
  | _ => none

theorem size_literal (content : List UInt8) : (literal content : Piece Label).size = content.length := by
  rw [literal, size, ← length_listed, listed_toByteArray]

end Piece

theorem size_literal_singleton (content : List UInt8) :
    size [(.literal content : Piece Label)] = content.length := by
  rw [size_singleton, Piece.size_literal]

def labels (pieces : List (Piece Label)) : List Label := pieces.filterMap Piece.label?

theorem labels_append (first second : List (Piece Label)) :
    labels (first ++ second) = labels first ++ labels second := List.filterMap_append

theorem placesFrom_cons (pos : Nat) (piece : Piece Label) (rest : List (Piece Label)) :
    placesFrom pos (piece :: rest) =
      placesFrom pos [piece] ++ placesFrom (pos + piece.size) rest := by
  cases piece <;> rfl

theorem placesFrom_append (pos : Nat) (first second : List (Piece Label)) :
    placesFrom pos (first ++ second) =
      placesFrom pos first ++ placesFrom (pos + size first) second := by
  induction first generalizing pos with
  | nil => rfl
  | cons piece first induction =>
    rw [List.cons_append, placesFrom_cons, induction, placesFrom_cons pos piece first, size_cons,
      List.append_assoc, Nat.add_assoc]

theorem map_fst_placesFrom (pos : Nat) (pieces : List (Piece Label)) :
    (placesFrom pos pieces).map Prod.fst = labels pieces := by
  induction pieces generalizing pos with
  | nil => rfl
  | cons piece rest induction =>
    rw [placesFrom_cons, List.map_append, induction]
    cases piece <;> rfl

theorem index_eq_ok {elements : List (List (Piece Label))} {pieces : List (Piece Label)} :
    index elements = Except.ok pieces ↔ ∃ header, Index.header (elements.map size) = Except.ok header ∧
      .bytes header :: elements.flatten = pieces := by
  simp only [index, bind_eq_ok, pure_eq_ok]

/-! ### Bytes one by one -/

/-- The same output with pieces as small as they can be. -/
def Piece.split : Piece Label → List (Piece Label)
  | bytes content => (listed content).map fun byte => literal [byte]
  | piece => [piece]

def split (pieces : List (Piece Label)) : List (Piece Label) := pieces.flatMap Piece.split

theorem split_append (first second : List (Piece Label)) :
    split (first ++ second) = split first ++ split second := List.flatMap_append

theorem split_cons (piece : Piece Label) (rest : List (Piece Label)) :
    split (piece :: rest) = split [piece] ++ split rest := split_append [piece] rest

theorem split_literal (content : List UInt8) :
    split [(.literal content : Piece Label)] = content.map fun byte => .literal [byte] := by
  simp only [split, Piece.literal, List.flatMap_singleton, Piece.split, listed_toByteArray]

private theorem size_singles (content : List UInt8) :
    size (content.map fun byte => (.literal [byte] : Piece Label)) = content.length := by
  induction content with
  | nil => rfl
  | cons byte content induction =>
    rw [List.map_cons, size_cons, induction, Piece.size_literal]
    exact Nat.add_comm 1 _

theorem Piece.size_split (piece : Piece Label) : Layout.size piece.split = piece.size := by
  cases piece with
  | bytes content => exact size_singles _
  | offset => exact size_singleton _
  | place => rfl

theorem size_split (pieces : List (Piece Label)) : size (split pieces) = size pieces := by
  induction pieces with
  | nil => rfl
  | cons piece rest induction =>
    change size (piece.split ++ split rest) = _
    rw [size_append, Piece.size_split, induction, size_cons]

private theorem placesFrom_singles (pos : Nat) (content : List UInt8) :
    placesFrom pos (content.map fun byte => (.literal [byte] : Piece Label)) = [] := by
  induction content generalizing pos with
  | nil => rfl
  | cons byte content induction => exact induction _

theorem placesFrom_split (pos : Nat) (pieces : List (Piece Label)) :
    placesFrom pos (split pieces) = placesFrom pos pieces := by
  induction pieces generalizing pos with
  | nil => rfl
  | cons piece rest induction =>
    change placesFrom pos (piece.split ++ split rest) = _
    rw [placesFrom_append, Piece.size_split, induction, placesFrom_cons pos piece rest]
    congr 1
    cases piece with
    | bytes content => exact placesFrom_singles pos _
    | offset => rfl
    | place => rfl

variable [DecidableEq Label]

theorem lookup_of_mem {places : List (Label × Nat)} (distinct : (places.map Prod.fst).Nodup)
    {place : Label × Nat} (listed : place ∈ places) : places.lookup place.1 = some place.2 := by
  induction places with
  | nil => cases listed
  | cons first rest induction =>
    rw [List.map_cons, List.nodup_cons] at distinct
    rw [List.lookup_cons]
    rcases List.mem_cons.1 listed with rfl | later
    · rw [beq_self_eq_true]
    · have differs : (place.1 == first.1) = false := by
        rw [beq_eq_false_iff_ne]
        intro same
        exact distinct.1 (same ▸ List.mem_map_of_mem later)
      rw [differs]
      exact induction distinct.2 later

/-! ### The bytes of pieces -/

def render (places : List (Label × Nat)) : List (Piece Label) → Except OutputError (List UInt8)
  | [] => .ok []
  | piece :: rest => do
    let content ← piece.encode places
    let others ← render places rest
    return listed content ++ others

theorem assemble_eq (pieces : List (Piece Label)) :
    assemble pieces = List.toByteArray <$> render (places pieces) pieces := by
  have fold : ∀ (places : List (Label × Nat)) (pieces : List (Piece Label)) (bytes : ByteArray),
      pieces.foldlM (fun bytes piece => (bytes ++ ·) <$> piece.encode places) bytes =
        (fun rest => bytes ++ rest.toByteArray) <$> render places pieces := by
    intro places pieces
    induction pieces with
    | nil =>
      intro bytes
      exact congrArg Except.ok (ByteArray.append_empty).symm
    | cons piece rest induction =>
      intro bytes
      rw [List.foldlM_cons, render]
      cases piece.encode places with
      | error fault => rfl
      | ok content =>
        change rest.foldlM _ (bytes ++ content) = _
        rw [induction]
        cases render places rest with
        | error fault => rfl
        | ok others =>
          refine congrArg Except.ok (listed_injective ?_)
          simp only [listed_append, listed_toByteArray, List.append_assoc]
  have whole := fold (places pieces) pieces .empty
  simp only [ByteArray.empty_append] at whole
  exact (bind_pure _).trans whole

theorem render_append_eq_ok {places : List (Label × Nat)} {first second : List (Piece Label)}
    {content : List UInt8} :
    render places (first ++ second) = .ok content ↔
      ∃ front back, render places first = .ok front ∧ render places second = .ok back ∧
        content = front ++ back := by
  induction first generalizing content with
  | nil =>
    simp only [List.nil_append, render, Except.ok.injEq, exists_and_left, exists_eq_left',
      List.nil_append, exists_eq_right']
  | cons piece first induction =>
    simp only [List.cons_append, render, bind_eq_ok, pure_eq_ok, induction]
    constructor
    · rintro ⟨own, encoded, others, ⟨front, back, left, right, joined⟩, same⟩
      refine ⟨listed own ++ front, back, ⟨own, encoded, front, left, rfl⟩, right, ?_⟩
      rw [← same, joined, List.append_assoc]
    · rintro ⟨_, back, ⟨own, encoded, front, left, joined⟩, right, same⟩
      refine ⟨own, encoded, front ++ back, ⟨front, back, left, right, rfl⟩, ?_⟩
      rw [same, ← joined, List.append_assoc]

theorem Piece.size_of_encode {places : List (Label × Nat)} {piece : Piece Label} {content : ByteArray}
    (encoded : piece.encode places = Except.ok content) : content.size = piece.size := by
  cases piece with
  | bytes own =>
    cases encoded
    rfl
  | offset target base form =>
    obtain ⟨distance, _, encoded⟩ := bind_eq_ok.1 encoded
    obtain ⟨offset, _, encoded⟩ := bind_eq_ok.1 encoded
    cases encoded
    rw [← length_listed, listed_toByteArray, OffsetForm.length_encode]
    rfl
  | place label =>
    cases encoded
    rfl

theorem length_of_render {places : List (Label × Nat)} {pieces : List (Piece Label)}
    {content : List UInt8} (rendered : render places pieces = .ok content) :
    content.length = size pieces := by
  induction pieces generalizing content with
  | nil =>
    cases rendered
    rfl
  | cons piece rest induction =>
    obtain ⟨own, encoded, rendered⟩ := bind_eq_ok.1 rendered
    obtain ⟨others, later, rendered⟩ := bind_eq_ok.1 rendered
    cases rendered
    rw [List.length_append, length_listed, Piece.size_of_encode encoded, induction later, size_cons]

private theorem render_singles (places : List (Label × Nat)) (content : List UInt8)
    (rest : List (Piece Label)) :
    render places ((content.map fun byte => .literal [byte]) ++ rest) =
      (content ++ ·) <$> render places rest := by
  induction content with
  | nil =>
    rw [List.map_nil, List.nil_append]
    cases render places rest <;> rfl
  | cons byte content induction =>
    rw [List.map_cons, List.cons_append, render, induction]
    cases render places rest <;> rfl

theorem render_split (places : List (Label × Nat)) (pieces : List (Piece Label)) :
    render places (split pieces) = render places pieces := by
  induction pieces with
  | nil => rfl
  | cons piece rest induction =>
    change render places (piece.split ++ split rest) = _
    cases piece with
    | bytes content =>
      rw [Piece.split, render_singles, induction, render]
      cases render places rest <;> rfl
    | offset =>
      change render places (_ :: split rest) = _
      rw [render, induction, render]
    | place =>
      change render places (_ :: split rest) = _
      rw [render, induction, render]

/-- Output does not depend on how its bytes are divided into pieces. -/
theorem assemble_eq_of_split {first second : List (Piece Label)} (same : split first = split second) :
    assemble first = assemble second := by
  have places : places first = places second := by
    rw [places, places, ← placesFrom_split, same, placesFrom_split]
  rw [assemble_eq, assemble_eq, places, ← render_split, same, render_split]

/-! ### Pieces in the output -/

/-- Pieces stand at a position of the output, and their places are where they are taken to be. -/
structure Stands (out : ByteArray) (places : List (Label × Nat)) (pos : Nat)
    (pieces : List (Piece Label)) : Prop where
  rendered : ∃ content, render places pieces = .ok content ∧ Holds out pos content
  placed : ∀ place ∈ placesFrom pos pieces, places.lookup place.1 = some place.2

namespace Stands

variable {out : ByteArray} {places : List (Label × Nat)} {pos : Nat}
  {first second rest : List (Piece Label)}

theorem of_assemble {pieces : List (Piece Label)} (distinct : (labels pieces).Nodup)
    (assembled : assemble pieces = Except.ok out) : Stands out (Layout.places pieces) 0 pieces := by
  rw [assemble_eq] at assembled
  obtain ⟨content, rendered, rfl⟩ := map_eq_ok.1 assembled
  refine ⟨⟨content, rendered, .of_toByteArray content⟩, fun place listed => ?_⟩
  apply lookup_of_mem _ listed
  rwa [map_fst_placesFrom]

theorem left (stands : Stands out places pos (first ++ second)) : Stands out places pos first := by
  obtain ⟨content, rendered, holds⟩ := stands.rendered
  obtain ⟨front, back, left, _, rfl⟩ := render_append_eq_ok.1 rendered
  refine ⟨⟨front, left, holds.left⟩, fun place listed => stands.placed place ?_⟩
  rw [placesFrom_append]
  exact List.mem_append_left _ listed

theorem right (stands : Stands out places pos (first ++ second)) :
    Stands out places (pos + size first) second := by
  obtain ⟨content, rendered, holds⟩ := stands.rendered
  obtain ⟨front, back, left, right, rfl⟩ := render_append_eq_ok.1 rendered
  refine ⟨⟨back, right, ?_⟩, fun place listed => stands.placed place ?_⟩
  · rw [← length_of_render left]
    exact holds.right
  · rw [placesFrom_append]
    exact List.mem_append_right _ listed

theorem tail {piece : Piece Label} (stands : Stands out places pos (piece :: rest)) :
    Stands out places (pos + piece.size) rest := by
  have whole : Stands out places pos ([piece] ++ rest) := stands
  exact size_singleton piece ▸ whole.right

theorem le_size {pieces : List (Piece Label)} (stands : Stands out places pos pieces) :
    pos + size pieces ≤ out.size := by
  obtain ⟨content, rendered, holds⟩ := stands.rendered
  rw [← length_of_render rendered]
  exact holds.le_size

theorem place {label : Label} (stands : Stands out places pos (.place label :: rest)) :
    places.lookup label = some pos ∧ Stands out places pos rest :=
  ⟨stands.placed (label, pos) List.mem_cons_self,
    stands.tail⟩

theorem bytes {content : ByteArray} (stands : Stands out places pos (.bytes content :: rest)) :
    Holds out pos (listed content) ∧ Stands out places (pos + content.size) rest := by
  refine ⟨?_, stands.tail⟩
  obtain ⟨_, rendered, holds⟩ := stands.rendered
  obtain ⟨own, encoded, rendered⟩ := bind_eq_ok.1 rendered
  obtain ⟨others, _, rendered⟩ := bind_eq_ok.1 rendered
  cases encoded
  cases rendered
  exact holds.left

theorem literal {content : List UInt8}
    (stands : Stands out places pos (.literal content :: rest)) :
    Holds out pos content ∧ Stands out places (pos + content.length) rest := by
  obtain ⟨holds, rest⟩ := bytes stands
  rw [← length_listed] at rest
  rw [listed_toByteArray] at holds rest
  exact ⟨holds, rest⟩

theorem offset {target : Label} {base : Option Label} {form : OffsetForm}
    (stands : Stands out places pos (.offset target base form :: rest)) :
    ∃ offset, distance places target base = Except.ok offset ∧ offset ≤ form.limit ∧
      Holds out pos (form.encode offset) ∧ Stands out places (pos + form.size) rest := by
  have later := stands.tail
  obtain ⟨_, rendered, holds⟩ := stands.rendered
  obtain ⟨own, encoded, rendered⟩ := bind_eq_ok.1 rendered
  obtain ⟨others, _, rendered⟩ := bind_eq_ok.1 rendered
  cases rendered
  obtain ⟨offset, measured, bounded⟩ := bind_eq_ok.1 encoded
  obtain ⟨_, bounded, written⟩ := bind_eq_ok.1 bounded
  obtain ⟨small, rfl⟩ := OutputError.atMost_eq_ok_iff.1 bounded
  cases written
  rw [listed_toByteArray] at holds
  exact ⟨_, measured, small, holds.left, later⟩

theorem of_flatten {parts : List (List (Piece Label))} {i : Nat} (inside : i < parts.length)
    (stands : Stands out places pos parts.flatten) :
    Stands out places (pos + ((parts.map size).take i).sum) parts[i] := by
  induction parts generalizing pos i with
  | nil => cases inside
  | cons part parts induction =>
    rw [List.flatten_cons] at stands
    cases i with
    | zero => exact stands.left
    | succ i =>
      have later := induction (Nat.lt_of_succ_lt_succ inside) stands.right
      rwa [List.map_cons, List.take_succ_cons, List.sum_cons, ← Nat.add_assoc]

theorem exists_of_mem_flatMap {α : Type} {xs : List α} {x : α} {f : α → List (Piece Label)}
    (stands : Stands out places pos (xs.flatMap f)) (listed : x ∈ xs) :
    ∃ start, Stands out places start (f x) := by
  obtain ⟨i, bound, rfl⟩ := List.mem_iff_getElem.1 listed
  rw [List.flatMap_def] at stands
  have part := stands.of_flatten (i := i) (by rwa [List.length_map])
  rw [List.getElem_map] at part
  exact ⟨_, part⟩

end Stands

theorem distance_from_start {places : List (Label × Nat)} {target : Label} {offset : Nat} :
    distance places target none = Except.ok offset ↔ places.lookup target = some offset := by
  simp only [distance, bind_eq_ok, pure_eq_ok, Linker.position_eq, Linker.distance_eq,
    OutputError.position_eq_ok_iff, OutputError.distance_eq_ok_iff, exists_eq_left', Nat.zero_le,
    Nat.sub_zero, true_and, exists_eq_right]

theorem distance_of_lookup {places : List (Label × Nat)} {target base : Label} {start stop : Nat}
    (ends : places.lookup target = some stop) (begins : places.lookup base = some start)
    (ordered : start ≤ stop) : distance places target (some base) = Except.ok (stop - start) := by
  refine bind_eq_ok.2 ⟨stop, OutputError.position_eq_ok_iff.2 ends, bind_eq_ok.2 ⟨start, ?_, ?_⟩⟩
  · exact OutputError.position_eq_ok_iff.2 begins
  · exact OutputError.distance_eq_ok_iff.2 ⟨ordered, rfl⟩

/-! ### INDEXes in the output -/

/-- An INDEX is read where it stands, and its elements stand where it says. -/
theorem Stands.index {out : ByteArray} {places : List (Label × Nat)} {pos : Nat}
    {elements : List (List (Piece Label))} {pieces : List (Piece Label)}
    (laid : Layout.index elements = Except.ok pieces) (stands : Stands out places pos pieces) :
    ∃ index : Index, Index.read.run (.whole out) pos = .ok index (pos + size pieces) ∧
      index.size = elements.length ∧ ∀ i (inside : i < elements.length),
        index.elementSpan i = ⟨(index.elementSpan i).start,
          (index.elementSpan i).start + size elements[i]⟩ ∧
        Stands out places (index.elementSpan i).start elements[i] := by
  obtain ⟨header, begun, rfl⟩ := index_eq_ok.1 laid
  obtain ⟨valid, content⟩ := Index.valid_of_header begun
  obtain ⟨_, rendered, holds⟩ := stands.rendered
  have length := length_of_render rendered
  obtain ⟨holdsHeader, rest⟩ := stands.bytes
  obtain ⟨own, encoded, rendered⟩ := bind_eq_ok.1 rendered
  obtain ⟨others, _, rendered⟩ := bind_eq_ok.1 rendered
  cases encoded
  cases rendered
  have headerLength : header.size = (Index.Form.ofLengths (elements.map size)).header.length := by
    rw [← content, length_listed]
  have total : size (.bytes header :: elements.flatten) =
      (Index.Form.ofLengths (elements.map size)).size := by
    rw [size_cons, Index.Form.size_ofLengths, ← headerLength, size_flatten]
    rfl
  have read := valid.spelled pos ⟨others, by rw [content]⟩ (length.trans total) _ holds.whole
  rw [length] at read
  refine ⟨_, read, ?_, fun i inside => ?_⟩
  · rw [Index.Form.size_placed_ofLengths, List.length_map]
  · have counted : i < (elements.map size).length := by rwa [List.length_map]
    have element := rest.of_flatten inside
    have next : ((elements.map size).take (i + 1)).sum =
        ((elements.map size).take i).sum + size elements[i] := by
      rw [List.take_succ_eq_append_getElem counted, List.sum_append, List.getElem_map,
        List.sum_singleton]
    rw [Index.Form.elementSpan_placed_ofLengths pos counted, next, ← headerLength]
    exact ⟨by rw [Nat.add_assoc _ _ (size elements[i])], element⟩

end CompactFont.Layout
