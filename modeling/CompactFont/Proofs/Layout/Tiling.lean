import CompactFont.Proofs.Layout.Assembly
import CompactFont.Proofs.Span

/-!
Structures that lie where the pieces they are read from stand are in a row, since the pieces are.
-/

set_option autoImplicit false

namespace CompactFont

/-- An INDEX reaches from where it is read to where its reader stops. -/
theorem Span.Tile.of_run_read {source : Source} {pos stop : Nat} {index : Index}
    (inside : pos ≤ source.stop) (read : Index.read.run source pos = .ok index stop) :
    Span.Tile pos [index.span] stop := by
  obtain ⟨form, valid, _, _, rfl, rfl⟩ := (Index.run_read_eq_ok inside).1 read
  have ends := valid.stop_placed pos
  refine ⟨rfl, ?_, ends⟩
  rw [Index.span, ends]
  exact Nat.le_add_right pos _

namespace Layout

variable {Label : Type} [DecidableEq Label] {out : ByteArray} {places : List (Label × Nat)}
  {pos : Nat}

theorem Stands.tile {parts : List (List (Piece Label))} {spans : List (List Span)}
    (each : List.Forall₂ (fun part own => ∀ start, Stands out places start part →
      Span.Tile start own (start + size part)) parts spans)
    (stands : Stands out places pos parts.flatten) :
    Span.Tile pos spans.flatten (pos + size parts.flatten) := by
  induction each generalizing pos with
  | nil => rfl
  | cons first _ induction =>
    rw [List.flatten_cons] at stands
    rw [List.flatten_cons, List.flatten_cons, size_append, ← Nat.add_assoc]
    exact (first pos stands.left).append (induction stands.right)

theorem size_of_assemble {pieces : List (Piece Label)} (assembled : assemble pieces = Except.ok out) :
    out.size = size pieces := by
  rw [assemble_eq] at assembled
  obtain ⟨content, rendered, rfl⟩ := map_eq_ok.1 assembled
  rw [← length_of_render rendered, ← length_listed, listed_toByteArray]

def Stretches (places : List (Label × Nat)) (label : Label) (spans : List Span) (length : Nat) : Prop :=
  ∃ start, places.lookup label = some start ∧ Span.Tile start spans (start + length)

theorem Stretches.tile {label : Label} {spans : List Span} {part : List (Piece Label)} {length : Nat}
    (stretches : Stretches places label spans length) (total : size part = length) (pos : Nat)
    (stands : Stands out places pos (.place label :: part)) :
    Span.Tile pos spans (pos + size (.place label :: part)) := by
  obtain ⟨start, found, tile⟩ := stretches
  obtain ⟨placed, _⟩ := stands.place
  cases Option.some.inj (placed.symm.trans found)
  rw [size_cons, total]
  simpa [Piece.size] using tile

end Layout
end CompactFont
