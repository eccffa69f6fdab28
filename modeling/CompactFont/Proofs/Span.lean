import CompactFont.Proofs.Reader.Placement

/-!
Spans in a row, without gaps and without overlaps. What they cut out, one after the other, is what the
positions from the first start to the last end hold.
-/

set_option autoImplicit false

namespace CompactFont.Span

/-- Spans tile the positions from `start` to `stop`: the first one starts at `start`, every other one
where the one before it ends, and the last one ends at `stop`. -/
def Tile : (start : Nat) → List Span → (stop : Nat) → Prop
  | start, [], stop => start = stop
  | start, span :: rest, stop => span.start = start ∧ span.start ≤ span.stop ∧ Tile span.stop rest stop

def between (positions : List Nat) : List Span := List.zipWith Span.mk positions positions.tail

namespace Tile

variable {start middle stop : Nat} {first second spans : List Span}

theorem append (front : Tile start first middle) (back : Tile middle second stop) :
    Tile start (first ++ second) stop := by
  induction first generalizing start with
  | nil =>
    cases front
    exact back
  | cons span first induction => exact ⟨front.1, front.2.1, induction front.2.2⟩

theorem single (start length : Nat) : Tile start [⟨start, start + length⟩] (start + length) :=
  ⟨rfl, Nat.le_add_right start length, rfl⟩

theorem le (tile : Tile start spans stop) : start ≤ stop := by
  induction spans generalizing start with
  | nil => exact Nat.le_of_eq tile
  | cons span spans induction =>
    obtain ⟨rfl, ordered, rest⟩ := tile
    exact Nat.le_trans ordered (induction rest)

theorem start_le {span : Span} (tile : Tile start spans stop) (listed : span ∈ spans) :
    start ≤ span.start := by
  induction spans generalizing start with
  | nil => exact absurd listed List.not_mem_nil
  | cons first spans induction =>
    obtain ⟨rfl, ordered, rest⟩ := tile
    rcases List.mem_cons.1 listed with rfl | later
    · exact Nat.le_refl _
    · exact Nat.le_trans ordered (induction rest later)

theorem stop_le {span : Span} (tile : Tile start spans stop) (listed : span ∈ spans) :
    span.stop ≤ stop := by
  induction spans generalizing start with
  | nil => exact absurd listed List.not_mem_nil
  | cons first spans induction =>
    obtain ⟨rfl, _, rest⟩ := tile
    rcases List.mem_cons.1 listed with rfl | later
    · exact rest.le
    · exact induction rest later

/-- Spans in a row do not overlap, however far apart they are in the row. -/
theorem pairwise (tile : Tile start spans stop) :
    spans.Pairwise fun earlier later => earlier.stop ≤ later.start := by
  induction spans generalizing start with
  | nil => exact .nil
  | cons span spans induction =>
    obtain ⟨rfl, _, rest⟩ := tile
    exact .cons (fun later listed => rest.start_le listed) (induction rest)

/-- What spans in a row cut out stands at the position that they start at. -/
theorem holds {bytes : ByteArray} (tile : Tile start spans stop) (inside : stop ≤ bytes.size) :
    Holds bytes start (spans.flatMap fun span => listed (span.slice bytes)) := by
  induction spans generalizing start with
  | nil =>
    cases tile
    exact .nil inside
  | cons span spans induction =>
    obtain ⟨rfl, ordered, rest⟩ := tile
    have within : span.stop ≤ bytes.size := Nat.le_trans rest.le inside
    have length : (listed (span.slice bytes)).length = span.stop - span.start := by
      rw [length_listed, size_slice_of_le within, Span.length]
    rw [List.flatMap_cons]
    apply Holds.append (.of_slice ordered within)
    rw [length, Nat.add_sub_cancel' ordered]
    exact induction rest

end Tile

theorem tile_between {first : Nat} {rest : List Nat} (ascending : (first :: rest).Pairwise (· ≤ ·)) :
    Tile first (between (first :: rest)) (rest.getLastD first) := by
  induction rest generalizing first with
  | nil => rfl
  | cons second rest induction =>
    obtain ⟨least, others⟩ := List.pairwise_cons.1 ascending
    rw [List.getLastD_cons]
    exact ⟨rfl, least second List.mem_cons_self, induction others⟩

theorem length_between (positions : List Nat) :
    (between positions).length = positions.length - 1 := by
  rw [between, List.length_zipWith, List.length_tail]
  exact Nat.min_eq_right (Nat.sub_le _ _)

end CompactFont.Span
