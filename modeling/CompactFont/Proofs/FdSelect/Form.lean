import CompactFont.FdSelect
import CompactFont.Proofs.Index.Offsets
import Mathlib.Data.List.GetD

/-!
The two forms of an FDSelect, as they are written: the Font DICT of every glyph, or runs of glyphs that
belong to one Font DICT. An FDSelect is read exactly where one of these forms stands.
-/

set_option autoImplicit false

namespace CompactFont.FdSelect

open Reader

/-! ### Runs of glyphs -/

structure Run where
  count : Nat
  index : UInt8

namespace Run

def total (runs : List Run) : Nat := (runs.map count).sum

def expand (runs : List Run) : List UInt8 :=
  runs.flatMap fun run => List.replicate run.count run.index

/-- Runs as they are written, the first of which starts at glyph `first`: each as its Font DICT and
the first glyph after it. -/
def encodeFrom : (first : Nat) → List Run → List UInt8
  | _, [] => []
  | first, run :: runs =>
    run.index :: (BigEndian.encode 2 (first + run.count) ++ encodeFrom (first + run.count) runs)

/-- Runs from glyph `first` on end no later than the font does, and where two bytes can tell. -/
def Fit (glyphCount first : Nat) (runs : List Run) : Prop :=
  runs ≠ [] → first + total runs ≤ glyphCount ∧ first + total runs < 0x10000

variable {glyphCount first : Nat} {run : Run} {runs : List Run}

theorem total_cons (run : Run) (runs : List Run) : total (run :: runs) = run.count + total runs := rfl

theorem length_expand (runs : List Run) : (expand runs).length = total runs := by
  induction runs with
  | nil => rfl
  | cons run runs induction =>
    rw [expand, List.flatMap_cons, List.length_append, List.length_replicate, total_cons, ← induction]
    rfl

theorem length_encodeFrom (first : Nat) (runs : List Run) :
    (encodeFrom first runs).length = 3 * runs.length := by
  induction runs generalizing first with
  | nil => rfl
  | cons run runs induction =>
    rw [encodeFrom, List.length_cons, List.length_append, BigEndian.length_encode, induction,
      List.length_cons]
    omega

theorem encodeFrom_append (first : Nat) (front back : List Run) :
    encodeFrom first (front ++ back) =
      encodeFrom first front ++ encodeFrom (first + total front) back := by
  induction front generalizing first with
  | nil => rfl
  | cons run front induction =>
    rw [List.cons_append, encodeFrom, induction, total_cons, encodeFrom, List.cons_append,
      List.append_assoc, Nat.add_assoc]

theorem fit_cons : Fit glyphCount first (run :: runs) ↔
    (first + run.count ≤ glyphCount ∧ first + run.count < 0x10000) ∧
      Fit glyphCount (first + run.count) runs := by
  unfold Fit
  rw [total_cons, ← Nat.add_assoc]
  cases runs with
  | nil => simp [total]
  | cons next runs =>
    have more : first + run.count ≤ first + run.count + total (next :: runs) := Nat.le_add_right _ _
    simp only [ne_eq, reduceCtorEq, not_false_eq_true, forall_const]
    omega

theorem total_take_succ {i : Nat} (inside : i < runs.length) :
    total (runs.take (i + 1)) = total (runs.take i) + runs[i].count := by
  rw [total, total, List.take_succ_eq_append_getElem inside, List.map_append, List.sum_append]
  rfl

theorem total_take_le (i : Nat) (runs : List Run) : total (runs.take i) ≤ total runs := by
  have split : total runs = total (runs.take i) + total (runs.drop i) := by
    rw [total, total, total, ← List.sum_append, ← List.map_append, List.take_append_drop]
  omega

theorem getD_expand {i k : Nat} (inside : i < runs.length) (lower : total (runs.take i) ≤ k)
    (upper : k < total (runs.take (i + 1))) : (expand runs).getD k 0 = runs[i].index := by
  induction runs generalizing i k with
  | nil => cases inside
  | cons run runs induction =>
    have front : (List.replicate run.count run.index).length = run.count := List.length_replicate
    rw [expand, List.flatMap_cons]
    cases i with
    | zero =>
      have before : k < run.count := by
        rw [List.take_succ_cons, List.take_zero, total_cons] at upper
        exact upper
      rw [List.getD_append _ _ _ _ (by omega), List.getD_replicate _ before]
      rfl
    | succ i =>
      rw [List.take_succ_cons, total_cons] at lower upper
      rw [List.getD_append_right _ _ _ _ (by omega), front, List.getElem_cons_succ]
      exact induction (Nat.lt_of_succ_lt_succ inside) (by omega) (by omega)

end Run

/-! ### Reading ranges -/

theorem extend_expand (assigned : Array UInt8) (run : Run) (runs : List Run) :
    extend assigned run.count run.index ++ (Run.expand runs).toArray =
      assigned ++ (Run.expand (run :: runs)).toArray := by
  apply Array.ext'
  simp [extend, Run.expand]

theorem run_readRanges_eq_ok {glyphCount count first : Nat} {assigned all : Array UInt8}
    {source : Source} {pos stop : Nat} (inside : pos ≤ source.stop) :
    (readRanges glyphCount count first assigned).run source pos = .ok all stop ↔
      ∃ runs : List Run, runs.length = count ∧ Run.Fit glyphCount first runs ∧
        source.Holds pos (Run.encodeFrom first runs) ∧
        all = assigned ++ (Run.expand runs).toArray ∧ stop = pos + 3 * count := by
  induction count generalizing first assigned pos with
  | zero =>
    constructor
    · intro read
      obtain ⟨rfl, rfl⟩ := run_pure_eq_ok.1 read
      exact ⟨[], rfl, fun full => absurd rfl full, .nil inside, Array.append_empty.symm, rfl⟩
    · intro ⟨runs, length, _, _, same, ends⟩
      rw [List.length_eq_zero_iff.1 length] at same
      refine run_pure_eq_ok.2 ⟨?_, ends.symm⟩
      rw [same]
      exact Array.append_empty.symm
  | succ count induction =>
    constructor
    · intro read
      obtain ⟨index, _, indexed, read⟩ := run_bind_eq_ok.1 read
      obtain ⟨holdsIndex, rfl⟩ := run_u8_eq_ok.1 indexed
      obtain ⟨next, _, ended, read⟩ := run_bind_eq_ok.1 read
      obtain ⟨small, holdsNext, rfl⟩ := (run_word_eq_ok holdsIndex.2).1 ended
      split at read
      · cases read
      next ordered =>
      have last : first + (next - first) = next := by omega
      have within : pos + 1 + 2 ≤ source.stop := by
        have bound := holdsNext.2
        rwa [BigEndian.length_encode] at bound
      obtain ⟨runs, length, fit, holds, rfl, rfl⟩ := (induction within).1 read
      refine ⟨⟨next - first, index⟩ :: runs, by rw [List.length_cons, length], ?_, ?_, ?_, by omega⟩
      · refine Run.fit_cons.2 ⟨?_, ?_⟩
        · dsimp only
          omega
        · dsimp only
          rwa [last]
      · rw [Run.encodeFrom]
        dsimp only
        rw [last]
        refine holdsIndex.append (holdsNext.append ?_)
        rwa [BigEndian.length_encode]
      · exact extend_expand assigned ⟨next - first, index⟩ runs
    · intro ⟨runs, length, fit, holds, same, ends⟩
      cases runs with
      | nil => cases length
      | cons run runs =>
        obtain ⟨⟨bounded, small⟩, rest⟩ := Run.fit_cons.1 fit
        have holdsIndex := holds.head
        have holdsNext := holds.tail.left
        have holdsRest := holds.tail.right
        rw [BigEndian.length_encode] at holdsRest
        have within : pos + 1 + 2 ≤ source.stop := by
          have bound := holdsNext.2
          rwa [BigEndian.length_encode] at bound
        refine run_bind_eq_ok.2 ⟨run.index, pos + 1, run_u8_eq_ok.2 ⟨holdsIndex, rfl⟩, ?_⟩
        refine run_bind_eq_ok.2 ⟨first + run.count, pos + 1 + 2,
          (run_word_eq_ok holdsIndex.2).2 ⟨small, holdsNext, rfl⟩, ?_⟩
        rw [if_neg (by omega), Nat.add_sub_cancel_left]
        refine (induction within).2 ⟨runs, Nat.succ.inj length, rest, holdsRest, ?_, by omega⟩
        rw [same, extend_expand]

/-! ### Both formats -/

inductive Form where
  | listed (indices : List UInt8)
  | ranged (first : Nat) (runs : List Run)

namespace Form

def encode : Form → List UInt8
  | listed indices => 0 :: indices
  | ranged first runs =>
    3 :: (BigEndian.encode 2 runs.length ++ (BigEndian.encode 2 first ++ Run.encodeFrom first runs))

def Valid (glyphCount : Nat) : Form → Prop
  | listed indices => indices.length = glyphCount
  | ranged first runs =>
    first < 0x10000 ∧ runs.length < 0x10000 ∧ Run.Fit glyphCount first runs

def assigned (glyphCount : Nat) : Form → List UInt8
  | listed indices => indices
  | ranged first runs =>
    List.replicate (min first glyphCount) 0 ++
      (Run.expand runs ++ List.replicate (glyphCount - (min first glyphCount + Run.total runs)) 0)

theorem length_encode_ranged (first : Nat) (runs : List Run) :
    (ranged first runs).encode.length = 5 + 3 * runs.length := by
  rw [encode, List.length_cons, List.length_append, List.length_append, BigEndian.length_encode,
    BigEndian.length_encode, Run.length_encodeFrom]
  omega

theorem length_assigned {glyphCount : Nat} {form : Form} (valid : form.Valid glyphCount) :
    (form.assigned glyphCount).length = glyphCount := by
  cases form with
  | listed indices => exact valid
  | ranged first runs =>
    rw [assigned, List.length_append, List.length_append, List.length_replicate,
      List.length_replicate, Run.length_expand]
    cases runs with
    | nil =>
      change min first glyphCount + (0 + (glyphCount - (min first glyphCount + 0))) = glyphCount
      omega
    | cons run runs =>
      have fits := (valid.2.2 (List.cons_ne_nil run runs)).1
      omega

theorem holds_fields {first : Nat} {runs : List Run} {source : Source} {pos : Nat}
    (holds : source.Holds pos (ranged first runs).encode.tail) :
    source.Holds pos (BigEndian.encode 2 runs.length) ∧
      source.Holds (pos + 2) (BigEndian.encode 2 first) ∧
      source.Holds (pos + 2 + 2) (Run.encodeFrom first runs) := by
  change source.Holds pos (BigEndian.encode 2 runs.length ++ (BigEndian.encode 2 first ++
    Run.encodeFrom first runs)) at holds
  have rest := holds.right
  have ranges := rest.right
  rw [BigEndian.length_encode] at rest ranges
  rw [BigEndian.length_encode] at ranges
  exact ⟨holds.left, rest.left, ranges⟩

/-- Zeros around a list do not show: outside of it, zero is found anyway. -/
theorem getD_framed (before after k : Nat) (inner : List UInt8) :
    (List.replicate before 0 ++ (inner ++ List.replicate after 0)).getD k 0 =
      if before ≤ k then inner.getD (k - before) 0 else 0 := by
  by_cases inside : before ≤ k
  · rw [if_pos inside, List.getD_append_right _ _ _ _ (by rwa [List.length_replicate]),
      List.length_replicate]
    by_cases short : k - before < inner.length
    · rw [List.getD_append _ _ _ _ short]
    · have past : inner.getD (k - before) 0 = 0 := List.getD_eq_default _ _ (by omega)
      rw [List.getD_append_right _ _ _ _ (by omega), past, List.getD_eq_getElem?_getD,
        List.getElem?_getD_replicate_default_eq]
  · rw [if_neg inside, List.getD_append _ _ _ _ (by rw [List.length_replicate]; omega),
      List.getD_eq_getElem?_getD, List.getElem?_getD_replicate_default_eq]

theorem getD_assigned_ranged {glyphCount first : Nat} {runs : List Run}
    (fit : Run.Fit glyphCount first runs) (glyph : Nat) :
    ((ranged first runs).assigned glyphCount).getD glyph 0 =
      if first ≤ glyph then (Run.expand runs).getD (glyph - first) 0 else 0 := by
  rw [assigned, getD_framed]
  cases runs with
  | nil => simp only [Run.expand, List.flatMap_nil, List.getD_nil, ite_self]
  | cons run runs =>
    have fits := (fit (List.cons_ne_nil run runs)).1
    rw [Nat.min_eq_left (by omega)]

/-- Runs of all glyphs leave nothing to fill up. -/
theorem assigned_ranged_zero {glyphCount : Nat} {runs : List Run}
    (all : Run.total runs = glyphCount) :
    (ranged 0 runs).assigned glyphCount = Run.expand runs := by
  rw [assigned, Nat.zero_min, Nat.zero_add, all, Nat.sub_self, List.replicate_zero, List.nil_append,
    List.append_nil]

end Form

theorem spelled_listed {count : Nat} {content : List UInt8} (pos : Nat)
    (length : content.length = count) :
    (do
      let pos ← Reader.position
      let listed ← Reader.slice ⟨pos, pos + count⟩
      Reader.skip count
      return listed.data : Reader (Array UInt8)).Spelled pos content content.toArray := by
  subst length
  intro source holds
  have bound := holds.2
  have slice := holds.1.slice_eq
  have required : (Reader.require ⟨pos, pos + content.length⟩).run source pos = .ok () pos :=
    run_require_eq_ok.2 ⟨⟨Nat.le_add_right _ _, bound⟩, rfl⟩
  refine run_bind_eq_ok.2 ⟨pos, pos, rfl, run_bind_eq_ok.2 ⟨_, pos,
    run_bind_eq_ok.2 ⟨(), pos, required, rfl⟩, run_bind_eq_ok.2 ⟨(), _,
      Spelled.skip pos rfl source holds, ?_⟩⟩⟩
  rw [run_pure]
  congr 1
  exact congrArg List.toArray slice

theorem run_listed_eq_ok {count : Nat} {assigned : Array UInt8} {source : Source} {pos stop : Nat} :
    (do
      let pos ← Reader.position
      let listed ← Reader.slice ⟨pos, pos + count⟩
      Reader.skip count
      return listed.data : Reader (Array UInt8)).run source pos = .ok assigned stop ↔
      ∃ indices : List UInt8, indices.length = count ∧ source.Holds pos indices ∧
        assigned = indices.toArray ∧ stop = pos + count := by
  constructor
  · intro read
    have enough : pos + count ≤ source.stop := by
      obtain ⟨_, _, placed, read⟩ := run_bind_eq_ok.1 read
      obtain ⟨rfl, rfl⟩ := run_position_eq_ok.1 placed
      obtain ⟨_, _, sliced, _⟩ := run_bind_eq_ok.1 read
      obtain ⟨_, _, required, _⟩ := run_bind_eq_ok.1 sliced
      exact (run_require_eq_ok.1 required).1.2
    obtain ⟨indices, holds, length⟩ := Source.Holds.exists_of_le enough
    rw [spelled_listed pos length source holds, EStateM.Result.ok.injEq] at read
    exact ⟨indices, length, holds, read.1.symm, by rw [← read.2, length]⟩
  · rintro ⟨indices, length, holds, rfl, rfl⟩
    rw [spelled_listed pos length source holds, length]

/-- Ranges are read as what they say, with Font DICT 0 for the glyphs before and after them. -/
theorem run_ranged_eq_ok {glyphCount : Nat} {assigned : Array UInt8} {source : Source}
    {pos stop : Nat} (inside : pos ≤ source.stop) :
    (do
      let count ← Reader.u16
      let first ← Reader.u16
      let assigned ← readRanges glyphCount count first (Array.replicate (min first glyphCount) 0)
      return extend assigned (glyphCount - assigned.size) 0 : Reader (Array UInt8)).run source pos =
        .ok assigned stop ↔
      ∃ first runs, (Form.ranged first runs).Valid glyphCount ∧
        source.Holds pos (Form.ranged first runs).encode.tail ∧
        assigned = ((Form.ranged first runs).assigned glyphCount).toArray ∧
        stop = pos + (4 + 3 * runs.length) := by
  have filled : ∀ (first : Nat) (runs : List Run),
      let ranges := Array.replicate (min first glyphCount) 0 ++ (Run.expand runs).toArray
      extend ranges (glyphCount - ranges.size) 0 =
        ((Form.ranged first runs).assigned glyphCount).toArray := by
    intro first runs
    apply Array.ext'
    simp [extend, Form.assigned, Run.length_expand]
  constructor
  · intro read
    obtain ⟨count, _, counted, read⟩ := run_bind_eq_ok.1 read
    obtain ⟨few, holdsCount, rfl⟩ := (run_word_eq_ok inside).1 counted
    have started := holdsCount.2
    rw [BigEndian.length_encode] at started
    obtain ⟨first, _, begun, read⟩ := run_bind_eq_ok.1 read
    obtain ⟨small, holdsFirst, rfl⟩ := (run_word_eq_ok started).1 begun
    have within := holdsFirst.2
    rw [BigEndian.length_encode] at within
    obtain ⟨ranges, _, listed, read⟩ := run_bind_eq_ok.1 read
    obtain ⟨runs, rfl, fit, holds, rfl, rfl⟩ := (run_readRanges_eq_ok within).1 listed
    obtain ⟨rfl, rfl⟩ := run_pure_eq_ok.1 read
    refine ⟨first, runs, ⟨small, few, fit⟩, ?_, filled first runs, by omega⟩
    refine holdsCount.append (Source.Holds.append ?_ ?_)
    · rwa [BigEndian.length_encode]
    · rwa [BigEndian.length_encode, BigEndian.length_encode]
  · rintro ⟨first, runs, ⟨small, few, fit⟩, holds, rfl, rfl⟩
    obtain ⟨holdsCount, holdsFirst, holdsRanges⟩ := Form.holds_fields holds
    have started := holdsCount.2
    have within := holdsFirst.2
    rw [BigEndian.length_encode] at started within
    refine run_bind_eq_ok.2 ⟨runs.length, _,
      (run_word_eq_ok inside).2 ⟨few, holdsCount, rfl⟩, ?_⟩
    refine run_bind_eq_ok.2 ⟨first, _, (run_word_eq_ok started).2 ⟨small, holdsFirst, rfl⟩, ?_⟩
    refine run_bind_eq_ok.2 ⟨_, _,
      (run_readRanges_eq_ok within).2 ⟨runs, rfl, fit, holdsRanges, rfl, rfl⟩, ?_⟩
    exact run_pure_eq_ok.2 ⟨filled first runs, by omega⟩

/-- An FDSelect is read exactly where a form of one stands, as what the form says. -/
theorem run_readAssigned_eq_ok {glyphCount : Nat} {assigned : Array UInt8} {source : Source}
    {pos stop : Nat} :
    (readAssigned glyphCount).run source pos = .ok assigned stop ↔
      ∃ form : Form, form.Valid glyphCount ∧ source.Holds pos form.encode ∧
        assigned = (form.assigned glyphCount).toArray ∧ stop = pos + form.encode.length := by
  constructor
  · intro read
    obtain ⟨_, _, placed, read⟩ := run_bind_eq_ok.1 read
    obtain ⟨rfl, rfl⟩ := run_position_eq_ok.1 placed
    obtain ⟨format, _, first, read⟩ := run_bind_eq_ok.1 read
    obtain ⟨holdsFormat, rfl⟩ := run_u8_eq_ok.1 first
    split at read
    · obtain ⟨indices, length, holds, rfl, rfl⟩ := run_listed_eq_ok.1 read
      refine ⟨.listed indices, length, holdsFormat.append holds, rfl, ?_⟩
      rw [Form.encode, List.length_cons, length]
      omega
    · obtain ⟨first, runs, valid, holds, rfl, rfl⟩ := (run_ranged_eq_ok holdsFormat.2).1 read
      refine ⟨.ranged first runs, valid, holdsFormat.append holds, rfl, ?_⟩
      rw [Form.length_encode_ranged, List.length_singleton]
      omega
    · cases read
  · rintro ⟨form, valid, holds, rfl, rfl⟩
    refine run_bind_eq_ok.2 ⟨pos, pos, rfl, ?_⟩
    cases form with
    | listed indices =>
      refine run_bind_eq_ok.2 ⟨0, pos + 1, run_u8_eq_ok.2 ⟨holds.head, rfl⟩, ?_⟩
      refine run_listed_eq_ok.2 ⟨indices, valid, holds.tail, rfl, ?_⟩
      rw [← valid, Form.encode, List.length_cons]
      omega
    | ranged first runs =>
      have inside : pos + 1 ≤ source.stop := holds.head.2
      refine run_bind_eq_ok.2 ⟨3, pos + 1, run_u8_eq_ok.2 ⟨holds.head, rfl⟩, ?_⟩
      refine (run_ranged_eq_ok inside).2 ⟨first, runs, valid, holds.tail, rfl, ?_⟩
      rw [Form.length_encode_ranged]
      omega

end CompactFont.FdSelect
