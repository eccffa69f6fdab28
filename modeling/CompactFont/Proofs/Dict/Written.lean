import CompactFont.OutputError
import CompactFont.Proofs.Dict.Form

/-!
DICT entries that are written anew. Each is a form that reads back as the operands and the operator
that it was written for. So entries of integers in a row read back as they were written, whatever
surrounds them, for all operators that are read at all.
-/

set_option autoImplicit false

namespace CompactFont.Dict

open Reader

theorem spells_ofEscaped (byte : UInt8) :
    Spells (Operator.ofEscaped byte).encode (.operator (.ofEscaped byte)) := by
  intro pos
  rw [Operator.encode_ofEscaped]
  exact spelled_readToken_escaped pos byte

theorem spells_ofByte (byte : UInt8) (small : byte ≤ 27 ∨ byte = 31)
    (plain : byte ≠ Operator.escape) :
    Spells (Operator.ofByte byte).encode (.operator (.ofByte byte)) := by
  intro pos
  rw [Operator.encode_ofByte]
  exact spelled_readToken_operator pos small plain

theorem fits_of_le {value : Nat} (small : value ≤ OutputError.maxOperand) :
    Number.Fits (value : Int) := by
  have bound : OutputError.maxOperand < 0x80000000 := by decide
  constructor <;> omega

namespace Form

def ofNaturals (operands : List Nat) (operator : Operator) : Form where
  operator := operator
  operands := (operands.map fun value : Nat => Operand.integer value).toArray
  raw := operands.flatMap (fun value : Nat => Number.encodeShortest value) ++ operator.encode

/-- A DICT entry with a position or a distance as its operand, of which it is told how long it is. -/
def locator (offset : Nat) (operator : Operator) : Form :=
  ⟨operator, #[.integer offset], Number.encodeFixed offset ++ operator.encode⟩

def extent (size offset : Nat) (operator : Operator) : Form :=
  ⟨operator, #[.integer size, .integer offset],
    Number.encodeShortest size ++ (Number.encodeFixed offset ++ operator.encode)⟩

theorem sound_ofNaturals {operands : List Nat} {operator : Operator}
    (fits : ∀ value ∈ operands, value ≤ OutputError.maxOperand)
    (spells : Spells operator.encode (.operator operator)) : (ofNaturals operands operator).Sound := by
  refine ⟨operands.map fun value : Nat => (.integer value, Number.encodeShortest value),
    operator.encode, ?_, spells, ?_, ?_⟩
  · intro part listed pos
    obtain ⟨value, given, rfl⟩ := List.mem_map.1 listed
    exact spelled_encodeShortest pos (fits_of_le (fits value given))
  · simp [ofNaturals]
  · simp [ofNaturals, List.flatMap_map]

theorem sound_locator {offset : Nat} {operator : Operator}
    (fits : offset ≤ OutputError.maxOperand)
    (spells : Spells operator.encode (.operator operator)) : (locator offset operator).Sound := by
  refine ⟨[(.integer offset, Number.encodeFixed offset)], operator.encode, ?_, spells, rfl, ?_⟩
  · intro part listed pos
    rw [List.mem_singleton] at listed
    rw [listed]
    exact spelled_encodeFixed pos (fits_of_le fits)
  · simp [locator]

theorem sound_extent {size offset : Nat} {operator : Operator}
    (fitsSize : size ≤ OutputError.maxOperand) (fitsOffset : offset ≤ OutputError.maxOperand)
    (spells : Spells operator.encode (.operator operator)) :
    (extent size offset operator).Sound := by
  refine ⟨[(.integer size, Number.encodeShortest size), (.integer offset,
    Number.encodeFixed offset)], operator.encode, ?_, spells, rfl, ?_⟩
  · intro part listed pos
    rcases List.mem_cons.1 listed with rfl | listed
    · exact spelled_encodeShortest pos (fits_of_le fitsSize)
    · rw [List.mem_singleton] at listed
      rw [listed]
      exact spelled_encodeFixed pos (fits_of_le fitsOffset)
  · simp [extent]

end Form

theorem Entry.natural_eq_ok {entry : Entry} {i value : Nat}
    (given : entry.operands[i]? = some (.integer value)) : entry.natural i = .ok value := by
  have integer : entry.integer i = .ok (value : Int) := by
    rw [Entry.integer, given]
  refine bind_eq_ok.2 ⟨value, integer, ?_⟩
  rw [if_neg (by omega), Int.toNat_natCast]

/-! ### Operators that are read -/

def Operator.Readable (operator : Operator) : Prop :=
  ∃ bytes span entries, readSpan bytes span = .ok entries ∧
    ∃ entry ∈ entries, entry.operator = operator

/-- Operators have one byte, at most 27 or 31 and not the escape byte, or any byte after that one. -/
def Operator.Coded (operator : Operator) : Prop :=
  (∃ byte : UInt8, (byte ≤ 27 ∨ byte = 31) ∧ byte ≠ Operator.escape ∧ operator = .ofByte byte) ∨
    ∃ byte, operator = .ofEscaped byte

theorem Operator.Coded.spells {operator : Operator} (coded : operator.Coded) :
    Spells operator.encode (.operator operator) := by
  obtain ⟨byte, small, plain, rfl⟩ | ⟨byte, rfl⟩ := coded
  · exact spells_ofByte byte small plain
  · exact spells_ofEscaped byte

/-- A reader that gives operands gives no operators. -/
theorem not_operator_of_run {α : Type} {reader : Reader α} {value : α → Operand} {source : Source}
    {pos stop : Nat} {operator : Operator} :
    ¬(do return .operand (value (← reader)) : Reader Token).run source pos =
      .ok (.operator operator) stop := by
  intro read
  obtain ⟨_, _, _, last⟩ := run_bind_eq_ok.1 read
  cases last

theorem coded_of_run {source : Source} {pos stop : Nat} {operator : Operator}
    (read : readToken.run source pos = .ok (.operator operator) stop) : operator.Coded := by
  unfold readToken at read
  obtain ⟨lead, middle, _, rest⟩ := run_bind_eq_ok.1 read
  split at rest
  · obtain ⟨byte, _, _, last⟩ := run_bind_eq_ok.1 rest
    cases last
    exact .inr ⟨byte, rfl⟩
  next plain =>
  split at rest
  · next small =>
    cases rest
    exact .inl ⟨lead, small, plain, rfl⟩
  -- every other lead byte starts an operand, or is reserved
  split at rest
  · exact absurd rest not_operator_of_run
  split at rest
  · exact absurd rest not_operator_of_run
  split at rest
  · obtain ⟨room, _, _, real⟩ := run_bind_eq_ok.1 rest
    exact absurd real not_operator_of_run
  split at rest
  · exact absurd rest not_operator_of_run
  · cases rest

/-- The operators that some DICT has are those with a code. -/
theorem Operator.readable_iff {operator : Operator} : operator.Readable ↔ operator.Coded := by
  constructor
  · rintro ⟨bytes, span, entries, read, entry, listed, rfl⟩
    obtain ⟨_, last, _, spells, _⟩ := sound_of_readSpan read listed
    exact coded_of_run (spells 0 (.whole last.toByteArray) (Holds.of_toByteArray last).whole)
  · intro coded
    -- the operator alone, without operands, is a DICT that has it
    have sound : ∀ form ∈ [(⟨operator, #[], operator.encode⟩ : Form)], form.Sound := by
      intro form listed
      rw [List.mem_singleton.1 listed]
      exact ⟨[], operator.encode, fun _ absent => absurd absent List.not_mem_nil, coded.spells, rfl,
        rfl⟩
    exact ⟨_, _, _, readSpan_raws sound .empty .empty, _, List.mem_toArray.2 List.mem_cons_self, rfl⟩

/-! ### Entries of integers -/

structure IntegerOperand where
  value : Int
  fits : Number.Fits value
  /-- whether it takes five bytes, whatever its value -/
  fixed : Bool

def IntegerOperand.encode (operand : IntegerOperand) : List UInt8 :=
  if operand.fixed then Number.encodeFixed operand.value else Number.encodeShortest operand.value

theorem IntegerOperand.spells (operand : IntegerOperand) :
    Spells operand.encode (.operand (.integer operand.value)) := by
  intro pos
  unfold IntegerOperand.encode
  split
  · exact spelled_encodeFixed pos operand.fits
  · exact spelled_encodeShortest pos operand.fits

structure Draft where
  operands : List IntegerOperand
  operator : Operator
  readable : operator.Readable

namespace Draft

def encode (draft : Draft) : List UInt8 :=
  draft.operands.flatMap IntegerOperand.encode ++ draft.operator.encode

def values (draft : Draft) : Array Operand :=
  (draft.operands.map fun operand => .integer operand.value).toArray

def placed (draft : Draft) (pos : Nat) : Entry :=
  ⟨draft.operator, draft.values, ⟨pos, pos + draft.encode.length⟩⟩

def form (draft : Draft) : Form := ⟨draft.operator, draft.values, draft.encode⟩

theorem sound_form (draft : Draft) : draft.form.Sound := by
  refine ⟨draft.operands.map fun operand => (.integer operand.value, operand.encode),
    draft.operator.encode, ?_, (Operator.readable_iff.1 draft.readable).spells, ?_, ?_⟩
  · intro part listed
    obtain ⟨operand, _, rfl⟩ := List.mem_map.1 listed
    exact operand.spells
  · simp [form, values]
  · simp [form, encode, List.flatMap_map]

theorem raws_map_form (drafts : List Draft) : raws (drafts.map form) = drafts.flatMap encode := by
  rw [raws, List.flatMap_map]
  rfl

end Draft

/-- Entries that are written one after the other between other bytes are read back: as many of them,
each with its operator and its integers in their order, and each at exactly the bytes that it was
written to. -/
theorem readSpan_encode (drafts : List Draft) (before after : ByteArray) :
    ∃ entries, readSpan (before ++ (drafts.flatMap Draft.encode).toByteArray ++ after)
        ⟨before.size, before.size + (drafts.flatMap Draft.encode).length⟩ = .ok entries ∧
      entries.size = drafts.length ∧ ∀ i (inside : i < drafts.length), entries[i]? =
        some (drafts[i].placed (before.size + ((drafts.take i).flatMap Draft.encode).length)) := by
  have sound : ∀ form ∈ drafts.map Draft.form, form.Sound := by
    intro form listed
    obtain ⟨draft, _, rfl⟩ := List.mem_map.1 listed
    exact draft.sound_form
  have read := readSpan_raws sound before after
  rw [Draft.raws_map_form] at read
  refine ⟨_, read, ?_, fun i inside => ?_⟩
  · rw [List.size_toArray, length_entriesFrom, List.length_map]
  · rw [List.getElem?_toArray, getElem?_entriesFrom, List.getElem?_map,
      List.getElem?_eq_getElem inside, ← List.map_take, Draft.raws_map_form]
    rfl

/-- Integers where the number of bytes that spell them changes, and an entry without operands. -/
def boundaryDrafts : List Draft :=
  [⟨[⟨-107, by decide, false⟩, ⟨108, by decide, false⟩, ⟨-1131, by decide, false⟩,
      ⟨1132, by decide, false⟩, ⟨-0x8000, by decide, false⟩, ⟨0x8000, by decide, false⟩,
      ⟨0, by decide, true⟩, ⟨-0x80000000, by decide, true⟩],
    .ros, Operator.readable_iff.2 (.inr ⟨30, rfl⟩)⟩,
   ⟨[], .other 22, Operator.readable_iff.2 (.inl ⟨22, by decide, by decide, rfl⟩)⟩]

theorem readSpan_encode_boundaryDrafts :
    boundaryDrafts.flatMap Draft.encode = [32, 247, 0, 254, 255, 28, 4, 108, 28, 128, 0,
        29, 0, 0, 128, 0, 29, 0, 0, 0, 0, 29, 128, 0, 0, 0, 12, 30, 22] ∧
      ∃ entries, readSpan (⟨#[255, 139]⟩ ++ (boundaryDrafts.flatMap Draft.encode).toByteArray ++
          ⟨#[139]⟩) ⟨2, 31⟩ = .ok entries ∧ entries.size = 2 ∧
        entries[0]? = some ⟨.ros, #[.integer (-107), .integer 108, .integer (-1131), .integer 1132,
          .integer (-0x8000), .integer 0x8000, .integer 0, .integer (-0x80000000)], ⟨2, 30⟩⟩ ∧
        entries[1]? = some ⟨.other 22, #[], ⟨30, 31⟩⟩ := by
  obtain ⟨entries, read, size, each⟩ := readSpan_encode boundaryDrafts ⟨#[255, 139]⟩ ⟨#[139]⟩
  exact ⟨by decide, entries, read, size, each 0 (by decide), each 1 (by decide)⟩

end CompactFont.Dict
