import CompactFont.Proofs.Dict.Token
import CompactFont.Proofs.Outcome

/-!
DICT data is a sequence of forms: entries without a place. A span holds a DICT exactly when its
bytes are such a sequence, so entries can be cut out of one DICT and put into another.
-/

set_option autoImplicit false

namespace CompactFont.Dict

open Reader

/-- Bytes that read as a token wherever they stand. -/
def Spells (content : List UInt8) (token : Token) : Prop :=
  ∀ pos, readToken.Spelled pos content token

theorem Spells.length_pos {content : List UInt8} {token : Token} (spells : Spells content token) :
    0 < content.length := by
  cases content with
  | cons byte rest => exact Nat.succ_pos _
  | nil =>
    have read := spells 0 (.whole .empty) ⟨⟨[], [], rfl, rfl⟩, Nat.le_refl 0⟩
    unfold readToken at read
    rw [run_bind, run_u8, dif_neg (by exact Nat.lt_irrefl 0)] at read
    cases read

structure Form where
  operator : Operator
  operands : Array Operand
  raw : List UInt8

namespace Form

def placed (form : Form) (pos : Nat) : Entry :=
  ⟨form.operator, form.operands, ⟨pos, pos + form.raw.length⟩⟩

def ofEntry (bytes : ByteArray) (entry : Entry) : Form :=
  ⟨entry.operator, entry.operands, listed (entry.raw bytes)⟩

/-- The bytes of a form are those of its operands, one after the other, and of its operator. -/
def Sound (form : Form) : Prop :=
  ∃ (parts : List (Operand × List UInt8)) (last : List UInt8),
    (∀ part ∈ parts, Spells part.2 (.operand part.1)) ∧ Spells last (.operator form.operator) ∧
      form.operands.toList = parts.map Prod.fst ∧ form.raw = parts.flatMap Prod.snd ++ last

theorem Sound.length_pos {form : Form} (sound : form.Sound) : 0 < form.raw.length := by
  obtain ⟨parts, last, -, operator, -, raw⟩ := sound
  have positive := operator.length_pos
  rw [raw, List.length_append]
  omega

end Form

/-! ### One entry -/

section

variable {start room pos : Nat} {operands : Array Operand}

theorem spelled_operand {value : Operand} {entry : Entry} {first second : List UInt8}
    (spells : Spells first (.operand value))
    (rest : (readEntryFrom start room (operands.push value)).Spelled (pos + first.length) second
      entry) :
    (readEntryFrom start (room + 1) operands).Spelled pos (first ++ second) entry := by
  unfold readEntryFrom
  exact (spells pos).bind rest

theorem spelled_operator {operator : Operator} {last : List UInt8}
    (spells : Spells last (.operator operator)) :
    (readEntryFrom start (room + 1) operands).Spelled pos last
      ⟨operator, operands, ⟨start, pos + last.length⟩⟩ := by
  have finish := (Spelled.position (pos + last.length)).map fun stop =>
    (⟨operator, operands, ⟨start, stop⟩⟩ : Entry)
  unfold readEntryFrom
  rw [← List.append_nil last]
  apply Spelled.bind (spells pos)
  rw [List.append_nil]
  exact finish

theorem spelled_readEntryFrom {operator : Operator} {parts : List (Operand × List UInt8)}
    {last : List UInt8} (values : ∀ part ∈ parts, Spells part.2 (.operand part.1))
    (ends : Spells last (.operator operator)) (enough : parts.length < room) :
    (readEntryFrom start room operands).Spelled pos (parts.flatMap Prod.snd ++ last)
      ⟨operator, operands ++ (parts.map Prod.fst).toArray,
        ⟨start, pos + (parts.flatMap Prod.snd ++ last).length⟩⟩ := by
  obtain ⟨room, rfl⟩ := Nat.exists_eq_succ_of_ne_zero (Nat.ne_of_gt (Nat.zero_lt_of_lt enough))
  induction parts generalizing room pos operands with
  | nil =>
    simpa only [List.flatMap_nil, List.nil_append, List.map_nil, Array.append_empty] using
      spelled_operator ends
  | cons part parts induction =>
    obtain ⟨room, rfl⟩ := Nat.exists_eq_succ_of_ne_zero (n := room) (by
      intro none
      rw [none, List.length_cons] at enough
      omega)
    have rest := @induction (pos + part.2.length) (operands.push part.1)
      (fun other member => values other (List.mem_cons_of_mem _ member)) room
      (Nat.lt_of_succ_lt_succ enough)
    have operandsEq : operands.push part.1 ++ (parts.map Prod.fst).toArray =
        operands ++ ((part :: parts).map Prod.fst).toArray := by
      apply Array.ext'
      simp
    have lengthEq : pos + part.2.length + (parts.flatMap Prod.snd ++ last).length =
        pos + ((part :: parts).flatMap Prod.snd ++ last).length := by
      simp only [List.flatMap_cons, List.length_append]
      omega
    rw [operandsEq, lengthEq] at rest
    rw [List.flatMap_cons, List.append_assoc] at rest ⊢
    exact spelled_operand (values part List.mem_cons_self) rest

end

theorem length_parts_lt {parts : List (Operand × List UInt8)} {last : List UInt8}
    {operator : Operator} (values : ∀ part ∈ parts, Spells part.2 (.operand part.1))
    (ends : Spells last (.operator operator)) :
    parts.length < (parts.flatMap Prod.snd ++ last).length := by
  induction parts with
  | nil => exact ends.length_pos
  | cons part parts induction =>
    have rest := induction fun other member => values other (List.mem_cons_of_mem _ member)
    have first := (values part List.mem_cons_self).length_pos
    simp only [List.flatMap_cons, List.length_append, List.length_cons] at rest ⊢
    omega

/-- A sound form is read as the entry that it stands for. -/
theorem Form.Sound.spelled {form : Form} (sound : form.Sound) (pos : Nat) :
    readEntry.Spelled pos form.raw (form.placed pos) := by
  obtain ⟨parts, last, values, ends, operands, raw⟩ := sound
  have given : form.operands = #[] ++ (parts.map Prod.fst).toArray := by
    apply Array.ext'
    simp [operands]
  intro source holds
  have bound := holds.2
  have enough := length_parts_lt values ends
  rw [← raw] at enough
  unfold readEntry
  rw [run_bind, run_position]
  dsimp only
  rw [run_bind, run_remaining]
  dsimp only
  rw [raw] at holds
  rw [spelled_readEntryFrom values ends (by omega) source holds, ← raw, ← given]
  rfl

theorem sound_of_run_readEntryFrom {start room pos stop : Nat} {operands : Array Operand}
    {source : Source} {entry : Entry} (inside : pos ≤ source.stop)
    (read : (readEntryFrom start room operands).run source pos = .ok entry stop) :
    ∃ (parts : List (Operand × List UInt8)) (last : List UInt8),
      (∀ part ∈ parts, Spells part.2 (.operand part.1)) ∧ Spells last (.operator entry.operator) ∧
      entry = ⟨entry.operator, operands ++ (parts.map Prod.fst).toArray, ⟨start, stop⟩⟩ ∧
      source.Holds pos (parts.flatMap Prod.snd ++ last) ∧
      stop = pos + (parts.flatMap Prod.snd ++ last).length := by
  induction room generalizing pos operands with
  | zero => cases read
  | succ room induction =>
    unfold readEntryFrom at read
    rw [run_bind] at read
    split at read
    · next token middle first =>
      obtain ⟨content, holds, rfl, spells⟩ :=
        local_readToken source pos token middle inside first
      cases token with
      | operator operator =>
        cases read
        exact ⟨[], content, by simp, spells, by simp, holds, rfl⟩
      | operand value =>
        obtain ⟨parts, last, values, ends, same, rest, rfl⟩ := induction holds.2 read
        refine ⟨(value, content) :: parts, last, ?_, ends, ?_, ?_, ?_⟩
        · intro part member
          rcases List.mem_cons.1 member with rfl | member
          · exact spells
          · exact values part member
        · rw [same]
          simp
        · rw [List.flatMap_cons, List.append_assoc]
          exact holds.append rest
        · simp only [List.flatMap_cons, List.length_append]
          omega
    · cases read

theorem exists_form_of_run {source : Source} {pos stop : Nat} {entry : Entry}
    (inside : pos ≤ source.stop) (read : readEntry.run source pos = .ok entry stop) :
    ∃ form : Form, form.Sound ∧ source.Holds pos form.raw ∧ entry = form.placed pos ∧
      stop = pos + form.raw.length := by
  unfold readEntry at read
  rw [run_bind, run_position] at read
  dsimp only at read
  rw [run_bind, run_remaining] at read
  obtain ⟨parts, last, values, ends, same, holds, rfl⟩ := sound_of_run_readEntryFrom inside read
  refine ⟨⟨entry.operator, entry.operands, parts.flatMap Prod.snd ++ last⟩,
    ⟨parts, last, values, ends, ?_, rfl⟩, holds, same ▸ rfl, rfl⟩
  rw [same]
  simp

/-! ### All entries of a DICT -/

def raws (forms : List Form) : List UInt8 := forms.flatMap Form.raw

def entriesFrom : (pos : Nat) → List Form → List Entry
  | _, [] => []
  | pos, form :: forms => form.placed pos :: entriesFrom (pos + form.raw.length) forms

theorem entriesFrom_append (pos : Nat) (first second : List Form) :
    entriesFrom pos (first ++ second) =
      entriesFrom pos first ++ entriesFrom (pos + (raws first).length) second := by
  induction first generalizing pos with
  | nil => rfl
  | cons form first induction =>
    rw [List.cons_append, entriesFrom, induction, entriesFrom, List.cons_append, Nat.add_assoc,
      raws, raws, List.flatMap_cons, List.length_append]

theorem raws_cons (form : Form) (forms : List Form) :
    raws (form :: forms) = form.raw ++ raws forms := rfl

theorem raws_append (first second : List Form) :
    raws (first ++ second) = raws first ++ raws second := List.flatMap_append

theorem run_readEntriesOnto {source : Source} {pos room : Nat} {found : Array Entry}
    {forms : List Form} (sound : ∀ form ∈ forms, form.Sound) (holds : source.Holds pos (raws forms))
    (ends : source.stop = pos + (raws forms).length) (enough : source.stop - pos ≤ room) :
    (readEntriesOnto room found).run source pos =
      .ok (found ++ (entriesFrom pos forms).toArray) source.stop := by
  induction forms generalizing pos room found with
  | nil =>
    have last : source.stop = pos := ends
    cases room with
    | zero => simp [readEntriesOnto, run_pure, entriesFrom, last]
    | succ room =>
      unfold readEntriesOnto
      rw [run_bind, run_atEnd]
      simp [last, run_pure, entriesFrom]
  | cons form forms induction =>
    have positive := (sound form List.mem_cons_self).length_pos
    rw [raws_cons] at holds ends
    rw [List.length_append] at ends
    obtain ⟨room, rfl⟩ := Nat.exists_eq_succ_of_ne_zero (n := room) (by omega)
    have more : ¬source.stop ≤ pos := by omega
    unfold readEntriesOnto
    rw [run_bind, run_atEnd]
    simp only [more, decide_false, Bool.false_eq_true, ↓reduceIte]
    rw [run_bind, (sound form List.mem_cons_self).spelled pos source holds.left]
    dsimp only
    rw [induction (fun other member => sound other (List.mem_cons_of_mem _ member)) holds.right
      (by omega) (by omega)]
    simp [entriesFrom]

theorem exists_forms_of_run {source : Source} {pos stop room : Nat} {found entries : Array Entry}
    (inside : pos ≤ source.stop) (enough : source.stop - pos ≤ room)
    (read : (readEntriesOnto room found).run source pos = .ok entries stop) :
    ∃ forms : List Form, (∀ form ∈ forms, form.Sound) ∧ source.Holds pos (raws forms) ∧
      source.stop = pos + (raws forms).length ∧
      entries = found ++ (entriesFrom pos forms).toArray := by
  induction room generalizing pos found with
  | zero =>
    have last : source.stop = pos := Nat.le_antisymm (Nat.le_of_sub_eq_zero (Nat.le_zero.1 enough)) inside
    cases read
    exact ⟨[], by simp, .nil inside, last, by simp [entriesFrom]⟩
  | succ room induction =>
    unfold readEntriesOnto at read
    rw [run_bind, run_atEnd] at read
    by_cases last : source.stop ≤ pos
    · simp only [last, decide_true, ↓reduceIte] at read
      cases read
      exact ⟨[], by simp, .nil inside, Nat.le_antisymm last inside, by simp [entriesFrom]⟩
    · simp only [last, decide_false, Bool.false_eq_true, ↓reduceIte] at read
      rw [run_bind] at read
      split at read
      · next entry middle first =>
        obtain ⟨form, sound, holds, rfl, rfl⟩ := exists_form_of_run inside first
        have positive := sound.length_pos
        obtain ⟨forms, others, rest, ends, rfl⟩ := induction holds.2 (by omega) read
        refine ⟨form :: forms, ?_, holds.append rest, ?_, ?_⟩
        · intro other member
          rcases List.mem_cons.1 member with rfl | member
          · exact sound
          · exact others other member
        · rw [raws_cons, List.length_append]
          omega
        · simp [entriesFrom]
      · cases read

/-- A span holds a DICT exactly when its bytes are forms, one after the other. -/
theorem readSpan_eq_ok {bytes : ByteArray} {span : Span} {entries : Array Entry} :
    readSpan bytes span = .ok entries ↔
      ∃ forms : List Form, (∀ form ∈ forms, form.Sound) ∧ Holds bytes span.start (raws forms) ∧
        span.stop = span.start + (raws forms).length ∧
        entries = (entriesFrom span.start forms).toArray := by
  unfold readSpan
  constructor
  · intro read
    split at read
    · next inside =>
      obtain ⟨ordered, stop, read⟩ := readAt_eq_ok.1 read
      unfold readEntries at read
      rw [run_bind, run_remaining] at read
      obtain ⟨forms, sound, holds, ends, same⟩ :=
        exists_forms_of_run ordered (Nat.le_refl _) read
      exact ⟨forms, sound, holds.1, ends, by simpa using same⟩
    · cases read
  · intro spelled
    obtain ⟨forms, sound, holds, ends, rfl⟩ := spelled
    have bound := holds.le_size
    rw [dif_pos (by omega)]
    refine readAt_eq_ok.2 ⟨by dsimp only; omega, span.stop, ?_⟩
    unfold readEntries
    rw [run_bind, run_remaining]
    have inside : (⟨bytes, span.stop, by omega⟩ : Source).Holds span.start (raws forms) :=
      ⟨holds, by dsimp only; omega⟩
    have read := @run_readEntriesOnto _ _ _ #[] _ sound inside ends (Nat.le_refl _)
    rw [Array.empty_append] at read
    exact read

theorem ofEntry_placed {bytes : ByteArray} {pos : Nat} {form : Form}
    (holds : Holds bytes pos form.raw) : Form.ofEntry bytes (form.placed pos) = form := by
  unfold Form.ofEntry Form.placed Entry.raw
  rw [holds.slice_eq]

theorem map_ofEntry_entriesFrom {bytes : ByteArray} {pos : Nat} {forms : List Form}
    (holds : Holds bytes pos (raws forms)) :
    (entriesFrom pos forms).map (Form.ofEntry bytes) = forms := by
  induction forms generalizing pos with
  | nil => rfl
  | cons form forms induction =>
    rw [raws_cons] at holds
    rw [entriesFrom, List.map_cons, ofEntry_placed holds.left, induction holds.right]

/-- The form of an entry that was read can be read at any position. -/
theorem sound_of_readSpan {bytes : ByteArray} {span : Span} {entries : Array Entry} {entry : Entry}
    (read : readSpan bytes span = .ok entries) (listed : entry ∈ entries) :
    (Form.ofEntry bytes entry).Sound := by
  obtain ⟨forms, sound, holds, _, rfl⟩ := readSpan_eq_ok.1 read
  apply sound
  rw [← map_ofEntry_entriesFrom holds]
  exact List.mem_map_of_mem (List.mem_toArray.1 listed)

/-! ### Forms between other bytes -/

theorem length_entriesFrom (pos : Nat) (forms : List Form) :
    (entriesFrom pos forms).length = forms.length := by
  induction forms generalizing pos with
  | nil => rfl
  | cons form forms induction => rw [entriesFrom, List.length_cons, induction, List.length_cons]

theorem getElem?_entriesFrom (pos i : Nat) (forms : List Form) :
    (entriesFrom pos forms)[i]? =
      forms[i]?.map fun form => form.placed (pos + (raws (forms.take i)).length) := by
  induction forms generalizing pos i with
  | nil => rfl
  | cons form forms induction =>
    cases i with
    | zero => rfl
    | succ i =>
      rw [entriesFrom, List.getElem?_cons_succ, induction, List.getElem?_cons_succ,
        List.take_succ_cons, raws_cons, List.length_append, Nat.add_assoc]

theorem readSpan_raws {forms : List Form} (sound : ∀ form ∈ forms, form.Sound)
    (before after : ByteArray) :
    readSpan (before ++ (raws forms).toByteArray ++ after)
      ⟨before.size, before.size + (raws forms).length⟩ =
        .ok (entriesFrom before.size forms).toArray := by
  have holds := Holds.of_append before (raws forms).toByteArray after
  rw [listed_toByteArray] at holds
  exact readSpan_eq_ok.2 ⟨forms, sound, holds, rfl, rfl⟩

end CompactFont.Dict
