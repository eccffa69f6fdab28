import CompactFont.Proofs.Checked.Basic
import CompactFont.Proofs.Index.Offsets

/-!
Checked readers of numbers, of arrays, and of whatever lies at an offset. A reader ends where it
began plus the number of bytes that it takes.
-/

set_option autoImplicit false

namespace CompactFont

namespace AgreeAt

variable {α : Type} {source : Source} {pos : Nat}

theorem cut {span : Span} (inside : pos ≤ source.stop) (ordered : span.start ≤ span.stop)
    (ends : span.stop ≤ source.stop) :
    AgreeAt source pos (fun value last => value.size = span.length ∧ pos = last)
      (Ranged.slice span source.bytes) (Ranged.slice span source.bytes) := by
  have within := Nat.le_trans ends source.stop_le
  apply (AgreeAt.within inside ⟨ordered, within⟩).imp
  rintro _ _ ⟨rfl, same⟩
  exact ⟨Span.size_slice_of_le within, same⟩

theorem word (inside : pos ≤ source.stop) (width : Nat) :
    AgreeAt source pos (fun value last => value < 256 ^ width ∧ pos + width = last)
      (Reader.word width) (Reader.word width) := by
  apply AgreeAt.bind (AgreeAt.position inside)
  rintro _ _ _ ⟨rfl, rfl⟩
  apply AgreeAt.bind (AgreeAt.skip inside width)
  rintro _ _ bound rfl
  apply AgreeAt.bind (AgreeAt.ask bound)
  rintro _ _ _ ⟨rfl, rfl⟩
  apply AgreeAt.bind (AgreeAt.cut bound (Nat.le_add_right pos width) bound)
  rintro digits _ _ ⟨size, rfl⟩
  refine .pure bound ⟨?_, rfl⟩
  have length : digits.data.toList.length = width := by
    rw [Array.length_toList, ByteArray.size_data, size]
    exact Nat.add_sub_cancel_left pos width
  have small := BigEndian.decode_lt digits.data.toList
  rwa [length] at small

theorem signedWord (inside : pos ≤ source.stop) (width : Nat) :
    AgreeAt source pos (fun _ last => pos + width = last) (Reader.signedWord width)
      (Reader.signedWord width) := by
  apply AgreeAt.bind (AgreeAt.word inside width)
  rintro value _ bound ⟨_, rfl⟩
  exact .pure bound rfl

theorem slice {span : Span} (inside : pos ≤ source.stop) (starts : span.start ≤ source.stop) :
    AgreeAt source pos (fun value last => value.size = span.length ∧ pos = last)
      (Reader.slice span) (Reader.slice span) := by
  apply AgreeAt.bind (AgreeAt.require inside starts)
  rintro _ _ _ ⟨rfl, ordered, ends⟩
  apply AgreeAt.bind (AgreeAt.ask inside)
  rintro _ _ _ ⟨rfl, rfl⟩
  exact .cut inside ordered ends

theorem int32 {value : Int} (inside : pos ≤ source.stop) (fits : Number.Fits value) :
    AgreeAt source pos (fun result last => value = result ∧ pos = last) (Number.int32 value)
      (Number.int32 value) := within inside fits

/-- The lead bytes of short integers keep every step of decoding far from the limits. -/
theorem readShort {lead : UInt8} (inside : pos ≤ source.stop) :
    AgreeAt source pos (fun _ last => pos ≤ last) (Number.readShort lead)
      (Number.readShort lead) := by
  have bound := lead.toNat_lt
  apply AgreeAt.ite
  · intro _
    apply (AgreeAt.int32 inside (by unfold Number.Fits; omega)).imp
    rintro _ _ ⟨_, rfl⟩
    exact Nat.le_refl pos
  · intro _
    apply AgreeAt.bind (AgreeAt.u8 inside)
    rintro low _ next rfl
    have digit := low.toNat_lt
    apply AgreeAt.ite
    · intro _
      apply AgreeAt.bind (AgreeAt.int32 next (by unfold Number.Fits; omega))
      rintro _ _ _ ⟨rfl, rfl⟩
      apply AgreeAt.bind (AgreeAt.int32 next (by unfold Number.Fits; omega))
      rintro _ _ _ ⟨rfl, rfl⟩
      apply (AgreeAt.int32 next (by unfold Number.Fits; omega)).imp
      rintro _ _ ⟨_, rfl⟩
      exact Nat.le_succ pos
    · intro _
      apply AgreeAt.bind (AgreeAt.int32 next (by unfold Number.Fits; omega))
      rintro _ _ _ ⟨rfl, rfl⟩
      apply AgreeAt.bind (AgreeAt.int32 next (by unfold Number.Fits; omega))
      rintro _ _ _ ⟨rfl, rfl⟩
      apply AgreeAt.bind (AgreeAt.int32 next (by unfold Number.Fits; omega))
      rintro _ _ _ ⟨rfl, rfl⟩
      apply (AgreeAt.int32 next (by unfold Number.Fits; omega)).imp
      rintro _ _ ⟨_, rfl⟩
      exact Nat.le_succ pos

theorem offsetDigits (inside : pos ≤ source.stop) (count value : Nat) :
    AgreeAt source pos (fun _ last => pos + count = last) (Reader.offsetDigits count value)
      (Reader.offsetDigits count value) := by
  induction count generalizing pos value with
  | zero => exact .pure inside rfl
  | succ count induction =>
    apply AgreeAt.bind (AgreeAt.u8 inside)
    rintro byte _ next rfl
    have rest := induction next ((value * 256 + byte.toNat) % Reader.positionBound)
    exact rest.imp fun _ _ ends => by omega

theorem offset (inside : pos ≤ source.stop) (width : Nat) :
    AgreeAt source pos (fun _ last => pos + width = last) (Reader.offset width)
      (Reader.offset width) := offsetDigits inside width 0

theorem timesOnto {checked : CheckedReader α} {reader : Reader α} {width : Nat}
    (each : ∀ pos ≤ source.stop,
      AgreeAt source pos (fun _ last => pos + width = last) checked reader)
    (inside : pos ≤ source.stop) (count : Nat) (found : Array α) :
    AgreeAt source pos
      (fun all last => all.size = found.size + count ∧ pos + count * width = last)
      (Reader.timesOnto checked count found) (Reader.timesOnto reader count found) := by
  induction count generalizing pos found with
  | zero => exact .pure inside ⟨rfl, by rw [Nat.zero_mul]; rfl⟩
  | succ count induction =>
    apply AgreeAt.bind (each pos inside)
    rintro value _ next rfl
    apply (induction next (found.push value)).imp
    rintro all _ ⟨size, rfl⟩
    rw [size, Array.size_push, Nat.succ_mul]
    omega

end AgreeAt

/-! ### Structures at an offset -/

inductive AgreeOn {α : Type} (stop : Nat) (known : α → Prop) :
    Except Halt α → Except ReadError α → Prop where
  | ok {value : α} : known value → AgreeOn stop known (.ok value) (.ok value)
  | error {error : ReadError} : error.offset ≤ stop →
      AgreeOn stop known (.error (.failed error)) (.error error)

namespace AgreeOn

variable {α β : Type} {stop : Nat} {known : α → Prop} {checked : Except Halt α}
  {plain : Except ReadError α}

theorem eq_mapError (agree : AgreeOn stop known checked plain) :
    checked = plain.mapError .failed := by
  cases agree with
  | ok _ => rfl
  | error _ => rfl

theorem offset_le (agree : AgreeOn stop known checked plain) {error : ReadError}
    (failed : plain = .error error) : error.offset ≤ stop := by
  cases agree with
  | ok _ => cases failed
  | error inside =>
    cases failed
    exact inside

theorem imp {less : α → Prop} (agree : AgreeOn stop known checked plain)
    (weaker : ∀ value, known value → less value) : AgreeOn stop less checked plain := by
  cases agree with
  | ok holds => exact .ok (weaker _ holds)
  | error inside => exact .error inside

theorem and_ok {more : α → Prop} (agree : AgreeOn stop known checked plain)
    (holds : ∀ value, plain = .ok value → more value) :
    AgreeOn stop (fun value => known value ∧ more value) checked plain := by
  cases agree with
  | ok found => exact .ok ⟨found, holds _ rfl⟩
  | error inside => exact .error inside

theorem of_ok (agree : AgreeOn stop known checked plain) {value : α} (done : plain = .ok value) :
    known value := by
  cases agree with
  | ok found =>
    cases done
    exact found
  | error _ => cases done

theorem bind {next : β → Prop} {checkedNext : α → Except Halt β}
    {plainNext : α → Except ReadError β} (first : AgreeOn stop known checked plain)
    (second : ∀ value, known value → AgreeOn stop next (checkedNext value) (plainNext value)) :
    AgreeOn stop next (checked >>= checkedNext) (plain >>= plainNext) := by
  cases first with
  | ok holds => exact second _ holds
  | error inside => exact .error inside

theorem map {next : β → Prop} (f : α → β) (agree : AgreeOn stop known checked plain)
    (holds : ∀ value, known value → next (f value)) :
    AgreeOn stop next (f <$> checked) (f <$> plain) := by
  cases agree with
  | ok found => exact .ok (holds _ found)
  | error inside => exact .error inside

theorem attributeTo (part : Part) (agree : AgreeOn stop known checked plain) :
    AgreeOn stop known (ReadError.attributeTo part checked) (ReadError.attributeTo part plain) := by
  cases agree with
  | ok holds => exact .ok holds
  | error inside => exact .error inside

theorem failed {fault : ReadError} (inside : fault.offset ≤ stop) :
    AgreeOn stop known (.error (Failure.ofError fault)) (.error (Failure.ofError fault)) :=
  .error inside

theorem within {fits : Prop} [Decidable fits] {value : α} (holds : fits) :
    AgreeOn stop (value = ·) (Ranged.within fits value) (Ranged.within fits value) := by
  change AgreeOn stop _ (if fits then Pure.pure value else throw Halt.outOfRange)
    (Pure.pure value)
  rw [if_pos holds]
  exact .ok rfl

theorem mapM {f : β → Except Halt α} {g : β → Except ReadError α} {xs : List β}
    (each : ∀ x ∈ xs, AgreeOn stop known (f x) (g x)) :
    AgreeOn stop (fun ys => ∀ y ∈ ys, known y) (xs.mapM f) (xs.mapM g) := by
  induction xs with
  | nil => exact .ok fun y listed => absurd listed List.not_mem_nil
  | cons x xs induction =>
    rw [List.mapM_cons, List.mapM_cons]
    apply AgreeOn.bind (each x List.mem_cons_self)
    intro y first
    apply AgreeOn.bind (induction fun x listed => each x (List.mem_cons_of_mem _ listed))
    intro ys rest
    exact .ok (List.forall_mem_cons.2 ⟨first, rest⟩)

theorem array_mapM {f : β → Except Halt α} {g : β → Except ReadError α} {xs : Array β}
    (each : ∀ x ∈ xs, AgreeOn stop known (f x) (g x)) :
    AgreeOn stop (fun ys => ∀ y ∈ ys, known y) (xs.mapM f) (xs.mapM g) := by
  rw [Array.mapM_eq_mapM_toList, Array.mapM_eq_mapM_toList]
  apply AgreeOn.map _ (mapM fun x listed => each x (Array.mem_toList_iff.1 listed))
  intro ys all y found
  exact all y (List.mem_toArray.1 found)

theorem array_foldlM {f : α → β → Except Halt α} {g : α → β → Except ReadError α} {xs : Array β}
    (each : ∀ found, known found → ∀ x ∈ xs, AgreeOn stop known (f found x) (g found x))
    {start : α} (holds : known start) :
    AgreeOn stop known (xs.foldlM f start) (xs.foldlM g start) := by
  rw [← Array.foldlM_toList, ← Array.foldlM_toList]
  have listed : ∀ x ∈ xs.toList, x ∈ xs := fun _ => Array.mem_toList_iff.1
  generalize xs.toList = ys at listed
  induction ys generalizing start with
  | nil => exact .ok holds
  | cons y ys induction =>
    rw [List.foldlM_cons, List.foldlM_cons]
    apply AgreeOn.bind (each start holds y (listed y List.mem_cons_self))
    intro next known
    exact induction known fun x later => listed x (List.mem_cons_of_mem _ later)

theorem widen {more : Nat} (agree : AgreeOn stop known checked plain) (wider : stop ≤ more) :
    AgreeOn more known checked plain := by
  cases agree with
  | ok holds => exact .ok holds
  | error inside => exact .error (Nat.le_trans inside wider)

theorem readAt {checked : CheckedReader α} {reader : Reader α} (source : Source) {offset : Nat}
    (agree : offset ≤ source.stop →
      AgreeAt source offset (fun value _ => known value) checked reader) :
    AgreeOn source.stop known (Reader.readAt checked source offset) (reader.readAt source offset) := by
  have whole : AgreeAt source 0 (fun value _ => known value)
      (Reader.seek offset *> checked) (Reader.seek offset *> reader) := by
    change AgreeAt _ _ _ (do Reader.seek offset; checked) (do Reader.seek offset; reader)
    apply AgreeAt.bind (AgreeAt.seek (Nat.zero_le _) offset)
    rintro _ _ inside rfl
    exact agree inside
  unfold Reader.readAt
  rcases whole.outcomes with ⟨value, last, left, right, _, holds⟩ |
    ⟨fault, last, left, right, inside⟩
  · rw [left, right]
    exact .ok holds
  · rw [left, right]
    exact .error inside

end AgreeOn
end CompactFont
