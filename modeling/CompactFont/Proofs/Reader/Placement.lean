import CompactFont.Proofs.BigEndian
import CompactFont.Reader
import Mathlib.Data.List.Basic

/-!
Bytes that stand at a position of a table. The statements about reading say which bytes a reader
meets, and nothing about the bytes around them.
-/

set_option autoImplicit false

namespace CompactFont

def listed (bytes : ByteArray) : List UInt8 := bytes.data.toList

theorem listed_toByteArray (content : List UInt8) : listed content.toByteArray = content := by
  rw [listed, List.data_toByteArray]

theorem toByteArray_listed (bytes : ByteArray) : (listed bytes).toByteArray = bytes :=
  ByteArray.ext (by rw [List.data_toByteArray, listed, Array.toArray_toList])

theorem listed_injective {left right : ByteArray} (same : listed left = listed right) :
    left = right := by
  rw [← toByteArray_listed left, same, toByteArray_listed]

theorem length_listed (bytes : ByteArray) : (listed bytes).length = bytes.size := rfl

theorem listed_append (left right : ByteArray) :
    listed (left ++ right) = listed left ++ listed right := by
  rw [listed, ByteArray.data_append, Array.toList_append, listed, listed]

theorem listed_slice (span : Span) (bytes : ByteArray) :
    listed (span.slice bytes) = ((listed bytes).drop span.start).take span.length := by
  rw [listed, Span.slice, ByteArray.data_extract, Array.toList_extract, List.extract_eq_take_drop]
  rfl

theorem length_flatMap_listed (elements : List ByteArray) :
    (elements.flatMap listed).length = (elements.map ByteArray.size).sum := by
  induction elements with
  | nil => rfl
  | cons element elements induction =>
    rw [List.flatMap_cons, List.length_append, induction, List.map_cons, List.sum_cons,
      length_listed]

def Holds (bytes : ByteArray) (pos : Nat) (content : List UInt8) : Prop :=
  ∃ before after, listed bytes = before ++ content ++ after ∧ before.length = pos

namespace Holds

variable {bytes : ByteArray} {pos : Nat} {content first second : List UInt8}

theorem le_size (holds : Holds bytes pos content) : pos + content.length ≤ bytes.size := by
  obtain ⟨before, after, whole, rfl⟩ := holds
  rw [← length_listed, whole]
  simp only [List.length_append]
  omega

theorem nil (inside : pos ≤ bytes.size) : Holds bytes pos [] := by
  refine ⟨(listed bytes).take pos, (listed bytes).drop pos, ?_, ?_⟩
  · rw [List.append_nil, List.take_append_drop]
  · rw [List.length_take, length_listed]
    omega

theorem left (holds : Holds bytes pos (first ++ second)) : Holds bytes pos first := by
  obtain ⟨before, after, whole, length⟩ := holds
  exact ⟨before, second ++ after, by rw [whole]; simp only [List.append_assoc], length⟩

theorem right (holds : Holds bytes pos (first ++ second)) :
    Holds bytes (pos + first.length) second := by
  obtain ⟨before, after, whole, rfl⟩ := holds
  refine ⟨before ++ first, after, ?_, List.length_append⟩
  rw [whole]
  simp only [List.append_assoc]

theorem slice_eq (holds : Holds bytes pos content) :
    listed ((⟨pos, pos + content.length⟩ : Span).slice bytes) = content := by
  obtain ⟨before, after, whole, rfl⟩ := holds
  rw [listed_slice, whole, List.append_assoc, List.drop_left, Span.length, Nat.add_sub_cancel_left,
    List.take_left]

theorem get_eq {byte : UInt8} {rest : List UInt8} (holds : Holds bytes pos (byte :: rest))
    (inside : pos < bytes.size) : bytes.get pos inside = byte := by
  obtain ⟨before, after, whole, rfl⟩ := holds
  have counted : before.length < (listed bytes).length := inside
  have found : bytes.get before.length inside = (listed bytes)[before.length] := rfl
  rw [found]
  simp only [whole, List.append_assoc, List.getElem_append_right, Nat.le_refl, Nat.sub_self,
    List.cons_append, List.getElem_cons_zero]

theorem of_slice {span : Span} (ordered : span.start ≤ span.stop) (inside : span.stop ≤ bytes.size) :
    Holds bytes span.start (listed (span.slice bytes)) := by
  refine ⟨(listed bytes).take span.start, (listed bytes).drop span.stop, ?_, ?_⟩
  · have split : span.stop = span.start + span.length := by
      rw [Span.length]
      omega
    rw [listed_slice, split, List.append_assoc, ← List.drop_drop, List.take_append_drop,
      List.take_append_drop]
  · rw [List.length_take, length_listed]
    omega

/-- What stands at a position starts every longer cut from there. -/
theorem isPrefix_slice {stop : Nat} (holds : Holds bytes pos content)
    (enough : pos + content.length ≤ stop) :
    content <+: listed ((⟨pos, stop⟩ : Span).slice bytes) := by
  obtain ⟨before, after, whole, rfl⟩ := holds
  rw [listed_slice, whole, List.append_assoc, List.drop_left, Span.length, List.take_append,
    List.take_of_length_le (by dsimp only; omega)]
  exact List.prefix_append _ _

theorem append (front : Holds bytes pos first) (back : Holds bytes (pos + first.length) second) :
    Holds bytes pos (first ++ second) := by
  obtain ⟨before, after, whole, rfl⟩ := front
  obtain ⟨before', after', whole', length⟩ := back
  rw [whole', List.append_assoc before' second after'] at whole
  obtain ⟨same, -⟩ := List.append_inj whole (by rw [length, List.length_append])
  refine ⟨before, after', ?_, rfl⟩
  rw [whole', same, List.append_assoc before first second]

/-- Nothing but the position and the bytes themselves matter. -/
theorem of_toByteArray (content : List UInt8) : Holds content.toByteArray 0 content :=
  ⟨[], [], by simp only [listed_toByteArray, List.nil_append, List.append_nil], rfl⟩

theorem of_append (before middle after : ByteArray) :
    Holds (before ++ middle ++ after) before.size (listed middle) :=
  ⟨listed before, listed after, by rw [listed_append, listed_append], rfl⟩

theorem of_flatMap {i : Nat} {elements : List ByteArray}
    (holds : Holds bytes pos (elements.flatMap listed)) (inside : i < elements.length) :
    Holds bytes (pos + ((elements.map ByteArray.size).take i).sum) (listed elements[i]) := by
  induction elements generalizing pos i with
  | nil => cases inside
  | cons element elements induction =>
    rw [List.flatMap_cons] at holds
    cases i with
    | zero => exact holds.left
    | succ i =>
      have rest := induction holds.right (Nat.lt_of_succ_lt_succ inside)
      rw [length_listed] at rest
      rwa [List.map_cons, List.take_succ_cons, List.sum_cons, ← Nat.add_assoc]

end Holds

def Source.Holds (source : Source) (pos : Nat) (content : List UInt8) : Prop :=
  CompactFont.Holds source.bytes pos content ∧ pos + content.length ≤ source.stop

namespace Source.Holds

variable {source : Source} {pos : Nat} {content first second : List UInt8}

theorem nil (inside : pos ≤ source.stop) : source.Holds pos [] :=
  ⟨.nil (Nat.le_trans inside source.stop_le), inside⟩

theorem left (holds : source.Holds pos (first ++ second)) : source.Holds pos first := by
  refine ⟨holds.1.left, ?_⟩
  have bound := holds.2
  rw [List.length_append] at bound
  omega

theorem right (holds : source.Holds pos (first ++ second)) :
    source.Holds (pos + first.length) second := by
  refine ⟨holds.1.right, ?_⟩
  have bound := holds.2
  rw [List.length_append] at bound
  omega

theorem head {byte : UInt8} (holds : source.Holds pos (byte :: second)) :
    source.Holds pos [byte] := by
  have whole : source.Holds pos ([byte] ++ second) := holds
  exact whole.left

theorem tail {byte : UInt8} (holds : source.Holds pos (byte :: second)) :
    source.Holds (pos + 1) second := by
  have whole : source.Holds pos ([byte] ++ second) := holds
  exact whole.right

theorem append (front : source.Holds pos first)
    (back : source.Holds (pos + first.length) second) : source.Holds pos (first ++ second) := by
  refine ⟨front.1.append back.1, ?_⟩
  have bound := back.2
  rw [List.length_append]
  omega

theorem of_le {stop : Nat} (ordered : pos ≤ stop) (inside : stop ≤ source.stop) :
    source.Holds pos (listed ((⟨pos, stop⟩ : Span).slice source.bytes)) := by
  have bound := source.stop_le
  refine ⟨(CompactFont.Holds.of_slice ordered (Nat.le_trans inside bound) :
    CompactFont.Holds source.bytes (⟨pos, stop⟩ : Span).start _), ?_⟩
  rw [length_listed, Span.size_slice_of_le (Nat.le_trans inside bound)]
  simp only [Span.length]
  omega

theorem exists_of_le {count : Nat} (inside : pos + count ≤ source.stop) :
    ∃ content, source.Holds pos content ∧ content.length = count := by
  refine ⟨_, of_le (Nat.le_add_right pos count) inside, ?_⟩
  rw [length_listed, Span.size_slice_of_le (Nat.le_trans inside source.stop_le)]
  exact Nat.add_sub_cancel_left pos count

end Source.Holds

theorem Holds.whole {bytes : ByteArray} {pos : Nat} {content : List UInt8}
    (holds : Holds bytes pos content) : (Source.whole bytes).Holds pos content :=
  ⟨holds, holds.le_size⟩

end CompactFont
