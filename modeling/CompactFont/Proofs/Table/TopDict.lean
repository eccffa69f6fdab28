import CompactFont.Proofs.Dict.Written
import CompactFont.Subset.Bytes

/-!
What a rewritten Top DICT says. The entries that are kept say the same as before about how the font
is keyed and how its charstrings are written, and nothing about where structures lie; that is said
by the entries that are added to them.
-/

set_option autoImplicit false

namespace CompactFont.TopDict

open Dict

def keptForms (bytes : ByteArray) (entries : List Entry) : List Form :=
  (entries.filter (!Subset.isReplaced ·.operator)).map (.ofEntry bytes)

private theorem or_eq_left_of_imp {left right : Bool} (implies : right = true → left = true) :
    (left || right) = left := by
  cases right with
  | false => rw [Bool.or_false]
  | true => rw [implies rfl, Bool.or_true]

/-- An entry that is not kept says neither how the font is keyed nor how its charstrings are
written. -/
theorem add_of_isReplaced {top next : TopDict} {entry : Entry} (added : top.add entry = .ok next)
    (replaced : Subset.isReplaced entry.operator = true) :
    next.isCid = top.isCid ∧ next.charstringType = top.charstringType := by
  unfold add at added
  cases operator : entry.operator <;>
    simp only [operator, Subset.isReplaced, Bool.false_eq_true] at added replaced
  case encoding | privateDict =>
    cases added
    exact ⟨rfl, rfl⟩
  all_goals
    obtain ⟨_, _, same⟩ := bind_eq_ok.1 added
    cases same
    exact ⟨rfl, rfl⟩

/-- An entry that is kept says about any font what it said about the font that it comes from. -/
theorem add_of_kept {top next start : TopDict} {entry other : Entry}
    (added : top.add entry = .ok next) (kept : Subset.isReplaced entry.operator = false)
    (operator : other.operator = entry.operator) (operands : other.operands = entry.operands)
    (type : start.charstringType = top.charstringType)
    (cid : top.isCid = true → start.isCid = true) :
    start.add other = .ok { start with
      isCid := start.isCid || next.isCid
      charstringType := next.charstringType } := by
  have keyed := or_eq_left_of_imp cid
  have integer : ∀ number, entry.integer 0 = .ok number → other.integer 0 = .ok number := by
    intro number given
    unfold Entry.integer at given ⊢
    rw [operands]
    split at given
    · assumption
    · cases given
  unfold add at added ⊢
  cases same : entry.operator <;>
    simp only [same, Subset.isReplaced, Bool.true_eq_false] at added kept <;>
    simp only [operator, same]
  case ros =>
    cases added
    rw [Bool.or_true, ← type]
    rfl
  case charstringType =>
    obtain ⟨number, given, rest⟩ := bind_eq_ok.1 added
    refine bind_eq_ok.2 ⟨number, integer number given, ?_⟩
    split at rest
    · next type known =>
      cases rest
      rw [keyed]
      rfl
    · cases rest
  all_goals
    cases added
    rw [keyed, ← type]
    rfl

theorem isCid_of_foldlM {entries : List Entry} {top next : TopDict}
    (folded : entries.foldlM add top = .ok next) (cid : top.isCid = true) : next.isCid = true := by
  induction entries generalizing top with
  | nil =>
    cases folded
    exact cid
  | cons entry entries induction =>
    rw [List.foldlM_cons] at folded
    obtain ⟨middle, added, folded⟩ := bind_eq_ok.1 folded
    apply induction folded
    cases replaced : Subset.isReplaced entry.operator with
    | true => rw [(add_of_isReplaced added replaced).1, cid]
    | false =>
      have again := add_of_kept added replaced rfl rfl rfl id
      rw [added, Except.ok.injEq] at again
      rw [again, cid, Bool.true_or]

/-- Entries that are kept say together what all entries said. -/
theorem foldlM_keptForms {bytes : ByteArray} {entries : List Entry} {top next start : TopDict}
    (folded : entries.foldlM add top = .ok next)
    (type : start.charstringType = top.charstringType)
    (cid : top.isCid = true → start.isCid = true) (pos : Nat) :
    (entriesFrom pos (keptForms bytes entries)).foldlM add start =
      .ok { start with
        isCid := start.isCid || next.isCid
        charstringType := next.charstringType } := by
  induction entries generalizing top start pos with
  | nil =>
    cases folded
    rw [or_eq_left_of_imp cid, ← type]
    rfl
  | cons entry entries induction =>
    rw [List.foldlM_cons] at folded
    obtain ⟨middle, added, folded⟩ := bind_eq_ok.1 folded
    cases replaced : Subset.isReplaced entry.operator with
    | true =>
      have dropped : keptForms bytes (entry :: entries) = keptForms bytes entries := by
        simp only [keptForms, List.filter_cons, replaced, Bool.not_true, Bool.false_eq_true,
          ↓reduceIte]
      obtain ⟨sameCid, sameType⟩ := add_of_isReplaced added replaced
      rw [dropped]
      exact induction folded (type.trans sameType.symm) (sameCid ▸ cid) pos
    | false =>
      have first : keptForms bytes (entry :: entries) =
          .ofEntry bytes entry :: keptForms bytes entries := by
        simp only [keptForms, List.filter_cons, replaced, Bool.not_false, ↓reduceIte,
          List.map_cons]
      rw [first, entriesFrom, List.foldlM_cons]
      refine bind_eq_ok.2 ⟨_, add_of_kept added replaced rfl rfl type cid, ?_⟩
      have rest := @induction middle { start with
        isCid := start.isCid || middle.isCid
        charstringType := middle.charstringType } folded rfl
        (fun known => by rw [known, Bool.or_true]) (pos + (Form.ofEntry bytes entry).raw.length)
      have later : (next.isCid || middle.isCid) = next.isCid :=
        or_eq_left_of_imp (isCid_of_foldlM folded)
      rw [rest, Bool.or_assoc, Bool.or_comm middle.isCid, later]

end CompactFont.TopDict
