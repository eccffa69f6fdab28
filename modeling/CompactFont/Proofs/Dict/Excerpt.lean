import CompactFont.Proofs.Dict.Form
import CompactFont.Proofs.Span

/-!
Entries that are cut out of DICTs. The entries of a DICT lie in a row, and their bytes can be put
together with those of other entries in any order: the result is a DICT with exactly these entries.
-/

set_option autoImplicit false

namespace CompactFont.Dict

theorem tile_entriesFrom (pos : Nat) (forms : List Form) :
    Span.Tile pos ((entriesFrom pos forms).map (·.span)) (pos + (raws forms).length) := by
  induction forms generalizing pos with
  | nil => rfl
  | cons form forms induction =>
    have rest := induction (pos + form.raw.length)
    rw [raws_cons, List.length_append, ← Nat.add_assoc]
    exact ⟨rfl, Nat.le_add_right pos _, rest⟩

theorem tile_of_readSpan {bytes : ByteArray} {span : Span} {entries : Array Entry}
    (read : readSpan bytes span = .ok entries) :
    Span.Tile span.start (entries.toList.map (·.span)) span.stop := by
  obtain ⟨forms, _, _, ends, rfl⟩ := readSpan_eq_ok.1 read
  rw [ends]
  exact tile_entriesFrom span.start forms

theorem start_lt_stop_of_readSpan {bytes : ByteArray} {span : Span} {entries : Array Entry}
    {entry : Entry} (read : readSpan bytes span = .ok entries) (listed : entry ∈ entries) :
    entry.span.start < entry.span.stop := by
  have positive := (sound_of_readSpan read listed).length_pos
  rw [Form.ofEntry, length_listed, Entry.raw, Span.size_slice] at positive
  omega

structure Excerpt where
  bytes : ByteArray
  entry : Entry
  found : ∃ span entries, readSpan bytes span = .ok entries ∧ entry ∈ entries

namespace Excerpt

def form (excerpt : Excerpt) : Form := .ofEntry excerpt.bytes excerpt.entry

theorem sound_form (excerpt : Excerpt) : excerpt.form.Sound := by
  obtain ⟨_, _, read, listed⟩ := excerpt.found
  exact sound_of_readSpan read listed

def join (excerpts : List Excerpt) : ByteArray :=
  (excerpts.flatMap fun excerpt => listed (excerpt.entry.raw excerpt.bytes)).toByteArray

theorem join_eq (excerpts : List Excerpt) :
    join excerpts = (raws (excerpts.map form)).toByteArray := by
  rw [join, raws, List.flatMap_map]
  rfl

end Excerpt

/-- The entries of a DICT are not empty and tile it. Entries of any DICTs, put together in any order
and at any position, are a DICT: it has the same operators, operands and bytes in that order. -/
theorem readSpan_join :
    (∀ bytes span entries, readSpan bytes span = .ok entries →
      (∀ entry ∈ entries, entry.span.start < entry.span.stop) ∧
        Span.Tile span.start (entries.toList.map (·.span)) span.stop) ∧
    ∀ (excerpts : List Excerpt) (before after : ByteArray), ∃ entries,
      readSpan (before ++ Excerpt.join excerpts ++ after)
        ⟨before.size, before.size + (Excerpt.join excerpts).size⟩ = .ok entries ∧
      entries.toList.map (Form.ofEntry (before ++ Excerpt.join excerpts ++ after)) =
        excerpts.map fun excerpt => Form.ofEntry excerpt.bytes excerpt.entry := by
  constructor
  · intro bytes span entries read
    exact ⟨fun entry listed => start_lt_stop_of_readSpan read listed, tile_of_readSpan read⟩
  · intro excerpts before after
    have sound : ∀ form ∈ excerpts.map Excerpt.form, form.Sound := by
      intro form listed
      obtain ⟨excerpt, _, rfl⟩ := List.mem_map.1 listed
      exact excerpt.sound_form
    have holds := Holds.of_append before (Excerpt.join excerpts) after
    rw [Excerpt.join_eq] at holds ⊢
    rw [listed_toByteArray] at holds
    rw [List.size_toByteArray]
    exact ⟨_, readSpan_raws sound before after, map_ofEntry_entriesFrom holds⟩

/-- A real number, and an integer of two bytes after it. -/
def realDict : ByteArray := ⟨#[30, 0x2A, 0x5F, 12, 37, 247, 0, 15]⟩

/-- The entries of `realDict`, the first of them both before and after the second one. -/
def realExcerpts : List Excerpt :=
  [⟨realDict, ⟨.fdSelect, #[.real], ⟨0, 5⟩⟩, ⟨0, 8⟩, by decide +kernel⟩,
   ⟨realDict, ⟨.charset, #[.integer 108], ⟨5, 8⟩⟩, ⟨0, 8⟩, by decide +kernel⟩,
   ⟨realDict, ⟨.fdSelect, #[.real], ⟨0, 5⟩⟩, ⟨0, 8⟩, by decide +kernel⟩]

theorem readSpan_join_realExcerpts :
    (∃ entries, readSpan realDict ⟨0, 8⟩ = .ok entries ∧ entries.size = 2 ∧
        Span.Tile 0 (entries.toList.map (·.span)) 8) ∧
      ∃ entries, readSpan (⟨#[255]⟩ ++ Excerpt.join realExcerpts ++ ⟨#[139]⟩) ⟨1, 14⟩ =
          .ok entries ∧
        entries.toList.map (Form.ofEntry (⟨#[255]⟩ ++ Excerpt.join realExcerpts ++ ⟨#[139]⟩)) =
          [⟨.fdSelect, #[.real], [30, 0x2A, 0x5F, 12, 37]⟩,
            ⟨.charset, #[.integer 108], [247, 0, 15]⟩,
            ⟨.fdSelect, #[.real], [30, 0x2A, 0x5F, 12, 37]⟩] := by
  obtain ⟨tiles, joins⟩ := readSpan_join
  obtain ⟨two, read, size⟩ : ∃ entries, readSpan realDict ⟨0, 8⟩ = .ok entries ∧
      entries.size = 2 := by decide +kernel
  obtain ⟨entries, joined, same⟩ := joins realExcerpts ⟨#[255]⟩ ⟨#[139]⟩
  exact ⟨⟨two, read, size, (tiles _ _ _ read).2⟩, entries, joined, same⟩

end CompactFont.Dict
