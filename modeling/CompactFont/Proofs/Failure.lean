import CompactFont.Proofs.Outcome
import CompactFont.Proofs.Reader.Locality

/-!
When computations that can fail do fail: exactly when one of their parts does, and the parts before it
give results. Most failures of reading are attributed to a structure on their way out; the others are
those of parts that no structure claims.
-/

set_option autoImplicit false

namespace CompactFont

variable {ε α β : Type}

instance decidableExistsError (x : Except ε α) (p : ε → Prop) [DecidablePred p] :
    Decidable (∃ e, x = .error e ∧ p e) :=
  match x with
  | .ok _ => .isFalse fun ⟨_, succeeded, _⟩ => by cases succeeded
  | .error e => decidable_of_iff (p e) (by simp only [Except.error.injEq, exists_eq_left'])

theorem bind_eq_error {x : Except ε α} {f : α → Except ε β} {e : ε} :
    (x >>= f) = .error e ↔ x = .error e ∨ ∃ a, x = .ok a ∧ f a = .error e := by
  cases x with
  | error fault =>
    change Except.error fault = .error e ↔ _
    simp only [Except.error.injEq, reduceCtorEq, false_and, exists_false, or_false]
  | ok a =>
    change f a = .error e ↔ _
    simp only [reduceCtorEq, Except.ok.injEq, exists_eq_left', false_or]

theorem pure_ne_error {a : α} {e : ε} : (pure a : Except ε α) ≠ .error e := by
  intro failed
  cases failed

theorem map_eq_error {x : Except ε α} {f : α → β} {e : ε} :
    (f <$> x) = .error e ↔ x = .error e := by
  cases x with
  | error fault =>
    change Except.error fault = .error e ↔ _
    simp only [Except.error.injEq]
  | ok a =>
    change Except.ok (f a) = .error e ↔ _
    simp only [reduceCtorEq]

/-- A computation for the elements of a list fails as for the first element for which it does. -/
theorem mapM_eq_error {f : α → Except ε β} {xs : List α} {e : ε} :
    xs.mapM f = .error e ↔ ∃ (i : Nat) (x : α), xs[i]? = some x ∧
      (∀ j < i, ∀ y, xs[j]? = some y → ∃ z, f y = .ok z) ∧ f x = .error e := by
  induction xs with
  | nil => simp only [List.mapM_nil, pure_ne_error, List.getElem?_nil, reduceCtorEq, false_and,
      exists_false]
  | cons x xs induction =>
    simp only [List.mapM_cons, bind_eq_error, pure_ne_error, and_false, exists_false, or_false,
      induction]
    constructor
    · rintro (failed | ⟨z, first, i, y, found, earlier, failed⟩)
      · exact ⟨0, x, rfl, fun _ before => absurd before (Nat.not_lt_zero _), failed⟩
      · refine ⟨i + 1, y, found, fun j before other listed => ?_, failed⟩
        cases j with
        | zero =>
          cases listed
          exact ⟨z, first⟩
        | succ j => exact earlier j (Nat.lt_of_succ_lt_succ before) other listed
    · intro ⟨i, y, found, earlier, failed⟩
      cases i with
      | zero =>
        cases found
        exact .inl failed
      | succ i =>
        obtain ⟨z, first⟩ := earlier 0 (Nat.succ_pos i) x rfl
        exact .inr ⟨z, first, i, y, found,
          fun j before => earlier (j + 1) (Nat.succ_lt_succ before), failed⟩

theorem range_mapM_eq_error {f : Nat → Except ε β} {count : Nat} {e : ε} :
    (Array.range count).mapM f = .error e ↔
      ∃ i < count, (∀ j < i, ∃ z, f j = .ok z) ∧ f i = .error e := by
  rw [Array.mapM_eq_mapM_toList, map_eq_error, Array.toList_range, mapM_eq_error]
  constructor
  · intro ⟨i, x, found, earlier, failed⟩
    obtain ⟨bound, rfl⟩ := List.getElem?_eq_some_iff.1 found
    rw [List.length_range] at bound
    rw [List.getElem_range] at failed
    exact ⟨i, bound, fun j before =>
      earlier j before j (List.getElem?_range (Nat.lt_trans before bound)), failed⟩
  · intro ⟨i, bound, earlier, failed⟩
    refine ⟨i, i, List.getElem?_range bound, fun j before y found => ?_, failed⟩
    rw [List.getElem?_range (Nat.lt_trans before bound)] at found
    cases found
    exact earlier j before

/-! ### Failures that are not attributed -/

def Unattributed (x : Except ReadError α) (error : ReadError) : Prop :=
  x = .error error ∧ error.part = none

theorem unattributed_bind {x : Except ReadError α} {f : α → Except ReadError β}
    {error : ReadError} :
    Unattributed (x >>= f) error ↔
      Unattributed x error ∨ ∃ a, x = .ok a ∧ Unattributed (f a) error := by
  simp only [Unattributed, bind_eq_error]
  constructor
  · rintro ⟨first | ⟨a, done, second⟩, unclaimed⟩
    · exact .inl ⟨first, unclaimed⟩
    · exact .inr ⟨a, done, second, unclaimed⟩
  · rintro (⟨first, unclaimed⟩ | ⟨a, done, second, unclaimed⟩)
    · exact ⟨.inl first, unclaimed⟩
    · exact ⟨.inr ⟨a, done, second⟩, unclaimed⟩

theorem not_unattributed_bind {x : Except ReadError α} {f : α → Except ReadError β}
    {error : ReadError} (first : ¬Unattributed x error)
    (second : ∀ a, ¬Unattributed (f a) error) : ¬Unattributed (x >>= f) error := by
  rw [unattributed_bind]
  rintro (failed | ⟨a, _, failed⟩)
  · exact first failed
  · exact second a failed

theorem unattributed_map {x : Except ReadError α} {f : α → β} {error : ReadError} :
    Unattributed (f <$> x) error ↔ Unattributed x error := by
  simp only [Unattributed, map_eq_error]

theorem not_unattributed_ok {a : α} {error : ReadError} : ¬Unattributed (.ok a) error := by
  intro ⟨failed, _⟩
  cases failed

theorem not_unattributed_pure {a : α} {error : ReadError} :
    ¬Unattributed (pure a) error := not_unattributed_ok

theorem not_unattributed_attributeTo {part : Part} {x : Except ReadError α} {error : ReadError} :
    ¬Unattributed (ReadError.attributeTo part x) error := by
  intro ⟨failed, unclaimed⟩
  cases x with
  | ok a => cases failed
  | error fault =>
    cases failed
    cases unclaimed

theorem unattributed_range_mapM {f : Nat → Except ReadError β} {count : Nat} {error : ReadError} :
    Unattributed ((Array.range count).mapM f) error ↔
      ∃ i < count, (∀ j < i, ∃ z, f j = .ok z) ∧ Unattributed (f i) error := by
  simp only [Unattributed, range_mapM_eq_error]
  constructor
  · intro ⟨⟨i, bound, earlier, failed⟩, unclaimed⟩
    exact ⟨i, bound, earlier, failed, unclaimed⟩
  · intro ⟨i, bound, earlier, failed, unclaimed⟩
    exact ⟨⟨i, bound, earlier, failed⟩, unclaimed⟩

namespace Reader

def UnattributedAt (reader : Reader α) (source : Source) (pos : Nat) (error : ReadError) : Prop :=
  ∃ stop, reader.run source pos = .error error stop ∧ error.part = none

variable {source : Source} {pos : Nat} {error : ReadError}

theorem unattributedAt_bind {reader : Reader α} {next : α → Reader β} :
    UnattributedAt (reader >>= next) source pos error ↔
      UnattributedAt reader source pos error ∨ ∃ value middle,
        reader.run source pos = .ok value middle ∧ UnattributedAt (next value) source middle error := by
  unfold UnattributedAt
  rw [run_bind]
  cases reader.run source pos with
  | ok value middle => simp
  | error fault last => simp

theorem not_unattributedAt_inPart {reader : Reader α} {part : Part} :
    ¬UnattributedAt (reader.inPart part) source pos error := by
  intro ⟨stop, failed, unclaimed⟩
  rw [run_inPart] at failed
  split at failed
  · cases failed
  · cases failed
    cases unclaimed

theorem not_unattributedAt_pure {value : α} :
    ¬UnattributedAt (pure value : Reader α) source pos error := by
  intro ⟨stop, failed, _⟩
  cases failed

theorem unattributedAt_seek {offset : Nat} :
    UnattributedAt (seek offset) source pos error ↔
      source.stop < offset ∧ error = .atOffset pos (.offsetOutOfBounds offset) := by
  unfold UnattributedAt
  rw [run_seek]
  split
  · next outside =>
    simp only [outside, true_and, EStateM.Result.error.injEq]
    constructor
    · rintro ⟨_, ⟨rfl, _⟩, _⟩
      rfl
    · rintro rfl
      exact ⟨pos, ⟨rfl, rfl⟩, rfl⟩
  · next inside => simp only [inside, reduceCtorEq, false_and, exists_false]

theorem unattributed_readAt_zero {reader : Reader α} :
    Unattributed (reader.readAt source 0) error ↔ UnattributedAt reader source 0 error := by
  have sought : run (seek 0 *> reader) source 0 = run reader source 0 := by
    change run (seek 0 >>= fun _ => reader) source 0 = _
    rw [run_bind, run_seek, if_neg (Nat.not_lt_zero _)]
  unfold Unattributed UnattributedAt readAt
  rw [sought]
  cases reader.run source 0 with
  | ok value stop => simp only [reduceCtorEq, false_and, exists_false]
  | error fault stop => simp

end Reader
end CompactFont
