import CompactFont.Reader
import Mathlib.Data.List.Forall2

/-!
When computations that can fail give a result: exactly when each of their parts does.
-/

set_option autoImplicit false

namespace CompactFont

variable {ε δ α β : Type}

instance decidableExistsOk (x : Except ε α) (p : α → Prop) [DecidablePred p] :
    Decidable (∃ a, x = .ok a ∧ p a) :=
  match x with
  | .error _ => .isFalse fun ⟨_, failed, _⟩ => by cases failed
  | .ok a => decidable_of_iff (p a) (by simp only [Except.ok.injEq, exists_eq_left'])

theorem bind_eq_ok {x : Except ε α} {f : α → Except ε β} {b : β} :
    (x >>= f) = .ok b ↔ ∃ a, x = .ok a ∧ f a = .ok b := by
  cases x with
  | error e => exact ⟨(by cases ·), fun ⟨_, failed, _⟩ => by cases failed⟩
  | ok a =>
    constructor
    · intro done
      exact ⟨a, rfl, done⟩
    · rintro ⟨_, same, done⟩
      cases same
      exact done

theorem ok_bind (a : α) (f : α → Except ε β) : (.ok a >>= f) = f a := rfl

theorem map_eq_ok {x : Except ε α} {f : α → β} {b : β} :
    (f <$> x) = .ok b ↔ ∃ a, x = .ok a ∧ f a = b := by
  cases x with
  | error e => exact ⟨(by cases ·), fun ⟨_, failed, _⟩ => by cases failed⟩
  | ok a =>
    constructor
    · intro done
      cases done
      exact ⟨a, rfl, rfl⟩
    · rintro ⟨_, same, rfl⟩
      cases same
      rfl

theorem pure_eq_ok {a b : α} : (pure a : Except ε α) = .ok b ↔ a = b :=
  Except.ok.injEq a b ▸ Iff.rfl

theorem mapError_eq_ok {x : Except ε α} {f : ε → δ} {a : α} :
    x.mapError f = .ok a ↔ x = .ok a := by
  cases x with
  | error e => exact ⟨(by cases ·), (by cases ·)⟩
  | ok b =>
    constructor
    · intro done
      cases done
      rfl
    · intro done
      cases done
      rfl

theorem attributeTo_eq_ok {part : Part} {x : Except ReadError α} {a : α} :
    ReadError.attributeTo part x = .ok a ↔ x = .ok a := mapError_eq_ok

theorem mapM_eq_ok {f : α → Except ε β} {xs : List α} {ys : List β} :
    xs.mapM f = .ok ys ↔ List.Forall₂ (fun x y => f x = .ok y) xs ys := by
  induction xs generalizing ys with
  | nil =>
    rw [List.mapM_nil, pure_eq_ok, List.forall₂_nil_left_iff]
    exact eq_comm
  | cons x xs induction =>
    simp only [List.mapM_cons, bind_eq_ok, pure_eq_ok, induction, List.forall₂_cons_left_iff]
    constructor
    · rintro ⟨y, first, rest, others, rfl⟩
      exact ⟨y, rest, first, others, rfl⟩
    · rintro ⟨y, rest, first, others, rfl⟩
      exact ⟨y, first, rest, others, rfl⟩

theorem exists_of_mem_mapM {f : α → Except ε β} {xs : List α} {ys : List β} {y : β}
    (done : xs.mapM f = .ok ys) (found : y ∈ ys) : ∃ x ∈ xs, f x = .ok y := by
  obtain ⟨length, each⟩ := List.forall₂_iff_get.1 (mapM_eq_ok.1 done)
  obtain ⟨i, bound, rfl⟩ := List.mem_iff_getElem.1 found
  exact ⟨xs[i], List.getElem_mem _, each i (by omega) bound⟩

theorem mapM_congr {f g : α → Except ε β} {xs : List α} (same : ∀ x ∈ xs, f x = g x) :
    xs.mapM f = xs.mapM g := by
  induction xs with
  | nil => rfl
  | cons x xs induction =>
    rw [List.mapM_cons, List.mapM_cons, same x List.mem_cons_self,
      induction fun y listed => same y (List.mem_cons_of_mem x listed)]

theorem array_mapM_eq_ok {f : α → Except ε β} {xs : Array α} {ys : Array β} :
    xs.mapM f = .ok ys ↔ List.Forall₂ (fun x y => f x = .ok y) xs.toList ys.toList := by
  rw [Array.mapM_eq_mapM_toList, map_eq_ok]
  simp only [mapM_eq_ok]
  constructor
  · rintro ⟨rest, all, rfl⟩
    exact all
  · intro all
    exact ⟨ys.toList, all, rfl⟩

theorem range_mapM_eq_ok {f : Nat → Except ε β} {count : Nat} {ys : Array β} :
    (Array.range count).mapM f = .ok ys ↔
      ys.size = count ∧ ∀ i y, ys[i]? = some y → f i = .ok y := by
  rw [array_mapM_eq_ok, Array.toList_range, List.forall₂_iff_get]
  simp only [List.length_range, Array.length_toList, List.get_eq_getElem, List.getElem_range,
    Array.getElem_toList]
  constructor
  · rintro ⟨same, all⟩
    refine ⟨same.symm, fun i y found => ?_⟩
    obtain ⟨bound, rfl⟩ := Array.getElem?_eq_some_iff.1 found
    exact all i (by omega) bound
  · rintro ⟨same, all⟩
    exact ⟨same.symm, fun i _ bound => all i _ (Array.getElem?_eq_getElem bound)⟩

theorem zipIdx_mapM_eq_ok {f : α × Nat → Except ε β} {xs : List α} {ys : List β} :
    xs.zipIdx.mapM f = .ok ys ↔ ys.length = xs.length ∧
      ∀ i x y, xs[i]? = some x → ys[i]? = some y → f (x, i) = .ok y := by
  rw [mapM_eq_ok, List.forall₂_iff_get]
  simp only [List.length_zipIdx, List.get_eq_getElem, List.getElem_zipIdx, Nat.zero_add]
  constructor
  · intro ⟨same, all⟩
    refine ⟨same.symm, fun i x y source target => ?_⟩
    obtain ⟨bound, rfl⟩ := List.getElem?_eq_some_iff.1 source
    obtain ⟨other, rfl⟩ := List.getElem?_eq_some_iff.1 target
    exact all i bound other
  · intro ⟨same, all⟩
    exact ⟨same.symm, fun i bound other => all i _ _ (List.getElem?_eq_getElem bound)
      (List.getElem?_eq_getElem other)⟩

theorem mapM_option_eq_ok {f : α → Except ε β} {x : Option α} {y : Option β} :
    x.mapM f = .ok y ↔ (x = none ∧ y = none) ∨ ∃ a b, x = some a ∧ y = some b ∧ f a = .ok b := by
  cases x with
  | none =>
    rw [Option.mapM_none, pure_eq_ok]
    simp only [true_and, reduceCtorEq, false_and, exists_false, or_false, eq_comm]
  | some a =>
    rw [Option.mapM_some, map_eq_ok]
    simp only [reduceCtorEq, false_and, Option.some.injEq, false_or, exists_and_left,
      exists_eq_left', and_comm, eq_comm]

theorem isSome_of_mapM {f : α → Except ε β} {x : Option α} {y : Option β} (done : x.mapM f = .ok y) :
    y.isSome = x.isSome := by
  rcases mapM_option_eq_ok.1 done with ⟨absent, missing⟩ | ⟨_, _, present, found, _⟩
  · rw [absent, missing]
    rfl
  · rw [present, found]
    rfl

namespace Reader

theorem readAt_eq_ok {reader : Reader α} {source : Source} {offset : Nat} {value : α} :
    readAt reader source offset = .ok value ↔
      offset ≤ source.stop ∧ ∃ stop, run reader source offset = .ok value stop := by
  have sought : run (seek offset *> reader) source 0 =
      if source.stop < offset then .error (.atOffset 0 (.offsetOutOfBounds offset)) 0
      else run reader source offset := by
    change run (seek offset >>= fun _ => reader) source 0 = _
    rw [run_bind, run_seek]
    by_cases outside : source.stop < offset
    · simp only [if_pos outside]
    · simp only [if_neg outside]
  unfold readAt
  rw [sought]
  by_cases outside : source.stop < offset
  · simp only [if_pos outside, reduceCtorEq, false_iff]
    omega
  · simp only [if_neg outside]
    have inside : offset ≤ source.stop := by omega
    simp only [inside, true_and]
    cases reading : run reader source offset with
    | ok found stop => simp only [Except.ok.injEq, EStateM.Result.ok.injEq, exists_and_left,
        exists_eq', and_true]
    | error fault stop => simp only [reduceCtorEq, exists_false]

end Reader
end CompactFont
