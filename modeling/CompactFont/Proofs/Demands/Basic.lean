import CompactFont.Proofs.Outcome
import CompactFont.Subset.Bytes

/-!
What writing relies on. A demanding computation always gives a value, and lists what has to hold for
that value to be right: bytes that are copied exist, places are labelled once, numbers fit. It
accounts for a computation that can fail if that one gives the same value where all demands are met,
and otherwise fails for one that is not met.
-/

set_option autoImplicit false

namespace CompactFont

inductive Demand where
  /-- the positions of a span are those of bytes of a source of the given size -/
  | slice (span : Span) (size : Nat)
  /-- an array of the given size has an element -/
  | element (i size : Nat)
  /-- the difference of two numbers is not negative -/
  | ordered (least most : Nat)
  /-- of the given labels, exactly one stands for the place -/
  | placed (place : Place) (labels : List Place)
  /-- as many bytes are written as were planned -/
  | total (written planned : Nat)
  /-- a number does not exceed what its encoding holds -/
  | atMost (limit : Nat) (quantity : Quantity) (value : Nat)
  deriving DecidableEq

namespace Demand

def Met : Demand → Prop
  | slice span size => span.start ≤ span.stop ∧ span.stop ≤ size
  | element i size => i < size
  | ordered least most => least ≤ most
  | placed place labels => labels.count place = 1
  | total written planned => written = planned
  | atMost limit _ value => value ≤ limit

/-- Demands on the size of the output: on the payload of an INDEX, on the length of a Private DICT
and on an offset. -/
def OfSize : Demand → Prop
  | atMost limit .indexPayload _ => limit = OutputError.maxU32
  | atMost limit .privateDictSize _ | atMost limit .offset _ => limit = OutputError.maxOperand
  | _ => False

def Raises : Demand → OutputError → Prop
  | atMost limit quantity value, error => limit < value ∧ error = .tooLarge quantity value
  | _, _ => False

theorem Raises.not_met {demand : Demand} {error : OutputError} (raises : demand.Raises error) :
    ¬demand.Met := by
  cases demand with
  | atMost limit quantity value => exact Nat.not_le.2 raises.1
  | _ => exact raises.elim

end Demand

structure Demanding (α : Type) where
  value : α
  demands : List Demand

namespace Demanding

variable {α β : Type}

instance : Monad Demanding where
  pure value := ⟨value, []⟩
  bind writing next :=
    ⟨(next writing.value).value, writing.demands ++ (next writing.value).demands⟩

private theorem id_map (writing : Demanding α) : id <$> writing = writing := by
  change (⟨writing.value, writing.demands ++ []⟩ : Demanding α) = writing
  rw [List.append_nil]

private theorem bind_assoc {γ : Type} (writing : Demanding α) (next : α → Demanding β)
    (last : β → Demanding γ) :
    writing >>= next >>= last = writing >>= fun value => next value >>= last :=
  congrArg (Demanding.mk _) (List.append_assoc _ _ _)

instance : LawfulMonad Demanding := .mk' _ id_map (fun _ _ => rfl) bind_assoc

instance : Writer Demanding where
  slice span bytes := ⟨span.slice bytes, [.slice span bytes.size]⟩
  element i size := ⟨(), [.element i size]⟩
  ordered least most := ⟨(), [.ordered least most]⟩
  total written planned := ⟨(), [.total written planned]⟩
  atMost limit quantity value := ⟨value, [.atMost limit quantity value]⟩

/-- A place that is not labelled is taken to be at the start. -/
instance : Linker Place Demanding where
  position places place := ⟨(places.lookup place).getD 0, [.placed place (places.map Prod.fst)]⟩
  placed place places := ⟨(), [.placed place places]⟩
  distance start stop := ⟨stop - start, [.ordered start stop]⟩

end Demanding

/-- A demanding computation accounts for one that can fail: the latter gives the value exactly if all
demands are met. Those that are not are demands on the size of the output. -/
structure Accounts {α : Type} (known : α → Prop) (writing : Demanding α)
    (plain : Except OutputError α) : Prop where
  outcome : (plain = .ok writing.value ∧ ∀ demand ∈ writing.demands, demand.Met) ∨
    ∃ error, plain = .error error ∧ ∃ demand ∈ writing.demands, demand.Raises error
  settled : ∀ demand ∈ writing.demands, demand.Met ∨ demand.OfSize
  known : known writing.value

namespace Accounts

variable {α β : Type} {known : α → Prop} {writing : Demanding α} {plain : Except OutputError α}

theorem imp {less : α → Prop} (accounts : Accounts known writing plain)
    (weaker : ∀ value, known value → less value) : Accounts less writing plain :=
  ⟨accounts.outcome, accounts.settled, weaker _ accounts.known⟩

theorem pure {value : α} (holds : known value) : Accounts known (pure value) (.ok value) where
  outcome := .inl ⟨rfl, fun _ listed => absurd listed List.not_mem_nil⟩
  settled _ listed := absurd listed List.not_mem_nil
  known := holds

theorem bind {next : β → Prop} {writingNext : α → Demanding β} {plainNext : α → Except OutputError β}
    (first : Accounts known writing plain)
    (second : ∀ value, known value → Accounts next (writingNext value) (plainNext value)) :
    Accounts next (writing >>= writingNext) (plain >>= plainNext) := by
  have rest := second _ first.known
  refine ⟨?_, ?_, rest.known⟩
  · rcases first.outcome with ⟨same, met⟩ | ⟨error, failed, demand, listed, raises⟩
    · rw [same]
      rcases rest.outcome with ⟨done, others⟩ | ⟨error, failed, demand, listed, raises⟩
      · exact .inl ⟨done, List.forall_mem_append.2 ⟨met, others⟩⟩
      · exact .inr ⟨error, failed, demand, List.mem_append_right _ listed, raises⟩
    · rw [failed]
      exact .inr ⟨error, rfl, demand, List.mem_append_left _ listed, raises⟩
  · exact List.forall_mem_append.2 ⟨first.settled, rest.settled⟩

/-! ### Steps of writers -/

private theorem step {value : α} (demand : Demand) (met : demand.Met) :
    Accounts (· = value) ⟨value, [demand]⟩ (.ok value) where
  outcome := .inl ⟨rfl, List.forall_mem_singleton.2 met⟩
  settled := List.forall_mem_singleton.2 (.inl met)
  known := rfl

theorem slice {span : Span} {bytes : ByteArray}
    (inside : span.start ≤ span.stop ∧ span.stop ≤ bytes.size) :
    Accounts (· = span.slice bytes) (Writer.slice span bytes) (Writer.slice span bytes) :=
  step (.slice span bytes.size) inside

theorem element {i size : Nat} (inside : i < size) :
    Accounts (· = ()) (Writer.element i size) (Writer.element i size) :=
  step (.element i size) inside

theorem ordered {least most : Nat} (holds : least ≤ most) :
    Accounts (· = ()) (Writer.ordered least most) (Writer.ordered least most) :=
  step (.ordered least most) holds

theorem total {written planned : Nat} (same : written = planned) :
    Accounts (· = ()) (Writer.total written planned) (Writer.total written planned) :=
  step (.total written planned) same

theorem atMost {limit value : Nat} {quantity : Quantity}
    (settled : value ≤ limit ∨ (Demand.atMost limit quantity value).OfSize) :
    Accounts (· = value) (Writer.atMost limit quantity value)
      (Writer.atMost limit quantity value) where
  outcome := by
    by_cases fits : value ≤ limit
    · exact .inl ⟨if_pos fits, List.forall_mem_singleton.2 fits⟩
    · exact .inr ⟨_, if_neg fits, _, List.mem_singleton_self _, Nat.not_le.1 fits, rfl⟩
  settled := List.forall_mem_singleton.2 settled
  known := rfl

theorem placed {place : Place} {places : List Place} (once : places.count place = 1) :
    Accounts (· = ()) (Linker.placed place places) (Linker.placed place places) :=
  step (.placed place places) once

theorem position {places : List (Place × Nat)} {place : Place} {pos : Nat}
    (once : (places.map Prod.fst).count place = 1) (found : places.lookup place = some pos) :
    Accounts (· = pos) (Linker.position places place) (Linker.position places place) := by
  have same : (Linker.position places place : Demanding Nat) =
      ⟨pos, [.placed place (places.map Prod.fst)]⟩ :=
    congrArg (fun found => Demanding.mk found _) (congrArg (Option.getD · 0) found)
  rw [same, Linker.position_eq, OutputError.position_eq_ok_iff.2 found]
  exact step (.placed place (places.map Prod.fst)) once

theorem distance {start stop : Nat} (holds : start ≤ stop) :
    Accounts (· = stop - start) (Linker.distance Place start stop)
      (Linker.distance Place start stop) := by
  rw [Linker.distance_eq, OutputError.distance_eq_ok_iff.2 ⟨holds, rfl⟩]
  exact step (.ordered start stop) holds

/-! ### Combinations of steps -/

theorem map {next : β → Prop} (f : α → β) (accounts : Accounts known writing plain)
    (holds : ∀ value, known value → next (f value)) : Accounts next (f <$> writing) (f <$> plain) := by
  rw [map_eq_pure_bind, map_eq_pure_bind]
  exact accounts.bind fun value holdsValue => .pure (holds value holdsValue)

theorem ite {condition : Prop} [Decidable condition] {other : Demanding α}
    {otherPlain : Except OutputError α} (positive : condition → Accounts known writing plain)
    (negative : ¬condition → Accounts known other otherPlain) :
    Accounts known (if condition then writing else other)
      (if condition then plain else otherPlain) := by
  by_cases holds : condition
  · rw [if_pos holds, if_pos holds]
    exact positive holds
  · rw [if_neg holds, if_neg holds]
    exact negative holds

/-! ### Lists -/

theorem mapM {known : β → α → Prop} {f : β → Demanding α} {g : β → Except OutputError α}
    {xs : List β} (each : ∀ x ∈ xs, Accounts (known x) (f x) (g x)) :
    Accounts (List.Forall₂ known xs) (xs.mapM f) (xs.mapM g) := by
  induction xs with
  | nil => exact .pure .nil
  | cons x xs induction =>
    rw [List.mapM_cons, List.mapM_cons]
    apply bind (each x List.mem_cons_self)
    intro y first
    apply bind (induction fun x listed => each x (List.mem_cons_of_mem _ listed))
    intro ys rest
    exact .pure (.cons first rest)

theorem forall_mapM {f : β → Demanding α} {g : β → Except OutputError α} {xs : List β}
    (each : ∀ x ∈ xs, Accounts known (f x) (g x)) :
    Accounts (fun ys => ∀ y ∈ ys, known y) (xs.mapM f) (xs.mapM g) := by
  have related : Accounts (List.Forall₂ (fun _ => known) xs) (xs.mapM f) (xs.mapM g) := mapM each
  apply related.imp
  intro ys all y listed
  obtain ⟨length, holds⟩ := List.forall₂_iff_get.1 all
  obtain ⟨i, bound, rfl⟩ := List.mem_iff_getElem.1 listed
  exact holds i (length ▸ bound) bound

theorem mapM_option {f : β → Demanding α} {g : β → Except OutputError α} {x : Option β}
    (each : ∀ y ∈ x, Accounts known (f y) (g y)) :
    Accounts (fun found => ∀ value ∈ found, known value) (x.mapM f) (x.mapM g) := by
  cases x with
  | none => exact .pure fun _ absent => nomatch absent
  | some y =>
    rw [Option.mapM_some, Option.mapM_some]
    apply map some (each y rfl)
    intro value holds found same
    cases same
    exact holds

/-- A run over a list, with an invariant that depends on what is left of the list. -/
theorem foldlM {invariant : List β → α → Prop} {f : α → β → Demanding α}
    {g : α → β → Except OutputError α} {xs : List β}
    (each : ∀ found, ∀ x ∈ xs, ∀ rest, invariant (x :: rest) found →
      Accounts (invariant rest) (f found x) (g found x))
    {start : α} (holds : invariant xs start) :
    Accounts (invariant []) (xs.foldlM f start) (xs.foldlM g start) := by
  induction xs generalizing start with
  | nil => exact .pure holds
  | cons x xs induction =>
    rw [List.foldlM_cons, List.foldlM_cons]
    apply bind (each start x List.mem_cons_self xs holds)
    intro next kept
    exact induction (fun found x listed => each found x (List.mem_cons_of_mem _ listed)) kept

end Accounts
end CompactFont
