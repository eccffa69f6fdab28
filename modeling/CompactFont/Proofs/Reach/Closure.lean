import CompactFont.Proofs.Charstring.Steps
import CompactFont.Reach
import Mathlib.Data.List.Nodup
import Mathlib.Data.List.Perm.Subperm

/-!
The search for subroutines ends with exactly those that are reached: the least set that contains
every call of the charstrings it starts from, and every call of its own members. No round of the
search is wasted and none is missing, because every subroutine is listed once.
-/

set_option autoImplicit false

namespace CompactFont

open Charstring

/-- The subroutines that charstrings reach: those that one of the charstrings calls, and those that
a subroutine calls that is reached itself. -/
inductive Reaches (context : SubrContext) (code : ByteArray → Prop) : Subr → Prop where
  | code {body : ByteArray} {subr : Subr} : code body → subr ∈ calls context body →
      Reaches context code subr
  | subr {caller subr : Subr} : Reaches context code caller →
      subr ∈ calls context (context.body caller) → Reaches context code subr

variable {context : SubrContext}

theorem Reaches.callable {code : ByteArray → Prop} {subr : Subr}
    (reached : Reaches context code subr) : context.Callable subr := by
  cases reached with
  | code _ called => exact callable_of_mem_calls called
  | subr _ called => exact callable_of_mem_calls called

/-! ### There are no more subroutines than the context has -/

namespace Charstring.SubrContext

def ordinal (context : SubrContext) (subr : Subr) : Nat :=
  match subr.scope with
  | .localSubrs => subr.index
  | .globalSubrs => context.localSubrs.elim 0 SubrBodies.size + subr.index

theorem ordinal_lt {context : SubrContext} {subr : Subr} (callable : context.Callable subr) :
    context.ordinal subr < context.size := by
  obtain ⟨subrs, present, bound⟩ := callable.index_lt
  cases subr with
  | mk scope index =>
    cases scope with
    | localSubrs =>
      have present : context.localSubrs = some subrs := present
      simp only [ordinal, size, present, Option.elim_some] at bound ⊢
      omega
    | globalSubrs =>
      have present : some context.globalSubrs = some subrs := present
      cases present
      simp only [ordinal, size] at bound ⊢
      omega

theorem ordinal_injective {context : SubrContext} {left right : Subr}
    (callableLeft : context.Callable left) (callableRight : context.Callable right)
    (same : context.ordinal left = context.ordinal right) : left = right := by
  obtain ⟨leftSubrs, leftPresent, leftBound⟩ := callableLeft.index_lt
  obtain ⟨rightSubrs, rightPresent, rightBound⟩ := callableRight.index_lt
  rcases left with ⟨_ | _, left⟩ <;> rcases right with ⟨_ | _, right⟩ <;>
    simp only [ordinal, inScope, Subr.mk.injEq, reduceCtorEq, true_and, false_and] at *
  · exact same
  · simp only [leftPresent, Option.elim_some] at same
    omega
  · simp only [rightPresent, Option.elim_some] at same
    omega
  · exact Nat.add_left_cancel same

end Charstring.SubrContext

namespace Reach

instance : Membership Subr Reach := ⟨fun reach subr => subr.index ∈ reach.found subr.scope⟩

instance (reach : Reach) (subr : Subr) : Decidable (subr ∈ reach) :=
  inferInstanceAs (Decidable (subr.index ∈ reach.found subr.scope))

/-! ### What one scan adds -/

theorem mem_empty (subr : Subr) : subr ∉ empty := by
  intro found
  rcases subr with ⟨_ | _, index⟩
  · exact DiscoverySet.not_mem_empty index found
  · exact DiscoverySet.not_mem_empty index found

theorem add_of_mem {reach : Reach} {subr : Subr} (found : subr ∈ reach) : reach.add subr = reach := by
  have contained := ((reach.found subr.scope).contains_iff subr.index).2 found
  simp only [add, contained, ↓reduceIte]

theorem not_contains_of_not_mem {reach : Reach} {subr : Subr} (absent : subr ∉ reach) :
    ¬(reach.found subr.scope).contains subr.index = true :=
  fun contained => absent (((reach.found subr.scope).contains_iff subr.index).1 contained)

theorem order_add_of_not_mem {reach : Reach} {subr : Subr} (absent : subr ∉ reach) :
    (reach.add subr).order = reach.order.push subr := by
  simp only [add, if_neg (not_contains_of_not_mem absent)]
  rcases subr with ⟨_ | _, index⟩ <;> rfl

theorem found_add_of_not_mem {reach : Reach} {subr : Subr} (absent : subr ∉ reach)
    (scope : SubrScope) :
    (reach.add subr).found scope =
      if scope = subr.scope then (reach.found scope).insert subr.index else reach.found scope := by
  simp only [add, if_neg (not_contains_of_not_mem absent)]
  rcases subr with ⟨_ | _, index⟩ <;> cases scope <;> rfl

theorem mem_add {reach : Reach} {subr other : Subr} :
    other ∈ reach.add subr ↔ other = subr ∨ other ∈ reach := by
  by_cases found : subr ∈ reach
  · rw [add_of_mem found]
    exact ⟨.inr, fun either => either.elim (fun same => same ▸ found) id⟩
  change other.index ∈ (reach.add subr).found other.scope ↔ _
  rw [found_add_of_not_mem found]
  split
  · next sameScope =>
    rw [DiscoverySet.mem_insert]
    have same : other.index = subr.index ↔ other = subr :=
      ⟨fun sameIndex => by cases other; cases subr; cases sameScope; cases sameIndex; rfl,
        congrArg Subr.index⟩
    rw [same]
    rfl
  · next otherScope =>
    have different : other ≠ subr := fun same => otherScope (same ▸ rfl)
    simp only [different, false_or]
    rfl

theorem mem_addEvent {reach : Reach} {event : Event} {subr : Subr} :
    subr ∈ reach.addEvent event ↔ event = .call subr ∨ subr ∈ reach := by
  cases event with
  | call called => simp only [addEvent, mem_add, Event.call.injEq, eq_comm]
  | refusal => simp only [addEvent, reduceCtorEq, false_or]
  | remark =>
    rcases subr with ⟨_ | _, index⟩ <;>
      simp only [addEvent, Membership.mem, Reach.found, reduceCtorEq, false_or]

private theorem mem_foldl_addEvent (events : List Event) (reach : Reach) (subr : Subr) :
    subr ∈ events.foldl addEvent reach ↔ .call subr ∈ events ∨ subr ∈ reach := by
  induction events generalizing reach with
  | nil => simp only [List.foldl_nil, List.not_mem_nil, false_or]
  | cons event events induction =>
    rw [List.foldl_cons, induction, mem_addEvent, List.mem_cons, or_left_comm, or_assoc, eq_comm]

theorem mem_addCharstring {reach : Reach} {code : ByteArray} {subr : Subr} :
    subr ∈ reach.addCharstring context code ↔ subr ∈ calls context code ∨ subr ∈ reach := by
  rw [addCharstring, ← Array.foldl_toList, mem_foldl_addEvent, mem_calls, Array.mem_toList_iff]

private theorem mem_foldl_addCharstring (codes : List ByteArray) (reach : Reach) (subr : Subr) :
    subr ∈ codes.foldl (addCharstring context) reach ↔
      (∃ code ∈ codes, subr ∈ calls context code) ∨ subr ∈ reach := by
  induction codes generalizing reach with
  | nil => simp only [List.foldl_nil, List.not_mem_nil, false_and, exists_false, false_or]
  | cons code codes induction =>
    rw [List.foldl_cons, induction, mem_addCharstring, List.exists_mem_cons_iff, or_left_comm,
      or_assoc]

/-! ### The order of discovery -/

structure Listed (reach : Reach) : Prop where
  nodup : reach.order.toList.Nodup
  mem_order_iff : ∀ subr, subr ∈ reach.order ↔ subr ∈ reach

theorem listed_empty : Listed empty where
  nodup := List.nodup_nil
  mem_order_iff subr :=
    ⟨fun found => absurd found (Array.not_mem_empty subr), fun found => absurd found (mem_empty subr)⟩

theorem Listed.add {reach : Reach} (listed : reach.Listed) (subr : Subr) :
    (reach.add subr).Listed := by
  by_cases found : subr ∈ reach
  · rwa [add_of_mem found]
  have absent : subr ∉ reach.order.toList := fun member =>
    found ((listed.mem_order_iff subr).1 (Array.mem_toList_iff.1 member))
  constructor
  · rw [order_add_of_not_mem found, Array.toList_push]
    exact listed.nodup.append (List.nodup_singleton subr) (by simpa using absent)
  · intro other
    rw [order_add_of_not_mem found, Array.mem_push, mem_add, listed.mem_order_iff, or_comm]

theorem Listed.addEvent {reach : Reach} (listed : reach.Listed) (event : Event) :
    (reach.addEvent event).Listed := by
  cases event with
  | call subr => exact listed.add subr
  | refusal => exact listed
  | remark =>
    refine ⟨listed.nodup, fun subr => (listed.mem_order_iff subr).trans ?_⟩
    rw [mem_addEvent]
    simp only [reduceCtorEq, false_or]

theorem Listed.addCharstring {reach : Reach} (listed : reach.Listed) (code : ByteArray) :
    (reach.addCharstring context code).Listed := by
  rw [Reach.addCharstring, ← Array.foldl_toList]
  generalize (scan context code).toList = events
  induction events generalizing reach with
  | nil => exact listed
  | cons event events induction => exact induction (listed.addEvent event)

theorem order_prefix_add (reach : Reach) (subr : Subr) :
    reach.order.toList <+: (reach.add subr).order.toList := by
  by_cases found : subr ∈ reach
  · simp only [add_of_mem found, List.prefix_rfl]
  · rw [order_add_of_not_mem found, Array.toList_push]
    exact List.prefix_append _ _

theorem order_prefix_addCharstring (reach : Reach) (code : ByteArray) :
    reach.order.toList <+: (reach.addCharstring context code).order.toList := by
  rw [addCharstring, ← Array.foldl_toList]
  generalize (scan context code).toList = events
  induction events generalizing reach with
  | nil => exact List.prefix_rfl
  | cons event events induction =>
    refine List.IsPrefix.trans ?_ (induction (reach.addEvent event))
    cases event with
    | call subr => exact order_prefix_add reach subr
    | refusal => exact List.prefix_rfl
    | remark => exact List.prefix_rfl

/-! ### The rounds of the search -/

/-- How far the search has come: every charstring has been scanned, and so have the subroutines
before position `next` of the order. -/
structure Progress (context : SubrContext) (codes : Array ByteArray) (next : Nat) (reach : Reach) :
    Prop where
  listed : reach.Listed
  sound : ∀ subr ∈ reach, Reaches context (· ∈ codes) subr
  codes : ∀ code ∈ codes, ∀ subr ∈ calls context code, subr ∈ reach
  scanned : ∀ i < next, ∀ caller, reach.order[i]? = some caller →
    ∀ subr ∈ calls context (context.body caller), subr ∈ reach

namespace Progress

variable {codes : Array ByteArray} {next : Nat} {reach : Reach}

theorem start (context : SubrContext) (codes : Array ByteArray) :
    Progress context codes 0 (codes.foldl (addCharstring context) empty) := by
  have members : ∀ subr, subr ∈ codes.foldl (addCharstring context) empty ↔
      ∃ code ∈ codes, subr ∈ calls context code := by
    intro subr
    rw [← Array.foldl_toList, mem_foldl_addCharstring]
    simp only [mem_empty, or_false, Array.mem_toList_iff]
  constructor
  · rw [← Array.foldl_toList]
    generalize codes.toList = codes
    have listed := listed_empty
    generalize empty = reach at listed
    induction codes generalizing reach with
    | nil => exact listed
    | cons code codes induction => exact induction _ (listed.addCharstring code)
  · intro subr found
    obtain ⟨code, source, called⟩ := (members subr).1 found
    exact .code source called
  · intro code source subr called
    exact (members subr).2 ⟨code, source, called⟩
  · intro i before
    omega

/-- Numbering the subroutines found shows that there are no more of them than the context has. -/
theorem size_order_le (progress : Progress context codes next reach) :
    reach.order.size ≤ context.size := by
  have callable : ∀ subr ∈ reach.order.toList, context.Callable subr := fun subr found =>
    (progress.sound subr ((progress.listed.mem_order_iff subr).1
      (Array.mem_toList_iff.1 found))).callable
  have nodup : (reach.order.toList.map context.ordinal).Nodup :=
    progress.listed.nodup.map_on fun _ left _ right same =>
      SubrContext.ordinal_injective (callable _ left) (callable _ right) same
  have inside : reach.order.toList.map context.ordinal ⊆ List.range context.size := by
    intro number found
    obtain ⟨subr, listed, rfl⟩ := List.mem_map.1 found
    exact List.mem_range.2 (SubrContext.ordinal_lt (callable subr listed))
  have bound := (nodup.subperm inside).length_le
  rwa [List.length_map, List.length_range, Array.length_toList] at bound

theorem step (progress : Progress context codes next reach) {caller : Subr}
    (current : reach.order[next]? = some caller) :
    Progress context codes (next + 1) (reach.addCharstring context (context.body caller)) := by
  have known : caller ∈ reach :=
    (progress.listed.mem_order_iff caller).1 (Array.mem_of_getElem? current)
  have kept : ∀ i ≤ next, (reach.addCharstring context (context.body caller)).order[i]? =
      reach.order[i]? := by
    intro i inside
    have small : i < reach.order.toList.length := by
      have bound := (Array.getElem?_eq_some_iff.1 current).1
      rw [Array.length_toList]
      omega
    have extended : reach.order.toList <+:
        (reach.addCharstring context (context.body caller)).order.toList :=
      order_prefix_addCharstring reach (context.body caller)
    have agree := List.prefix_iff_getElem?.1 extended i small
    rw [← Array.getElem?_toList, ← Array.getElem?_toList, agree, List.getElem?_eq_getElem small]
  constructor
  · exact progress.listed.addCharstring _
  · intro subr found
    rcases mem_addCharstring.1 found with called | found
    · exact .subr (progress.sound caller known) called
    · exact progress.sound subr found
  · intro code source subr called
    exact mem_addCharstring.2 (.inr (progress.codes code source subr called))
  · intro i before other listed subr called
    rw [kept i (by omega)] at listed
    by_cases last : i = next
    · subst last
      rw [current] at listed
      cases listed
      exact mem_addCharstring.2 (.inl called)
    · exact mem_addCharstring.2 (.inr (progress.scanned i (by omega) other listed subr called))

/-- With enough rounds the search ends only when there is nothing left to scan. -/
theorem addSubrs (progress : Progress context codes next reach) {rounds : Nat}
    (enough : context.size ≤ next + rounds) :
    ∃ last, (Reach.addSubrs context rounds next reach).order.size ≤ last ∧
      Progress context codes last (Reach.addSubrs context rounds next reach) := by
  induction rounds generalizing next reach with
  | zero => exact ⟨next, Nat.le_trans progress.size_order_le enough, progress⟩
  | succ rounds induction =>
    unfold Reach.addSubrs
    split
    · next ended => exact ⟨next, Array.getElem?_eq_none_iff.1 ended, progress⟩
    · next caller current => exact induction (progress.step current) (by omega)

/-- Rounds beyond the number of subroutines find nothing. -/
theorem addSubrs_eq (progress : Progress context codes next reach) {rounds : Nat}
    (enough : context.size ≤ next + rounds) (more : Nat) :
    Reach.addSubrs context (rounds + more) next reach = Reach.addSubrs context rounds next reach := by
  induction rounds generalizing next reach with
  | zero =>
    have ended : reach.order[next]? = none :=
      Array.getElem?_eq_none_iff.2 (Nat.le_trans progress.size_order_le enough)
    cases more with
    | zero => rfl
    | succ more => simp only [Reach.addSubrs, ended]
  | succ rounds induction =>
    rw [Nat.succ_add, Reach.addSubrs, Reach.addSubrs]
    split
    · rfl
    · next caller current => exact induction (progress.step current) (by omega)

end Progress

/-- The search finds exactly the subroutines that its charstrings reach. -/
theorem mem_ofCharstrings {codes : Array ByteArray} {subr : Subr} :
    subr ∈ ofCharstrings context codes ↔ Reaches context (· ∈ codes) subr := by
  obtain ⟨last, ended, progress⟩ :=
    (Progress.start context codes).addSubrs (Nat.le_add_left context.size _)
  constructor
  · exact progress.sound subr
  · intro reached
    induction reached with
    | code source called => exact progress.codes _ source _ called
    | @subr caller subr _ called found =>
      obtain ⟨i, current⟩ := Array.mem_iff_getElem?.1 ((progress.listed.mem_order_iff caller).2 found)
      have bound := (Array.getElem?_eq_some_iff.1 current).1
      exact progress.scanned i (Nat.lt_of_lt_of_le bound ended) caller current subr called

theorem size_order_ofCharstrings (context : SubrContext) (codes : Array ByteArray) :
    (ofCharstrings context codes).order.size ≤ context.size := by
  obtain ⟨_, _, progress⟩ :=
    (Progress.start context codes).addSubrs (Nat.le_add_left context.size _)
  exact progress.size_order_le

/-- The search is over after as many rounds as there are subroutines: more change nothing. -/
theorem ofCharstrings_eq_addSubrs (context : SubrContext) (codes : Array ByteArray) {rounds : Nat}
    (enough : context.size ≤ rounds) :
    addSubrs context rounds 0 (codes.foldl (addCharstring context) empty) =
      ofCharstrings context codes := by
  obtain ⟨more, rfl⟩ := Nat.exists_eq_add_of_le enough
  exact (Progress.start context codes).addSubrs_eq (Nat.le_add_left _ _) more

end Reach
end CompactFont
