import CompactFont.Charstring.Scan
import Mathlib.Data.List.Rotate

/-!
What a scan knows of the operand stack, compared with the stack of a charstring that is run. A run
computes with exact integers; it does not follow calls. The depth of the stack is always the one that
a scan takes it to have. A known operand is the one that is there, unless a `roll` has put another one
in its place: scans forget only the topmost of the operands that are rotated.
-/

set_option autoImplicit false

namespace CompactFont.Charstring

/-! ### Running operators -/

namespace Operator

def takesAll : Operator → Bool
  | endChar | hStem | vStem | hStemHm | vStemHm | hintMask | cntrMask | other _ | otherEscaped _ => true
  | _ => false

def truth (statement : Prop) [Decidable statement] : Int := if statement then 1 else 0

/-- Rotates the `count` topmost operands: `shift` times, the top one goes below all the others. -/
def rotate (count : Nat) (shift : Int) (values : List Int) : List Int :=
  (values.take count).rotate (shift % count).toNat ++ values.drop count

/-- What an operator can make of a stack, the top of which is first. An operator that does not find
its operands makes nothing of it, and neither does a call. -/
inductive Runs : Operator → List Int → List Int → Prop
  | add (x y : Int) (rest : List Int) : Runs add (y :: x :: rest) ((x + y) :: rest)
  | sub (x y : Int) (rest : List Int) : Runs sub (y :: x :: rest) ((x - y) :: rest)
  | mul (x y : Int) (rest : List Int) : Runs mul (y :: x :: rest) ((x * y) :: rest)
  | div (x y quotient : Int) (rest : List Int) : Runs div (y :: x :: rest) (quotient :: rest)
  | abs (x : Int) (rest : List Int) : Runs abs (x :: rest) (x.natAbs :: rest)
  | neg (x : Int) (rest : List Int) : Runs neg (x :: rest) (-x :: rest)
  | sqrt (x root : Int) (rest : List Int) : Runs sqrt (x :: rest) (root :: rest)
  | random (value : Int) (rest : List Int) : Runs random rest (value :: rest)
  | and (x y : Int) (rest : List Int) :
    Runs and (y :: x :: rest) (truth (x ≠ 0 ∧ y ≠ 0) :: rest)
  | or (x y : Int) (rest : List Int) : Runs or (y :: x :: rest) (truth (x ≠ 0 ∨ y ≠ 0) :: rest)
  | not (x : Int) (rest : List Int) : Runs not (x :: rest) (truth (x = 0) :: rest)
  | eq (x y : Int) (rest : List Int) : Runs eq (y :: x :: rest) (truth (x = y) :: rest)
  | ifElse (x y left right : Int) (rest : List Int) :
    Runs ifElse (right :: left :: y :: x :: rest) ((if left ≤ right then x else y) :: rest)
  | drop (x : Int) (rest : List Int) : Runs drop (x :: rest) rest
  | dup (x : Int) (rest : List Int) : Runs dup (x :: rest) (x :: x :: rest)
  | exch (x y : Int) (rest : List Int) : Runs exch (y :: x :: rest) (x :: y :: rest)
  /-- an index below zero selects the top -/
  | index (i x : Int) (rest : List Int) (selected : rest[i.toNat]? = some x) :
    Runs index (i :: rest) (x :: rest)
  | roll (count : Nat) (shift : Int) (rest : List Int) (enough : count ≤ rest.length) :
    Runs roll (shift :: count :: rest) (rotate count shift rest)
  | put (i x : Int) (rest : List Int) : Runs put (i :: x :: rest) rest
  | get (i value : Int) (rest : List Int) : Runs get (i :: rest) (value :: rest)
  | ret (values : List Int) : Runs ret values values
  | takesAll {operator : Operator} (all : operator.takesAll = true) (values : List Int) :
    Runs operator values []

section

variable {count : Nat} {values : List Int}

theorem length_rotate (count : Nat) (shift : Int) (values : List Int) :
    (rotate count shift values).length = values.length := by
  simp [rotate, List.length_rotate]
  omega

theorem getElem?_rotate (enough : count ≤ values.length) (shift : Int) {i : Nat} (inside : i < count) :
    (rotate count shift values)[i]? = values[((i + shift) % count).toNat]? := by
  have rotated : (values.take count).length = count := List.length_take_of_le enough
  have from' : (i + (shift % count).toNat) % count = ((i + shift) % count).toNat := by
    apply Int.ofNat_inj.1
    push_cast
    rw [Int.toNat_of_nonneg (Int.emod_nonneg _ (by omega)),
      Int.toNat_of_nonneg (Int.emod_nonneg _ (by omega)), Int.add_emod_emod]
  rw [rotate, List.getElem?_append_left (by rwa [List.length_rotate, rotated]),
    List.getElem?_rotate (by rwa [rotated]), rotated,
    List.getElem?_take_of_lt (Nat.mod_lt _ (by omega)), from']

/-- Operands below those that are rotated stay where they are. -/
theorem getElem?_rotate_of_le (enough : count ≤ values.length) (shift : Int) {i : Nat}
    (below : count ≤ i) : (rotate count shift values)[i]? = values[i]? := by
  have rotated : ((values.take count).rotate (shift % count).toNat).length = count := by
    rw [List.length_rotate, List.length_take_of_le enough]
  rw [rotate, List.getElem?_append_right (by rwa [rotated]), rotated, List.getElem?_drop,
    Nat.add_sub_of_le below]

end

end Operator

def Token.Runs : Token → List Int → List Int → Prop
  | .operand value, before, after => after = value :: before
  | .operator next, before, after => next.Runs before after

/-- Tokens that are run one after the other, each with the stack that it leaves. -/
abbrev Execution := List (Token × List Int)

def Execution.RunsFrom : List Int → Execution → Prop
  | _, [] => True
  | before, (token, after) :: rest => token.Runs before after ∧ RunsFrom after rest

/-! ### What a scan knows -/

def ScanState.accept (state : ScanState) : Token → ScanState
  | .operand value => state.pushOperand value
  | .operator operator => state.execute operator

/-- A scan knows the depth of a stack, and the operands that it knows are there. -/
structure Stack.Describes (stack : Stack) (values : List Int) : Prop where
  depth : stack.length = values.length
  known : ∀ (i : Nat) (value : Int), stack[i]? = some (some value) → values[i]? = some value

/-- After every step of an execution, what a scan knows of the stack is as given. -/
def Execution.Throughout (holds : Stack → List Int → Prop) : ScanState → Execution → Prop
  | _, [] => True
  | state, (token, after) :: rest =>
    holds (state.accept token).stack after ∧ Throughout holds (state.accept token) rest

/-- A `roll` of this stack puts another operand in the place of a known one. The `count` operands
below the two on top are rotated, which brings the one in place `(i + shift) % count` to place `i`.
What is on top afterwards is not taken to be known. -/
def Stack.Displaced (stack : Stack) : List Int → Prop
  | shift :: count :: values => ∃ i : Nat, 0 < i ∧ i < count ∧
    (∃ value, stack[i + 2]? = some (some value)) ∧
      values[((i + shift) % count).toNat]? ≠ values[i]?
  | _ => False

/-- Some `roll` of an execution that begins with the given stack displaces a known operand. -/
def Execution.Displaces : ScanState → List Int → Execution → Prop
  | _, _, [] => False
  | state, before, (token, after) :: rest =>
    token = .operator .roll ∧ state.stack.Displaced before ∨
      Displaces (state.accept token) after rest

namespace Stack

variable {stack : Stack} {value : Option Int} {operand : Int} {values : List Int}

theorem describes_nil : Describes [] [] := ⟨rfl, by simp⟩

theorem describes_cons :
    Describes (value :: stack) (operand :: values) ↔
      (∀ found, value = some found → operand = found) ∧ stack.Describes values := by
  constructor
  · intro describes
    have top := describes.known 0
    simp only [List.getElem?_cons_zero, Option.some.injEq] at top
    exact ⟨top, Nat.succ.inj describes.depth, fun i => describes.known (i + 1)⟩
  · intro ⟨top, rest⟩
    refine ⟨congrArg Nat.succ rest.depth, fun i found present => ?_⟩
    cases i with
    | zero => simpa using top found (by simpa using present)
    | succ i => exact rest.known i found present

theorem Describes.exists_cons (describes : stack.Describes (operand :: values)) :
    ∃ value rest, stack = value :: rest := by
  cases stack with
  | nil => cases describes.depth
  | cons value rest => exact ⟨value, rest, rfl⟩

theorem Describes.drop (describes : stack.Describes values) (count : Nat) :
    Describes (stack.drop count) (values.drop count) where
  depth := by simp [describes.depth]
  known i found present := by
    rw [List.getElem?_drop] at present ⊢
    exact describes.known _ found present

theorem Describes.setTop {old : Int} (describes : stack.Describes (old :: values))
    (right : ∀ found, value = some found → operand = found) :
    (stack.setTop value).Describes (operand :: values) := by
  obtain ⟨_, rest, rfl⟩ := describes.exists_cons
  exact describes_cons.2 ⟨right, (describes_cons.1 describes).2⟩

theorem Describes.top (describes : stack.Describes (operand :: values)) (found : Int)
    (known : stack.top = some found) : operand = found := by
  obtain ⟨value, rest, rfl⟩ := describes.exists_cons
  exact (describes_cons.1 describes).1 found (by simpa [Stack.top] using known)

theorem Describes.second {upper : Int} (describes : stack.Describes (upper :: operand :: values))
    (found : Int) (known : stack.second = some found) : operand = found := by
  obtain ⟨value, rest, rfl⟩ := describes.exists_cons
  exact (describes_cons.1 describes).2.top found known

theorem length_setTop (value : Option Int) (stack : Stack) :
    (stack.setTop value).length = stack.length := by
  cases stack <;> rfl

theorem getElem?_setTop_succ (value : Option Int) (stack : Stack) (i : Nat) :
    (stack.setTop value)[i + 1]? = stack[i + 1]? := by
  cases stack <;> rfl

theorem length_exchange (stack : Stack) : stack.exchange.length = stack.length := by
  unfold exchange
  split <;> rfl

/-- What a `roll` leaves is described exactly if no known operand is displaced: below the top, a scan
takes every operand to be where it was. -/
theorem describes_roll_iff {count : Nat} {shift : Int} (enough : count ≤ values.length)
    (describes : stack.Describes (shift :: count :: values)) :
    (Stack.setTop none (stack.drop 2)).Describes (Operator.rotate count shift values) ↔
      ¬stack.Displaced (shift :: count :: values) := by
  have taken : ∀ i : Nat, (Stack.setTop none (stack.drop 2))[i + 1]? = stack[i + 3]? := by
    intro i
    rw [getElem?_setTop_succ, List.getElem?_drop]
    congr 1
    omega
  have right : ∀ (i : Nat) (found : Int), stack[i + 3]? = some (some found) →
      values[i + 1]? = some found :=
    fun i => describes.known (i + 3)
  constructor
  · rintro after ⟨i, low, inside, ⟨found, known⟩, moved⟩
    obtain ⟨i, rfl⟩ := Nat.exists_eq_succ_of_ne_zero low.ne'
    have there := after.known (i + 1) found (by rw [taken, known])
    rw [Operator.getElem?_rotate enough shift (by omega)] at there
    exact moved (there.trans (right i found known).symm)
  · intro kept
    refine ⟨?_, fun i found present => ?_⟩
    · simp [length_setTop, Operator.length_rotate, describes.depth]
    cases i with
    | zero => cases rest : stack.drop 2 <;> simp [rest, Stack.setTop] at present
    | succ i =>
      rw [taken] at present
      by_cases inside : i + 1 < count
      · rw [Operator.getElem?_rotate enough shift inside]
        by_contra moved
        refine kept ⟨i + 1, i.succ_pos, by omega, ⟨found, present⟩, fun same => moved ?_⟩
        exact same.trans (right i found present)
      · rw [Operator.getElem?_rotate_of_le enough shift (Nat.not_lt.1 inside)]
        exact right i found present

end Stack

namespace Operator

theorem eq_of_known_eq_some {value found : Int} (same : known value = some found) : value = found := by
  unfold known at same
  split at same
  · exact Option.some.inj same
  · cases same

theorem eq_of_computed {upper : Option Int} {x found : Int} (compute : Int → Int)
    (right : ∀ value, upper = some value → x = value)
    (computed : (do known (compute (← upper))) = some found) : compute x = found := by
  obtain ⟨value, present, same⟩ := Option.bind_eq_some_iff.1 computed
  rw [right value present]
  exact eq_of_known_eq_some same

theorem eq_of_computed_pair {lower upper : Option Int} {x y found : Int}
    (compute : Int → Int → Int) (rightLower : ∀ value, lower = some value → x = value)
    (rightUpper : ∀ value, upper = some value → y = value)
    (computed : (do known (compute (← lower) (← upper))) = some found) :
    compute x y = found := by
  obtain ⟨value, present, same⟩ := Option.bind_eq_some_iff.1 computed
  rw [rightLower value present]
  exact eq_of_computed (compute value) rightUpper same

/-- Whatever an operator leaves on top, its effect decides the depth. -/
theorem length_apply (operator : Operator) (stack : Stack) :
    (operator.apply stack).length = (operator.effect.apply stack).length := by
  unfold apply
  dsimp only
  split
  · exact Stack.length_exchange _
  · split
    · rfl
    · exact Stack.length_setTop _ _

theorem apply_roll (stack : Stack) : roll.apply stack = Stack.setTop none (stack.drop 2) := rfl

variable {operator : Operator} {stack : Stack} {before after : List Int}

theorem depth_apply (depth : stack.length = before.length) (runs : operator.Runs before after) :
    (operator.apply stack).length = after.length := by
  rw [length_apply]
  cases runs with
  | roll count shift rest enough =>
    simp [effect, DepthChange.apply, depth, length_rotate]
  | takesAll all =>
    cases operator <;> first | rfl | cases all
  | _ => simp [effect, DepthChange.apply, depth]

/-- What a scan knows is right after every operator but `roll`, if it was right before. -/
theorem describes_apply (describes : stack.Describes before) (runs : operator.Runs before after)
    (other : operator ≠ roll) : (operator.apply stack).Describes after := by
  have unknown : ∀ {operand found : Int}, none = some found → operand = found := nofun
  cases runs with
  | roll => exact absurd rfl other
  | takesAll all =>
    cases operator <;> first | exact Stack.describes_nil | cases all
  -- results computed from operands that may be known
  | add =>
    exact (describes.drop 1).setTop fun _ =>
      eq_of_computed_pair (· + ·) describes.second describes.top
  | sub =>
    exact (describes.drop 1).setTop fun _ =>
      eq_of_computed_pair (· - ·) describes.second describes.top
  | mul =>
    exact (describes.drop 1).setTop fun _ =>
      eq_of_computed_pair (· * ·) describes.second describes.top
  | abs => exact describes.setTop fun _ => eq_of_computed (fun x => x.natAbs) describes.top
  | neg => exact describes.setTop fun _ => eq_of_computed (fun x => -x) describes.top
  -- results that are not known
  | div | and | or | eq => exact (describes.drop 1).setTop fun _ => unknown
  | sqrt | not | get | index => exact describes.setTop fun _ => unknown
  | ifElse => exact (describes.drop 3).setTop fun _ => unknown
  | random => exact Stack.describes_cons.2 ⟨fun _ => unknown, describes⟩
  -- operands that move
  | drop => exact describes.drop 1
  | put => exact describes.drop 2
  | ret => exact describes
  | dup => exact Stack.describes_cons.2 ⟨describes.top, describes⟩
  | exch x y rest =>
    obtain ⟨upper, _, rfl⟩ := describes.exists_cons
    obtain ⟨top, below⟩ := Stack.describes_cons.1 describes
    obtain ⟨lower, _, rfl⟩ := below.exists_cons
    obtain ⟨second, rest⟩ := Stack.describes_cons.1 below
    exact Stack.describes_cons.2 ⟨second, Stack.describes_cons.2 ⟨top, rest⟩⟩

end Operator

/-! ### Executions -/

namespace Execution

variable {state : ScanState} {token : Token} {before after : List Int} {execution : Execution}

theorem stack_accept_operator (operator : Operator) :
    (state.accept (.operator operator)).stack = operator.apply state.stack := rfl

theorem depth_accept (depth : state.stack.length = before.length) (runs : token.Runs before after) :
    (state.accept token).stack.length = after.length := by
  cases token with
  | operand value =>
    cases runs
    exact congrArg Nat.succ depth
  | operator operator => exact operator.depth_apply depth runs

/-- One step keeps what a scan knows right, unless it displaces a known operand. -/
theorem describes_accept_iff (describes : state.stack.Describes before)
    (runs : token.Runs before after) :
    (state.accept token).stack.Describes after ↔
      ¬(token = .operator .roll ∧ state.stack.Displaced before) := by
  cases token with
  | operand value =>
    cases runs
    have pushed : (state.accept (.operand value)).stack.Describes (value :: before) :=
      Stack.describes_cons.2 ⟨fun _ => Option.some.inj, describes⟩
    simpa using pushed
  | operator operator =>
    rw [stack_accept_operator]
    by_cases rolls : operator = .roll
    · subst rolls
      cases runs with
      | roll count shift rest enough =>
        simpa [Operator.apply_roll] using Stack.describes_roll_iff enough describes
      | takesAll all => cases all
    · have right := operator.describes_apply describes runs rolls
      simpa [rolls] using right

theorem depth_throughout (depth : state.stack.length = before.length)
    (runs : execution.RunsFrom before) :
    execution.Throughout (fun stack values => stack.length = values.length) state := by
  induction execution generalizing state before with
  | nil => trivial
  | cons step execution induction =>
    obtain ⟨first, rest⟩ := runs
    have next := depth_accept depth first
    exact ⟨next, induction next rest⟩

/-- What a scan knows stays right for as long as no known operand is displaced. -/
theorem describes_throughout_iff (describes : state.stack.Describes before)
    (runs : execution.RunsFrom before) :
    execution.Throughout Stack.Describes state ↔ ¬execution.Displaces state before := by
  induction execution generalizing state before with
  | nil => exact ⟨fun _ => id, fun _ => trivial⟩
  | cons step execution induction =>
    obtain ⟨first, rest⟩ := runs
    rw [Throughout, Displaces, describes_accept_iff describes first, not_or]
    refine and_congr_right fun kept => ?_
    exact induction ((describes_accept_iff describes first).2 kept) rest

/-- Whatever is run on the empty stack, a scan knows the depth of the stack after every step. The
operands that it knows are the right ones after every step exactly if no `roll` puts another operand
in the place of a known one. -/
theorem knowledge_right_iff (runs : execution.RunsFrom []) :
    execution.Throughout (fun stack values => stack.length = values.length) .start ∧
      (execution.Throughout Stack.Describes .start ↔ ¬execution.Displaces .start []) :=
  ⟨depth_throughout rfl runs, describes_throughout_iff Stack.describes_nil runs⟩

/-- Two numbers are exchanged and subtracted; the difference stays below another number, of which a
`roll` of one operand makes nothing else. -/
def subtraction : Execution :=
  [(.operand 3, [3]), (.operand 4, [4, 3]), (.operator .exch, [3, 4]), (.operator .sub, [1]),
    (.operand 9, [9, 1]), (.operand 1, [1, 9, 1]), (.operand 5, [5, 1, 9, 1]),
    (.operator .roll, [9, 1]), (.operator .drop, [1]), (.operator .neg, [-1])]

theorem knowledge_right_iff_subtraction :
    subtraction.RunsFrom [] ∧
      subtraction.Throughout (fun stack values => stack.length = values.length) .start ∧
      subtraction.Throughout Stack.Describes .start := by
  have runs : subtraction.RunsFrom [] :=
    ⟨rfl, rfl, .exch 3 4 [], .sub 4 3 [], rfl, rfl, rfl, .roll 1 5 [9, 1] (by decide), .drop 9 [1],
      .neg 1 [], trivial⟩
  have kept : ¬subtraction.Displaces .start [] := by
    simp only [subtraction, Displaces, Stack.Displaced, reduceCtorEq, false_and, false_or, or_false,
      true_and, Token.operator.injEq]
    rintro ⟨i, low, inside, _⟩
    omega
  exact ⟨runs, (knowledge_right_iff runs).1, (knowledge_right_iff runs).2.2 kept⟩

/-- An operand, that of a call, which a `roll` exchanges for the one below it. -/
def exchangedByRoll : Execution :=
  [(.operand (-107), [-107]), (.operand 0, [0, -107]), (.operand 2, [2, 0, -107]),
    (.operand 1, [1, 2, 0, -107]), (.operator .roll, [-107, 0]), (.operator .drop, [0])]

/-- A scan takes the operand that was below for the one that is, and so finds a call that is never
made: the operand of the call is zero, and there is no such subroutine. -/
theorem not_describes_exchangedByRoll :
    exchangedByRoll.RunsFrom [] ∧ ¬exchangedByRoll.Throughout Stack.Describes .start ∧
      calls ⟨none, ⟨#[[11].toByteArray], .type2⟩⟩
        [0x20, 0x8b, 0x8d, 0x8c, 0x0c, 0x1e, 0x0c, 0x12, 0x1d].toByteArray = #[⟨.globalSubrs, 0⟩] := by
  have runs : exchangedByRoll.RunsFrom [] :=
    ⟨rfl, rfl, rfl, rfl, .roll 2 1 [0, -107] (by decide), .drop (-107) [0], trivial⟩
  refine ⟨runs, ?_, by decide +kernel⟩
  intro right
  obtain ⟨_, _, _, _, _, last, _⟩ := right
  have wrong := last.known 0 (-107) rfl
  simp at wrong

end Execution
end CompactFont.Charstring
