import CompactFont.Charstring.Token

/-!
The operand stack of a charstring, as far as it is known without running the charstring. Its depth
is always known; an operand is known if it was written as a number, or computed from known operands
without leaving 32 bits.
-/

set_option autoImplicit false

namespace CompactFont.Charstring

/-- Operands, the top first. An operand without a value is not known. -/
abbrev Stack := List (Option Int)

namespace Stack

def top (stack : Stack) : Option Int := stack.head?.join

def second (stack : Stack) : Option Int := stack.tail.head?.join

def setTop (value : Option Int) : Stack → Stack
  | [] => []
  | _ :: rest => value :: rest

def exchange : Stack → Stack
  | first :: second :: rest => second :: first :: rest
  | stack => stack

end Stack

def DepthChange.apply : DepthChange → Stack → Stack
  | pop count, stack => stack.drop count
  | keep, stack => stack
  | push, stack => none :: stack
  | clear, _ => []

namespace Operator

def known (value : Int) : Option Int := if Number.Fits value then some value else none

/-- The operand that an operator leaves on top: nothing if it leaves the top as it is, otherwise its
value if that follows from the two operands on top before. -/
def result (operator : Operator) (lower upper : Option Int) : Option (Option Int) :=
  match operator with
  | add => some (do known ((← lower) + (← upper)))
  | sub => some (do known ((← lower) - (← upper)))
  | mul => some (do known ((← lower) * (← upper)))
  | abs => some (do known (← upper).natAbs)
  | neg => some (do known (-(← upper)))
  | dup => some upper
  | div | and | or | eq | ifElse | sqrt | index | get | not | random | roll => some none
  | _ => none

def apply (operator : Operator) (stack : Stack) : Stack :=
  let moved := operator.effect.apply stack
  if operator = exch then moved.exchange
  else
    match operator.result stack.second stack.top with
    | none => moved
    | some value => moved.setTop value

end Operator
end CompactFont.Charstring
