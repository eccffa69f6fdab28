import CompactFont.Number

/-!
The units that a charstring consists of: operands, and operators that are told apart as far as they
matter for the operand stack, the number of stem hints or subroutine calls. The bytes of a hint mask
are no units: they follow their operator, and how many there are depends on the hints declared
before.
-/

set_option autoImplicit false

namespace CompactFont.Charstring

inductive Operator where
  | hStem
  | vStem
  | callSubr
  | ret
  | endChar
  | hStemHm
  | hintMask
  | cntrMask
  | vStemHm
  | callGsubr
  | and
  | or
  | not
  | abs
  | add
  | sub
  | div
  | neg
  | eq
  | drop
  | put
  | get
  | ifElse
  | random
  | mul
  | sqrt
  | dup
  | exch
  | index
  | roll
  /-- any other one-byte operator: path construction, or reserved -/
  | other (byte : UInt8)
  /-- any other operator that follows an escape byte -/
  | otherEscaped (byte : UInt8)
  deriving DecidableEq

inductive DepthChange where
  /-- the given number of operands fewer -/
  | pop (count : Nat)
  | keep
  /-- one operand more -/
  | push
  /-- no operands are left -/
  | clear
  deriving DecidableEq

namespace Operator

def escape : UInt8 := 12

def ofByte (byte : UInt8) : Operator :=
  match byte with
  | 1 => hStem
  | 3 => vStem
  | 10 => callSubr
  | 11 => ret
  | 14 => endChar
  | 18 => hStemHm
  | 19 => hintMask
  | 20 => cntrMask
  | 23 => vStemHm
  | 29 => callGsubr
  | _ => other byte

def ofEscaped (byte : UInt8) : Operator :=
  match byte with
  | 3 => and
  | 4 => or
  | 5 => not
  | 9 => abs
  | 10 => add
  | 11 => sub
  | 12 => div
  | 14 => neg
  | 15 => eq
  | 18 => drop
  | 20 => put
  | 21 => get
  | 22 => ifElse
  | 23 => random
  | 24 => mul
  | 26 => sqrt
  | 27 => dup
  | 28 => exch
  | 29 => index
  | 30 => roll
  | _ => otherEscaped byte

/-- The net effect of an operator. A call takes the number of its subroutine; what the subroutine
does to the stack is not part of it. -/
def effect : Operator → DepthChange
  | ifElse => .pop 3
  | roll | put => .pop 2
  | callSubr | callGsubr | add | sub | div | mul | drop | and | or | eq => .pop 1
  | abs | neg | sqrt | exch | index | get | not | ret => .keep
  | random | dup => .push
  | _ => .clear

/-- Operators that declare stem hints: each pair of operands is one. A mask operator takes the
operands before it as vertical stems. -/
def declaresHints : Operator → Bool
  | hStem | vStem | hStemHm | vStemHm | hintMask | cntrMask => true
  | _ => false

def hasMask : Operator → Bool
  | hintMask | cntrMask => true
  | _ => false

end Operator
inductive Token where
  | operand (value : Int)
  | operator (value : Operator)
  deriving DecidableEq

/-- Reads an operand or an operator. The widest operands are fractions with 16 bits after the point
in charstrings of type 2 and integers in those of type 1; either way they read as their 32 bits. -/
def Token.read {ε : Type} [Failure ε] : ReaderOf ε Token := do
  let lead ← Reader.u8
  if lead = Operator.escape then return .operator (.ofEscaped (← Reader.u8))
  else if lead = Number.leadOfTwo then return .operand (← Reader.signedWord 2)
  else if lead ≤ 31 then return .operator (.ofByte lead)
  else if lead ≤ 254 then return .operand (← Number.readShort lead)
  else return .operand (← Reader.signedWord 4)

end CompactFont.Charstring
