import CompactFont.Font

/-!
Subroutines and the way charstrings number them. A call gives the number of a subroutine less a bias
that depends on how many there are.
-/

set_option autoImplicit false

namespace CompactFont.Charstring

inductive SubrScope where
  /-- those of one Private DICT -/
  | localSubrs
  /-- those that all fonts of a table share -/
  | globalSubrs
  deriving DecidableEq

structure Subr where
  scope : SubrScope
  index : Nat
  deriving DecidableEq

/-- What a call adds to its operand, where there are `count` subroutines. -/
def callBias (type : CharstringType) (count : Nat) : Int :=
  match type with
  | .type1 => 0
  | .type2 => if count < 1240 then 107 else if count < 33900 then 1131 else 32768

structure SubrBodies where
  bodies : Array ByteArray
  charstringType : CharstringType

namespace SubrBodies

def ofIndex (bytes : ByteArray) (index : Index) (type : CharstringType) : SubrBodies :=
  ⟨index.elements bytes, type⟩

def size (subrs : SubrBodies) : Nat := subrs.bodies.size

def bias (subrs : SubrBodies) : Int := callBias subrs.charstringType subrs.size

def resolve (subrs : SubrBodies) (operand : Int) : Option Nat :=
  let target := operand + subrs.bias
  if 0 ≤ target ∧ target < subrs.size then some target.toNat else none

def body (subrs : SubrBodies) (i : Nat) : ByteArray := subrs.bodies.getD i .empty

theorem resolve_lt {subrs : SubrBodies} {operand : Int} {i : Nat}
    (found : subrs.resolve operand = some i) : i < subrs.size := by
  simp only [resolve, Option.ite_none_right_eq_some, Option.some.injEq] at found
  omega

end SubrBodies

structure SubrContext where
  localSubrs : Option SubrBodies
  globalSubrs : SubrBodies

namespace SubrContext

def inScope (context : SubrContext) : SubrScope → Option SubrBodies
  | .localSubrs => context.localSubrs
  | .globalSubrs => some context.globalSubrs

def body (context : SubrContext) (subr : Subr) : ByteArray :=
  match context.inScope subr.scope with
  | some subrs => subrs.body subr.index
  | none => .empty

def size (context : SubrContext) : Nat :=
  context.localSubrs.elim 0 SubrBodies.size + context.globalSubrs.size

end SubrContext
end CompactFont.Charstring
