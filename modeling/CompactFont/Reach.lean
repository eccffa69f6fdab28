import CompactFont.Charstring.Scan
import CompactFont.DiscoverySet

/-!
The subroutines that some charstrings reach, directly or through other subroutines. Each subroutine
found is also scanned by itself, once and in the order of discovery, so a limit that ends one scan
does not end the search.
-/

set_option autoImplicit false

namespace CompactFont

open Charstring

/-- The subroutines found so far. Those from a certain position of `order` on are yet to be
scanned. -/
structure Reach where
  /-- all subroutines found, in the order of discovery -/
  order : Array Subr
  localSubrs : DiscoverySet
  globalSubrs : DiscoverySet
  /-- what the scans remarked -/
  remarks : Array Remark

namespace Reach

def empty : Reach := ⟨#[], .empty, .empty, #[]⟩

def found (reach : Reach) : SubrScope → DiscoverySet
  | .localSubrs => reach.localSubrs
  | .globalSubrs => reach.globalSubrs

def add (reach : Reach) (subr : Subr) : Reach :=
  if (reach.found subr.scope).contains subr.index then reach
  else
    let order := reach.order.push subr
    match subr.scope with
    | .localSubrs => { reach with order, localSubrs := reach.localSubrs.insert subr.index }
    | .globalSubrs => { reach with order, globalSubrs := reach.globalSubrs.insert subr.index }

def addEvent (reach : Reach) : Event → Reach
  | .call subr => reach.add subr
  | .refusal _ => reach
  | .remark remark => { reach with remarks := reach.remarks.push remark }

def addCharstring (context : SubrContext) (reach : Reach) (code : ByteArray) : Reach :=
  (scan context code).foldl addEvent reach

/-- Scans the subroutines from position `next` of the order on, with those found on the way; at most
`rounds` of them. -/
def addSubrs (context : SubrContext) : (rounds next : Nat) → Reach → Reach
  | 0, _, reach => reach
  | rounds + 1, next, reach =>
    match reach.order[next]? with
    | none => reach
    | some subr =>
      addSubrs context rounds (next + 1) (reach.addCharstring context (context.body subr))

/-- What charstrings reach. There are no more rounds than subroutines, since none is found twice. -/
def ofCharstrings (context : SubrContext) (codes : Array ByteArray) : Reach :=
  addSubrs context context.size 0 (codes.foldl (addCharstring context) empty)

end Reach
end CompactFont
