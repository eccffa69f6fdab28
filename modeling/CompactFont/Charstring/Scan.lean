import CompactFont.Charstring.Stack
import CompactFont.Charstring.Subrs

/-!
Scanning finds the subroutine calls of a charstring without running it. A called subroutine is
scanned in place, with the operands and hints of its caller, because it can declare hints that
later masks depend on. Limits on nesting and on the tokens read in subroutines bound the work; a
call is recorded whether or not its subroutine is followed.

A scan starts without hints. If a subroutine is scanned by itself, its masks may thus seem shorter
than they are, and bytes of a mask may be taken for calls; a call that is really made is still found
where the subroutine is scanned in place.
-/

set_option autoImplicit false

namespace CompactFont.Charstring

structure Limits where
  /-- how deep subroutines are followed -/
  nesting : Nat
  /-- how many tokens are read in subroutines -/
  tokens : Nat
  deriving DecidableEq

def Limits.standard : Limits := ⟨10, 4096⟩

inductive Remark where
  | tokensSpent
  | truncatedToken (pos : Nat)
  | truncatedMask (pos : Nat)
  | unknownOperand (scope : SubrScope)
  | noLocalSubrs
  | operandOutOfRange (scope : SubrScope) (operand : Int)
  deriving DecidableEq

def SubrScope.callTitle : SubrScope → String
  | localSubrs => "CallSubr"
  | globalSubrs => "CallGsubr"

def Remark.message : Remark → String
  | tokensSpent => "inline budget is exhausted; skipping the rest of a subroutine"
  | truncatedToken pos => s!"charstring is truncated at {pos}"
  | truncatedMask pos => s!"hint mask is truncated at {pos}"
  | unknownOperand scope => s!"ignoring {scope.callTitle} with statically unknown operand"
  | noLocalSubrs => "ignoring local subroutine call without local subroutines"
  | operandOutOfRange scope operand =>
    s!"ignoring {scope.callTitle} with out-of-range operand {operand}"

inductive Event where
  | call (subr : Subr)
  /-- a limit keeps the subroutine just called from being followed -/
  | refusal (subr : Subr)
  | remark (remark : Remark)
  deriving DecidableEq

structure ScanState where
  stack : Stack
  /-- the number of stem hints declared so far -/
  hints : Nat
  /-- the number of tokens read in subroutines so far -/
  inlined : Nat
  /-- how deep the subroutines were nested in which tokens were read so far -/
  deepest : Nat
  trace : Array Event

namespace ScanState

def start : ScanState := ⟨[], 0, 0, 0, #[]⟩

def record (event : Event) (state : ScanState) : ScanState :=
  { state with trace := state.trace.push event }

def pushOperand (value : Int) (state : ScanState) : ScanState :=
  { state with stack := some value :: state.stack }

def execute (operator : Operator) (state : ScanState) : ScanState :=
  { state with
    stack := operator.apply state.stack
    hints := if operator.declaresHints then state.hints + state.stack.length / 2 else state.hints }

/-- Accounts for a token at a nesting depth. Those at depth 0 belong to the charstring itself, and no
limit concerns them. -/
def meter (depth : Nat) (state : ScanState) : ScanState :=
  if depth = 0 then state
  else { state with inlined := state.inlined + 1, deepest := max state.deepest depth }

end ScanState

/-- The number of bytes in a mask with one bit for each hint, of which there is at least one. -/
def maskLength (hints : Nat) : Nat := max 1 ((hints + 7) / 8)

def Operator.callScope? : Operator → Option SubrScope
  | callSubr => some .localSubrs
  | callGsubr => some .globalSubrs
  | _ => none

def SubrContext.target (context : SubrContext) (scope : SubrScope) (operand : Option Int) :
    Except Remark Subr :=
  match operand with
  | none => .error (.unknownOperand scope)
  | some operand =>
    match context.inScope scope with
    | none => .error .noLocalSubrs
    | some subrs =>
      match subrs.resolve operand with
      | none => .error (.operandOutOfRange scope operand)
      | some i => .ok ⟨scope, i⟩

def call (context : SubrContext) (follow : Subr → ScanState → ScanState) (scope : SubrScope)
    (operand : Option Int) (state : ScanState) : ScanState :=
  match context.target scope operand with
  | .error remark => state.record (.remark remark)
  | .ok subr => follow subr (state.record (.call subr))

/-- Scans a charstring at a nesting depth, from `pos` on; at most `room` tokens are left. `follow`
determines what happens at a call. -/
def walk (limits : Limits) (context : SubrContext) (follow : Subr → ScanState → ScanState)
    (depth : Nat) (code : ByteArray) : (room pos : Nat) → ScanState → ScanState
  | 0, _, state => state
  | room + 1, pos, state =>
    if code.size ≤ pos then state
    else if depth ≠ 0 ∧ limits.tokens ≤ state.inlined then state.record (.remark .tokensSpent)
    else
      let state := state.meter depth
      match Token.read.run (.whole code) pos with
      | .error _ pos => state.record (.remark (.truncatedToken pos))
      | .ok (.operand value) pos =>
        walk limits context follow depth code room pos (state.pushOperand value)
      | .ok (.operator operator) pos =>
        let operand := state.stack.top
        let state := state.execute operator
        if operator.hasMask then
          if code.size - pos < maskLength state.hints then
            state.record (.remark (.truncatedMask pos))
          else walk limits context follow depth code room (pos + maskLength state.hints) state
        else
          match operator.callScope? with
          | some scope =>
            walk limits context follow depth code room pos (call context follow scope operand state)
          | none => walk limits context follow depth code room pos state

/-- Scans a called subroutine, unless a limit has been reached. Counting itself, `room` subroutines
may be nested from here on. -/
def follow (limits : Limits) (context : SubrContext) : (room : Nat) → Subr → ScanState → ScanState
  | 0, subr, state => state.record (.refusal subr)
  | room + 1, subr, state =>
    if limits.tokens ≤ state.inlined then state.record (.refusal subr)
    else
      let body := context.body subr
      let depth := limits.nesting - room
      walk limits context (follow limits context room) depth body body.size 0 state

def scanWith (limits : Limits) (context : SubrContext) (code : ByteArray) : ScanState :=
  walk limits context (follow limits context limits.nesting) 0 code code.size 0 .start

def scan (context : SubrContext) (code : ByteArray) : Array Event :=
  (scanWith .standard context code).trace

def Event.call? : Event → Option Subr
  | call subr => some subr
  | _ => none

def Event.remark? : Event → Option Remark
  | .remark note => some note
  | _ => none

def calls (context : SubrContext) (code : ByteArray) : Array Subr :=
  (scan context code).filterMap Event.call?

end CompactFont.Charstring
