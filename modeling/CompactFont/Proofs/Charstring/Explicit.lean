import CompactFont.Proofs.Charstring.Agreement
import CompactFont.Proofs.Charstring.Limits
import CompactFont.Proofs.Reach.Closure

/-!
Charstrings that read the same whatever was scanned before them. Without hint masks, tokens stand at
fixed positions; if moreover every call is written right after its operand, the calls are fixed as
well. Scanning such a subroutine by itself finds all that it calls wherever it is called from.
-/

set_option autoImplicit false

namespace CompactFont.Charstring

/-- From `pos` on, no operator has a mask, and before every call there is its operand; `given` tells
whether there is an operand right before `pos`. -/
def explicitFrom (code : ByteArray) : (room pos : Nat) → (given : Bool) → Bool
  | 0, _, _ => true
  | room + 1, pos, given =>
    if code.size ≤ pos then true
    else
      match Token.read.run (.whole code) pos with
      | .error _ _ => true
      | .ok (.operand _) pos => explicitFrom code room pos true
      | .ok (.operator operator) pos =>
        !operator.hasMask && (given || operator.callScope?.isNone) &&
          explicitFrom code room pos false

/-- A charstring without hint masks in which every call is written right after its operand. -/
def Explicit (code : ByteArray) : Prop := explicitFrom code code.size 0 false = true

instance (code : ByteArray) : Decidable (Explicit code) := inferInstanceAs (Decidable (_ = true))

variable {limits wide : Limits} {context : SubrContext} {allowed : Subr → Prop}
  {left right : Subr → ScanState → ScanState}

theorem ScanState.CallsOnly.record {state : ScanState} (before : state.CallsOnly allowed)
    {event : Event} (known : ∀ subr, .call subr = event → allowed subr) :
    (state.record event).CallsOnly allowed := by
  intro subr called
  rcases Array.mem_push.1 called with earlier | same
  · exact before subr earlier
  · exact known subr same

theorem ScanState.CallsOnly.remark {state : ScanState} (before : state.CallsOnly allowed)
    (remark : Remark) : (state.record (.remark remark)).CallsOnly allowed :=
  before.record fun _ same => nomatch same

theorem ScanState.CallsOnly.call {state : ScanState} (before : state.CallsOnly allowed)
    {subr : Subr} (known : allowed subr) : (state.record (.call subr)).CallsOnly allowed :=
  before.record fun _ same => Event.call.inj same ▸ known

theorem ScanState.CallsOnly.refusal {state : ScanState} (before : state.CallsOnly allowed)
    (subr : Subr) : (state.record (.refusal subr)).CallsOnly allowed :=
  before.record fun _ same => nomatch same

theorem callsOnly_call
    (keeps : ∀ event subr state, context.Callable subr → event ∈ state.trace →
      event ∈ (right subr state).trace)
    (followed : ∀ subr state, context.Callable subr → allowed subr →
      state.CallsOnly allowed → (left subr state).CallsOnly allowed)
    {scope : SubrScope} {operand : Option Int} {state other : ScanState}
    (before : state.CallsOnly allowed)
    (only : (call context right scope operand other).CallsOnly allowed) :
    (call context left scope operand state).CallsOnly allowed := by
  unfold call at only ⊢
  cases reached : context.target scope operand with
  | error remark => exact before.remark remark
  | ok subr =>
    rw [reached] at only
    have callable : context.Callable subr := ⟨scope, operand, reached⟩
    have known : allowed subr := only subr (keeps _ _ _ callable Array.mem_push_self)
    exact followed subr _ callable known (before.call known)

/-- What the right scan calls at depth 0, where no limit stops it, is all that the left one calls in
the charstring itself. They need not be in the same state, except that an operand right before
`pos` is on top of both stacks. -/
theorem callsOnly_walk {code : ByteArray}
    (keeps : ∀ event subr state, context.Callable subr → event ∈ state.trace →
      event ∈ (right subr state).trace)
    (followed : ∀ subr state, context.Callable subr → allowed subr →
      state.CallsOnly allowed → (left subr state).CallsOnly allowed)
    (depth : Nat) {room pos : Nat} {given : Bool}
    (explicit : explicitFrom code room pos given = true) {state other : ScanState}
    (alike : given = true → state.stack.top = other.stack.top)
    (before : state.CallsOnly allowed)
    (only : (walk wide context right 0 code room pos other).CallsOnly allowed) :
    (walk limits context left depth code room pos state).CallsOnly allowed := by
  induction room generalizing pos given state other with
  | zero => exact before
  | succ room induction =>
    by_cases ended : code.size ≤ pos
    · rwa [walk_succ, if_pos ended]
    by_cases spent : depth ≠ 0 ∧ limits.tokens ≤ state.inlined
    · rw [walk_succ, if_neg ended, if_pos spent]
      exact before.remark _
    rw [explicitFrom, if_neg ended] at explicit
    have unlimited : ¬(0 ≠ 0 ∧ wide.tokens ≤ other.inlined) := fun closed => closed.1 rfl
    rw [walk_succ, if_neg ended, if_neg unlimited] at only
    rw [walk_succ, if_neg ended, if_neg spent]
    have metered : (state.meter depth).CallsOnly allowed := by
      unfold ScanState.CallsOnly
      rwa [ScanState.trace_meter]
    have stack : (state.meter depth).stack = state.stack := by
      unfold ScanState.meter
      split <;> rfl
    unfold scanToken at only ⊢
    cases read : Token.read.run (.whole code) pos with
    | error fault last => exact metered.remark _
    | ok token last =>
      rw [read] at explicit only
      cases token with
      | operand value =>
        have top : true = true → ((state.meter depth).pushOperand value).stack.top =
            ((other.meter 0).pushOperand value).stack.top := fun _ => rfl
        exact induction explicit top metered only
      | operator operator =>
        simp only [Bool.and_eq_true, Bool.not_eq_true', Bool.or_eq_true] at explicit
        obtain ⟨⟨plain, direct⟩, rest⟩ := explicit
        simp only [plain, Bool.false_eq_true, ↓reduceIte] at only ⊢
        have never : ∀ {first second : ScanState}, false = true →
            first.stack.top = second.stack.top := fun absurdity => absurd absurdity Bool.false_ne_true
        cases scope : operator.callScope? with
        | none =>
          rw [scope] at only
          exact induction rest never metered only
        | some reach =>
          rw [scope] at only direct
          have top : (state.meter depth).stack.top = (other.meter 0).stack.top := by
            rw [stack]
            exact alike (direct.resolve_right Bool.false_ne_true)
          rw [top]
          have called := only.before fun event found =>
            (lasting_of_mem_trace event).walk_of_follow (keeps event) _ _ _ _ _ found
          exact induction rest never (callsOnly_call keeps followed metered called) only

variable {code : ByteArray → Prop}

theorem callsOnly_scanWith_of_follow {body : ByteArray} (source : code body)
    (explicit : Explicit body)
    (followed : ∀ subr state, context.Callable subr → Reaches context code subr →
      state.CallsOnly (Reaches context code) →
      (follow limits context limits.nesting subr state).CallsOnly (Reaches context code)) :
    (scanWith limits context body).CallsOnly (Reaches context code) := by
  apply callsOnly_walk (mem_trace_follow .standard 10) followed 0 explicit (fun _ => rfl)
  · intro subr called
    exact absurd called (Array.not_mem_empty _)
  · intro subr called
    exact .code source (mem_calls.2 called)

/-- The calls in an explicit charstring itself are found whatever its subroutines are like. -/
theorem callsOnly_reaches_shallow {body : ByteArray} (source : code body)
    (explicit : Explicit body) (tokens : Nat) :
    (scanWith ⟨0, tokens⟩ context body).CallsOnly (Reaches context code) :=
  callsOnly_scanWith_of_follow source explicit fun subr _ _ _ before => before.refusal subr

/-- No limits keep the search from a call if all charstrings involved are explicit. -/
theorem callsOnly_reaches {body : ByteArray} (source : code body) (explicit : Explicit body)
    (bodies : ∀ subr, Reaches context code subr → Explicit (context.body subr)) :
    (scanWith limits context body).CallsOnly (Reaches context code) := by
  have followed : ∀ room subr state, context.Callable subr → Reaches context code subr →
      state.CallsOnly (Reaches context code) →
      (follow limits context room subr state).CallsOnly (Reaches context code) := by
    intro room
    induction room with
    | zero => exact fun subr state _ _ before => before.refusal subr
    | succ room induction =>
      intro subr state _ reached before
      rw [follow]
      split
      · exact before.refusal subr
      · apply callsOnly_walk (mem_trace_follow .standard 10) induction _ (bodies subr reached)
          (fun given => absurd given Bool.false_ne_true) before
        intro other called
        exact .subr reached (mem_calls.2 called)
  exact callsOnly_scanWith_of_follow source explicit (followed _)

end CompactFont.Charstring
