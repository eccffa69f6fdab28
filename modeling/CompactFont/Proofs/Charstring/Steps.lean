import CompactFont.Charstring.Scan

/-!
What the single steps of a scan keep, a whole scan keeps. From this follow the two facts that the
search for subroutines rests on: a scan only adds to its trace, and it calls only subroutines that
exist.
-/

set_option autoImplicit false

namespace CompactFont.Charstring

variable {limits : Limits} {context : SubrContext} {property : ScanState → Prop}

def SubrContext.Callable (context : SubrContext) (subr : Subr) : Prop :=
  ∃ scope operand, context.target scope operand = .ok subr

theorem SubrContext.scope_of_target {scope : SubrScope} {operand : Option Int} {subr : Subr}
    (reached : context.target scope operand = .ok subr) :
    subr.scope = scope ∧ ∃ subrs, context.inScope scope = some subrs ∧ subr.index < subrs.size := by
  unfold target at reached
  split at reached
  · cases reached
  split at reached
  · cases reached
  next subrs present =>
  split at reached
  · cases reached
  next i resolved =>
  cases reached
  exact ⟨rfl, subrs, present, SubrBodies.resolve_lt resolved⟩

theorem SubrContext.Callable.index_lt {subr : Subr} (callable : context.Callable subr) :
    ∃ subrs, context.inScope subr.scope = some subrs ∧ subr.index < subrs.size := by
  obtain ⟨scope, operand, reached⟩ := callable
  obtain ⟨rfl, bound⟩ := scope_of_target reached
  exact bound

structure Lasting (context : SubrContext) (property : ScanState → Prop) : Prop where
  metered : ∀ depth state, property state → property (state.meter depth)
  pushed : ∀ value state, property state → property (state.pushOperand value)
  executed : ∀ operator state, property state → property (state.execute operator)
  remarked : ∀ remark state, property state → property (state.record (.remark remark))
  called : ∀ subr state, context.Callable subr → property state →
    property (state.record (.call subr))
  refused : ∀ subr state, context.Callable subr → property state →
    property (state.record (.refusal subr))

namespace Lasting

theorem call_of_follow (lasting : Lasting context property)
    {follow : Subr → ScanState → ScanState}
    (following : ∀ subr state, context.Callable subr → property state →
      property (follow subr state))
    (scope : SubrScope) (operand : Option Int) (state : ScanState) (before : property state) :
    property (call context follow scope operand state) := by
  unfold call
  split
  · exact lasting.remarked _ _ before
  · next subr reached =>
    have callable : context.Callable subr := ⟨scope, operand, reached⟩
    exact following subr _ callable (lasting.called subr state callable before)

theorem walk_of_follow (lasting : Lasting context property)
    {follow : Subr → ScanState → ScanState}
    (following : ∀ subr state, context.Callable subr → property state →
      property (follow subr state))
    (depth : Nat) (code : ByteArray) (room pos : Nat) (state : ScanState)
    (before : property state) :
    property (walk limits context follow depth code room pos state) := by
  induction room generalizing pos state with
  | zero => exact before
  | succ room induction =>
    unfold walk
    have metered := lasting.metered depth state before
    split
    · exact before
    split
    · exact lasting.remarked _ _ before
    dsimp only
    split
    · exact lasting.remarked _ _ metered
    · exact induction _ _ (lasting.pushed _ _ metered)
    · next operator pos _ =>
      have executed := lasting.executed operator _ metered
      split
      · split
        · exact lasting.remarked _ _ executed
        · exact induction _ _ executed
      · split
        · exact induction _ _ (lasting.call_of_follow following _ _ _ executed)
        · exact induction _ _ executed

theorem follow (lasting : Lasting context property) (room : Nat) (subr : Subr) (state : ScanState)
    (callable : context.Callable subr) (before : property state) :
    property (Charstring.follow limits context room subr state) := by
  induction room generalizing subr state with
  | zero => exact lasting.refused subr state callable before
  | succ room induction =>
    unfold Charstring.follow
    split
    · exact lasting.refused subr state callable before
    · exact lasting.walk_of_follow induction _ _ _ _ _ before

theorem walk (lasting : Lasting context property) (nesting depth : Nat) (code : ByteArray)
    (room pos : Nat) (state : ScanState) (before : property state) :
    property (Charstring.walk limits context (Charstring.follow limits context nesting) depth code
      room pos state) :=
  lasting.walk_of_follow (lasting.follow nesting) depth code room pos state before

theorem scanWith (lasting : Lasting context property) (code : ByteArray)
    (start : property .start) : property (Charstring.scanWith limits context code) :=
  lasting.walk _ _ _ _ _ _ start

end Lasting

/-! ### The trace -/

theorem ScanState.trace_record (event : Event) (state : ScanState) :
    (state.record event).trace = state.trace.push event := rfl

theorem ScanState.trace_meter (depth : Nat) (state : ScanState) :
    (state.meter depth).trace = state.trace := by
  unfold meter
  split <;> rfl

/-- Every event of a trace satisfies a property that remarks have, and calls and refusals of
callable subroutines. -/
theorem lasting_of_events {allowed : Event → Prop}
    (remark : ∀ remark, allowed (.remark remark))
    (called : ∀ subr, context.Callable subr → allowed (.call subr))
    (refusal : ∀ subr, context.Callable subr → allowed (.refusal subr)) :
    Lasting context fun state => ∀ event ∈ state.trace, allowed event where
  metered depth state before := by rwa [ScanState.trace_meter]
  pushed value state before := before
  executed operator state before := before
  remarked note _ before := Array.forall_mem_push.2 ⟨remark note, before⟩
  called subr _ callable before := Array.forall_mem_push.2 ⟨called subr callable, before⟩
  refused subr _ callable before := Array.forall_mem_push.2 ⟨refusal subr callable, before⟩

theorem lasting_of_mem_trace (event : Event) :
    Lasting context fun state => event ∈ state.trace where
  metered depth state before := by rwa [ScanState.trace_meter]
  pushed _ _ before := before
  executed _ _ before := before
  remarked _ _ before := Array.mem_push_of_mem _ before
  called _ _ _ before := Array.mem_push_of_mem _ before
  refused _ _ _ before := Array.mem_push_of_mem _ before

theorem mem_trace_follow (limits : Limits) (room : Nat) (event : Event) (subr : Subr)
    (state : ScanState) (callable : context.Callable subr) (recorded : event ∈ state.trace) :
    event ∈ (follow limits context room subr state).trace :=
  (lasting_of_mem_trace event).follow room subr state callable recorded

theorem mem_calls {code : ByteArray} {subr : Subr} :
    subr ∈ calls context code ↔ .call subr ∈ scan context code := by
  simp only [calls, Array.mem_filterMap]
  constructor
  · rintro ⟨event, found, same⟩
    cases event <;> simp only [Event.call?, Option.some.injEq, reduceCtorEq] at same
    rwa [← same]
  · intro found
    exact ⟨.call subr, found, rfl⟩

theorem callable_of_mem_calls {code : ByteArray} {subr : Subr} (found : subr ∈ calls context code) :
    context.Callable subr := by
  have lasting : Lasting context fun state => ∀ event ∈ state.trace, ∀ subr, event = .call subr →
      context.Callable subr := by
    apply lasting_of_events
    · intro note subr same
      cases same
    · intro own callable subr same
      cases same
      exact callable
    · intro own callable subr same
      cases same
  have none : ∀ event ∈ ScanState.start.trace, ∀ subr, event = .call subr →
      context.Callable subr := by
    simp only [ScanState.start, Array.not_mem_empty, false_implies, implies_true]
  exact @Lasting.scanWith .standard context _ lasting code none _ (mem_calls.1 found) subr rfl

end CompactFont.Charstring
