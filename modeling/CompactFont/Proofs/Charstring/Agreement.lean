import CompactFont.Proofs.Charstring.Steps

/-!
A scan depends on the subroutines of its context only through how calls are resolved and through the
bodies of those that it calls. Other bodies may be replaced.
-/

set_option autoImplicit false

namespace CompactFont.Charstring

/-- Both contexts resolve all calls alike, and some subroutines have the same bodies in both. -/
structure SubrContext.Agree (first second : SubrContext) (same : Subr → Prop) : Prop where
  target : ∀ scope operand, first.target scope operand = second.target scope operand
  body : ∀ subr, same subr → first.body subr = second.body subr

theorem SubrContext.Agree.imp {first second : SubrContext} {same fewer : Subr → Prop}
    (agree : first.Agree second same) (implies : ∀ subr, fewer subr → same subr) :
    first.Agree second fewer where
  target := agree.target
  body subr known := agree.body subr (implies subr known)

variable {limits : Limits} {first second : SubrContext} {same : Subr → Prop}
  {left right : Subr → ScanState → ScanState}

def ScanState.CallsOnly (same : Subr → Prop) (state : ScanState) : Prop :=
  ∀ subr, .call subr ∈ state.trace → same subr

theorem ScanState.CallsOnly.before {start last : ScanState} (only : last.CallsOnly same)
    (kept : ∀ event ∈ start.trace, event ∈ last.trace) : start.CallsOnly same :=
  fun subr called => only subr (kept _ called)

/-- Following a call leaves the same state, and takes nothing from the trace. -/
structure Simulates (context : SubrContext) (same : Subr → Prop)
    (left right : Subr → ScanState → ScanState) : Prop where
  keeps : ∀ event subr state, context.Callable subr → event ∈ state.trace →
    event ∈ (left subr state).trace
  agrees : ∀ subr state, same subr → (left subr state).CallsOnly same →
    left subr state = right subr state

namespace Simulates

theorem call_eq (simulates : Simulates first same left right) (agree : first.Agree second same)
    {scope : SubrScope} {operand : Option Int} {state : ScanState}
    (only : (call first left scope operand state).CallsOnly same) :
    call first left scope operand state = call second right scope operand state := by
  unfold call at only ⊢
  rw [← agree.target]
  split at only
  · rfl
  · next subr reached =>
    apply simulates.agrees subr _ _ only
    apply only
    apply simulates.keeps _ _ _ ⟨scope, operand, reached⟩
    exact Array.mem_push_self

theorem walk_eq (simulates : Simulates first same left right) (agree : first.Agree second same)
    {depth : Nat} {code : ByteArray} {room pos : Nat} {state : ScanState}
    (only : (walk limits first left depth code room pos state).CallsOnly same) :
    walk limits first left depth code room pos state =
      walk limits second right depth code room pos state := by
  induction room generalizing pos state with
  | zero => rfl
  | succ room induction =>
    unfold walk at only ⊢
    by_cases ended : code.size ≤ pos
    · rw [if_pos ended, if_pos ended]
    rw [if_neg ended] at only
    rw [if_neg ended, if_neg ended]
    by_cases spent : depth ≠ 0 ∧ limits.tokens ≤ state.inlined
    · rw [if_pos spent, if_pos spent]
    rw [if_neg spent] at only
    rw [if_neg spent, if_neg spent]
    dsimp only at only ⊢
    cases read : Token.read.run (.whole code) pos with
    | error fault last => rfl
    | ok token last =>
      rw [read] at only
      cases token with
      | operand value => exact induction only
      | operator operator =>
        dsimp only at only ⊢
        by_cases masked : operator.hasMask = true
        · rw [if_pos masked] at only
          rw [if_pos masked, if_pos masked]
          by_cases short : code.size - last < maskLength ((state.meter depth).execute operator).hints
          · rw [if_pos short, if_pos short]
          · rw [if_neg short] at only
            rw [if_neg short, if_neg short]
            exact induction only
        · rw [if_neg masked] at only
          rw [if_neg masked, if_neg masked]
          cases scope : operator.callScope? with
          | none =>
            rw [scope] at only
            exact induction only
          | some target =>
            rw [scope] at only
            dsimp only at only ⊢
            have called := simulates.call_eq agree (only.before fun event found =>
              (lasting_of_mem_trace event).walk_of_follow (simulates.keeps event) _ _ _ _ _ found)
            rw [← called]
            exact induction only

theorem of_agree (agree : first.Agree second same) (room : Nat) :
    Simulates first same (follow limits first room) (follow limits second room) where
  keeps := mem_trace_follow limits room
  agrees := by
    induction room with
    | zero => intro subr state known only; rfl
    | succ room induction =>
      intro subr state known only
      have inner : Simulates first same (Charstring.follow limits first room)
          (Charstring.follow limits second room) :=
        ⟨mem_trace_follow limits room, induction⟩
      unfold Charstring.follow at only ⊢
      by_cases spent : limits.tokens ≤ state.inlined
      · rw [if_pos spent, if_pos spent]
      rw [if_neg spent] at only
      rw [if_neg spent, if_neg spent]
      dsimp only at only ⊢
      rw [← agree.body subr known]
      exact inner.walk_eq agree only

end Simulates

/-- A scan only reads the bodies of the subroutines that it calls. -/
theorem scan_eq {code : ByteArray} (agree : first.Agree second (· ∈ calls first code)) :
    scan first code = scan second code := by
  have simulates : Simulates first (· ∈ calls first code) (follow .standard first 10)
      (follow .standard second 10) := .of_agree agree 10
  have states : scanWith .standard first code = scanWith .standard second code := by
    apply simulates.walk_eq agree
    intro subr called
    exact mem_calls.2 called
  rw [scan, scan, states]

theorem calls_eq {code : ByteArray} (agree : first.Agree second (· ∈ calls first code)) :
    calls first code = calls second code := by
  rw [calls, calls, scan_eq agree]

end CompactFont.Charstring
