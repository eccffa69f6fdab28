import CompactFont.Proofs.Charstring.Limits
import CompactFont.Proofs.Dict.Token

/-!
What one token does to a scan. It is decided by the operands and the hints, whatever happened before,
and every token takes at least one byte. So a scan comes to the end of a charstring in as many steps
as there are bytes, and the scans of one charstring can be compared token by token.
-/

set_option autoImplicit false

namespace CompactFont.Charstring

open Reader

/-! ### Tokens take bytes -/

theorem Token.local_read : Local Token.read := by
  unfold Token.read
  apply Local.bind .u8
  intro lead
  apply Local.ite (.bind .u8 fun _ => .pure _)
  apply Local.ite (.bind (.signedWord 2) fun _ => .pure _)
  apply Local.ite (.pure _)
  exact .ite (.bind (Number.local_readShort lead) fun _ => .pure _)
    (.bind (.signedWord 4) fun _ => .pure _)

theorem Token.lt_of_run_read {source : Source} {pos last : Nat} {token : Token}
    (read : Token.read.run source pos = .ok token last) : pos < last := by
  have started : pos < source.stop := by
    unfold Token.read at read
    obtain ⟨lead, _, first, _⟩ := run_bind_eq_ok.1 read
    exact (run_u8_eq_ok.1 first).1.2
  obtain ⟨content, _, rfl, spelled⟩ := local_read source pos token last (Nat.le_of_lt started) read
  -- without bytes, the token would also be read where no byte is left
  have filled : content ≠ [] := by
    rintro rfl
    have absurdity := spelled 0 (.whole .empty) (.nil (Nat.le_refl 0))
    cases absurdity
  have length := List.length_pos_of_ne_nil filled
  omega

/-! ### Effects -/

structure Frame where
  stack : Stack
  /-- the number of stem hints declared so far -/
  hints : Nat
  deriving DecidableEq

def Frame.execute (operator : Operator) (frame : Frame) : Frame where
  stack := operator.apply frame.stack
  hints := if operator.declaresHints then frame.hints + frame.stack.length / 2 else frame.hints

/-- What a token makes of a frame, and where the scan goes on. -/
inductive TokenEffect where
  /-- the token is cut off, or its mask is -/
  | stop (frame : Frame) (remark : Remark)
  | next (frame : Frame) (remark : Option Remark) (pos : Nat)
  | call (frame : Frame) (subr : Subr) (pos : Nat)

def tokenEffect (context : SubrContext) (code : ByteArray) (pos : Nat) (frame : Frame) :
    TokenEffect :=
  match Token.read.run (.whole code) pos with
  | .error _ pos => .stop frame (.truncatedToken pos)
  | .ok (.operand value) pos => .next { frame with stack := some value :: frame.stack } none pos
  | .ok (.operator operator) pos =>
    let after := frame.execute operator
    if operator.hasMask then
      if code.size - pos < maskLength after.hints then .stop after (.truncatedMask pos)
      else .next after none (pos + maskLength after.hints)
    else
      match operator.callScope? with
      | none => .next after none pos
      | some scope =>
        match context.target scope frame.stack.top with
        | .error remark => .next after (some remark) pos
        | .ok subr => .call after subr pos

namespace ScanState

def frame (state : ScanState) : Frame := ⟨state.stack, state.hints⟩

def adopt (frame : Frame) (state : ScanState) : ScanState :=
  { state with stack := frame.stack, hints := frame.hints }

def note (remark : Option Remark) (state : ScanState) : ScanState :=
  match remark with
  | none => state
  | some remark => state.record (.remark remark)

@[simp] theorem frame_adopt (frame : Frame) (state : ScanState) :
    (state.adopt frame).frame = frame := rfl

@[simp] theorem frame_note (remark : Option Remark) (state : ScanState) :
    (state.note remark).frame = state.frame := by
  cases remark <;> rfl

@[simp] theorem frame_meter (depth : Nat) (state : ScanState) :
    (state.meter depth).frame = state.frame := by
  unfold meter
  split <;> rfl

@[simp] theorem inlined_record (event : Event) (state : ScanState) :
    (state.record event).inlined = state.inlined := rfl

@[simp] theorem inlined_adopt (frame : Frame) (state : ScanState) :
    (state.adopt frame).inlined = state.inlined := rfl

@[simp] theorem inlined_note (remark : Option Remark) (state : ScanState) :
    (state.note remark).inlined = state.inlined := by
  cases remark <;> rfl

/-- Tokens of subroutines count, those of the charstring itself do not. -/
theorem inlined_meter (depth : Nat) (state : ScanState) :
    (state.meter depth).inlined = state.inlined + if depth = 0 then 0 else 1 := by
  unfold meter
  split <;> rfl

end ScanState

variable {limits : Limits} {context : SubrContext} {follow : Subr → ScanState → ScanState}

theorem scanToken_eq (context : SubrContext) (follow : Subr → ScanState → ScanState)
    (code : ByteArray) (pos : Nat) (state : ScanState) :
    scanToken context follow code pos state =
      match tokenEffect context code pos state.frame with
      | .stop frame remark => .done ((state.adopt frame).record (.remark remark))
      | .next frame remark pos => .next pos ((state.adopt frame).note remark)
      | .call frame subr pos => .next pos (follow subr ((state.adopt frame).record (.call subr))) := by
  unfold scanToken tokenEffect
  cases Token.read.run (.whole code) pos with
  | error fault last => rfl
  | ok token last =>
    cases token with
    | operand value => rfl
    | operator operator =>
      dsimp only
      by_cases masked : operator.hasMask = true
      · rw [if_pos masked, if_pos masked]
        change (if code.size - last < maskLength (state.frame.execute operator).hints then _ else _) = _
        split <;> rfl
      rw [if_neg masked, if_neg masked]
      cases operator.callScope? with
      | none => rfl
      | some scope =>
        dsimp only [call]
        have stack : state.frame.stack = state.stack := rfl
        rw [stack]
        cases context.target scope state.stack.top <;> rfl

def Limits.Stop (limits : Limits) (depth : Nat) (state : ScanState) : Prop :=
  depth ≠ 0 ∧ limits.tokens ≤ state.inlined

instance (limits : Limits) (depth : Nat) (state : ScanState) : Decidable (limits.Stop depth state) :=
  inferInstanceAs (Decidable (_ ∧ _))

theorem walk_eq (depth : Nat) (code : ByteArray) (room pos : Nat) (state : ScanState) :
    walk limits context follow depth code (room + 1) pos state =
      if code.size ≤ pos then state
      else if limits.Stop depth state then state.record (.remark .tokensSpent)
      else
        match tokenEffect context code pos state.frame with
        | .stop frame remark => ((state.meter depth).adopt frame).record (.remark remark)
        | .next frame remark pos =>
          walk limits context follow depth code room pos (((state.meter depth).adopt frame).note remark)
        | .call frame subr pos =>
          walk limits context follow depth code room pos
            (follow subr (((state.meter depth).adopt frame).record (.call subr))) := by
  rw [walk_succ, scanToken_eq, ScanState.frame_meter]
  by_cases ended : code.size ≤ pos
  · rw [if_pos ended, if_pos ended]
  rw [if_neg ended, if_neg ended]
  change (if limits.Stop depth state then _ else _) = _
  split
  · rfl
  · cases tokenEffect context code pos state.frame <;> rfl

theorem walk_of_ended {depth room pos : Nat} {code : ByteArray} {state : ScanState}
    (ended : code.size ≤ pos) : walk limits context follow depth code room pos state = state := by
  cases room with
  | zero => rfl
  | succ room => rw [walk_eq, if_pos ended]

/-! ### As many steps as there are bytes -/

def TokenEffect.last? : TokenEffect → Option Nat
  | stop _ _ => none
  | next _ _ pos | call _ _ pos => some pos

theorem lt_last_tokenEffect {code : ByteArray} {pos last : Nat} {frame : Frame}
    (goes : (tokenEffect context code pos frame).last? = some last) : pos < last := by
  unfold tokenEffect at goes
  cases read : Token.read.run (.whole code) pos with
  | error fault stop =>
    rw [read] at goes
    cases goes
  | ok token stop =>
    have moved := Token.lt_of_run_read read
    rw [read] at goes
    cases token with
    | operand value =>
      cases goes
      exact moved
    | operator operator =>
      dsimp only at goes
      split at goes
      · split at goes
        · cases goes
        · cases goes
          omega
      split at goes
      · cases goes
        exact moved
      split at goes
      · cases goes
        exact moved
      · cases goes
        exact moved

/-- Steps beyond the number of bytes left are never taken. -/
theorem walk_eq_of_le {depth room other pos : Nat} {code : ByteArray} {state : ScanState}
    (enough : code.size - pos ≤ room) (also : code.size - pos ≤ other) :
    walk limits context follow depth code room pos state =
      walk limits context follow depth code other pos state := by
  induction room generalizing other pos state with
  | zero =>
    have ended : code.size ≤ pos := by omega
    rw [walk_of_ended ended, walk_of_ended ended]
  | succ room induction =>
    by_cases ended : code.size ≤ pos
    · rw [walk_of_ended ended, walk_of_ended ended]
    obtain ⟨other, rfl⟩ : ∃ fewer, other = fewer + 1 := ⟨other - 1, by omega⟩
    rw [walk_eq, walk_eq, if_neg ended, if_neg ended]
    split
    · rfl
    cases effect : tokenEffect context code pos state.frame with
    | stop frame remark => rfl
    | next frame remark last =>
      have moved : pos < last := lt_last_tokenEffect (by rw [effect]; rfl)
      exact induction (by omega) (by omega)
    | call frame subr last =>
      have moved : pos < last := lt_last_tokenEffect (by rw [effect]; rfl)
      exact induction (by omega) (by omega)

/-- A scan token by token, with as many steps as it can take. -/
theorem walk_size {depth pos : Nat} {code : ByteArray} (more : pos < code.size) (state : ScanState) :
    walk limits context follow depth code code.size pos state =
      if limits.Stop depth state then state.record (.remark .tokensSpent)
      else
        match tokenEffect context code pos state.frame with
        | .stop frame remark => ((state.meter depth).adopt frame).record (.remark remark)
        | .next frame remark pos =>
          walk limits context follow depth code code.size pos
            (((state.meter depth).adopt frame).note remark)
        | .call frame subr pos =>
          walk limits context follow depth code code.size pos
            (follow subr (((state.meter depth).adopt frame).record (.call subr))) := by
  have steps : walk limits context follow depth code code.size pos state =
      walk limits context follow depth code (code.size + 1) pos state :=
    walk_eq_of_le (Nat.sub_le _ _) (by omega)
  rw [steps, walk_eq, if_neg (Nat.not_le.2 more)]

/-! ### The calls of a scan -/

namespace ScanState

def calls (state : ScanState) : List Subr := state.trace.toList.filterMap Event.call?

@[simp] theorem calls_meter (depth : Nat) (state : ScanState) :
    (state.meter depth).calls = state.calls := by
  rw [calls, trace_meter, calls]

@[simp] theorem calls_adopt (frame : Frame) (state : ScanState) :
    (state.adopt frame).calls = state.calls := rfl

theorem calls_record (event : Event) (state : ScanState) :
    (state.record event).calls = state.calls ++ event.call?.toList := by
  rw [calls, trace_record, Array.toList_push, List.filterMap_append, calls]
  cases event <;> rfl

@[simp] theorem calls_record_call (subr : Subr) (state : ScanState) :
    (state.record (.call subr)).calls = state.calls ++ [subr] := calls_record _ _

@[simp] theorem calls_record_remark (remark : Remark) (state : ScanState) :
    (state.record (.remark remark)).calls = state.calls :=
  (calls_record _ _).trans (List.append_nil _)

@[simp] theorem calls_record_refusal (subr : Subr) (state : ScanState) :
    (state.record (.refusal subr)).calls = state.calls :=
  (calls_record _ _).trans (List.append_nil _)

@[simp] theorem calls_note (remark : Option Remark) (state : ScanState) :
    (state.note remark).calls = state.calls := by
  cases remark with
  | none => rfl
  | some remark => exact calls_record_remark remark state

end ScanState

theorem toList_calls (context : SubrContext) (code : ByteArray) :
    (calls context code).toList = (scanWith .standard context code).calls := by
  rw [calls, Array.toList_filterMap, scan, ScanState.calls]

end CompactFont.Charstring
