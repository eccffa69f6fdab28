import CompactFont.Proofs.Charstring.Limits

/-!
A scan that goes on from some state. What was recorded before plays no part in it, and the tokens
read before only count towards the limit. So a subroutine that is called again with the same stack
does the same again, as long as the limit allows.
-/

set_option autoImplicit false

namespace CompactFont.Charstring

variable {limits : Limits} {context : SubrContext}

namespace ScanState

/-- The state of a scan that begins with the stack and the hints of another state, as part of the
scan that led to that state. -/
def append (before state : ScanState) : ScanState where
  stack := state.stack
  hints := state.hints
  inlined := before.inlined + state.inlined
  deepest := max before.deepest state.deepest
  trace := (before.trace.toList ++ state.trace.toList).toArray

def restart (state : ScanState) : ScanState := { start with stack := state.stack, hints := state.hints }

variable (before state : ScanState)

theorem append_restart : state.append state.restart = state := by
  simp only [append, restart, start, Nat.add_zero, Nat.max_zero, List.append_nil, Array.toArray_toList]

theorem stack_append : (before.append state).stack = state.stack := rfl

theorem record_append (event : Event) :
    (before.append state).record event = before.append (state.record event) := by
  simp only [record, append, Array.toList_push, ← List.append_assoc, List.push_toArray]

theorem execute_append (operator : Operator) :
    (before.append state).execute operator = before.append (state.execute operator) := rfl

theorem meter_append (depth : Nat) :
    (before.append state).meter depth = before.append (state.meter depth) := by
  unfold meter
  split
  · rfl
  · simp only [append, Nat.add_assoc, Nat.max_assoc]

end ScanState

def Limits.after (limits : Limits) (before : ScanState) : Limits :=
  ⟨limits.nesting, limits.tokens - before.inlined⟩

theorem tokens_le_append (before state : ScanState) :
    limits.tokens ≤ (before.append state).inlined ↔
      (limits.after before).tokens ≤ state.inlined := by
  simp only [ScanState.append, Limits.after]
  omega

def TokenOutcome.append (before : ScanState) : TokenOutcome → TokenOutcome
  | done state => .done (before.append state)
  | next pos state => .next pos (before.append state)

variable {before : ScanState} {left right : Subr → ScanState → ScanState}

theorem scanToken_append
    (followed : ∀ subr state, left subr (before.append state) = before.append (right subr state))
    (code : ByteArray) (pos : Nat) (state : ScanState) :
    scanToken context left code pos (before.append state) =
      (scanToken context right code pos state).append before := by
  unfold scanToken
  cases Token.read.run (.whole code) pos with
  | error fault last => simp only [ScanState.record_append, TokenOutcome.append]
  | ok token last =>
    cases token with
    | operand value => rfl
    | operator operator =>
      dsimp only
      rw [ScanState.execute_append]
      by_cases masked : operator.hasMask = true
      · simp only [masked, ↓reduceIte, ScanState.record_append]
        change (if code.size - last < maskLength (state.execute operator).hints then _ else _) = _
        split <;> rfl
      simp only [masked, Bool.false_eq_true, ↓reduceIte]
      cases operator.callScope? with
      | none => rfl
      | some scope =>
        dsimp only [call, ScanState.stack_append]
        cases context.target scope state.stack.top with
        | error remark => simp only [ScanState.record_append, TokenOutcome.append]
        | ok subr => simp only [ScanState.record_append, followed, TokenOutcome.append]

theorem walk_append
    (followed : ∀ subr state, left subr (before.append state) = before.append (right subr state))
    (depth : Nat) (code : ByteArray) (room pos : Nat) (state : ScanState) :
    walk limits context left depth code room pos (before.append state) =
      before.append (walk (limits.after before) context right depth code room pos state) := by
  induction room generalizing pos state with
  | zero => rfl
  | succ room induction =>
    simp only [walk_succ, tokens_le_append, ScanState.meter_append, scanToken_append followed,
      ScanState.record_append]
    by_cases ended : code.size ≤ pos
    · rw [if_pos ended, if_pos ended]
    rw [if_neg ended, if_neg ended]
    by_cases stopped : depth ≠ 0 ∧ (limits.after before).tokens ≤ state.inlined
    · rw [if_pos stopped, if_pos stopped]
    rw [if_neg stopped, if_neg stopped]
    cases scanToken context right code pos (state.meter depth) with
    | done state => rfl
    | next pos state => exact induction pos state

theorem follow_append (room : Nat) (subr : Subr) (state : ScanState) :
    follow limits context room subr (before.append state) =
      before.append (follow (limits.after before) context room subr state) := by
  induction room generalizing subr state with
  | zero => exact ScanState.record_append before state _
  | succ room induction =>
    simp only [follow, tokens_le_append, ScanState.record_append]
    by_cases stopped : (limits.after before).tokens ≤ state.inlined
    · rw [if_pos stopped, if_pos stopped]
    rw [if_neg stopped, if_neg stopped]
    exact walk_append induction _ _ _ _ state

/-! ### Subroutines that do the same again -/

theorem follow_eq_of_inlined_lt {nesting room : Nat} {subr : Subr} {state : ScanState}
    (callable : context.Callable subr) {some other : Nat}
    (below : (follow ⟨nesting, some⟩ context room subr state).inlined < min some other) :
    follow ⟨nesting, other⟩ context room subr state =
      follow ⟨nesting, some⟩ context room subr state := by
  rcases Nat.le_total some other with wider | narrower
  · have within : Limits.Within ⟨nesting, some⟩ ⟨nesting, other⟩ := ⟨Nat.le_refl _, wider⟩
    rcases follow_eq_or_cutShort within (Nat.add_zero nesting).symm room subr state callable with
      same | cut
    · exact same.symm
    · have spent : some ≤ _ := (cut.spent rfl).1
      omega
  · have within : Limits.Within ⟨nesting, other⟩ ⟨nesting, some⟩ := ⟨Nat.le_refl _, narrower⟩
    rcases follow_eq_or_cutShort within (Nat.add_zero nesting).symm room subr state callable with
      same | cut
    · exact same
    · have spent : other ≤ (follow ⟨nesting, some⟩ context room subr state).inlined :=
        (cut.spent rfl).2
      omega

/-- Follows calls, where it is known how a subroutine runs that is called with an empty stack and
before any hints. -/
def followKnown (limits : Limits) (context : SubrContext) (room : Nat) (known : Subr)
    (run : ScanState) (subr : Subr) (state : ScanState) : ScanState :=
  if subr = known ∧ state.stack = [] ∧ state.hints = 0 ∧
      state.inlined + run.inlined < limits.tokens then state.append run
  else follow limits context room subr state

theorem followKnown_eq {room : Nat} {known : Subr} (callable : context.Callable known)
    {tokens : Nat} {run : ScanState}
    (ran : follow ⟨limits.nesting, tokens⟩ context room known .start = run)
    (below : run.inlined < tokens) :
    followKnown limits context room known run = follow limits context room := by
  funext subr state
  unfold followKnown
  split
  · next fits =>
    obtain ⟨rfl, stack, hints, few⟩ := fits
    have begun : state.restart = .start := by
      rw [ScanState.restart, stack, hints]
      rfl
    have enough : (follow ⟨limits.nesting, tokens⟩ context room subr .start).inlined <
        min tokens (limits.tokens - state.inlined) := by
      rw [ran]
      omega
    calc state.append run
        = state.append (follow (limits.after state) context room subr .start) := by
          rw [Limits.after, follow_eq_of_inlined_lt callable enough, ran]
      _ = follow limits context room subr (state.append state.restart) := by
          rw [begun, follow_append]
      _ = follow limits context room subr state := by rw [state.append_restart]
  · rfl

def scanKnown (limits : Limits) (context : SubrContext) (known : Subr) (run : ScanState)
    (code : ByteArray) : ScanState :=
  walk limits context (followKnown limits context limits.nesting known run) 0 code code.size 0 .start

theorem scanKnown_eq (limits : Limits) {known : Subr} (callable : context.Callable known)
    {tokens : Nat} {run : ScanState}
    (ran : follow ⟨limits.nesting, tokens⟩ context limits.nesting known .start = run)
    (below : run.inlined < tokens) (code : ByteArray) :
    scanKnown limits context known run code = scanWith limits context code := by
  rw [scanKnown, followKnown_eq callable ran below, scanWith]

end CompactFont.Charstring
