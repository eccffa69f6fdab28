import CompactFont.Proofs.Charstring.Steps

/-!
Scans of one charstring within different limits. Limits are consulted before a token of a subroutine
is read and before a subroutine is followed, and nowhere else, so two scans run alike until the
narrower limits stop one of them. There is always a number of tokens that no scan goes beyond, so
scans within enough tokens are all the same.
-/

set_option autoImplicit false

namespace CompactFont.Charstring

variable {context : SubrContext}

/-! ### One token -/

inductive TokenOutcome where
  | done (state : ScanState)
  | next (pos : Nat) (state : ScanState)

def TokenOutcome.state : TokenOutcome → ScanState
  | done state => state
  | next _ state => state

def scanToken (context : SubrContext) (follow : Subr → ScanState → ScanState) (code : ByteArray)
    (pos : Nat) (state : ScanState) : TokenOutcome :=
  match Token.read.run (.whole code) pos with
  | .error _ pos => .done (state.record (.remark (.truncatedToken pos)))
  | .ok (.operand value) pos => .next pos (state.pushOperand value)
  | .ok (.operator operator) pos =>
    let operand := state.stack.top
    let state := state.execute operator
    if operator.hasMask then
      if code.size - pos < maskLength state.hints then
        .done (state.record (.remark (.truncatedMask pos)))
      else .next (pos + maskLength state.hints) state
    else
      match operator.callScope? with
      | some scope => .next pos (call context follow scope operand state)
      | none => .next pos state

theorem walk_succ (limits : Limits) (follow : Subr → ScanState → ScanState) (depth : Nat)
    (code : ByteArray) (room pos : Nat) (state : ScanState) :
    walk limits context follow depth code (room + 1) pos state =
      if code.size ≤ pos then state
      else if depth ≠ 0 ∧ limits.tokens ≤ state.inlined then state.record (.remark .tokensSpent)
      else
        match scanToken context follow code pos (state.meter depth) with
        | .done state => state
        | .next pos state => walk limits context follow depth code room pos state := by
  rw [walk]
  by_cases ended : code.size ≤ pos
  · rw [if_pos ended, if_pos ended]
  by_cases spent : depth ≠ 0 ∧ limits.tokens ≤ state.inlined
  · rw [if_neg ended, if_neg ended, if_pos spent, if_pos spent]
  rw [if_neg ended, if_neg ended, if_neg spent, if_neg spent]
  dsimp only [scanToken]
  cases Token.read.run (.whole code) pos with
  | error fault last => rfl
  | ok token last =>
    cases token with
    | operand value => rfl
    | operator operator =>
      dsimp only
      by_cases masked : operator.hasMask = true
      · rw [if_pos masked, if_pos masked]
        split <;> rfl
      · rw [if_neg masked, if_neg masked]
        cases operator.callScope? with
        | none => rfl
        | some scope => rfl

/-- How calls are followed matters only if the token is a call of a subroutine that exists. -/
theorem scanToken_cases (context : SubrContext) (code : ByteArray) (pos : Nat) (state : ScanState) :
    (∃ outcome, outcome.state.inlined = state.inlined ∧
      ∀ follow, scanToken context follow code pos state = outcome) ∨
    ∃ last subr, ∃ before : ScanState, context.Callable subr ∧ before.inlined = state.inlined ∧
      ∀ follow, scanToken context follow code pos state =
        .next last (follow subr (before.record (.call subr))) := by
  unfold scanToken
  cases Token.read.run (.whole code) pos with
  | error fault last => exact .inl ⟨_, rfl, fun _ => rfl⟩
  | ok token last =>
    cases token with
    | operand value => exact .inl ⟨.next last (state.pushOperand value), rfl, fun _ => rfl⟩
    | operator operator =>
      dsimp only
      by_cases masked : operator.hasMask = true
      · simp only [masked, ↓reduceIte]
        by_cases short : code.size - last < maskLength (state.execute operator).hints
        · simp only [short, ↓reduceIte]
          exact .inl ⟨_, rfl, fun _ => rfl⟩
        · simp only [short, ↓reduceIte]
          exact .inl ⟨_, rfl, fun _ => rfl⟩
      simp only [masked, Bool.false_eq_true, ↓reduceIte]
      cases operator.callScope? with
      | none => exact .inl ⟨.next last (state.execute operator), rfl, fun _ => rfl⟩
      | some scope =>
        dsimp only [call]
        cases reached : context.target scope state.stack.top with
        | error remark =>
          exact .inl ⟨.next last ((state.execute operator).record (.remark remark)), rfl,
            fun _ => rfl⟩
        | ok subr =>
          exact .inr ⟨last, subr, state.execute operator, ⟨scope, _, reached⟩, rfl, fun _ => rfl⟩

/-! ### Traces and numbers of tokens only grow -/

structure ScanState.Extends (state later : ScanState) : Prop where
  trace : state.trace.toList <+: later.trace.toList
  inlined : state.inlined ≤ later.inlined

theorem ScanState.Extends.refl (state : ScanState) : state.Extends state :=
  ⟨List.prefix_rfl, Nat.le_refl _⟩

theorem ScanState.Extends.trans {first second third : ScanState} (early : first.Extends second)
    (late : second.Extends third) : first.Extends third :=
  ⟨early.trace.trans late.trace, Nat.le_trans early.inlined late.inlined⟩

theorem ScanState.extends_record (event : Event) (state : ScanState) :
    state.Extends (state.record event) where
  trace := by
    rw [ScanState.trace_record, Array.toList_push]
    exact List.prefix_append _ _
  inlined := Nat.le_refl _

theorem ScanState.extends_meter (depth : Nat) (state : ScanState) :
    state.Extends (state.meter depth) where
  trace := ⟨[], by rw [List.append_nil, ScanState.trace_meter]⟩
  inlined := by
    unfold meter
    split
    · exact Nat.le_refl _
    · exact Nat.le_succ _

theorem lasting_extends (start : ScanState) : Lasting context start.Extends where
  metered depth state before := before.trans (state.extends_meter depth)
  pushed _ _ before := ⟨before.trace, before.inlined⟩
  executed _ _ before := ⟨before.trace, before.inlined⟩
  remarked _ state before := before.trans (state.extends_record _)
  called _ state _ before := before.trans (state.extends_record _)
  refused _ state _ before := before.trans (state.extends_record _)

theorem extends_walk (limits : Limits) (context : SubrContext) (nesting depth : Nat)
    (code : ByteArray) (room pos : Nat) (state : ScanState) :
    state.Extends (walk limits context (follow limits context nesting) depth code room pos state) :=
  (lasting_extends state).walk nesting depth code room pos state (.refl state)

/-! ### Wider limits -/

def Event.ofLimit : Event → Bool
  | .refusal _ => true
  | .remark .tokensSpent => true
  | _ => false

structure Limits.Within (narrow wide : Limits) : Prop where
  nesting : narrow.nesting ≤ wide.nesting
  tokens : narrow.tokens ≤ wide.tokens

/-- A narrow limit has stopped the first scan. Up to there the second one has the same trace, and
where subroutines may be nested as deeply, both have read all tokens that the first was allowed. -/
structure CutShort (narrow wide : Limits) (first second : ScanState) : Prop where
  trace : ∃ common event rest, event.ofLimit = true ∧
    first.trace.toList = common ++ event :: rest ∧ common <+: second.trace.toList
  spent : narrow.nesting = wide.nesting →
    narrow.tokens ≤ first.inlined ∧ narrow.tokens ≤ second.inlined

namespace CutShort

variable {narrow wide : Limits} {first second : ScanState}

/-- The scans cannot come together again. -/
theorem extend (cut : CutShort narrow wide first second) {later other : ScanState}
    (left : first.Extends later) (right : second.Extends other) :
    CutShort narrow wide later other where
  trace := by
    obtain ⟨common, event, rest, limit, same, shared⟩ := cut.trace
    obtain ⟨more, whole⟩ := left.trace
    refine ⟨common, event, rest ++ more, limit, ?_, shared.trans right.trace⟩
    rw [← whole, same, List.append_assoc, List.cons_append]
  spent alike :=
    ⟨Nat.le_trans (cut.spent alike).1 left.inlined,
      Nat.le_trans (cut.spent alike).2 right.inlined⟩

theorem of_event {state : ScanState} {event : Event} (limit : event.ofLimit = true)
    (right : state.Extends second)
    (spent : narrow.nesting = wide.nesting → narrow.tokens ≤ state.inlined) :
    CutShort narrow wide (state.record event) second where
  trace := by
    refine ⟨state.trace.toList, event, [], limit, ?_, right.trace⟩
    rw [ScanState.trace_record, Array.toList_push]
  spent alike := ⟨spent alike, Nat.le_trans (spent alike) right.inlined⟩

end CutShort

variable {narrow wide : Limits}

theorem walk_eq_or_cutShort (within : narrow.Within wide) {inner outer : Nat}
    (followed : ∀ subr state, context.Callable subr →
      follow narrow context inner subr state = follow wide context outer subr state ∨
      CutShort narrow wide (follow narrow context inner subr state)
        (follow wide context outer subr state))
    (depth : Nat) (code : ByteArray) (room pos : Nat) (state : ScanState) :
    walk narrow context (follow narrow context inner) depth code room pos state =
        walk wide context (follow wide context outer) depth code room pos state ∨
      CutShort narrow wide
        (walk narrow context (follow narrow context inner) depth code room pos state)
        (walk wide context (follow wide context outer) depth code room pos state) := by
  induction room generalizing pos state with
  | zero => exact .inl rfl
  | succ room induction =>
    have later := extends_walk wide context outer depth code (room + 1) pos state
    by_cases ended : code.size ≤ pos
    · left
      rw [walk_succ, walk_succ, if_pos ended, if_pos ended]
    by_cases spent : depth ≠ 0 ∧ narrow.tokens ≤ state.inlined
    · right
      rw [walk_succ, if_neg ended, if_pos spent]
      exact .of_event rfl later fun _ => spent.2
    have unspent : ¬(depth ≠ 0 ∧ wide.tokens ≤ state.inlined) :=
      fun closed => spent ⟨closed.1, Nat.le_trans within.tokens closed.2⟩
    rw [walk_succ, walk_succ, if_neg ended, if_neg ended, if_neg spent, if_neg unspent]
    rcases scanToken_cases context code pos (state.meter depth) with
      ⟨outcome, -, independent⟩ | ⟨last, subr, before, callable, -, same⟩
    · rw [independent, independent]
      cases outcome with
      | done state => exact .inl rfl
      | next pos state => exact induction pos state
    · rw [same, same]
      dsimp only
      rcases followed subr (before.record (.call subr)) callable with equal | cut
      · rw [equal]
        exact induction last _
      · exact .inr (cut.extend (extends_walk _ _ _ _ _ _ _ _) (extends_walk _ _ _ _ _ _ _ _))

/-- The wider limits allow `extra` subroutines more to be nested. -/
theorem follow_eq_or_cutShort (within : narrow.Within wide) {extra : Nat}
    (deeper : wide.nesting = narrow.nesting + extra) (room : Nat) (subr : Subr)
    (state : ScanState) (callable : context.Callable subr) :
    follow narrow context room subr state = follow wide context (room + extra) subr state ∨
      CutShort narrow wide (follow narrow context room subr state)
        (follow wide context (room + extra) subr state) := by
  have later : state.Extends (follow wide context (room + extra) subr state) :=
    (lasting_extends state).follow _ subr state callable (.refl state)
  induction room generalizing subr state with
  | zero =>
    by_cases same : extra = 0
    · left
      rw [same]
      rfl
    · right
      exact .of_event rfl later fun alike => absurd alike (by omega)
  | succ room induction =>
    by_cases spent : narrow.tokens ≤ state.inlined
    · right
      rw [follow, if_pos spent]
      exact .of_event rfl later fun _ => spent
    have unspent : ¬wide.tokens ≤ state.inlined := fun closed =>
      spent (Nat.le_trans within.tokens closed)
    have depth : wide.nesting - (room + extra) = narrow.nesting - room := by omega
    rw [Nat.succ_add, follow, follow, if_neg spent, if_neg unspent, depth]
    apply walk_eq_or_cutShort within
    intro subr state callable
    exact induction subr state callable
      ((lasting_extends state).follow _ subr state callable (.refl state))

/-- A scan within narrow limits is the one within wide limits, unless it was cut short. -/
theorem scanWith_eq_or_cutShort (within : narrow.Within wide) (context : SubrContext)
    (code : ByteArray) :
    scanWith narrow context code = scanWith wide context code ∨
      CutShort narrow wide (scanWith narrow context code) (scanWith wide context code) := by
  have deeper : wide.nesting = narrow.nesting + (wide.nesting - narrow.nesting) :=
    (Nat.add_sub_of_le within.nesting).symm
  have followed (subr : Subr) (state : ScanState) (callable : context.Callable subr) :=
    follow_eq_or_cutShort within deeper narrow.nesting subr state callable
  rw [← deeper] at followed
  exact walk_eq_or_cutShort within followed 0 code code.size 0 .start

/-! ### Enough tokens -/

theorem walk_inlined_le (limits : Limits) (context : SubrContext)
    {follow : Subr → ScanState → ScanState} {most : Nat}
    (followed : ∀ subr state, (follow subr state).inlined ≤ state.inlined + most)
    (depth : Nat) (code : ByteArray) (room pos : Nat) (state : ScanState) :
    (walk limits context follow depth code room pos state).inlined ≤
      state.inlined + room * (most + 1) := by
  induction room generalizing pos state with
  | zero => exact Nat.le_add_right _ _
  | succ room induction =>
    have metered : (state.meter depth).inlined ≤ state.inlined + 1 := by
      unfold ScanState.meter
      split
      · exact Nat.le_succ _
      · exact Nat.le_refl _
    rw [walk_succ, Nat.succ_mul]
    split
    · exact Nat.le_add_right _ _
    split
    · exact Nat.le_add_right _ _
    rcases scanToken_cases context code pos (state.meter depth) with
      ⟨outcome, kept, independent⟩ | ⟨last, subr, before, -, kept, same⟩
    · rw [independent]
      cases outcome with
      | done last =>
        have count : last.inlined = (state.meter depth).inlined := kept
        dsimp only
        omega
      | next pos last =>
        have count : last.inlined = (state.meter depth).inlined := kept
        have rest := induction pos last
        dsimp only
        omega
    · rw [same]
      have count : (before.record (.call subr)).inlined = (state.meter depth).inlined := kept
      have call := followed subr (before.record (.call subr))
      have rest := induction last (follow subr (before.record (.call subr)))
      dsimp only
      omega

theorem exists_size_le (bodies : List ByteArray) :
    ∃ largest, ∀ body ∈ bodies, body.size ≤ largest := by
  induction bodies with
  | nil => exact ⟨0, fun _ listed => absurd listed List.not_mem_nil⟩
  | cons body bodies induction =>
    obtain ⟨largest, others⟩ := induction
    refine ⟨max body.size largest, fun other listed => ?_⟩
    rcases List.mem_cons.1 listed with rfl | listed
    · exact Nat.le_max_left _ _
    · exact Nat.le_trans (others other listed) (Nat.le_max_right _ _)

theorem SubrBodies.exists_size_body_le (subrs : SubrBodies) :
    ∃ largest, ∀ i, (subrs.body i).size ≤ largest := by
  obtain ⟨largest, each⟩ := exists_size_le subrs.bodies.toList
  refine ⟨largest, fun i => ?_⟩
  rw [SubrBodies.body, Array.getD_eq_getD_getElem?]
  cases present : subrs.bodies[i]? with
  | none => exact Nat.zero_le _
  | some body => exact each body (Array.mem_toList_iff.2 (Array.mem_of_getElem? present))

theorem SubrContext.exists_size_body_le (context : SubrContext) :
    ∃ largest, ∀ subr, (context.body subr).size ≤ largest := by
  have scopes : ∀ scope, ∃ largest, ∀ i, (context.body ⟨scope, i⟩).size ≤ largest := by
    intro scope
    simp only [SubrContext.body]
    cases context.inScope scope with
    | none => exact ⟨0, fun _ => Nat.le_refl 0⟩
    | some subrs => exact subrs.exists_size_body_le
  obtain ⟨locals, eachLocal⟩ := scopes .localSubrs
  obtain ⟨globals, eachGlobal⟩ := scopes .globalSubrs
  refine ⟨max locals globals, fun subr => ?_⟩
  obtain ⟨scope, i⟩ := subr
  cases scope with
  | localSubrs => exact Nat.le_trans (eachLocal i) (Nat.le_max_left _ _)
  | globalSubrs => exact Nat.le_trans (eachGlobal i) (Nat.le_max_right _ _)

theorem exists_follow_inlined_le (context : SubrContext) (nesting room : Nat) :
    ∃ most, ∀ tokens subr state,
      (follow ⟨nesting, tokens⟩ context room subr state).inlined ≤ state.inlined + most := by
  obtain ⟨largest, bodies⟩ := context.exists_size_body_le
  induction room with
  | zero => exact ⟨0, fun _ _ _ => Nat.le_refl _⟩
  | succ room induction =>
    obtain ⟨most, followed⟩ := induction
    refine ⟨largest * (most + 1), fun tokens subr state => ?_⟩
    rw [follow]
    split
    · exact Nat.le_add_right _ _
    · have body := walk_inlined_le ⟨nesting, tokens⟩ context (followed tokens)
        (nesting - room) (context.body subr) (context.body subr).size 0 state
      have small := Nat.mul_le_mul_right (most + 1) (bodies subr)
      exact Nat.le_trans body (Nat.add_le_add_left small _)

/-- How a scan ends where there is no limit on tokens: all those within enough tokens end like this. -/
def EndsUnlimited (context : SubrContext) (nesting : Nat) (code : ByteArray) (full : ScanState) :
    Prop :=
  ∃ enough, ∀ tokens ≥ enough, scanWith ⟨nesting, tokens⟩ context code = full

theorem exists_endsUnlimited (context : SubrContext) (nesting : Nat) (code : ByteArray) :
    ∃ full, EndsUnlimited context nesting code full := by
  obtain ⟨most, followed⟩ := exists_follow_inlined_le context nesting nesting
  have bound : ∀ tokens, (scanWith ⟨nesting, tokens⟩ context code).inlined ≤
      code.size * (most + 1) := by
    intro tokens
    have whole := walk_inlined_le ⟨nesting, tokens⟩ context (followed tokens)
      0 code code.size 0 .start
    rwa [show ScanState.start.inlined = 0 from rfl, Nat.zero_add] at whole
  let enough := code.size * (most + 1) + 1
  refine ⟨scanWith ⟨nesting, enough⟩ context code, enough, fun tokens many => ?_⟩
  have within : Limits.Within ⟨nesting, enough⟩ ⟨nesting, tokens⟩ := ⟨Nat.le_refl _, many⟩
  rcases scanWith_eq_or_cutShort within context code with same | cut
  · exact same.symm
  · have spent := (cut.spent rfl).1
    exact absurd spent (Nat.not_le.2 (Nat.lt_succ_of_le (bound enough)))

variable {limits : Limits} {code : ByteArray} {full : ScanState}

theorem EndsUnlimited.eq {nesting : Nat} {other : ScanState}
    (first : EndsUnlimited context nesting code full)
    (second : EndsUnlimited context nesting code other) : full = other := by
  obtain ⟨enough, left⟩ := first
  obtain ⟨also, right⟩ := second
  rw [← left (max enough also) (Nat.le_max_left _ _), right _ (Nat.le_max_right _ _)]

/-- A scan that stays below its limit on tokens ends as it would without one. -/
theorem endsUnlimited_of_inlined_lt
    (below : (scanWith limits context code).inlined < limits.tokens) :
    EndsUnlimited context limits.nesting code (scanWith limits context code) := by
  refine ⟨limits.tokens, fun more wider => ?_⟩
  have within : limits.Within ⟨limits.nesting, more⟩ := ⟨Nat.le_refl _, wider⟩
  rcases scanWith_eq_or_cutShort within context code with same | cut
  · exact same.symm
  · exact absurd (cut.spent rfl).1 (Nat.not_le.2 below)

/-- What a scan has in common with the one without a limit on tokens: everything before the first
event that a limit causes, and then the latter reads as many tokens in subroutines, or everything. -/
theorem EndsUnlimited.exists_common (limits : Limits)
    (unlimited : EndsUnlimited context limits.nesting code full) :
    ∃ common, common <+: full.trace.toList ∧
      common <+: (scanWith limits context code).trace.toList ∧
      (common = full.trace.toList ∨ limits.tokens ≤ full.inlined ∧
        ∃ event rest, event.ofLimit = true ∧
          (scanWith limits context code).trace.toList = common ++ event :: rest) := by
  obtain ⟨enough, same⟩ := unlimited
  have within : limits.Within ⟨limits.nesting, max limits.tokens enough⟩ :=
    ⟨Nat.le_refl _, Nat.le_max_left _ _⟩
  have wide := same (max limits.tokens enough) (Nat.le_max_right _ _)
  rcases scanWith_eq_or_cutShort within context code with equal | cut
  · rw [equal, wide]
    exact ⟨full.trace.toList, List.prefix_rfl, List.prefix_rfl, .inl rfl⟩
  · rw [wide] at cut
    obtain ⟨common, event, rest, limit, trace, shared⟩ := cut.trace
    have early : common <+: (scanWith limits context code).trace.toList := by
      rw [trace]
      exact List.prefix_append _ _
    exact ⟨common, shared, early, .inr ⟨(cut.spent rfl).2, event, rest, limit, trace⟩⟩

end CompactFont.Charstring
