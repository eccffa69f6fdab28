import CompactFont.Proofs.Charstring.Lockstep

/-!
Limits that a scan does not come up against make no difference. What matters is how deep and how many
tokens are read in subroutines: a subroutine that is too deep, or called when no token is left, is
missed only if it has a token.
-/

set_option autoImplicit false

namespace CompactFont.Charstring

structure ScanState.Alike (first second : ScanState) : Prop where
  frame : first.frame = second.frame
  inlined : first.inlined = second.inlined
  deepest : first.deepest = second.deepest
  calls : first.calls = second.calls

def Limits.Exceeded (limits : Limits) (state : ScanState) : Prop :=
  limits.tokens < state.inlined ∨ limits.nesting < state.deepest

namespace ScanState

theorem Alike.refl (state : ScanState) : state.Alike state := ⟨rfl, rfl, rfl, rfl⟩

theorem Alike.record {first second : ScanState} (alike : first.Alike second) (event : Event) :
    (first.record event).Alike (second.record event) :=
  ⟨alike.frame, alike.inlined, alike.deepest, by rw [calls_record, calls_record, alike.calls]⟩

/-- A refusal does not matter where nothing happens in its place. -/
theorem Alike.refuse {first second : ScanState} (alike : first.Alike second) (subr : Subr) :
    (first.record (.refusal subr)).Alike second :=
  ⟨alike.frame, alike.inlined, alike.deepest, by rw [calls_record_refusal, alike.calls]⟩

theorem deepest_meter {depth : Nat} (inside : depth ≠ 0) (state : ScanState) :
    (state.meter depth).deepest = max state.deepest depth := by
  rw [meter, if_neg inside]

theorem Alike.meter {first second : ScanState} (alike : first.Alike second) (depth : Nat) :
    (first.meter depth).Alike (second.meter depth) := by
  by_cases inside : depth = 0
  · rw [ScanState.meter, ScanState.meter, if_pos inside, if_pos inside]
    exact alike
  · constructor
    · rw [frame_meter, frame_meter, alike.frame]
    · rw [inlined_meter, inlined_meter, alike.inlined]
    · rw [deepest_meter inside, deepest_meter inside, alike.deepest]
    · rw [calls_meter, calls_meter, alike.calls]

end ScanState

theorem Limits.Exceeded.of_advances {limits : Limits} {state later : ScanState}
    (exceeded : limits.Exceeded state) (advances : state.Advances later) : limits.Exceeded later :=
  exceeded.imp (Nat.lt_of_lt_of_le · advances.inlined) (Nat.lt_of_lt_of_le · advances.deepest)

variable {narrow wide : Limits} {context : SubrContext}

theorem lockstep_alike (within : narrow.Within wide) :
    Lockstep narrow wide ScanState.Alike fun _ state => narrow.Exceeded state where
  frame alike := alike.frame
  metered depth alike := alike.meter depth
  adopted _ alike := ⟨rfl, alike.inlined, alike.deepest, alike.calls⟩
  recorded event alike := alike.record event
  later alike spent := by
    rw [alike.inlined]
    exact Nat.le_trans within.tokens spent
  stopped alike stopped _ := by
    left
    rw [ScanState.inlined_meter, if_neg stopped.1, ← alike.inlined]
    exact Nat.lt_succ_of_le stopped.2
  lasting exceeded _ advances := exceeded.of_advances advances

/-- A subroutine that only the wide limits allow to be followed makes no difference, or the narrow
limits are exceeded in it. -/
theorem refused_alike {room depth : Nat} {subr : Subr} {state other : ScanState}
    (alike : state.Alike other) (inside : depth ≠ 0) (open' : ¬wide.tokens ≤ other.inlined)
    (beyond : narrow.tokens ≤ state.inlined ∨ narrow.nesting < depth) :
    let body := context.body subr
    let last := walk wide context (follow wide context room) depth body body.size 0 other
    (state.record (.refusal subr)).Alike last ∨ narrow.Exceeded last := by
  intro body last
  by_cases blank : body.size ≤ 0
  · left
    have same : last = other := walk_of_ended blank
    rw [same]
    exact alike.refuse subr
  · right
    have read := advances_walk_meter (advancing_follow wide context room) (Nat.not_le.1 blank)
      (fun stopped => open' stopped.2 : ¬wide.Stop depth other)
    refine Limits.Exceeded.of_advances ?_ read
    rcases beyond with spent | deep
    · left
      rw [ScanState.inlined_meter, if_neg inside, ← alike.inlined]
      exact Nat.lt_succ_of_le spent
    · right
      rw [ScanState.deepest_meter inside]
      exact Nat.lt_of_lt_of_le deep (Nat.le_max_right _ _)

/-- Followed calls keep states alike, or exceed the narrow limits, if the wide ones allow `extra`
subroutines more to be nested. -/
theorem parallel_alike (within : narrow.Within wide) (context : SubrContext) {extra : Nat}
    (deeper : wide.nesting = narrow.nesting + extra) {room : Nat} (nested : room ≤ narrow.nesting) :
    Lockstep.Parallel context context (fun _ _ => True) ScanState.Alike
      (fun _ state => narrow.Exceeded state) (follow narrow context room)
      (follow wide context (room + extra)) := by
  refine ⟨advancing_follow _ _ _, advancing_follow _ _ _, ?_⟩
  have lock := lockstep_alike within
  induction room with
  | zero =>
    intro subr state mate _ same
    have called := same.record (.call subr)
    cases extra with
    | zero => exact .inl (called.record _)
    | succ extra =>
      rw [Nat.zero_add, follow, follow]
      split
      · exact .inl (called.record _)
      · next spent => exact refused_alike called (by omega) spent (.inr (by omega))
  | succ room induction =>
    intro subr state mate _ same
    have called := same.record (.call subr)
    have depth : wide.nesting - (room + extra) = narrow.nesting - room := by omega
    rw [Nat.succ_add, follow, follow, depth]
    by_cases spent : wide.tokens ≤ (mate.record (.call subr)).inlined
    · rw [if_pos spent, if_pos (lock.later called spent)]
      exact .inl (called.record _)
    rw [if_neg spent]
    by_cases early : narrow.tokens ≤ (state.record (.call subr)).inlined
    · rw [if_pos early]
      exact refused_alike called (by omega) spent (.inl early)
    · rw [if_neg early]
      exact lock.alike_walk (fun _ _ => rfl) ⟨advancing_follow _ _ _, advancing_follow _ _ _,
        induction (Nat.le_of_succ_le nested)⟩ (tracks_everything _ _ _ _ _) trivial called

theorem scanWith_alike (within : narrow.Within wide) (context : SubrContext) (code : ByteArray) :
    (scanWith narrow context code).Alike (scanWith wide context code) ∨
      narrow.Exceeded (scanWith wide context code) := by
  have deeper : narrow.nesting + (wide.nesting - narrow.nesting) = wide.nesting :=
    Nat.add_sub_of_le within.nesting
  have parallel := parallel_alike within context deeper.symm (Nat.le_refl _)
  rw [deeper] at parallel
  exact (lockstep_alike within).alike_walk (fun _ _ => rfl) parallel (tracks_everything _ _ _ _ _)
    trivial (.refl _)

/-! ### Nesting -/

/-- Tokens are read no deeper than those of a charstring and of the subroutines that it calls. -/
theorem deepest_walk_le {limits : Limits} {follow : Subr → ScanState → ScanState} {most depth : Nat}
    (shallow : depth ≤ most)
    (followed : ∀ subr (state : ScanState), state.deepest ≤ most →
      (follow subr state).deepest ≤ most)
    (code : ByteArray) (room pos : Nat) (state : ScanState) (before : state.deepest ≤ most) :
    (walk limits context follow depth code room pos state).deepest ≤ most := by
  induction room generalizing pos state with
  | zero => exact before
  | succ room induction =>
    have metered : (state.meter depth).deepest ≤ most := by
      unfold ScanState.meter
      split
      · exact before
      · exact Nat.max_le.2 ⟨before, shallow⟩
    rw [walk_eq]
    split
    · exact before
    split
    · exact before
    cases tokenEffect context code pos state.frame with
    | stop frame remark => exact metered
    | next frame remark last =>
      apply induction
      cases remark <;> exact metered
    | call frame subr last => exact induction _ _ (followed subr _ metered)

theorem deepest_follow_le (limits : Limits) (context : SubrContext) (room : Nat) (subr : Subr)
    (state : ScanState) (before : state.deepest ≤ limits.nesting) :
    (follow limits context room subr state).deepest ≤ limits.nesting := by
  induction room generalizing subr state with
  | zero => exact before
  | succ room induction =>
    rw [follow]
    split
    · exact before
    · exact deepest_walk_le (Nat.sub_le _ _) induction _ _ _ _ before

theorem deepest_scanWith_le (limits : Limits) (context : SubrContext) (code : ByteArray) :
    (scanWith limits context code).deepest ≤ limits.nesting :=
  deepest_walk_le (Nat.zero_le _) (deepest_follow_le limits context _) _ _ _ _ (Nat.zero_le _)

/-- A limit on tokens makes no difference if without it no more tokens are read in subroutines. -/
theorem EndsUnlimited.calls_eq {limits : Limits} {code : ByteArray} {full : ScanState}
    (unlimited : EndsUnlimited context limits.nesting code full)
    (few : full.inlined ≤ limits.tokens) : (scanWith limits context code).calls = full.calls := by
  obtain ⟨enough, same⟩ := unlimited
  have within : limits.Within ⟨limits.nesting, max limits.tokens enough⟩ :=
    ⟨Nat.le_refl _, Nat.le_max_left _ _⟩
  have alike := scanWith_alike within context code
  have shallow := deepest_scanWith_le ⟨limits.nesting, max limits.tokens enough⟩ context code
  rw [same _ (Nat.le_max_right _ _)] at alike shallow
  rcases alike with alike | many | deep
  · exact alike.calls
  · exact absurd few (Nat.not_le.2 many)
  · exact absurd shallow (Nat.not_le.2 deep)

/-! ### Wider limits -/

def beforeLimits (events : List Event) : List Event := events.takeWhile fun event => !event.ofLimit

theorem beforeLimits_isPrefix (within : narrow.Within wide) (context : SubrContext)
    (code : ByteArray) :
    beforeLimits (scanWith narrow context code).trace.toList <+:
      (scanWith wide context code).trace.toList := by
  rcases scanWith_eq_or_cutShort within context code with same | cut
  · rw [same]
    exact List.takeWhile_prefix _
  · obtain ⟨common, event, rest, limit, trace, shared⟩ := cut.trace
    refine List.IsPrefix.trans ?_ shared
    rw [beforeLimits, trace, List.takeWhile_append]
    split
    · rw [List.takeWhile_cons, limit]
      simp
    · exact List.takeWhile_prefix _

/-- The ordinary limits are not noticed where a scan within wider ones reads no token in subroutines
nested more deeply, and no more tokens in subroutines. What is found before a limit is noticed, is
found within wider limits too. -/
theorem calls_of_wider (wider : Limits.standard.Within wide) (context : SubrContext)
    (code : ByteArray) :
    let full := scanWith wide context code
    (full.deepest ≤ Limits.standard.nesting → full.inlined ≤ Limits.standard.tokens →
      calls context code = full.trace.filterMap Event.call?) ∧
    (beforeLimits (scan context code).toList).filterMap Event.call? <+:
      full.trace.toList.filterMap Event.call? := by
  intro full
  constructor
  · intro shallow few
    rcases scanWith_alike wider context code with alike | deep | many
    · apply Array.toList_inj.1
      rw [toList_calls, Array.toList_filterMap]
      exact alike.calls
    · exact absurd few (Nat.not_le.2 deep)
    · exact absurd shallow (Nat.not_le.2 many)
  · exact (beforeLimits_isPrefix wider context code).filterMap _

/-- Global subroutines that call each other in a row, of which the last one is empty. -/
def callChain : SubrContext where
  localSubrs := none
  globalSubrs :=
    ⟨((List.range 10).map fun i => [UInt8.ofNat (33 + i), 29].toByteArray).toArray.push .empty, .type2⟩

def chainCall : ByteArray := [32, 29].toByteArray

/-- The empty subroutine is the eleventh in the chain, so the ordinary limits refuse it. -/
theorem calls_of_wider_callChain :
    Limits.standard.Within ⟨20, 5000⟩ ∧
      (scanWith ⟨20, 5000⟩ callChain chainCall).deepest ≤ Limits.standard.nesting ∧
      (scanWith ⟨20, 5000⟩ callChain chainCall).inlined ≤ Limits.standard.tokens ∧
      Event.refusal ⟨.globalSubrs, 10⟩ ∈ scan callChain chainCall ∧
      calls callChain chainCall =
        (scanWith ⟨20, 5000⟩ callChain chainCall).trace.filterMap Event.call? := by
  have wider : Limits.standard.Within ⟨20, 5000⟩ := ⟨by decide, by decide⟩
  have shallow : (scanWith ⟨20, 5000⟩ callChain chainCall).deepest ≤ Limits.standard.nesting := by
    decide +kernel
  have few : (scanWith ⟨20, 5000⟩ callChain chainCall).inlined ≤ Limits.standard.tokens := by
    decide +kernel
  have refused : Event.refusal ⟨.globalSubrs, 10⟩ ∈ scan callChain chainCall := by decide +kernel
  have same := (calls_of_wider wider callChain chainCall).1 shallow few
  exact ⟨wider, shallow, few, refused, same⟩

end CompactFont.Charstring
