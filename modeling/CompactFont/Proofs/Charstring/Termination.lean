import CompactFont.Proofs.Charstring.Lockstep

/-!
Scans come to an end. The relation below is a scan without a bound on its steps, in which a called
subroutine is scanned in place of its call as often as the limits allow; every scan has exactly one
result. By induction on how a scan goes, its work is bounded by the bytes of the charstring and the
number of tokens allowed in subroutines, however the subroutines call each other.
-/

set_option autoImplicit false

namespace CompactFont.Charstring

variable {limits : Limits} {context : SubrContext}

def Limits.Follow (limits : Limits) (depth : Nat) (state : ScanState) : Prop :=
  depth < limits.nesting ∧ state.inlined < limits.tokens

instance (limits : Limits) (depth : Nat) (state : ScanState) :
    Decidable (limits.Follow depth state) := inferInstanceAs (Decidable (_ ∧ _))

/-- Scanning a charstring at a nesting depth from a position on leads from one state to another. -/
inductive Scans (limits : Limits) (context : SubrContext) :
    (depth : Nat) → (code : ByteArray) → (pos : Nat) → (state last : ScanState) → Prop
  | ended {depth code pos state} (ended : code.size ≤ pos) : Scans limits context depth code pos state state
  | spent {depth code pos state} (more : pos < code.size) (stop : limits.Stop depth state) :
    Scans limits context depth code pos state (state.record (.remark .tokensSpent))
  | cut {depth code pos state frame remark} (more : pos < code.size)
    (allowed : ¬limits.Stop depth state)
    (effect : tokenEffect context code pos state.frame = .stop frame remark) :
    Scans limits context depth code pos state
      (((state.meter depth).adopt frame).record (.remark remark))
  | next {depth code pos state frame remark after last} (more : pos < code.size)
    (allowed : ¬limits.Stop depth state)
    (effect : tokenEffect context code pos state.frame = .next frame remark after)
    (rest : Scans limits context depth code after (((state.meter depth).adopt frame).note remark) last) :
    Scans limits context depth code pos state last
  | refused {depth code pos state frame subr after last} (more : pos < code.size)
    (allowed : ¬limits.Stop depth state)
    (effect : tokenEffect context code pos state.frame = .call frame subr after)
    (refusal : ¬limits.Follow depth (((state.meter depth).adopt frame).record (.call subr)))
    (rest : Scans limits context depth code after
      ((((state.meter depth).adopt frame).record (.call subr)).record (.refusal subr)) last) :
    Scans limits context depth code pos state last
  | followed {depth code pos state frame subr after inner last} (more : pos < code.size)
    (allowed : ¬limits.Stop depth state)
    (effect : tokenEffect context code pos state.frame = .call frame subr after)
    (follow : limits.Follow depth (((state.meter depth).adopt frame).record (.call subr)))
    (body : Scans limits context (depth + 1) (context.body subr) 0
      (((state.meter depth).adopt frame).record (.call subr)) inner)
    (rest : Scans limits context depth code after inner last) :
    Scans limits context depth code pos state last

/-! ### Every scan has exactly one result -/

theorem follow_of_follow {depth : Nat} {subr : Subr} {state : ScanState}
    (allowed : limits.Follow depth state) :
    follow limits context (limits.nesting - depth) subr state =
      walk limits context (follow limits context (limits.nesting - (depth + 1))) (depth + 1)
        (context.body subr) (context.body subr).size 0 state := by
  obtain ⟨nested, unspent⟩ := allowed
  have room : limits.nesting - depth = limits.nesting - (depth + 1) + 1 := by omega
  have inner : limits.nesting - (limits.nesting - (depth + 1)) = depth + 1 := by omega
  rw [room, follow, if_neg (Nat.not_le.2 unspent), inner]

theorem follow_of_not_follow {depth : Nat} {subr : Subr} {state : ScanState}
    (refusal : ¬limits.Follow depth state) :
    follow limits context (limits.nesting - depth) subr state = state.record (.refusal subr) := by
  cases room : limits.nesting - depth with
  | zero => rfl
  | succ fewer =>
    have spent : limits.tokens ≤ state.inlined := by
      have nested : depth < limits.nesting := by omega
      exact Nat.not_lt.1 fun unspent => refusal ⟨nested, unspent⟩
    rw [follow, if_pos spent]

/-- A charstring has a result if the subroutines that it calls have. -/
theorem scans_walk_of_bodies {depth : Nat} (code : ByteArray)
    (bodies : ∀ subr state, limits.Follow depth state → Scans limits context (depth + 1)
      (context.body subr) 0 state (follow limits context (limits.nesting - depth) subr state))
    {room pos : Nat} (enough : code.size - pos ≤ room) (state : ScanState) :
    Scans limits context depth code pos state
      (walk limits context (follow limits context (limits.nesting - depth)) depth code room pos state) := by
  induction room generalizing pos state with
  | zero => exact .ended (by omega)
  | succ room induction =>
    by_cases ended : code.size ≤ pos
    · rw [walk_of_ended ended]
      exact .ended ended
    have more : pos < code.size := Nat.not_le.1 ended
    rw [walk_eq, if_neg ended]
    by_cases stop : limits.Stop depth state
    · rw [if_pos stop]
      exact .spent more stop
    rw [if_neg stop]
    cases effect : tokenEffect context code pos state.frame with
    | stop frame remark => exact .cut more stop effect
    | next frame remark after =>
      have moved : pos < after := lt_last_tokenEffect (by rw [effect]; rfl)
      exact .next more stop effect (induction (by omega) _)
    | call frame subr after =>
      have moved : pos < after := lt_last_tokenEffect (by rw [effect]; rfl)
      by_cases allowed : limits.Follow depth (((state.meter depth).adopt frame).record (.call subr))
      · exact .followed more stop effect allowed (bodies subr _ allowed) (induction (by omega) _)
      · dsimp only
        rw [follow_of_not_follow allowed]
        exact .refused more stop effect allowed (induction (by omega) _)

theorem scans_walk {left depth : Nat} (nested : depth + left = limits.nesting) (code : ByteArray)
    (pos : Nat) (state : ScanState) :
    Scans limits context depth code pos state
      (walk limits context (follow limits context (limits.nesting - depth)) depth code code.size pos
        state) := by
  induction left generalizing depth code pos state with
  | zero =>
    refine scans_walk_of_bodies code ?_ (Nat.sub_le _ _) state
    intro subr other allowed
    exact absurd allowed.1 (by omega)
  | succ left induction =>
    refine scans_walk_of_bodies code ?_ (Nat.sub_le _ _) state
    intro subr other allowed
    rw [follow_of_follow allowed]
    exact induction (by omega) _ _ _

theorem Scans.eq_walk {depth pos : Nat} {code : ByteArray} {state last : ScanState}
    (scans : Scans limits context depth code pos state last) :
    last = walk limits context (follow limits context (limits.nesting - depth)) depth code code.size
      pos state := by
  induction scans with
  | ended ended => rw [walk_of_ended ended]
  | spent more stop => rw [walk_size more, if_pos stop]
  | cut more allowed effect => rw [walk_size more, if_neg allowed, effect]
  | next more allowed effect rest induction =>
    rw [walk_size more, if_neg allowed, effect]
    exact induction
  | refused more allowed effect refusal rest induction =>
    rw [walk_size more, if_neg allowed, effect]
    dsimp only
    rw [follow_of_not_follow refusal]
    exact induction
  | followed more allowed effect follow body rest inner outer =>
    rw [walk_size more, if_neg allowed, effect]
    dsimp only
    rw [follow_of_follow follow, ← inner]
    exact outer

/-- A scan of a charstring comes to an end, and only to this one. -/
theorem scans_iff {code : ByteArray} {last : ScanState} :
    Scans limits context 0 code 0 .start last ↔ last = scanWith limits context code := by
  constructor
  · intro scans
    exact scans.eq_walk
  · rintro rfl
    exact scans_walk (Nat.zero_add _) code 0 .start

/-! ### Bounds -/

namespace Scans

variable {depth pos : Nat} {code : ByteArray} {state last : ScanState}

/-- Subroutines share the tokens that are allowed in them. -/
theorem inlined_le (scans : Scans limits context depth code pos state last)
    (before : state.inlined ≤ limits.tokens) : last.inlined ≤ limits.tokens := by
  have metered : ∀ {depth} {state : ScanState}, ¬limits.Stop depth state →
      state.inlined ≤ limits.tokens → (state.meter depth).inlined ≤ limits.tokens := by
    intro depth state allowed before
    rw [ScanState.inlined_meter]
    split
    · exact before
    · next inside => exact Nat.not_le.1 fun spent => allowed ⟨inside, spent⟩
  induction scans with
  | ended => exact before
  | spent => exact before
  | cut _ allowed => exact metered allowed before
  | next _ allowed _ _ induction =>
    apply induction
    rw [ScanState.inlined_note]
    exact metered allowed before
  | refused _ allowed _ _ _ induction => exact induction (metered allowed before)
  | followed _ allowed _ _ _ _ inner outer => exact outer (inner (metered allowed before))

/-- Every call takes a token: one of the charstring itself, or one in a subroutine. -/
theorem length_calls_le (scans : Scans limits context depth code pos state last) :
    last.calls.length + state.inlined ≤
      state.calls.length + last.inlined + if depth = 0 then code.size - pos else 0 := by
  induction scans with
  | ended => omega
  | spent =>
    rw [ScanState.calls_record_remark, ScanState.inlined_record]
    omega
  | cut =>
    simp only [ScanState.calls_record_remark, ScanState.calls_adopt, ScanState.calls_meter,
      ScanState.inlined_record, ScanState.inlined_adopt, ScanState.inlined_meter]
    omega
  | next more _ effect _ induction =>
    have moved := lt_last_tokenEffect (by rw [effect]; rfl)
    simp only [ScanState.calls_note, ScanState.calls_adopt, ScanState.calls_meter,
      ScanState.inlined_note, ScanState.inlined_adopt, ScanState.inlined_meter] at induction
    split_ifs at induction ⊢ <;> omega
  | refused more _ effect _ _ induction =>
    have moved := lt_last_tokenEffect (by rw [effect]; rfl)
    simp only [ScanState.calls_record_refusal, ScanState.calls_record_call, ScanState.calls_adopt,
      ScanState.calls_meter, List.length_append, List.length_singleton, ScanState.inlined_record,
      ScanState.inlined_adopt, ScanState.inlined_meter] at induction
    split_ifs at induction ⊢ <;> omega
  | followed more _ effect _ _ _ inner outer =>
    have moved := lt_last_tokenEffect (by rw [effect]; rfl)
    simp only [ScanState.calls_record_call, ScanState.calls_adopt, ScanState.calls_meter,
      List.length_append, List.length_singleton, ScanState.inlined_record, ScanState.inlined_adopt,
      ScanState.inlined_meter, Nat.add_one_ne_zero, ↓reduceIte] at inner
    split_ifs at inner outer ⊢ <;> omega

end Scans

/-- Whatever the subroutines are like, and however they call each other: a scan has a result, and
only one. It reads at most as many tokens in subroutines as are allowed, all subroutines taken
together, it finds at most one call for each of these tokens and for each byte of the charstring, and
all calls are of subroutines that exist; so none is of a local one where there are none. -/
theorem scan_bounded (context : SubrContext) (code : ByteArray) :
    ∃ last, (∀ other, Scans .standard context 0 code 0 .start other ↔ other = last) ∧
      last.inlined ≤ Limits.standard.tokens ∧
      calls context code = last.trace.filterMap Event.call? ∧
      (calls context code).size ≤ code.size + Limits.standard.tokens ∧
      ∀ subr ∈ calls context code, ∃ subrs,
        context.inScope subr.scope = some subrs ∧ subr.index < subrs.size := by
  have ends : Scans .standard context 0 code 0 .start (scanWith .standard context code) :=
    scans_iff.2 rfl
  have few : (scanWith .standard context code).inlined ≤ Limits.standard.tokens :=
    ends.inlined_le (Nat.zero_le _)
  refine ⟨_, fun _ => scans_iff, few, rfl, ?_, fun subr found =>
    (callable_of_mem_calls found).index_lt⟩
  have counted := ends.length_calls_le
  have start : ScanState.start.inlined = 0 ∧ ScanState.start.calls.length = 0 := ⟨rfl, rfl⟩
  rw [if_pos rfl, Nat.sub_zero] at counted
  rw [← Array.length_toList, toList_calls]
  omega

end CompactFont.Charstring
