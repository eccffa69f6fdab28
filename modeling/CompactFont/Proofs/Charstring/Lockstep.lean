import CompactFont.Proofs.Charstring.Effects

/-!
Two scans of one charstring, token by token. As long as both know the same operands and hints, they
read the same tokens. So a relation between their states that single steps keep is kept by the scans,
unless a limit, or a subroutine with another body, sets them apart.
-/

set_option autoImplicit false

namespace CompactFont.Charstring

/-! ### Going on -/

structure ScanState.Advances (state later : ScanState) : Prop extends state.Extends later where
  deepest : state.deepest ≤ later.deepest

namespace ScanState

theorem Advances.refl (state : ScanState) : state.Advances state := ⟨.refl state, Nat.le_refl _⟩

theorem Advances.trans {first second third : ScanState} (early : first.Advances second)
    (late : second.Advances third) : first.Advances third :=
  ⟨early.toExtends.trans late.toExtends, Nat.le_trans early.deepest late.deepest⟩

theorem advances_record (event : Event) (state : ScanState) : state.Advances (state.record event) :=
  ⟨state.extends_record event, Nat.le_refl _⟩

theorem advances_adopt (frame : Frame) (state : ScanState) : state.Advances (state.adopt frame) :=
  ⟨⟨List.prefix_rfl, Nat.le_refl _⟩, Nat.le_refl _⟩

theorem advances_note (remark : Option Remark) (state : ScanState) :
    state.Advances (state.note remark) := by
  cases remark with
  | none => exact .refl state
  | some remark => exact state.advances_record (.remark remark)

theorem advances_meter (depth : Nat) (state : ScanState) : state.Advances (state.meter depth) where
  toExtends := state.extends_meter depth
  deepest := by
    unfold meter
    split
    · exact Nat.le_refl _
    · exact Nat.le_max_left _ _

theorem Advances.calls {state later : ScanState} (advances : state.Advances later) :
    state.calls <+: later.calls := advances.trace.filterMap _

end ScanState

theorem lasting_advances (context : SubrContext) (start : ScanState) :
    Lasting context start.Advances where
  metered depth state before := before.trans (state.advances_meter depth)
  pushed _ _ before := ⟨⟨before.trace, before.inlined⟩, before.deepest⟩
  executed _ _ before := ⟨⟨before.trace, before.inlined⟩, before.deepest⟩
  remarked _ state before := before.trans (state.advances_record _)
  called _ state _ before := before.trans (state.advances_record _)
  refused _ state _ before := before.trans (state.advances_record _)

def Advancing (context : SubrContext) (follow : Subr → ScanState → ScanState) : Prop :=
  ∀ subr (state : ScanState), context.Callable subr → state.Advances (follow subr state)

variable {limits : Limits} {context : SubrContext}

theorem advancing_follow (limits : Limits) (context : SubrContext) (room : Nat) :
    Advancing context (follow limits context room) := fun subr state callable =>
  (lasting_advances context state).follow room subr state callable (.refl state)

theorem callable_of_tokenEffect {code : ByteArray} {pos last : Nat} {frame after : Frame}
    {subr : Subr} (effect : tokenEffect context code pos frame = .call after subr last) :
    context.Callable subr := by
  unfold tokenEffect at effect
  cases read : Token.read.run (.whole code) pos with
  | error fault stop =>
    rw [read] at effect
    cases effect
  | ok token stop =>
    rw [read] at effect
    cases token with
    | operand value => cases effect
    | operator operator =>
      dsimp only at effect
      split at effect
      · split at effect <;> cases effect
      split at effect
      · cases effect
      split at effect
      · cases effect
      · next reached =>
        cases effect
        exact ⟨_, _, reached⟩

variable {follow : Subr → ScanState → ScanState}

theorem advances_walk (advancing : Advancing context follow) (depth : Nat) (code : ByteArray)
    (room pos : Nat) (state : ScanState) :
    state.Advances (walk limits context follow depth code room pos state) :=
  (lasting_advances context state).walk_of_follow
    (fun subr other callable before => before.trans (advancing subr other callable))
    depth code room pos state (.refl state)

/-- Where a token is left and no limit stops the scan, the token is read, and so it counts. -/
theorem advances_walk_meter (advancing : Advancing context follow) {depth pos : Nat}
    {code : ByteArray} {state : ScanState} (more : pos < code.size)
    (allowed : ¬limits.Stop depth state) :
    (state.meter depth).Advances (walk limits context follow depth code code.size pos state) := by
  rw [walk_size more, if_neg allowed]
  cases effect : tokenEffect context code pos state.frame with
  | stop frame remark => exact (ScanState.advances_adopt frame _).trans (ScanState.advances_record _ _)
  | next frame remark last =>
    exact ((ScanState.advances_adopt frame _).trans (ScanState.advances_note remark _)).trans
      (advances_walk advancing _ _ _ _ _)
  | call frame subr last =>
    have called := (ScanState.advances_adopt frame (state.meter depth)).trans
      (ScanState.advances_record (.call subr) _)
    exact (called.trans (advancing subr _ (callable_of_tokenEffect effect))).trans
      (advances_walk advancing _ _ _ _ _)

/-! ### Tracks -/

/-- A scan reads the token at a position. It goes on at another position, after it has followed the
subroutine that the token calls, if it calls one. -/
inductive ReadsToken (limits : Limits) (context : SubrContext) (depth : Nat) (code : ByteArray)
    (pos : Nat) (state : ScanState) : Option Subr → Nat → ScanState → Prop
  | plain {frame : Frame} {remark : Option Remark} {last : Nat} (more : pos < code.size)
    (free : ¬limits.Stop depth state)
    (effect : tokenEffect context code pos state.frame = .next frame remark last) :
    ReadsToken limits context depth code pos state none last
      (((state.meter depth).adopt frame).note remark)
  | call {frame : Frame} {subr : Subr} {last : Nat} (more : pos < code.size)
    (free : ¬limits.Stop depth state)
    (effect : tokenEffect context code pos state.frame = .call frame subr last) :
    ReadsToken limits context depth code pos state (some subr) last
      (((state.meter depth).adopt frame).record (.call subr))

/-- Positions and states that a scan does not leave, and calls that it makes there. -/
structure Tracks (limits : Limits) (context : SubrContext) (follow : Subr → ScanState → ScanState)
    (depth : Nat) (code : ByteArray) (visited : Nat → ScanState → Prop)
    (made : Subr → ScanState → Prop) : Prop where
  plain : ∀ {pos last state after}, visited pos state →
    ReadsToken limits context depth code pos state none last after → visited last after
  call : ∀ {pos last state after subr}, visited pos state →
    ReadsToken limits context depth code pos state (some subr) last after →
      made subr after ∧ visited last (follow subr after)

/-- Where a scan of a charstring gets to: how many more subroutines may be nested, the bytes that are
scanned, a position in them and the state there. -/
inductive Visits (limits : Limits) (context : SubrContext) (code : ByteArray) :
    Nat → ByteArray → Nat → ScanState → Prop
  | start : Visits limits context code limits.nesting code 0 .start
  | plain {room pos last : Nat} {body : ByteArray} {state after : ScanState}
    (before : Visits limits context code room body pos state)
    (read : ReadsToken limits context (limits.nesting - room) body pos state none last after) :
    Visits limits context code room body last after
  | call {room pos last : Nat} {body : ByteArray} {state after : ScanState} {subr : Subr}
    (before : Visits limits context code room body pos state)
    (read : ReadsToken limits context (limits.nesting - room) body pos state (some subr) last after) :
    Visits limits context code room body last (Charstring.follow limits context room subr after)
  | enter {room pos last : Nat} {body : ByteArray} {state after : ScanState} {subr : Subr}
    (before : Visits limits context code (room + 1) body pos state)
    (read : ReadsToken limits context (limits.nesting - (room + 1)) body pos state (some subr) last
      after) (unspent : ¬limits.tokens ≤ after.inlined) :
    Visits limits context code room (context.body subr) 0 after

def Enters (limits : Limits) (context : SubrContext) (code : ByteArray) (room : Nat) (subr : Subr)
    (called : ScanState) : Prop :=
  ∀ inner, room = inner + 1 → ¬limits.tokens ≤ called.inlined →
    Visits limits context code inner (context.body subr) 0 called

theorem tracks_visits (limits : Limits) (context : SubrContext) (code : ByteArray) (room : Nat)
    (body : ByteArray) :
    Tracks limits context (Charstring.follow limits context room) (limits.nesting - room) body
      (Visits limits context code room body) (Enters limits context code room) where
  plain := .plain
  call before read := by
    refine ⟨?_, before.call read⟩
    rintro inner rfl unspent
    exact before.enter read unspent

theorem tracks_everything (limits : Limits) (context : SubrContext)
    (follow : Subr → ScanState → ScanState) (depth : Nat) (code : ByteArray) :
    Tracks limits context follow depth code (fun _ _ => True) (fun _ _ => True) where
  plain _ _ := trivial
  call _ _ := ⟨trivial, trivial⟩

/-! ### Lockstep -/

/-- Single steps keep two states alike. The second scan is not stopped before the first one is, and
if it is not stopped there, that sets them apart for good. -/
structure Lockstep (narrow wide : Limits) (alike apart : ScanState → ScanState → Prop) : Prop where
  frame : ∀ {left right}, alike left right → left.frame = right.frame
  metered : ∀ {left right} depth, alike left right → alike (left.meter depth) (right.meter depth)
  adopted : ∀ {left right} frame, alike left right → alike (left.adopt frame) (right.adopt frame)
  recorded : ∀ {left right} event, alike left right → alike (left.record event) (right.record event)
  later : ∀ {left right}, alike left right → wide.tokens ≤ right.inlined → narrow.tokens ≤ left.inlined
  stopped : ∀ {left right depth}, alike left right → narrow.Stop depth left →
    ¬wide.Stop depth right → apart (left.record (.remark .tokensSpent)) (right.meter depth)
  lasting : ∀ {left right left' right'}, apart left right → left.Advances left' →
    right.Advances right' → apart left' right'

namespace Lockstep

variable {narrow wide : Limits} {alike apart : ScanState → ScanState → Prop}
  {first second : SubrContext} {left right : Subr → ScanState → ScanState}
  {visited : Nat → ScanState → Prop} {made : Subr → ScanState → Prop}

theorem noted (lock : Lockstep narrow wide alike apart) {state other : ScanState}
    (remark : Option Remark) (same : alike state other) :
    alike (state.note remark) (other.note remark) := by
  cases remark with
  | none => exact same
  | some remark => exact lock.recorded _ same

theorem tokenEffect_eq
    (targets : ∀ scope operand, first.target scope operand = second.target scope operand)
    (code : ByteArray) (pos : Nat) (frame : Frame) :
    tokenEffect first code pos frame = tokenEffect second code pos frame := by
  simp only [tokenEffect, targets]

/-- Calls of the same subroutine keep states alike, or set them apart, and only add to what was
recorded. -/
structure Parallel (first second : SubrContext) (made : Subr → ScanState → Prop)
    (alike apart : ScanState → ScanState → Prop) (left right : Subr → ScanState → ScanState) :
    Prop where
  advancing : Advancing first left
  mateAdvancing : Advancing second right
  calls : ∀ subr (state mate : ScanState), made subr (state.record (.call subr)) → alike state mate →
    alike (left subr (state.record (.call subr))) (right subr (mate.record (.call subr))) ∨
      apart (left subr (state.record (.call subr))) (right subr (mate.record (.call subr)))

/-- Where two charstrings have a token of the same effect, their scans are alike in the end, or set
apart, or go on at the same position. -/
theorem walk_step (lock : Lockstep narrow wide alike apart)
    (parallel : Parallel first second made alike apart left right) {depth : Nat}
    {code other : ByteArray} (tracks : Tracks narrow first left depth code visited made) {pos : Nat}
    (more : pos < code.size) (alsoMore : pos < other.size) {state mate : ScanState}
    (here : visited pos state) (same : alike state mate)
    (effects : tokenEffect first code pos state.frame = tokenEffect second other pos state.frame) :
    let ends := walk narrow first left depth code code.size pos state
    let mateEnds := walk wide second right depth other other.size pos mate
    (alike ends mateEnds ∨ apart ends mateEnds) ∨ ∃ last back mateBack,
      (tokenEffect first code pos state.frame).last? = some last ∧
      (visited last back ∧ alike back mateBack) ∧
      ends = walk narrow first left depth code code.size last back ∧
      mateEnds = walk wide second right depth other other.size last mateBack := by
  intro ends mateEnds
  by_cases stopped : narrow.Stop depth state
  · left
    have remarked : ends = state.record (.remark .tokensSpent) := by
      dsimp only [ends]
      rw [walk_size more, if_pos stopped]
    rw [remarked]
    by_cases also : wide.Stop depth mate
    · left
      dsimp only [mateEnds]
      rw [walk_size alsoMore, if_pos also]
      exact lock.recorded _ same
    · have read := advances_walk_meter parallel.mateAdvancing alsoMore also
      exact .inr (lock.lasting (lock.stopped same stopped also) (.refl _) read)
  have open' : ¬wide.Stop depth mate := fun closed => stopped ⟨closed.1, lock.later same closed.2⟩
  have metered := lock.metered depth same
  dsimp only [ends, mateEnds]
  rw [walk_size more, walk_size alsoMore, if_neg stopped, if_neg open', ← lock.frame same, ← effects]
  cases effect : tokenEffect first code pos state.frame with
  | stop frame remark => exact .inl (.inl (lock.recorded _ (lock.adopted frame metered)))
  | next frame remark last =>
    have onward := tracks.plain here (.plain more stopped effect)
    exact .inr ⟨last, _, _, rfl, ⟨onward, lock.noted remark (lock.adopted frame metered)⟩, rfl, rfl⟩
  | call frame subr last =>
    obtain ⟨called, onward⟩ := tracks.call here (.call more stopped effect)
    rcases parallel.calls subr _ _ called (lock.adopted frame metered) with kept | cut
    · exact .inr ⟨last, _, _, rfl, ⟨onward, kept⟩, rfl, rfl⟩
    · exact .inl (.inr (lock.lasting cut (advances_walk parallel.advancing _ _ _ _ _)
        (advances_walk parallel.mateAdvancing _ _ _ _ _)))

/-- Scans of one charstring stay alike, or are set apart, if that holds of followed calls. -/
theorem alike_walk (lock : Lockstep narrow wide alike apart)
    (targets : ∀ scope operand, first.target scope operand = second.target scope operand)
    (parallel : Parallel first second made alike apart left right) {depth : Nat} {code : ByteArray}
    (tracks : Tracks narrow first left depth code visited made) {pos : Nat}
    {state mate : ScanState} (here : visited pos state) (same : alike state mate) :
    alike (walk narrow first left depth code code.size pos state)
        (walk wide second right depth code code.size pos mate) ∨
      apart (walk narrow first left depth code code.size pos state)
        (walk wide second right depth code code.size pos mate) := by
  induction remaining : code.size - pos using Nat.strongRecOn generalizing pos state mate with
  | _ remaining induction =>
    by_cases ended : code.size ≤ pos
    · rw [walk_of_ended ended, walk_of_ended ended]
      exact .inl same
    have more : pos < code.size := Nat.not_le.1 ended
    rcases lock.walk_step parallel tracks more more here same
      (tokenEffect_eq targets code pos state.frame) with
      settled | ⟨last, back, mateBack, goes, ⟨onward, kept⟩, ends, mateEnds⟩
    · exact settled
    · have moved : pos < last := lt_last_tokenEffect goes
      rw [ends, mateEnds]
      exact induction (code.size - last) (by omega) onward kept rfl

end Lockstep
end CompactFont.Charstring
