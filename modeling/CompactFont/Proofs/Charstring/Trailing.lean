import CompactFont.Proofs.Charstring.Lockstep

/-!
Bytes after the return of a subroutine. A charstring that is run never gets to them, but a scan does:
it passes over the operator that returns, and what follows leaves its operands and stem hints to the
caller. Up to where the subroutine first returns, the bytes make no difference. Afterwards they only
add calls if they leave operands and hints as they find them; otherwise calls of the caller are lost.
-/

set_option autoImplicit false

namespace CompactFont.Charstring

def straightFrom (code : ByteArray) : (room pos : Nat) → Bool
  | 0, pos => code.size ≤ pos
  | room + 1, pos =>
    if code.size ≤ pos then true
    else
      match Token.read.run (.whole code) pos with
      | .error _ _ => false
      | .ok (.operand _) pos => straightFrom code room pos
      | .ok (.operator operator) pos => !operator.hasMask && straightFrom code room pos

/-- Complete tokens, none of which has a mask: they are read the same whatever was scanned before. -/
def Straight (content : List UInt8) : Prop :=
  straightFrom content.toByteArray content.length 0 = true

instance (content : List UInt8) : Decidable (Straight content) := inferInstanceAs (Decidable (_ = true))

/-- Two contexts that differ in one subroutine only: in the first one, its body goes on after the
operator that returns. -/
structure SubrContext.Trails (first second : SubrContext) (known : Subr) (front tail : List UInt8) :
    Prop where
  target : ∀ scope operand, first.target scope operand = second.target scope operand
  others : ∀ subr, subr ≠ known → first.body subr = second.body subr
  long : first.body known = (front ++ 11 :: tail).toByteArray
  short : second.body known = (front ++ [11]).toByteArray

def ScanState.Limited (state : ScanState) : Prop := ∃ event ∈ state.trace, event.ofLimit = true

/-- Whenever a scan of a charstring gets to a position in the body of a subroutine, the bytes from
there on leave operands and hints as they find them, unless a limit is noticed. -/
def KeepsFrame (limits : Limits) (context : SubrContext) (code body : ByteArray) (pos : Nat) : Prop :=
  ∀ room state, room < limits.nesting → Visits limits context code room body pos state →
    let last := walk limits context (follow limits context room) (limits.nesting - room) body
      body.size pos state
    last.Limited ∨ last.frame = state.frame

/-! ### Up to the return -/

theorem holds_of_holds_toByteArray {bytes : ByteArray} {content inner : List UInt8} {pos : Nat}
    (outer : Holds bytes 0 content) (holds : Holds content.toByteArray pos inner) :
    Holds bytes pos inner := by
  obtain ⟨before, after, whole, rfl⟩ := holds
  rw [listed_toByteArray] at whole
  rw [whole] at outer
  have found := outer.left.right
  rwa [Nat.zero_add] at found

theorem run_read_of_holds {content : List UInt8} {code : ByteArray} {pos last : Nat} {token : Token}
    (starts : Holds code 0 content) (inside : pos ≤ content.length)
    (read : Token.read.run (.whole content.toByteArray) pos = .ok token last) :
    last ≤ content.length ∧ Token.read.run (.whole code) pos = .ok token last := by
  have within : pos ≤ (Source.whole content.toByteArray).stop :=
    Nat.le_trans inside (Nat.le_of_eq content.size_toByteArray.symm)
  obtain ⟨bytes, holds, rfl, spelled⟩ := Token.local_read _ pos token last within read
  have bound := holds.2
  exact ⟨Nat.le_trans bound (Nat.le_of_eq content.size_toByteArray),
    spelled pos _ (holds_of_holds_toByteArray starts holds.1).whole⟩

variable {limits : Limits} {first second : SubrContext} {alike apart : ScanState → ScanState → Prop}
  {left right : Subr → ScanState → ScanState} {known : Subr} {front tail : List UInt8}
  {visited : Nat → ScanState → Prop} {made : Subr → ScanState → Prop}

/-- A token without a mask has the same effect wherever it is read, and the scan goes on after it. -/
theorem tokenEffect_of_read
    (targets : ∀ scope operand, first.target scope operand = second.target scope operand)
    {code other : ByteArray} {pos last : Nat} {token : Token} (frame : Frame)
    (read : Token.read.run (.whole code) pos = .ok token last)
    (also : Token.read.run (.whole other) pos = .ok token last)
    (plain : ∀ operator, token = .operator operator → operator.hasMask = false) :
    tokenEffect first code pos frame = tokenEffect second other pos frame ∧
      (tokenEffect first code pos frame).last? = some last := by
  unfold tokenEffect
  rw [read, also]
  cases token with
  | operand value => exact ⟨rfl, rfl⟩
  | operator operator =>
    simp only [plain operator rfl, Bool.false_eq_true, ↓reduceIte, targets, true_and]
    split
    · rfl
    split <;> rfl

/-- Two charstrings that begin with the same straight bytes are scanned alike up to there, unless a
limit stops both scans, or the scans are set apart. -/
theorem Lockstep.walk_straight (lock : Lockstep limits limits alike apart)
    (targets : ∀ scope operand, first.target scope operand = second.target scope operand)
    (parallel : Parallel first second made alike apart left right) {depth : Nat}
    {code other : ByteArray} (tracks : Tracks limits first left depth code visited made)
    (starts : Holds code 0 front) (alsoStarts : Holds other 0 front) {room pos : Nat}
    (straight : straightFrom front.toByteArray room pos = true) (inside : pos ≤ front.length)
    {state mate : ScanState} (here : visited pos state) (same : alike state mate) :
    let ends := walk limits first left depth code code.size pos state
    let mateEnds := walk limits second right depth other other.size pos mate
    (alike ends mateEnds ∨ apart ends mateEnds) ∨ ∃ back mateBack,
      (visited front.length back ∧ alike back mateBack) ∧
      ends = walk limits first left depth code code.size front.length back ∧
      mateEnds = walk limits second right depth other other.size front.length mateBack := by
  have size := front.size_toByteArray
  induction room generalizing pos state mate with
  | zero =>
    have arrived : pos = front.length := by
      have past := of_decide_eq_true straight
      omega
    subst arrived
    exact .inr ⟨state, mate, ⟨here, same⟩, rfl, rfl⟩
  | succ room induction =>
    rw [straightFrom, size] at straight
    by_cases ended : front.length ≤ pos
    · have arrived : pos = front.length := Nat.le_antisymm inside ended
      subst arrived
      exact .inr ⟨state, mate, ⟨here, same⟩, rfl, rfl⟩
    rw [if_neg ended] at straight
    cases read : Token.read.run (.whole front.toByteArray) pos with
    | error fault stop =>
      rw [read] at straight
      cases straight
    | ok token last =>
      have plain : ∀ operator, token = .operator operator → operator.hasMask = false := by
        rintro operator rfl
        rw [read] at straight
        exact Bool.not_eq_true' _ ▸ (Bool.and_eq_true_iff.1 straight).1
      have rest : straightFrom front.toByteArray room last = true := by
        rw [read] at straight
        cases token with
        | operand value => exact straight
        | operator operator => exact (Bool.and_eq_true_iff.1 straight).2
      obtain ⟨within, alsoRead⟩ := run_read_of_holds starts inside read
      have mateRead := (run_read_of_holds alsoStarts inside read).2
      have more : pos < code.size := by
        have bound := starts.le_size
        omega
      have alsoMore : pos < other.size := by
        have bound := alsoStarts.le_size
        omega
      obtain ⟨effects, goes⟩ := tokenEffect_of_read targets state.frame alsoRead mateRead plain
      rcases lock.walk_step parallel tracks more alsoMore here same effects with
        settled | ⟨_, back, mateBack, goesOn, ⟨onward, kept⟩, ends, mateEnds⟩
      · exact .inl settled
      · obtain rfl : last = _ := Option.some.inj (goes.symm.trans goesOn)
        dsimp only
        rw [ends, mateEnds]
        exact induction rest within onward kept

theorem spelled_read_return (pos : Nat) : Token.read.Spelled pos [11] (.operator .ret) := by
  unfold Token.read
  apply Reader.Spelled.bind_u8
  exact .pure _ _

theorem tokenEffect_return {code : ByteArray} {pos : Nat} (returns : Holds code pos [11])
    (context : SubrContext) (frame : Frame) :
    tokenEffect context code pos frame = .next frame none (pos + 1) := by
  unfold tokenEffect
  rw [spelled_read_return pos _ returns.whole]
  rfl

/-- The operator that returns changes nothing: where the one charstring is over, the scan of the other
one goes on with what follows. -/
theorem Lockstep.walk_return (lock : Lockstep limits limits alike apart)
    (targets : ∀ scope operand, first.target scope operand = second.target scope operand)
    (parallel : Parallel first second made alike apart left right) {depth : Nat}
    {code other : ByteArray} (tracks : Tracks limits first left depth code visited made)
    (long : listed code = front ++ 11 :: tail) (short : listed other = front ++ [11])
    (straight : Straight front) {state mate : ScanState} (here : visited 0 state)
    (same : alike state mate) :
    let ends := walk limits first left depth code code.size 0 state
    let mateEnds := walk limits second right depth other other.size 0 mate
    (alike ends mateEnds ∨ apart ends mateEnds) ∨ ∃ back,
      (visited (front.length + 1) back ∧ alike back mateEnds) ∧
      ends = walk limits first left depth code code.size (front.length + 1) back := by
  have starts : Holds code 0 front := ⟨[], 11 :: tail, long, rfl⟩
  have alsoStarts : Holds other 0 front := ⟨[], [11], short, rfl⟩
  have returns : Holds code front.length [11] :=
    ⟨front, tail, by rw [long, List.append_assoc, List.singleton_append], rfl⟩
  have alsoReturns : Holds other front.length [11] :=
    ⟨front, [], by rw [short, List.append_nil], rfl⟩
  have size : other.size = front.length + 1 := by
    rw [← length_listed, short, List.length_append, List.length_singleton]
  rcases lock.walk_straight targets parallel tracks starts alsoStarts straight (Nat.zero_le _) here
    same with settled | ⟨state, mate, ⟨there, same⟩, ends, mateEnds⟩
  · exact .inl settled
  have effect := tokenEffect_return returns first state.frame
  have effects := effect.trans (tokenEffect_return alsoReturns second state.frame).symm
  dsimp only
  rw [ends, mateEnds]
  rcases lock.walk_step parallel tracks returns.le_size alsoReturns.le_size there same effects with
    settled | ⟨last, back, mateBack, goes, kept, further, ended⟩
  · exact .inl settled
  · rw [effect] at goes
    obtain rfl : front.length + 1 = last := Option.some.inj goes
    rw [walk_of_ended (Nat.le_of_eq size)] at ended
    rw [further, ended]
    exact .inr ⟨back, kept, rfl⟩

/-- Calls keep scans alike, or set them apart, if that holds of what follows a return, and of calls that
only the second scan follows. -/
theorem Lockstep.parallel_follow (lock : Lockstep limits limits alike apart)
    (differ : first.Trails second known front tail) (straight : Straight front)
    (refused : ∀ {state mate later} subr, alike state mate → limits.tokens ≤ state.inlined →
      ¬limits.tokens ≤ mate.inlined → apart (state.record (.refusal subr)) later)
    {code : ByteArray} (past : ∀ {room back} {mate : ScanState}, room < limits.nesting →
      let body := first.body known
      Visits limits first code room body (front.length + 1) back →
      let ends := walk limits first (follow limits first room) (limits.nesting - room) body body.size
        (front.length + 1) back
      let mateEnds := follow limits second (room + 1) known (mate.record (.call known))
      alike back mateEnds → alike ends mateEnds ∨ apart ends mateEnds)
    {room : Nat} (nested : room ≤ limits.nesting) :
    Parallel first second (Enters limits first code room) alike apart (follow limits first room)
      (follow limits second room) := by
  refine ⟨advancing_follow _ _ _, advancing_follow _ _ _, ?_⟩
  induction room with
  | zero => exact fun subr state mate _ same => .inl (lock.recorded _ (lock.recorded _ same))
  | succ room induction =>
    intro subr state mate enters same
    have inner : Parallel first second (Enters limits first code room) alike apart
        (follow limits first room) (follow limits second room) :=
      ⟨advancing_follow _ _ _, advancing_follow _ _ _, induction (Nat.le_of_succ_le nested)⟩
    have called := lock.recorded (.call subr) same
    rw [follow]
    by_cases spent : limits.tokens ≤ (state.record (.call subr)).inlined
    · rw [if_pos spent]
      by_cases also : limits.tokens ≤ (mate.record (.call subr)).inlined
      · rw [follow, if_pos also]
        exact .inl (lock.recorded _ called)
      · exact .inr (refused subr called spent also)
    have unspent : ¬limits.tokens ≤ (mate.record (.call subr)).inlined :=
      fun late => spent (lock.later called late)
    rw [if_neg spent]
    have entered := enters room rfl spent
    have tracks := tracks_visits limits first code room (first.body subr)
    by_cases reached : subr = known
    · subst reached
      have long : listed (first.body subr) = front ++ 11 :: tail := by
        rw [differ.long, listed_toByteArray]
      have short : listed (second.body subr) = front ++ [11] := by
        rw [differ.short, listed_toByteArray]
      rcases lock.walk_return differ.target inner tracks long short straight entered called with
        settled | ⟨back, ⟨visits, kept⟩, ends⟩
      · rw [follow, if_neg unspent]
        exact settled
      · rw [ends]
        apply past nested visits
        rw [follow, if_neg unspent]
        exact kept
    · rw [follow, if_neg unspent, ← differ.others subr reached]
      exact lock.alike_walk differ.target inner tracks entered called

/-! ### Behind the return -/

structure ScanState.Covers (state mate : ScanState) : Prop where
  frame : state.frame = mate.frame
  inlined : mate.inlined ≤ state.inlined
  calls : mate.calls.Sublist state.calls

theorem ScanState.Limited.of_advances {state later : ScanState} (limited : state.Limited)
    (advances : state.Advances later) : later.Limited := by
  obtain ⟨event, member, limit⟩ := limited
  exact ⟨event, Array.mem_toList_iff.1 (advances.trace.subset (Array.mem_toList_iff.2 member)), limit⟩

theorem ScanState.limited_record {event : Event} (limit : event.ofLimit = true) (state : ScanState) :
    (state.record event).Limited :=
  ⟨event, Array.mem_push_self, limit⟩

theorem lockstep_covers (limits : Limits) :
    Lockstep limits limits ScanState.Covers fun state _ => state.Limited where
  frame covers := covers.frame
  metered depth covers := by
    constructor
    · rw [ScanState.frame_meter, ScanState.frame_meter, covers.frame]
    · rw [ScanState.inlined_meter, ScanState.inlined_meter]
      exact Nat.add_le_add_right covers.inlined _
    · rw [ScanState.calls_meter, ScanState.calls_meter]
      exact covers.calls
  adopted _ covers := ⟨rfl, covers.inlined, covers.calls⟩
  recorded event covers := by
    refine ⟨covers.frame, covers.inlined, ?_⟩
    rw [ScanState.calls_record, ScanState.calls_record]
    exact covers.calls.append_right _
  later covers spent := Nat.le_trans spent covers.inlined
  stopped _ _ _ := ScanState.limited_record rfl _
  lasting limited advances _ := limited.of_advances advances

/-- What follows the return can make no call disappear if it keeps operands and hints. -/
theorem scanWith_covers (differ : first.Trails second known front tail) (straight : Straight front)
    {code : ByteArray} (keeps : KeepsFrame limits first code (first.body known) (front.length + 1)) :
    (scanWith limits first code).Covers (scanWith limits second code) ∨
      (scanWith limits first code).Limited := by
  have lock := lockstep_covers limits
  have tracks := tracks_visits limits first code limits.nesting code
  rw [Nat.sub_self] at tracks
  apply lock.alike_walk differ.target ?_ tracks .start ⟨rfl, Nat.le_refl _, List.Sublist.refl _⟩
  apply lock.parallel_follow differ straight ?_ ?_ (Nat.le_refl _)
  · intro state mate later subr _ _ _
    exact ScanState.limited_record rfl _
  · intro room back mate nested body visits ends mateEnds covers
    rcases keeps room back nested visits with limited | kept
    · exact .inr limited
    · have advances : back.Advances ends := advances_walk (advancing_follow _ _ _) _ _ _ _ _
      exact .inl ⟨kept.trans covers.frame, Nat.le_trans covers.inlined advances.inlined,
        covers.calls.trans advances.calls.sublist⟩

/-- Both scans went on from where the subroutine had been followed for the first time in both. -/
def Departs (limits : Limits) (second : SubrContext) (known : Subr) (state mate : ScanState) : Prop :=
  ∃ room, ∃ before : ScanState,
    let back := follow limits second room known (before.record (.call known))
    back.trace.toList <+: state.trace.toList ∧ back.trace.toList <+: mate.trace.toList

theorem lockstep_eq (limits : Limits) (second : SubrContext) (known : Subr) :
    Lockstep limits limits Eq (Departs limits second known) where
  frame same := congrArg _ same
  metered _ same := congrArg _ same
  adopted _ same := congrArg _ same
  recorded _ same := congrArg _ same
  later same spent := same ▸ spent
  stopped same stops goes := absurd (same ▸ stops) goes
  lasting departs advances mateAdvances := by
    obtain ⟨room, before, front, mateFront⟩ := departs
    exact ⟨room, before, front.trans advances.trace, mateFront.trans mateAdvances.trace⟩

theorem scanWith_eq_or_departs (differ : first.Trails second known front tail)
    (straight : Straight front) (code : ByteArray) :
    scanWith limits first code = scanWith limits second code ∨
      Departs limits second known (scanWith limits first code) (scanWith limits second code) := by
  have lock := lockstep_eq limits second known
  have tracks := tracks_visits limits first code limits.nesting code
  rw [Nat.sub_self] at tracks
  apply lock.alike_walk differ.target ?_ tracks .start rfl
  apply lock.parallel_follow differ straight ?_ ?_ (Nat.le_refl _)
  · intro state mate later subr same spent unspent
    exact absurd (same ▸ spent) unspent
  · intro room back mate _ body _ ends mateEnds same
    right
    refine ⟨room + 1, mate, ?_, List.prefix_rfl⟩
    have advances : back.Advances ends := advances_walk (advancing_follow _ _ _) _ _ _ _ _
    rw [same] at advances
    exact advances.trace

theorem follow_return {context : SubrContext} {subr : Subr}
    (returns : listed (context.body subr) = [11]) (room : Nat) (state : ScanState) :
    (follow limits context room subr state).Limited ∨
      (follow limits context room subr state).frame = state.frame := by
  cases room with
  | zero => exact .inl (ScanState.limited_record rfl _)
  | succ room =>
    have holds : Holds (context.body subr) 0 [11] := ⟨[], [], by rw [returns]; rfl, rfl⟩
    have size : (context.body subr).size = 1 := by rw [← length_listed, returns]; rfl
    rw [follow]
    split
    · exact .inl (ScanState.limited_record rfl _)
    dsimp only
    rw [walk_size holds.le_size]
    split
    · exact .inl (ScanState.limited_record rfl _)
    right
    rw [tokenEffect_return holds]
    dsimp only
    rw [walk_of_ended (Nat.le_of_eq size), ScanState.frame_note, ScanState.frame_adopt]

/-- Bytes after the operator that returns make no difference to a scan before the subroutine was first
followed. If no limit is noticed, they make no call disappear unless they change operands or hints. -/
theorem calls_of_trailing (differ : first.Trails second known front tail) (straight : Straight front)
    (code : ByteArray) :
    (scan first code = scan second code ∨
      Departs .standard second known (scanWith .standard first code) (scanWith .standard second code)) ∧
    (KeepsFrame .standard first code (first.body known) (front.length + 1) →
      (∀ event ∈ scan first code, event.ofLimit = false) →
      (calls second code).toList.Sublist (calls first code).toList) := by
  constructor
  · exact (scanWith_eq_or_departs differ straight code).imp_left (congrArg _)
  · intro keeps unlimited
    rw [toList_calls, toList_calls]
    rcases scanWith_covers differ straight keeps with covers | ⟨event, member, limit⟩
    · exact covers.calls
    · rw [unlimited event member] at limit
      cases limit

/-- Two global subroutines: one with the given body, and one that only returns. -/
def returning (body : List UInt8) : SubrContext where
  localSubrs := none
  globalSubrs := ⟨#[body.toByteArray, [11].toByteArray], .type2⟩

theorem trails_returning (front tail : List UInt8) :
    (returning (front ++ 11 :: tail)).Trails (returning (front ++ [11])) ⟨.globalSubrs, 0⟩ front tail where
  target scope operand := by cases scope <;> rfl
  others := by
    rintro ⟨_ | _, _ | index⟩ differs
    · rfl
    · rfl
    · exact absurd rfl differs
    · rfl
  long := rfl
  short := rfl

/-- Adds one to its operand and returns; a call of the other subroutine follows. -/
def callBehind : SubrContext := returning ([140, 12, 10] ++ 11 :: [33, 29])

theorem keepsFrame_callBehind (code : ByteArray) :
    KeepsFrame limits callBehind code (callBehind.body ⟨.globalSubrs, 0⟩) 4 := by
  intro room state _ _ last
  dsimp only [last]
  have pushes : tokenEffect callBehind (callBehind.body ⟨.globalSubrs, 0⟩) 4 state.frame =
      .next { state.frame with stack := some (-106) :: state.frame.stack } none 5 := rfl
  have calls : tokenEffect callBehind (callBehind.body ⟨.globalSubrs, 0⟩) 5
      { state.frame with stack := some (-106) :: state.frame.stack } =
      .call state.frame ⟨.globalSubrs, 1⟩ 6 := rfl
  rw [walk_size (by decide)]
  split
  · exact .inl (ScanState.limited_record rfl _)
  rw [pushes]
  dsimp only
  rw [walk_size (by decide)]
  split
  · exact .inl (ScanState.limited_record rfl _)
  rw [ScanState.frame_note, ScanState.frame_adopt, calls]
  dsimp only
  rw [walk_of_ended (by decide)]
  exact follow_return rfl _ _

def callTwice : ByteArray := [32, 32, 29, 29, 14].toByteArray

/-- A call after the return is found in addition. -/
theorem calls_of_trailing_callBehind :
    KeepsFrame .standard callBehind callTwice (callBehind.body ⟨.globalSubrs, 0⟩) 4 ∧
      calls callBehind callTwice =
        #[⟨.globalSubrs, 0⟩, ⟨.globalSubrs, 1⟩, ⟨.globalSubrs, 1⟩] ∧
      calls (returning ([140, 12, 10] ++ [11])) callTwice =
        #[⟨.globalSubrs, 0⟩, ⟨.globalSubrs, 1⟩] ∧
      (calls (returning ([140, 12, 10] ++ [11])) callTwice).toList.Sublist
        (calls callBehind callTwice).toList := by
  have straight : Straight [140, 12, 10] := by decide
  have unlimited : ∀ event ∈ scan callBehind callTwice, event.ofLimit = false := by decide +kernel
  have found := (calls_of_trailing (trails_returning [140, 12, 10] [33, 29]) straight callTwice).2
    (keepsFrame_callBehind callTwice) unlimited
  exact ⟨keepsFrame_callBehind callTwice, by decide +kernel, by decide +kernel, found⟩

/-- A move after the return takes the operand of the second call, so the call is not found, although
it is made. -/
theorem not_sublist_moveBehind :
    Straight [140, 12, 10] ∧
      (returning ([140, 12, 10] ++ 11 :: [22])).Trails (returning ([140, 12, 10] ++ [11]))
        ⟨.globalSubrs, 0⟩ [140, 12, 10] [22] ∧
      (∀ event ∈ scan (returning ([140, 12, 10] ++ 11 :: [22])) callTwice, event.ofLimit = false) ∧
      (∀ event ∈ scan (returning ([140, 12, 10] ++ [11])) callTwice, event.ofLimit = false) ∧
      ¬(calls (returning ([140, 12, 10] ++ [11])) callTwice).toList.Sublist
        (calls (returning ([140, 12, 10] ++ 11 :: [22])) callTwice).toList :=
  ⟨by decide, trails_returning _ _, by decide +kernel, by decide +kernel, by decide +kernel⟩

end CompactFont.Charstring
