import CompactFont.Proofs.Charstring.Agreement
import CompactFont.Proofs.Reach.Closure

/-!
What charstrings reach depends on the bodies of the subroutines reached only, and so does the order
in which the search finds them.
-/

set_option autoImplicit false

namespace CompactFont

open Charstring

variable {context first second : SubrContext} {code : ByteArray → Prop} {codes : Array ByteArray}

/-- What all calls of some charstrings lead to covers what these charstrings reach. -/
theorem Reaches.of_calls {other : ByteArray → Prop}
    (covers : ∀ body, code body → ∀ subr ∈ calls context body, Reaches context other subr)
    {subr : Subr} (reached : Reaches context code subr) : Reaches context other subr := by
  induction reached with
  | code source called => exact covers _ source _ called
  | subr _ called induction => exact .subr induction called

theorem Reaches.congr (agree : first.Agree second (Reaches first code)) {subr : Subr} :
    Reaches first code subr ↔ Reaches second code subr := by
  have source : ∀ body, code body → calls first body = calls second body := fun body own =>
    calls_eq (agree.imp fun _ called => .code own called)
  have inner : ∀ caller, Reaches first code caller →
      calls first (first.body caller) = calls second (second.body caller) := by
    intro caller reached
    rw [← agree.body caller reached]
    exact calls_eq (agree.imp fun _ called => .subr reached called)
  constructor
  · intro reached
    induction reached with
    | code own called => exact .code own (source _ own ▸ called)
    | subr reached called induction => exact .subr induction (inner _ reached ▸ called)
  · intro reached
    induction reached with
    | code own called => exact .code own (source _ own ▸ called)
    | subr _ called induction => exact .subr induction (inner _ induction ▸ called)

namespace Reach

theorem addCharstring_eq {body : ByteArray} (same : scan first body = scan second body)
    (reach : Reach) : reach.addCharstring first body = reach.addCharstring second body := by
  rw [addCharstring, addCharstring, same]

theorem foldl_addCharstring_eq (same : ∀ body ∈ codes, scan first body = scan second body)
    (reach : Reach) :
    codes.foldl (addCharstring first) reach = codes.foldl (addCharstring second) reach := by
  rw [← Array.foldl_toList, ← Array.foldl_toList]
  apply List.foldl_ext
  intro reach body listed
  exact addCharstring_eq (same body (Array.mem_toList_iff.1 listed)) reach

theorem addSubrs_congr (agree : first.Agree second (Reaches first (· ∈ codes))) (rounds : Nat)
    {next : Nat} {reach : Reach} (progress : Progress first codes next reach) :
    addSubrs first rounds next reach = addSubrs second rounds next reach := by
  induction rounds generalizing next reach with
  | zero => rfl
  | succ rounds induction =>
    rw [addSubrs, addSubrs]
    cases current : reach.order[next]? with
    | none => rfl
    | some caller =>
      have known := (progress.listed.mem_order_iff caller).1 (Array.mem_of_getElem? current)
      have reached := progress.sound caller known
      have scans : scan first (first.body caller) = scan second (second.body caller) := by
        rw [← agree.body caller reached]
        exact scan_eq (agree.imp fun _ called => .subr reached called)
      have later := progress.step current
      dsimp only
      rw [induction later, addCharstring, addCharstring, scans]

/-- Contexts that agree on what is reached have the same search, step by step. -/
theorem ofCharstrings_congr (agree : first.Agree second (Reaches first (· ∈ codes)))
    (size : first.size = second.size) : ofCharstrings first codes = ofCharstrings second codes := by
  have same : ∀ body ∈ codes, scan first body = scan second body := fun body own =>
    scan_eq (agree.imp fun _ called => .code own called)
  rw [ofCharstrings, addSubrs_congr agree first.size (.start first codes),
    foldl_addCharstring_eq same, size, ofCharstrings]

end Reach
end CompactFont
