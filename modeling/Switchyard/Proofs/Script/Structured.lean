import Switchyard.Proofs.Script.Unplaced
import Switchyard.Script.Execution
import Mathlib.Data.Nat.Notation

/-!
# The structured semantics of programs

`Runs` says what a program does by the structure of its text: a block runs its
statements in order, an `IF` its first true alternative (`Takes`), a `WHILE` its
body as long as its condition is true. There is no stack and no place in the text.
The device may change between two statements in any way (`world`), its clock
included. What a run shows is its suspensions and how it ends; a run can be
observed up to any point, so the runs without an end are covered by what they show
up to there.

* `runs_append`: a block in two parts.
* `takes_iff`: the alternative that an `IF` takes is the one that is chosen.
-/

namespace Switchyard.Script

/-- A place between two statements of a run. -/
structure Moment (σ : Type) where
  /-- How many statements have run. -/
  steps : ℕ
  scope : Scope
  state : σ

/-- What a statement shows when it suspends: its line, the scope and the device after it. -/
structure Suspension (σ : Type) where
  line : UInt32
  scope : Scope
  state : σ

/-- How the observation of a run ends. -/
inductive Ending (σ : Type) where
  /-- Nothing more is observed, and the run is at this moment. -/
  | paused (m : Moment σ)
  /-- No statement is left. -/
  | completed (m : Moment σ)
  /-- A statement has failed; the device keeps what the statement did to it before. -/
  | failed (error : RuntimeError) (scope : Scope) (state : σ)

variable {σ : Type}

/-- Nothing runs after this ending. -/
def Ending.Stops : Ending σ → Prop
  | .completed _ => False
  | .paused _ | .failed .. => True

/-- A statement suspends: the scope takes note of a move of `STATE`. -/
def Suspension.of (dev : Device σ) (line : UInt32) (scope : Scope) (state : σ) : Suspension σ :=
  ⟨line, scope.followState (dev.now state), state⟩

/-- The moment after a suspension, when the device has changed on its own. -/
def Moment.next (world : ℕ → σ → σ) (m : Moment σ) (s : Suspension σ) : Moment σ :=
  ⟨m.steps + 1, s.scope, world m.steps s.state⟩

/-- An assignment: the value, then the variable. -/
def assign (dev : Device σ) (scope : Scope) (target : String) (value : Expr) : Run σ Scope := do
  let v ← evaluate dev scope value
  scope.set target v

/-- A call: the arguments, then the device. Its answer is dropped. -/
def call (dev : Device σ) (scope : Scope) (func : DeviceOp) (args : List Expr) : Run σ Scalar := do
  performOp dev func (← evaluateAll dev scope args)

theorem unplaced_assign (dev : Device σ) (scope : Scope) (target : String) (value : Expr) :
    Run.Unplaced (assign dev scope target value) :=
  (unplaced_evaluate dev scope value).bind fun v => .lift (unplaced_set scope target v)

theorem unplaced_call (dev : Device σ) (scope : Scope) (func : DeviceOp) (args : List Expr) :
    Run.Unplaced (call dev scope func args) :=
  (unplaced_evaluateAll dev scope args).bind fun vs => unplaced_performOp dev func vs

theorem unplaced_chooseArm (dev : Device σ) (scope : Scope) :
    (arms : Arms) → Run.Unplaced (chooseArm dev scope arms)
  | .none => .pure _
  | .otherwise _ => .pure _
  | .arm cond _ rest => by
    rw [chooseArm]
    refine (unplaced_condition dev scope cond).bind fun holds => ?_
    cases holds with
    | false => exact unplaced_chooseArm dev scope rest
    | true => exact .pure _

section Semantics

variable (dev : Device σ) (world : ℕ → σ → σ)

/-- What an `IF` comes to: the first alternative whose condition is true, else the one without a condition,
else nothing; the conditions before it have been evaluated. -/
inductive Takes (scope : Scope) : Arms → σ → Except RuntimeError (List Stmt) → σ → Prop
  | nothing {state} : Takes scope .none state (.ok []) state
  | otherwise {body state} : Takes scope (.otherwise body) state (.ok body) state
  | first {cond body rest state state'} (h : (condition dev scope cond).run state = (.ok true, state')) :
      Takes scope (.arm cond body rest) state (.ok body) state'
  | later {cond body rest state state' state'' r} (h : (condition dev scope cond).run state = (.ok false, state'))
      (ht : Takes scope rest state' r state'') : Takes scope (.arm cond body rest) state r state''
  | fails {cond body rest state state' err} (h : (condition dev scope cond).run state = (.error err, state')) :
      Takes scope (.arm cond body rest) state (.error err) state'

/-- A statement, or a block of them. -/
inductive Code where
  | stmt (s : Stmt)
  | block (b : List Stmt)

/-- **The structured semantics.** From a moment, a statement or a block shows these suspensions and comes to
this ending. -/
inductive Runs : Code → Moment σ → List (Suspension σ) → Ending σ → Prop
  | paused {c m} : Runs c m [] (.paused m)
  -- a block runs its statements in order
  | done {m} : Runs (.block []) m [] (.completed m)
  | seq {s rest m m' shown shown' ending} (hs : Runs (.stmt s) m shown (.completed m'))
      (hrest : Runs (.block rest) m' shown' ending) : Runs (.block (s :: rest)) m (shown ++ shown') ending
  | stop {s rest m shown ending} (hs : Runs (.stmt s) m shown ending) (h : ending.Stops) :
      Runs (.block (s :: rest)) m shown ending
  -- an assignment or a call suspends once it has run
  | assign {line target value m scope state}
      (h : (Script.assign dev m.scope target value).run m.state = (.ok scope, state)) :
      Runs (.stmt (.assign line target value)) m [.of dev line scope state]
        (.completed (m.next world (.of dev line scope state)))
  | assignFails {line target value m err state}
      (h : (Script.assign dev m.scope target value).run m.state = (.error err, state)) :
      Runs (.stmt (.assign line target value)) m [] (.failed ⟨err.fault, some line⟩ m.scope state)
  | call {line func args m v state}
      (h : (Script.call dev m.scope func args).run m.state = (.ok v, state)) :
      Runs (.stmt (.call line func args)) m [.of dev line m.scope state]
        (.completed (m.next world (.of dev line m.scope state)))
  | callFails {line func args m err state}
      (h : (Script.call dev m.scope func args).run m.state = (.error err, state)) :
      Runs (.stmt (.call line func args)) m [] (.failed ⟨err.fault, some line⟩ m.scope state)
  -- an `IF` suspends at its header and runs what it takes
  | choose {line arms m body state shown ending} (h : Takes dev m.scope arms m.state (.ok body) state)
      (hbody : Runs (.block body) (m.next world (.of dev line m.scope state)) shown ending) :
      Runs (.stmt (.choose line arms)) m (.of dev line m.scope state :: shown) ending
  | chooseFails {line arms m err state} (h : Takes dev m.scope arms m.state (.error err) state) :
      Runs (.stmt (.choose line arms)) m [] (.failed ⟨err.fault, some line⟩ m.scope state)
  -- a `WHILE` suspends at its header for each evaluation of its condition
  | loopAgain {line cond body m m' state shown shown' ending}
      (h : (condition dev m.scope cond).run m.state = (.ok true, state))
      (hbody : Runs (.block body) (m.next world (.of dev line m.scope state)) shown (.completed m'))
      (hagain : Runs (.stmt (.loop line cond body)) m' shown' ending) :
      Runs (.stmt (.loop line cond body)) m (.of dev line m.scope state :: (shown ++ shown')) ending
  | loopStops {line cond body m state shown ending}
      (h : (condition dev m.scope cond).run m.state = (.ok true, state))
      (hbody : Runs (.block body) (m.next world (.of dev line m.scope state)) shown ending) (hstops : ending.Stops) :
      Runs (.stmt (.loop line cond body)) m (.of dev line m.scope state :: shown) ending
  | loopDone {line cond body m state} (h : (condition dev m.scope cond).run m.state = (.ok false, state)) :
      Runs (.stmt (.loop line cond body)) m [.of dev line m.scope state]
        (.completed (m.next world (.of dev line m.scope state)))
  | loopFails {line cond body m err state} (h : (condition dev m.scope cond).run m.state = (.error err, state)) :
      Runs (.stmt (.loop line cond body)) m [] (.failed ⟨err.fault, some line⟩ m.scope state)

end Semantics

variable {dev : Device σ} {world : ℕ → σ → σ} {m : Moment σ} {shown : List (Suspension σ)}
  {ending : Ending σ}

/-- **The alternative that an `IF` takes is the one that it chooses**, an empty block if it chooses none. -/
theorem takes_iff {scope : Scope} : (arms : Arms) → {state state' : σ} → {r : Except RuntimeError (List Stmt)} →
    (Takes dev scope arms state r state' ↔
      ((·.getD []) <$> chooseArm dev scope arms).run state = (r, state'))
  | .none, state, state', r => by
    constructor
    · intro h
      cases h
      rfl
    · intro h
      cases h
      exact .nothing
  | .otherwise body, state, state', r => by
    constructor
    · intro h
      cases h
      rfl
    · intro h
      cases h
      exact .otherwise
  | .arm cond body rest, state, state', r => by
    -- The choice among the alternatives, opened up for one of them.
    have hrun : ((·.getD []) <$> chooseArm dev scope (.arm cond body rest)).run state =
        match (condition dev scope cond).run state with
        | (.ok true, state₁) => (.ok body, state₁)
        | (.ok false, state₁) => ((·.getD []) <$> chooseArm dev scope rest).run state₁
        | (.error err, state₁) => (.error err, state₁) := by
      simp only [chooseArm, map_eq_pure_bind, bind_assoc]
      rw [run_bind]
      rcases (condition dev scope cond).run state with ⟨_ | _ | _, _⟩ <;> rfl
    rw [hrun]
    constructor
    · intro h
      cases h with
      | first hc => rw [hc]
      | later hc hrest => rw [hc]; exact (takes_iff rest).1 hrest
      | fails hc => rw [hc]
    · intro h
      -- The condition fails, is false or is true, and each case is one of the rules.
      rcases hc : (condition dev scope cond).run state with ⟨err | _ | _, state₁⟩
      · rw [hc] at h
        cases h
        exact .fails hc
      · rw [hc] at h
        exact .later hc ((takes_iff rest).2 h)
      · rw [hc] at h
        cases h
        exact .first hc

theorem runs_cons {s : Stmt} {rest : List Stmt} (h : Runs dev world (.block (s :: rest)) m shown ending) :
    (∃ m' first later, shown = first ++ later ∧ Runs dev world (.stmt s) m first (.completed m') ∧
      Runs dev world (.block rest) m' later ending) ∨
    (ending.Stops ∧ Runs dev world (.stmt s) m shown ending) := by
  cases h with
  | paused => exact .inr ⟨trivial, .paused⟩
  | seq hs hrest => exact .inl ⟨_, _, _, rfl, hs, hrest⟩
  | stop hs hstops => exact .inr ⟨hstops, hs⟩

/-- **A block in two parts**: the first part ends the run, or the second part goes on where it completes. -/
theorem runs_append {b b' : List Stmt} (h : Runs dev world (.block (b ++ b')) m shown ending) :
    (∃ m' first later, shown = first ++ later ∧ Runs dev world (.block b) m first (.completed m') ∧
      Runs dev world (.block b') m' later ending) ∨
    (ending.Stops ∧ Runs dev world (.block b) m shown ending) := by
  induction b generalizing m shown with
  | nil => exact .inl ⟨m, [], shown, rfl, .done, h⟩
  | cons s b ih =>
    rcases runs_cons h with ⟨m₁, first, later, rfl, hs, hrest⟩ | ⟨hstops, hs⟩
    · rcases ih hrest with ⟨m₂, middle, last, rfl, hb, hb'⟩ | ⟨hstops, hb⟩
      · exact .inl ⟨m₂, first ++ middle, last, (List.append_assoc ..).symm, .seq hs hb, hb'⟩
      · exact .inr ⟨hstops, .seq hs hb⟩
    · exact .inr ⟨hstops, .stop hs hstops⟩

end Switchyard.Script
