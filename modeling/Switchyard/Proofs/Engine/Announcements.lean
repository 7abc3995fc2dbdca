import Switchyard.Proofs.Engine.Effects
import Switchyard.Proofs.Station.Effect

/-!
# Announcements of operations

An operation that succeeds queues an update, and a tick hands out the queue, whatever
the engine is doing. Nothing else adds updates or loses them: after any inputs, the
updates that have been handed out and those that still wait are those of the operations
that have succeeded, in order (`announced_append_updates`). With what an operation does
to the rest of the substation, this is its whole effect (`operations_effect`).

* `Event.updates_after`, `Input.updates_after`: one event of a substation, and one input of an engine.
* `substation_answer`, `updates_tick`: calls leave the substation alone, and ticks hand out all that waits.
* `Input`, `outcome`: what reaches an engine from outside, and where it leads.
-/

namespace Switchyard

namespace Substation.Event

/-- The update of an operation that succeeds. -/
def operated (e : Event) : List ControlUpdate :=
  match e.action, e.answer with
  | .operate path value client, .control (.ok ()) => [⟨path, client, value, e.time⟩]
  | _, _ => []

/-- The updates that an event hands out. -/
def announced (e : Event) : List ControlUpdate :=
  match e.answer with
  | .updates updates => updates
  | _ => []

/-- **Updates come from operations that succeed**, and are there until they are handed out. -/
theorem updates_after (e : Event) : e.announced ++ e.after.updates = e.before.updates ++ e.operated := by
  obtain ⟨s, now, action⟩ := e
  cases action with
  | operate path value client =>
    rcases s.operate_cases path value now client with ⟨refusal, sessions, h, -⟩ | ⟨-, h⟩
    · simp [announced, operated, answer, after, act, h]
    · have hupdates := (performed_operate (congrArg Prod.fst h)).updates
      simpa [announced, operated, answer, after, act, h] using hupdates
  | takeUpdates => simp [announced, operated, answer, after, act, takeUpdates]
  | _ => exact (List.append_nil s.updates).symm

end Substation.Event

namespace Engine

open Substation

variable {e e' : Engine} {now : Millis}

theorem substation_dropStep (e : Engine) : e.dropStep.substation = e.substation := by
  rw [dropStep]
  split <;> rfl

theorem substation_ite_dropStep (p : Prop) [Decidable p] (e : Engine) :
    (if p then e.dropStep else e).substation = e.substation := by
  split
  · exact substation_dropStep e
  · rfl

theorem substation_modifyController {id : String} {f : Controller → Controller}
    (hok : e.modifyController id f = .ok e') : e'.substation = e.substation := by
  obtain ⟨c, -, rfl⟩ := modifyController_eq_ok hok
  rfl

/-- **A call other than a tick leaves the substation alone**, unless it replaces the substation. -/
theorem substation_answer {call : Call} (hok : e.answer now call = .ok e') (htick : call ≠ .tick)
    (hreplace : ∀ substation, call ≠ .replaceSubstation substation) : e'.substation = e.substation := by
  -- Calls edit controllers and the run state. Only ticks and a new substation reach the substation.
  cases call with
  | tick => exact absurd rfl htick
  | replaceSubstation substation => exact absurd rfl (hreplace substation)
  | start =>
    cases hok
    simp only [start]
    split <;> rfl
  | stop => cases hok; rfl
  | pause | resume =>
    simp only [answer, pause, resume] at hok
    split at hok <;> cases hok <;> rfl
  | stepOver =>
    obtain ⟨-, rfl, -⟩ := stepOver_eq_ok hok
    rfl
  | addController config =>
    cases hok
    exact substation_ite_dropStep _ e
  | removeController id =>
    obtain ⟨-, rfl⟩ := removeController_eq_ok hok
    split
    · exact substation_dropStep _
    · rfl
  | enable id enabled =>
    rcases enable_eq_ok hok with hok | ⟨middle, hmodify, rfl⟩
    · exact substation_modifyController hok
    · exact (substation_ite_dropStep _ middle).trans (substation_modifyController hmodify)
  | setTickRate _ _ | setBreakpoint _ _ _ _ _ | clearBreakpoints _ => exact substation_modifyController hok
  | loadProgram id source =>
    obtain ⟨c, c', -, -, rfl⟩ := loadProgram_eq_ok hok
    rfl
  | removeBreakpoint id line =>
    obtain ⟨c, -, rfl⟩ := removeBreakpoint_eq_ok hok
    rfl
  | setTarget id =>
    obtain ⟨-, rfl⟩ := setTarget_eq_ok hok
    rfl
  | addNoise generator targets => cases hok; rfl

theorem kept_updates (now : Millis) : Kept now fun s s' => s'.updates = s.updates where
  refl _ := rfl
  trans h h' := h'.trans h
  points _ _ _ := rfl
  write _ _ _ := rfl

/-- **A tick hands out all updates that wait**, whatever the engine is doing, and queues none. -/
theorem updates_tick (e : Engine) (now : Millis) :
    (e.tick now).1.updates = e.substation.updates ∧ (e.tick now).2.substation.updates = [] := by
  constructor
  · simp only [tick]
    split
    · split <;> rfl
    · rfl
  · -- the queue is emptied before the turns, and programs do not operate
    by_cases hrun : e.run = .running
    · rw [(tick_of_running hrun now).1]
      exact (kept_updates now).related_turns e.controllers.keys (e.prepared now)
    · rw [tick_of_not_running hrun now]
      rfl

/-- **What reaches an engine from outside**: something is done to its substation, or the engine is called. -/
inductive Input where
  | control (action : Action)
  | call (call : Call)

namespace Input

/-- The engine after an input at a time. -/
def after (e : Engine) (now : Millis) : Input → Engine
  | control action => { e with substation := Event.after ⟨e.substation, now, action⟩ }
  | call c => e.after now c

/-- The update of an operation that succeeds. -/
def operated (e : Engine) (now : Millis) : Input → List ControlUpdate
  | control action => Event.operated ⟨e.substation, now, action⟩
  | call _ => []

/-- The updates that an input hands out: those of the answer, or of the report on a tick. -/
def announced (e : Engine) (now : Millis) : Input → List ControlUpdate
  | control action => Event.announced ⟨e.substation, now, action⟩
  | call .tick => (e.tick now).1.updates
  | call _ => []

/-- The input leaves the engine its substation. -/
def Stays (input : Input) : Prop := ∀ substation, input ≠ call (.replaceSubstation substation)

/-- **What one input does to the updates.** -/
theorem updates_after {input : Input} (h : input.Stays) (e : Engine) (now : Millis) :
    input.announced e now ++ (input.after e now).substation.updates = e.substation.updates ++ input.operated e now := by
  cases input with
  | control action => exact Event.updates_after ⟨e.substation, now, action⟩
  | call c =>
    by_cases htick : c = .tick
    · subst htick
      obtain ⟨hreport, hafter⟩ := updates_tick e now
      show (e.tick now).1.updates ++ (e.tick now).2.substation.updates = e.substation.updates ++ []
      rw [hreport, hafter]
    · -- no other call reaches the queue
      have hsubstation : (e.after now c).substation = e.substation := by
        rcases after_cases e now c with hsame | hok
        · rw [hsame]
        · exact substation_answer hok htick fun substation hc => h substation (by rw [hc])
      have hannounced : (call c).announced e now = [] := by
        cases c with
        | tick => exact absurd rfl htick
        | _ => rfl
      show (call c).announced e now ++ (e.after now c).substation.updates = e.substation.updates ++ []
      rw [hsubstation, hannounced, List.append_nil, List.nil_append]

end Input

/-- The engine after inputs, in order, each at its time. -/
def outcome (e : Engine) : List (Millis × Input) → Engine
  | [] => e
  | (now, input) :: inputs => (input.after e now).outcome inputs

/-- The operations among inputs that have succeeded, as updates. -/
def operated (e : Engine) : List (Millis × Input) → List ControlUpdate
  | [] => []
  | (now, input) :: inputs => input.operated e now ++ (input.after e now).operated inputs

/-- The updates that inputs have handed out. -/
def announced (e : Engine) : List (Millis × Input) → List ControlUpdate
  | [] => []
  | (now, input) :: inputs => input.announced e now ++ (input.after e now).announced inputs

/-- **The updates of a run**: those that have been handed out and those that wait are those that waited before
and those of the operations that have succeeded, in order. -/
theorem announced_append_updates {inputs : List (Millis × Input)} (h : ∀ i ∈ inputs, i.2.Stays) (e : Engine) :
    e.announced inputs ++ (e.outcome inputs).substation.updates = e.substation.updates ++ e.operated inputs := by
  induction inputs generalizing e with
  | nil => exact (List.append_nil _).symm
  | cons i inputs ih =>
    obtain ⟨now, input⟩ := i
    obtain ⟨hinput, hinputs⟩ := List.forall_mem_cons.1 h
    have hstep := Input.updates_after hinput e now
    simp only [announced, outcome, operated]
    rw [List.append_assoc, ih hinputs, ← List.append_assoc, hstep, List.append_assoc]

/-- **The whole effect of operations.** In every state of a substation, an operation that succeeds does all
that `Performed` names and no more. And in every run of an engine, whatever is done with it in between, the
updates that have been handed out and those that the next tick hands out are those that waited before the run
and those of the operations that have succeeded, in order. -/
theorem operations_effect :
    (∀ (s : Substation) (path : String) (value : Scalar) (client : String) (now : Millis),
      (s.operate path value client now).1 = .ok () →
        Performed s path value client now (s.operate path value client now).2) ∧
    ∀ (e : Engine) (inputs : List (Millis × Input)), (∀ i ∈ inputs, i.2.Stays) →
      e.announced inputs ++ (e.outcome inputs).substation.updates = e.substation.updates ++ e.operated inputs ∧
      ∀ now, e.announced inputs ++ ((e.outcome inputs).tick now).1.updates =
        e.substation.updates ++ e.operated inputs := by
  refine ⟨fun s path value client now hok => performed_operate hok, fun e inputs hstays => ?_⟩
  have hrun := announced_append_updates hstays e
  refine ⟨hrun, fun now => ?_⟩
  rw [(updates_tick (e.outcome inputs) now).1]
  exact hrun

/-- A breaker is closed and opened again. Its coil is looked for in a profile that does not exist, so it is one of
the default profile. The first update is handed out by the tick in between, and the second one by the next tick; the
refused operation has none. -/
theorem breaker_announced :
    let s := present (historyOf [
      (0, .equip .standard [⟨"IED1LD0/XCBR1.Pos", "IED1", 7⟩]), (0, .write "IED1LD0/XCBR1.Pos.t" .null)])
    let e := { Engine.new .standard with substation := s }
    let inputs : List (Millis × Input) := [
      (1000, .control (.operate "IED1LD0/XCBR1.Pos" (.int 2) "panel")),
      (1100, .call .tick),
      (1150, .control (.write "IED1LD0/XCBR2.Pos.ctlModel" (.int 0))),
      (1200, .control (.operate "IED1LD0/XCBR2.Pos" (.int 2) "panel")),
      (1300, .control (.operate "IED1LD0/XCBR1.Pos" (.bool false) "remote"))]
    let update : ControlUpdate := ⟨"IED1LD0/XCBR1.Pos", "panel", .int 2, 1000⟩
    (s.operate "IED1LD0/XCBR1.Pos" (.int 2) "panel" 1000).1 = .ok () ∧
      Performed s "IED1LD0/XCBR1.Pos" (.int 2) "panel" 1000
        (s.operate "IED1LD0/XCBR1.Pos" (.int 2) "panel" 1000).2 ∧
      (s.operate "IED1LD0/XCBR1.Pos" (.int 2) "panel" 1000).2.model.fallback.coils.get? 7 = some true ∧
      (∀ i ∈ inputs, i.2.Stays) ∧ e.announced inputs = [update] ∧
      e.operated inputs = [update, ⟨"IED1LD0/XCBR1.Pos", "remote", .bool false, 1300⟩] ∧
      e.announced inputs ++ ((e.outcome inputs).tick 1400).1.updates = [] ++ e.operated inputs := by
  intro s e inputs update
  have hok : (s.operate "IED1LD0/XCBR1.Pos" (.int 2) "panel" 1000).1 = .ok () := rfl
  have hstays : ∀ i ∈ inputs, i.2.Stays := by simp [inputs, Input.Stays]
  have hannounced : e.announced inputs = [update] := by decide
  have hoperated : e.operated inputs = [update, ⟨"IED1LD0/XCBR1.Pos", "remote", .bool false, 1300⟩] := by decide
  exact ⟨hok, operations_effect.1 s _ _ _ _ hok, rfl, hstays, hannounced, hoperated,
    (operations_effect.2 e inputs hstays).2 1400⟩

end Engine
end Switchyard
