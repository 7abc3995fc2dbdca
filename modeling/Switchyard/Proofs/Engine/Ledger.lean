import Switchyard.Proofs.Engine.Executed

/-!
# What controllers keep count of

A controller notes each line that it executes, in the hits of a breakpoint on the line and
in its history. These are its `Ledger`, and a call changes it by the lines that the
controller executes, unless it edits the ledger itself (`edited_after`).

* `Ledger`, `ledger_tick`: the ledger after a tick is that before it, with the lines noted.
* `Edited`, `edited_after`: all that a call can do to a ledger.
* `Roomy`: the room for histories is as the settings say.
-/

namespace Switchyard.Engine

variable {e e' : Engine} {id : String} {c c' : Controller} {now : Millis} {call : Call} {calls : List (Millis × Call)}
  {line : UInt32}

/-- What a controller keeps count of, and whether it has a program. -/
structure Ledger where
  breakpoints : SortedMap UInt32 Breakpoint
  history : List UInt32
  capacity : ℕ
  loaded : Bool

/-- A line is noted: a breakpoint on it counts a hit, and it is appended to the history. -/
def Ledger.note (l : Ledger) (line : UInt32) : Ledger :=
  { l with
    breakpoints :=
      match l.breakpoints.get? line with
      | some b => l.breakpoints.insert line b.count
      | none => l.breakpoints
    history := remember l.capacity l.history line }

/-- Where a line is noted, a breakpoint on it counts a hit, and all others stay as they are. -/
theorem get?_note (l : Ledger) (line executed : UInt32) :
    (l.note executed).breakpoints.get? line =
      (l.breakpoints.get? line).map fun b => if executed = line then b.count else b := by
  rw [Ledger.note]
  cases hb : l.breakpoints.get? executed with
  | none =>
    by_cases hline : executed = line
    · subst hline
      simp only [hb, Option.map_none]
    · simp only [if_neg hline, Option.map_id']
  | some b =>
    by_cases hline : executed = line
    · subst hline
      simp only [SortedMap.get?_insert_self, hb, Option.map_some, if_true]
    · simp only [SortedMap.get?_insert_of_ne _ _ (Ne.symm hline), if_neg hline, Option.map_id']

/-- The ledger of a controller. -/
def Controller.ledger (c : Controller) : Ledger := ⟨c.breakpoints, c.history, c.historyCapacity, c.task.isSome⟩

/-- The ledger of the controller with an id. -/
def ledger (e : Engine) (id : String) : Option Ledger := (e.controllers.get? id).map Controller.ledger

theorem ledger_eq_some {l : Ledger} : e.ledger id = some l ↔ ∃ c, e.controllers.get? id = some c ∧ c.ledger = l :=
  Option.map_eq_some_iff

theorem ledger_step (p : Progress) (now : Millis) : (p.step now).2.controller.ledger = p.controller.ledger := rfl

/-- The ledger notes the line of each statement that is arrived at. -/
theorem ledger_arrive (p : Progress) (line : UInt32) (now : Millis) :
    (p.arrive line now).2.controller.ledger = p.controller.ledger.note line := by
  cases hb : p.controller.breakpoints.get? line <;>
    simp only [Progress.arrive, Controller.record, Ledger.note, Controller.ledger, hb]

/-- **Statements within a budget** have their lines noted. -/
theorem ledger_run (stepping : Bool) (now : Millis) (budget : ℕ) (p : Progress) :
    (p.run stepping now budget).2.controller.ledger =
      (p.lines stepping now budget).foldl Ledger.note p.controller.ledger := by
  induction budget generalizing p with
  | zero => rfl
  | succ budget ih =>
    have hstep := ledger_step p now
    rw [Progress.run, Progress.lines]
    rcases hs : p.step now with ⟨_ | line | _, q⟩
    all_goals rw [hs] at hstep
    · exact hstep
    · have harrive := ledger_arrive q line now
      rcases hq : q.arrive line now with ⟨hit, q'⟩
      rw [hq, hstep] at harrive
      simp only [hq, List.foldl_cons, ← harrive]
      -- the line is noted in either case, before it is asked whether to pause
      by_cases hpause : (hit || stepping) = true
      · rw [if_pos hpause, if_pos hpause, List.foldl_nil]
      · rw [if_neg hpause, if_neg hpause]
        exact ih q'
    · exact hstep

/-- Notes change neither the room for the history nor whether there is a program. -/
theorem foldl_note_fixed (lines : List UInt32) (l : Ledger) :
    (lines.foldl Ledger.note l).capacity = l.capacity ∧ (lines.foldl Ledger.note l).loaded = l.loaded := by
  induction lines generalizing l with
  | nil => exact ⟨rfl, rfl⟩
  | cons line lines ih => exact ih (l.note line)

/-- **A turn** has its lines noted. -/
theorem ledger_turn (c : Controller) (s : Substation) (budget : ℕ) (stepping : Bool) (now : Millis) :
    (c.turn s budget stepping now).2.1.ledger = (c.lines s budget stepping now).foldl Ledger.note c.ledger := by
  rw [Controller.turn, Controller.lines]
  cases ht : c.task with
  | none => rfl
  | some t =>
    have hrun := ledger_run stepping now budget (c.progress t s)
    have hloaded := (foldl_note_fixed ((c.progress t s).lines stepping now budget) (c.progress t s).controller.ledger).2
    rw [← hrun] at hloaded
    -- a program is there before the turn, and it is put back after it
    have htask : (c.progress t s).controller.ledger.loaded = true := by
      simp only [Controller.progress, Controller.ledger, ht, Option.isSome_some]
    rw [htask] at hloaded
    refine Eq.trans ?_ hrun
    simp only [Controller.progress, Controller.ledger, Option.isSome_some] at hloaded ⊢
    rw [hloaded]

theorem ledger_reset (c : Controller) : c.reset.ledger = c.ledger := by
  simp only [Controller.ledger, Controller.reset, Option.isSome_map]

/-- No reset changes a ledger. -/
theorem ledger_resetAll (e : Engine) (id : String) : e.resetAll.ledger id = e.ledger id := by
  rw [ledger, resetAll, SortedMap.get?_mapValues, Option.map_map, ledger]
  exact congrFun (congrArg Option.map (funext ledger_reset)) _

theorem ledger_insert_self (controllers : SortedMap String Controller) (id : String) (c : Controller) :
    ((controllers.insert id c).get? id).map Controller.ledger = some c.ledger := by
  rw [SortedMap.get?_insert_self]
  rfl

theorem ledger_insert_of_ne (controllers : SortedMap String Controller) {other : String} (c : Controller)
    (h : id ≠ other) :
    ((controllers.insert other c).get? id).map Controller.ledger = (controllers.get? id).map Controller.ledger := by
  rw [SortedMap.get?_insert_of_ne _ _ h]

/-- The turn of another controller leaves a ledger as it is. -/
theorem ledger_turn_of_ne {other : String} (h : id ≠ other) (e : Engine) (now : Millis) :
    (e.turn other now).2.ledger id = e.ledger id := by
  have hcases := turn_cases e other now
  rcases hturn : e.turn other now with ⟨interruption, e'⟩
  rw [hturn] at hcases
  cases hcases with
  | passed => rfl
  | went | paused => exact ledger_insert_of_ne _ _ h
  | failed => exact (ledger_resetAll _ id).trans (ledger_insert_of_ne _ _ h)

/-- A controller's own turn notes its lines. -/
theorem ledger_turn_self (e : Engine) (id : String) (now : Millis) :
    (e.turn id now).2.ledger id = (e.ledger id).map fun l => (e.turnLines id now).foldl Ledger.note l := by
  rw [turn, turnLines]
  cases hc : e.controllers.get? id with
  | none => simp only [ledger, hc, Option.map_none]
  | some c =>
    have hledger : e.ledger id = some c.ledger := by rw [ledger, hc]; rfl
    simp only []
    split
    · have hlines := ledger_turn c e.substation e.settings.statementBudget (e.stepping id) now
      rcases hturn : c.turn e.substation e.settings.statementBudget (e.stepping id) now with ⟨ending, c', substation⟩
      rw [hturn] at hlines
      rw [hledger, Option.map_some, ← hlines]
      cases ending with
      | idle | yielded | completed | paused => exact ledger_insert_self _ id c'
      | failed => exact (ledger_resetAll _ id).trans (ledger_insert_self _ id c')
    · rw [hledger]
      rfl

/-- **Turns** have the lines of a controller noted, each in its place. -/
theorem ledger_turns (now : Millis) (id : String) (ids : List String) (e : Engine) :
    (e.turns now ids).2.ledger id = (e.ledger id).map fun l => (turnsLines now id ids e).foldl Ledger.note l := by
  induction ids generalizing e with
  | nil => exact Option.map_id'.symm
  | cons other ids ih =>
    have hturn : (e.turn other now).2.ledger id =
        (e.ledger id).map fun l => (if other = id then e.turnLines id now else []).foldl Ledger.note l := by
      split
      · rename_i heq
        subst heq
        exact ledger_turn_self e other now
      · rename_i hne
        rw [ledger_turn_of_ne (Ne.symm hne)]
        exact Option.map_id'.symm
    rw [turns, turnsLines]
    rcases hresult : e.turn other now with ⟨_ | ⟨_, _⟩ | _, e'⟩
    all_goals rw [hresult] at hturn
    · simp only [List.foldl_append]
      rw [ih e', hturn, Option.map_map]
      rfl
    · simp only [List.append_nil]
      exact hturn
    · simp only [List.append_nil]
      exact hturn

/-- **A tick** has the lines of a controller noted. -/
theorem ledger_tick (e : Engine) (now : Millis) (id : String) :
    (e.tick now).2.ledger id = (e.ledger id).map fun l => (e.tickLines now id).foldl Ledger.note l := by
  rw [tickLines]
  split
  · rename_i hrun
    rw [(tick_of_running hrun now).1]
    exact ledger_turns now id e.controllers.keys (e.prepared now)
  · rename_i hrun
    rw [tick_of_not_running hrun]
    exact Option.map_id'.symm

/-- The calls that edit the ledger of a controller. -/
def Call.Edits (id : String) : Call → Prop
  | .addController config => config.id = id
  | .removeController other | .loadProgram other _ | .setBreakpoint other _ _ _ _ | .removeBreakpoint other _
  | .clearBreakpoints other => other = id
  | _ => False

/-- **All that a call can do to a ledger**: note the lines that are executed meanwhile, or edit it. -/
inductive Edited (e : Engine) (now : Millis) (id : String) : Call → Option Ledger → Prop
  | noted {call : Call} (hcall : ¬ call.Edits id) :
      Edited e now id call ((e.ledger id).map fun l => (e.callLines now id call).foldl Ledger.note l)
  | added {config} (hid : config.id = id) :
      Edited e now id (.addController config) (some ⟨∅, [], e.settings.historyCapacity, false⟩)
  | removed : Edited e now id (.removeController id) none
  | loaded {source e' l} (hl : e.ledger id = some l) (hok : e.answer now (.loadProgram id source) = .ok e')
      (program : Script.Program) :
      Edited e now id (.loadProgram id source) (some { l with
        breakpoints := l.breakpoints.mapValues fun _ b => b.reread program
        history := []
        loaded := true })
  | set {line : UInt32} {enabled condition hitCount l} (hl : e.ledger id = some l) {b : Breakpoint}
      (hb : b.hits = ((l.breakpoints.get? line).map Breakpoint.hits).getD 0) :
      Edited e now id (.setBreakpoint id line enabled condition hitCount)
        (some { l with breakpoints := l.breakpoints.insert line b })
  | erased {l} (line : UInt32) (hl : e.ledger id = some l) :
      Edited e now id (.removeBreakpoint id line) (some { l with breakpoints := l.breakpoints.erase line })
  | cleared {l} (hl : e.ledger id = some l) : Edited e now id (.clearBreakpoints id) (some { l with breakpoints := ∅ })
  /-- There is no such controller. -/
  | absent {call : Call} (hnone : e.ledger id = none) (h : ∀ e', e.answer now call ≠ .ok e') : Edited e now id call none
  | rejected (source) (h : ∀ e', e.answer now (.loadProgram id source) ≠ .ok e') :
      Edited e now id (.loadProgram id source) (e.ledger id)

/-- A change of a controller that leaves its ledger alone. -/
theorem ledger_of_modify {other : String} {f : Controller → Controller} (hok : e.modifyController other f = .ok e')
    (hf : ∀ c, (f c).ledger = c.ledger) (id : String) : e'.ledger id = e.ledger id := by
  obtain ⟨c, hc, rfl⟩ := modifyController_eq_ok hok
  by_cases hid : id = other
  · subst hid
    rw [ledger, ledger_insert_self, hf, ledger, hc]
    rfl
  · exact ledger_insert_of_ne _ _ hid

/-- A call that executes nothing and leaves a ledger as it is. -/
theorem Edited.same (hcall : ¬ call.Edits id) (hlines : e.callLines now id call = []) {result : Option Ledger}
    (h : result = e.ledger id) : Edited e now id call result := by
  have hnoted : Edited e now id call _ := .noted hcall
  simp only [hlines, List.foldl_nil, Option.map_id'] at hnoted
  rwa [h]

/-- A call that changes one controller edits the ledger of this one, and leaves all others as they are. -/
theorem edited_insert {other : String} {c' : Controller} (hcall : call.Edits id → other = id)
    (hlines : e.callLines now id call = []) (hself : other = id → Edited e now id call (some c'.ledger)) :
    Edited e now id call (({ e with controllers := e.controllers.insert other c' } : Engine).ledger id) := by
  by_cases hid : other = id
  · rw [ledger, ← hid, ledger_insert_self, hid]
    exact hself hid
  · exact .same (mt hcall hid) hlines (ledger_insert_of_ne _ _ (Ne.symm hid))

/-- A new controller starts with an empty ledger. -/
theorem edited_addController (e : Engine) (now : Millis) (id : String) (config : ControllerConfig) :
    Edited e now id (.addController config) ((e.addController config).ledger id) := by
  by_cases hid : config.id = id
  · have hledger : (e.addController config).ledger id = some ⟨∅, [], e.settings.historyCapacity, false⟩ := by
      subst hid
      exact ledger_insert_self _ _ _
    rw [hledger]
    exact .added hid
  · refine .same (by exact hid) rfl ?_
    have hinsert : (e.addController config).ledger id =
        (if e.target = some config.id then e.dropStep else e).ledger id := ledger_insert_of_ne _ _ (Ne.symm hid)
    rw [hinsert]
    split
    · rw [ledger, controllers_dropStep, ledger]
    · rfl

/-- With a controller goes its ledger. -/
theorem edited_removeController {other : String} (hok : e.removeController other = .ok e') :
    Edited e now id (.removeController other) (e'.ledger id) := by
  obtain ⟨-, rfl⟩ := removeController_eq_ok hok
  have hcontrollers : (if e.target = some other then
      { ({ e with controllers := e.controllers.erase other } : Engine).dropStep with target := none }
      else { e with controllers := e.controllers.erase other }).controllers = e.controllers.erase other := by
    split
    · exact controllers_dropStep _
    · rfl
  rw [ledger, hcontrollers]
  by_cases hid : other = id
  · subst hid
    rw [SortedMap.get?_erase_self]
    exact .removed
  · refine .same (by exact hid) rfl ?_
    rw [SortedMap.get?_erase_of_ne _ (Ne.symm hid), ledger]

theorem ledger_enable {other : String} {enabled : Bool} (hok : e.enable other enabled = .ok e') (id : String) :
    e'.ledger id = e.ledger id := by
  rcases enable_eq_ok hok with hok | ⟨middle, hmodify, rfl⟩
  · exact ledger_of_modify hok (fun _ => rfl) id
  · refine Eq.trans ?_ (ledger_of_modify hmodify (fun _ => ledger_reset _) id)
    split
    · rw [ledger, controllers_dropStep, ledger]
    · rfl

/-- A program that is loaded empties the history, and the breakpoints keep their hits. -/
theorem edited_loadProgram {other source : String} (hok : e.answer now (.loadProgram other source) = .ok e') :
    Edited e now id (.loadProgram other source) (e'.ledger id) := by
  obtain ⟨c, c', hc, hload, rfl⟩ := loadProgram_eq_ok hok
  obtain ⟨program, scope, -, rfl⟩ := Controller.load_eq_ok hload
  refine edited_insert (by exact fun h => h) rfl ?_
  rintro rfl
  exact .loaded (ledger_eq_some.2 ⟨c, hc, rfl⟩) hok program

/-- A breakpoint that is set takes over the hits of the one that was on its line. -/
theorem edited_setBreakpoint {other : String} {enabled : Bool} {condition : Option String} {hitCount : Option UInt32}
    (hok : e.setBreakpoint other line enabled condition hitCount = .ok e') :
    Edited e now id (.setBreakpoint other line enabled condition hitCount) (e'.ledger id) := by
  obtain ⟨c, hc, rfl⟩ := modifyController_eq_ok hok
  refine edited_insert (by exact fun h => h) rfl ?_
  rintro rfl
  exact .set (ledger_eq_some.2 ⟨c, hc, rfl⟩) rfl

theorem edited_removeBreakpoint {other : String} (hok : e.answer now (.removeBreakpoint other line) = .ok e') :
    Edited e now id (.removeBreakpoint other line) (e'.ledger id) := by
  obtain ⟨c, hc, rfl⟩ := removeBreakpoint_eq_ok hok
  refine edited_insert (by exact fun h => h) rfl ?_
  rintro rfl
  exact .erased line (ledger_eq_some.2 ⟨c, hc, rfl⟩)

theorem edited_clearBreakpoints {other : String} (hok : e.clearBreakpoints other = .ok e') :
    Edited e now id (.clearBreakpoints other) (e'.ledger id) := by
  obtain ⟨c, hc, rfl⟩ := modifyController_eq_ok hok
  refine edited_insert (by exact fun h => h) rfl ?_
  rintro rfl
  exact .cleared (ledger_eq_some.2 ⟨c, hc, rfl⟩)

/-- **A call that succeeds edits a ledger in its own way**, or notes lines. -/
theorem edited_answer (hok : e.answer now call = .ok e') : Edited e now id call (e'.ledger id) := by
  cases call with
  | start =>
    cases hok
    refine .same (by simp [Call.Edits]) rfl ?_
    simp only [start]
    split
    · exact ledger_resetAll e id
    · rfl
  -- Calls about the run state note no line and edit no ledger.
  | stop =>
    cases hok
    exact .same (by simp [Call.Edits]) rfl (ledger_resetAll _ id)
  | pause | resume =>
    simp only [answer, pause, resume] at hok
    split at hok <;> cases hok <;> exact .same (by simp [Call.Edits]) rfl rfl
  | stepOver =>
    obtain ⟨-, rfl, -⟩ := stepOver_eq_ok hok
    exact .same (by simp [Call.Edits]) rfl rfl
  | addController config =>
    cases hok
    exact edited_addController e now id config
  | removeController other => exact edited_removeController hok
  | enable other enabled => exact .same (by simp [Call.Edits]) rfl (ledger_enable hok id)
  | setTickRate other rate => exact .same (by simp [Call.Edits]) rfl (ledger_of_modify hok (fun _ => rfl) id)
  | loadProgram other source => exact edited_loadProgram hok
  | setBreakpoint other line enabled condition hitCount => exact edited_setBreakpoint hok
  | removeBreakpoint other line => exact edited_removeBreakpoint hok
  | clearBreakpoints other => exact edited_clearBreakpoints hok
  | setTarget target =>
    obtain ⟨-, rfl⟩ := setTarget_eq_ok hok
    exact .same (by simp [Call.Edits]) rfl rfl
  | addNoise generator targets => cases hok; exact .same (by simp [Call.Edits]) rfl rfl
  | replaceSubstation substation => cases hok; exact .same (by simp [Call.Edits]) rfl rfl
  | tick =>
    cases hok
    rw [ledger_tick]
    exact .noted fun h => h

/-- An edit is refused where there is no controller, unless it is a text that is rejected. -/
theorem ledger_of_refused {fault : Fault} (hcall : call.Edits id) (hload : ∀ source, call ≠ .loadProgram id source)
    (h : e.answer now call = .error fault) : e.ledger id = none := by
  -- An edit of a controller fails only if there is none.
  have hmodify {f : Controller → Controller} (h : e.modifyController id f = .error fault) : e.ledger id = none := by
    rw [modifyController] at h
    split at h
    · cases h
    · rename_i hc
      rw [ledger, hc]
      rfl
  cases call with
  | addController => cases h
  | removeController other =>
    obtain rfl : other = id := hcall
    simp only [answer, removeController] at h
    split at h
    · cases h
    · rename_i habsent
      rw [ledger, Option.not_isSome_iff_eq_none.1 habsent]
      rfl
  | loadProgram other source =>
    obtain rfl : other = id := hcall
    exact absurd rfl (hload source)
  | setBreakpoint other =>
    obtain rfl : other = id := hcall
    exact hmodify h
  | removeBreakpoint other =>
    obtain rfl : other = id := hcall
    simp only [answer, removeBreakpoint] at h
    split at h
    · rename_i hc
      rw [ledger, hc]
      rfl
    · cases h
  | clearBreakpoints other =>
    obtain rfl : other = id := hcall
    exact hmodify h
  | _ => exact hcall.elim

/-- **A call** notes the lines that are executed meanwhile, or edits the ledger. -/
theorem edited_after (e : Engine) (now : Millis) (id : String) (call : Call) :
    Edited e now id call ((e.after now call).ledger id) := by
  cases hanswer : e.answer now call with
  | ok e' =>
    rw [after_of_ok hanswer]
    exact edited_answer hanswer
  | error fault =>
    have hsame : e.after now call = e := by simp only [after, hanswer]
    have hrefused : ∀ e', e.answer now call ≠ .ok e' := by simp [hanswer]
    rw [hsame]
    by_cases hcall : call.Edits id
    · by_cases hload : ∃ source, call = .loadProgram id source
      · obtain ⟨source, rfl⟩ := hload
        exact .rejected source hrefused
      · have hnone := ledger_of_refused hcall (fun source heq => hload ⟨source, heq⟩) hanswer
        rw [hnone]
        exact .absent hnone hrefused
    · -- a tick is never refused
      refine .same hcall ?_ rfl
      cases call with
      | tick => cases hanswer
      | _ => rfl

theorem settings_modifyController {f : Controller → Controller} (hok : e.modifyController id f = .ok e') :
    e'.settings = e.settings := by
  obtain ⟨c, -, rfl⟩ := modifyController_eq_ok hok
  rfl

theorem settings_dropStep (e : Engine) : e.dropStep.settings = e.settings := by
  rw [dropStep]
  split <;> rfl

theorem settings_turn (e : Engine) (id : String) (now : Millis) : (e.turn id now).2.settings = e.settings := by
  have hcases := turn_cases e id now
  rcases hturn : e.turn id now with ⟨interruption, e'⟩
  rw [hturn] at hcases
  cases hcases with
  | passed | went | paused | failed => rfl

/-- No tick changes the settings. -/
theorem settings_tick (e : Engine) (now : Millis) : (e.tick now).2.settings = e.settings := by
  by_cases hrun : e.run = .running
  · rw [(tick_of_running hrun now).1]
    have hkeep (e₁ : Engine) (id : String) (e₂ : Engine) (h : e₁.settings = e.settings)
        (hturn : e₁.turn id now = (.none, e₂)) : e₂.settings = e.settings := by
      have hsame := settings_turn e₁ id now
      rw [hturn] at hsame
      exact hsame.trans h
    rcases turns_cases hkeep e.controllers.keys (show (e.prepared now).settings = e.settings from rfl) with
      ⟨e', he', hturns⟩ | ⟨e', id, he', -, hturns⟩
    · rw [hturns]
      exact he'
    · rw [hturns]
      exact (settings_turn e' id now).trans he'
  · rw [tick_of_not_running hrun]
    rfl

/-- **The settings of an engine stay as they are.** -/
theorem settings_after (e : Engine) (now : Millis) (call : Call) : (e.after now call).settings = e.settings := by
  -- A call that fails changes nothing.
  rcases after_cases e now call with hsame | hok
  · rw [hsame]
  generalize e.after now call = e' at hok ⊢
  cases call with
  | start =>
    cases hok
    simp only [start]
    split <;> rfl
  | stop | addNoise | replaceSubstation => cases hok; rfl
  | pause | resume =>
    simp only [answer, pause, resume] at hok
    split at hok <;> cases hok <;> rfl
  | stepOver =>
    obtain ⟨-, rfl, -⟩ := stepOver_eq_ok hok
    rfl
  | addController config =>
    cases hok
    simp only [addController]
    split
    · exact settings_dropStep e
    · rfl
  | removeController other =>
    obtain ⟨-, rfl⟩ := removeController_eq_ok hok
    split
    · exact settings_dropStep _
    · rfl
  | enable other enabled =>
    rcases enable_eq_ok hok with hok | ⟨middle, hmodify, rfl⟩
    · exact settings_modifyController hok
    · split
      · exact (settings_dropStep middle).trans (settings_modifyController hmodify)
      · exact settings_modifyController hmodify
  | setTickRate | setBreakpoint | clearBreakpoints => exact settings_modifyController hok
  | loadProgram other source =>
    obtain ⟨c, c', -, -, rfl⟩ := loadProgram_eq_ok hok
    rfl
  | removeBreakpoint other line =>
    obtain ⟨c, -, rfl⟩ := removeBreakpoint_eq_ok hok
    rfl
  | setTarget target =>
    obtain ⟨-, rfl⟩ := setTarget_eq_ok hok
    rfl
  | tick =>
    cases hok
    exact settings_tick e now

/-- The room for the history is as the settings say, in all controllers. -/
structure Roomy (settings : Settings) (e : Engine) : Prop where
  unchanged : e.settings = settings
  capacity : ∀ id l, e.ledger id = some l → l.capacity = settings.historyCapacity

/-- The room for the history stays as the settings say after any call. -/
theorem roomy_after {settings : Settings} (h : Roomy settings e) (now : Millis) (call : Call) :
    Roomy settings (e.after now call) := by
  refine ⟨(settings_after e now call).trans h.unchanged, fun id l' hl' => ?_⟩
  have hedited := edited_after e now id call
  rw [hl'] at hedited
  generalize hresult : some l' = result at hedited
  cases hedited with
  | noted =>
    obtain ⟨l, hl, rfl⟩ := Option.map_eq_some_iff.1 hresult.symm
    exact (foldl_note_fixed _ l).1.trans (h.capacity id l hl)
  | added =>
    obtain rfl := Option.some.inj hresult
    exact congrArg Settings.historyCapacity h.unchanged
  | removed | absent => cases hresult
  | loaded hl | set hl | erased _ hl | cleared hl =>
    obtain rfl := Option.some.inj hresult
    have hcapacity := h.capacity id _ hl
    exact hcapacity
  | rejected => exact h.capacity id l' hresult.symm

/-- So it does after any number of calls. -/
theorem roomy_follow (settings : Settings) (calls : List (Millis × Call)) :
    Roomy settings ((new settings).follow calls) :=
  follow_invariant (P := Roomy settings) (fun _ now call h => roomy_after h now call)
    ⟨rfl, fun _ _ hl => by cases hl⟩ calls

end Switchyard.Engine
