import Mathlib.Logic.Relation
import Switchyard.Proofs.Engine.RunState
import Switchyard.Proofs.Script.Blocks

/-!
# What is installed in a controller

A controller keeps a program, its variables, a cycle in progress and conditions of
breakpoints side by side, and many calls change one of them. They fit together after any
calls: the variables are those that the program declares, the cycle works through blocks
of the program, and each condition is compiled for it (`controllers_fit`).

* `Controller.Change`: all ways in which a controller can change.
* `controller_origin`: a controller after a call is new, or it was there before and has changed in such ways.
* `Controller.Fits`, `fits_change`: what fits together, and that every change keeps it.
* `Slots`, `slots_after`: program, variables and cycle kept apart, and how a call changes them.
* `loadProgram_fails_iff`, `installed_of_loadProgram`: the texts that are not installed, and those that are.
-/

namespace Switchyard.Engine

open Script Relation

/-- **A controller changes**: in a call, or in its turn. -/
inductive Controller.Change : Controller → Controller → Prop
  | reset (c) : Change c c.reset
  | enable (c : Controller) (enabled : Bool) : Change c { c with enabled }
  | setTickRate (c : Controller) (tickRate : Millis) : Change c { c with tickRate }
  | load {c c'} (source now) (h : c.load source now = .ok c') : Change c c'
  | setBreakpoint (c : Controller) (line enabled condition hitCount) :
      Change c (c.setBreakpoint line enabled condition hitCount)
  | removeBreakpoint (c : Controller) (line) : Change c { c with breakpoints := c.breakpoints.erase line }
  | clearBreakpoints (c : Controller) : Change c { c with breakpoints := ∅ }
  | turn (c : Controller) (s budget stepping now) : Change c (c.turn s budget stepping now).2.1

/-- Controllers that come from others by changes. -/
def Derived (before after : SortedMap String Controller) : Prop :=
  ∀ id c', after.get? id = some c' → ∃ c, before.get? id = some c ∧ ReflTransGen Controller.Change c c'

variable {before middle after : SortedMap String Controller} {e e' : Engine} {id : String} {c c' : Controller}
  {now : Millis}

namespace Derived

theorem refl (before : SortedMap String Controller) : Derived before before := fun _ c hc => ⟨c, hc, .refl⟩

/-- Changes of controllers may follow each other. -/
theorem trans (h : Derived before middle) (h' : Derived middle after) : Derived before after := by
  intro id c'' hc''
  obtain ⟨c', hc', hlater⟩ := h' id c'' hc''
  obtain ⟨c, hc, hearlier⟩ := h id c' hc'
  exact ⟨c, hc, hearlier.trans hlater⟩

theorem insert (hc : before.get? id = some c) (h : ReflTransGen Controller.Change c c') :
    Derived before (before.insert id c') := by
  intro other d hd
  by_cases ho : other = id
  · subst ho
    obtain rfl := Option.some.inj ((SortedMap.get?_insert_self _ _ _).symm.trans hd)
    exact ⟨c, hc, h⟩
  · exact ⟨d, (SortedMap.get?_insert_of_ne _ _ ho).symm.trans hd, .refl⟩

theorem resetAll (before : SortedMap String Controller) : Derived before (before.mapValues fun _ c => c.reset) := by
  intro other d hd
  rw [SortedMap.get?_mapValues] at hd
  obtain ⟨c, hc, rfl⟩ := Option.map_eq_some_iff.1 hd
  exact ⟨c, hc, .single (.reset c)⟩

theorem erase (before : SortedMap String Controller) (id : String) : Derived before (before.erase id) :=
  fun _ d hd => ⟨d, (SortedMap.get?_erase_eq_some.1 hd).2, .refl⟩

end Derived

/-- An edit of a controller changes this one only. -/
theorem derived_modifyController {f : Controller → Controller} (hok : e.modifyController id f = .ok e')
    (hf : ∀ c, ReflTransGen Controller.Change c (f c)) : Derived e.controllers e'.controllers := by
  obtain ⟨c, hc, rfl⟩ := modifyController_eq_ok hok
  exact .insert hc (hf c)

/-- A turn changes the controller that has it, and the error of a program resets all. -/
theorem derived_turn (e : Engine) (id : String) (now : Millis) :
    Derived e.controllers (e.turn id now).2.controllers := by
  have hchange (c : Controller) {ending c' substation}
      (hturn : c.turn e.substation e.settings.statementBudget (e.stepping id) now = (ending, c', substation)) :
      ReflTransGen Controller.Change c c' := by
    have h := Controller.Change.turn c e.substation e.settings.statementBudget (e.stepping id) now
    rw [hturn] at h
    exact .single h
  have hcases := turn_cases e id now
  rcases hresult : e.turn id now with ⟨interruption, e'⟩
  rw [hresult] at hcases
  cases hcases with
  | passed => exact .refl _
  | went hc _ hturn => exact .insert hc (hchange _ hturn)
  | paused hc _ hturn => exact .insert hc (hchange _ hturn)
  | failed hc _ hturn => exact (Derived.insert hc (hchange _ hturn)).trans (.resetAll _)

/-- In the turns of a tick, each controller changes by its own turn. -/
theorem derived_turns (now : Millis) (ids : List String) (e : Engine) :
    Derived e.controllers (e.turns now ids).2.controllers := by
  induction ids generalizing e with
  | nil => exact .refl _
  | cons id ids ih =>
    have hturn := derived_turn e id now
    rw [turns]
    split
    · rename_i e' hresult
      rw [hresult] at hturn
      exact hturn.trans (ih e')
    · exact hturn

/-- A tick changes controllers by their turns only. -/
theorem derived_tick (e : Engine) (now : Millis) : Derived e.controllers (e.tick now).2.controllers := by
  by_cases hrun : e.run = .running
  · rw [(tick_of_running hrun now).1]
    exact derived_turns now e.controllers.keys (e.prepared now)
  · rw [tick_of_not_running hrun]
    exact .refl _

/-- A call that adds no controller changes those that are there. -/
theorem derived_answer {call : Call} (hadd : ∀ config, call ≠ .addController config)
    (hok : e.answer now call = .ok e') : Derived e.controllers e'.controllers := by
  -- Each call is a change of one controller, of all of them, or of none.
  cases call with
  | addController config => exact absurd rfl (hadd config)
  | start =>
    cases hok
    simp only [start]
    split
    · exact .resetAll _
    · exact .refl _
  | stop => cases hok; exact .resetAll _
  | pause | resume =>
    simp only [answer, pause, resume] at hok
    split at hok <;> cases hok <;> exact .refl _
  | stepOver =>
    obtain ⟨-, rfl, -⟩ := stepOver_eq_ok hok
    exact .refl _
  | removeController id =>
    obtain ⟨-, rfl⟩ := removeController_eq_ok hok
    split
    · simp only [controllers_dropStep]
      exact .erase _ id
    · exact .erase _ id
  | enable id enabled =>
    rcases enable_eq_ok hok with hok | ⟨middle, hmodify, rfl⟩
    · exact derived_modifyController hok fun c => .single (.enable c true)
    · have hderived : Derived e.controllers middle.controllers :=
        derived_modifyController hmodify fun c => (ReflTransGen.single (.enable c false)).tail (.reset _)
      split
      · rw [controllers_dropStep]
        exact hderived
      · exact hderived
  | setTickRate id rate => exact derived_modifyController hok fun c => .single (.setTickRate c rate)
  | loadProgram id source =>
    obtain ⟨c, c', hc, hload, rfl⟩ := loadProgram_eq_ok hok
    exact .insert hc (.single (.load source now hload))
  | setBreakpoint id line enabled condition hitCount =>
    exact derived_modifyController hok fun c => .single (.setBreakpoint c line enabled condition hitCount)
  | removeBreakpoint id line =>
    obtain ⟨c, hc, rfl⟩ := removeBreakpoint_eq_ok hok
    exact .insert hc (.single (.removeBreakpoint c line))
  | clearBreakpoints id => exact derived_modifyController hok fun c => .single (.clearBreakpoints c)
  | setTarget id =>
    obtain ⟨-, rfl⟩ := setTarget_eq_ok hok
    exact .refl _
  | addNoise generator targets => cases hok; exact .refl _
  | replaceSubstation substation => cases hok; exact .refl _
  | tick => cases hok; exact derived_tick e now

/-- **Where a controller comes from.** After a call it has just been added, or it was there before and has changed
as controllers do. -/
theorem controller_origin (e : Engine) (now : Millis) (call : Call)
    (hc' : (e.after now call).controllers.get? id = some c') :
    (∃ config rate capacity, c' = .ofConfig config rate capacity) ∨
      ∃ c, e.controllers.get? id = some c ∧ ReflTransGen Controller.Change c c' := by
  rcases after_cases e now call with hsame | hok
  · rw [hsame] at hc'
    exact .inr ⟨c', hc', .refl⟩
  by_cases hadd : ∃ config, call = .addController config
  · obtain ⟨config, rfl⟩ := hadd
    simp only [after, answer, addController] at hc'
    by_cases hid : id = config.id
    · subst hid
      exact .inl ⟨config, _, _, (Option.some.inj ((SortedMap.get?_insert_self _ _ _).symm.trans hc')).symm⟩
    · have hbefore := (SortedMap.get?_insert_of_ne _ _ hid).symm.trans hc'
      refine .inr ⟨c', ?_, .refl⟩
      split at hbefore
      · rwa [controllers_dropStep] at hbefore
      · exact hbefore
  · exact .inr (derived_answer (fun config hcall => hadd ⟨config, hcall⟩) hok id c' hc')

/-- **A property of controllers** that new ones have and that every change keeps holds of all controllers after any
calls. -/
theorem controllers_follow {P : Controller → Prop} (hnew : ∀ config rate capacity, P (.ofConfig config rate capacity))
    (hchange : ∀ c c', P c → c.Change c' → P c') (settings : Settings) (calls : List (Millis × Call)) :
    ∀ id c, ((new settings).follow calls).controllers.get? id = some c → P c := by
  have hnone : ∀ id c, (new settings).controllers.get? id = some c → P c := fun _ _ hc => (nomatch hc)
  refine follow_invariant (P := fun e => ∀ id c, e.controllers.get? id = some c → P c) ?_ hnone calls
  intro e now call h id c' hc'
  rcases controller_origin e now call hc' with ⟨config, rate, capacity, rfl⟩ | ⟨c, hc, hchanges⟩
  · exact hnew config rate capacity
  · have hc := h id c hc
    clear hc'
    induction hchanges with
    | refl => exact hc
    | tail _ hstep ih => exact hchange _ _ ih hstep

/-- A condition is compiled for a program: it has the compiled form of its text, if there is a text and a program
and the text is accepted. -/
def Breakpoint.CompiledFor (program : Option Program) (b : Breakpoint) : Prop :=
  b.compiled = compileFor program b.condition

/-- **The parts of a controller fit together.** -/
structure Controller.Fits (c : Controller) : Prop where
  scope : ∀ t, c.task = some t → t.scope.headings = t.program.vars.map Declaration.heading
  execution : ∀ t, c.task = some t → ∀ e, t.execution = some e → e.Within t.program
  breakpoints : ∀ line b, c.breakpoints.get? line = some b → b.CompiledFor c.program?

/-- A condition is compiled for the program it belongs to. -/
theorem compileFor_eq_some {program : Option Program} {condition : Option String} {compiled : Expr} :
    Breakpoint.compileFor program condition = some compiled ↔
      ∃ text p, condition = some text ∧ program = some p ∧ parseCondition p text = .ok compiled := by
  unfold Breakpoint.compileFor
  cases condition with
  | none => simp
  | some text =>
    cases program with
    | none => simp
    | some p => cases hparse : parseCondition p text <;> simp [Except.toOption, hparse]

/-- A new controller has no program, and nothing that would need one. -/
theorem fits_ofConfig (config : ControllerConfig) (rate : Millis) (capacity : Nat) :
    (Controller.ofConfig config rate capacity).Fits :=
  ⟨fun _ ht => (nomatch ht), fun _ ht => (nomatch ht), fun _ _ hb => (nomatch hb)⟩

/-- A controller fits together if its task is as it was, and its breakpoints are compiled for its program. -/
theorem Controller.Fits.congr (h : c.Fits) (htask : c'.task = c.task)
    (hbreakpoints : ∀ line b, c'.breakpoints.get? line = some b → b.CompiledFor c.program?) : c'.Fits := by
  refine ⟨?_, ?_, ?_⟩
  · rw [htask]
    exact h.scope
  · rw [htask]
    exact h.execution
  · rw [Controller.program?, htask]
    exact hbreakpoints

/-- A reset leaves the program with its variables, and nothing of its execution. -/
theorem Controller.Fits.reset (h : c.Fits) : c.reset.Fits := by
  refine ⟨fun t ht => ?_, fun t ht e he => ?_, ?_⟩
  · obtain ⟨t', ht', rfl⟩ := Option.map_eq_some_iff.1 ht
    exact h.scope t' ht'
  · obtain ⟨t', -, rfl⟩ := Option.map_eq_some_iff.1 ht
    cases he
  · have hprogram : c.reset.program? = c.program? := by
      simp only [Controller.program?, Controller.reset, Option.map_map]
      rfl
    rw [hprogram]
    exact h.breakpoints

/-- A program is installed with its own variables, and all conditions are compiled for it. -/
theorem fits_load {source : String} (h : c.load source now = .ok c') : c'.Fits := by
  rw [Controller.load, Controller.prepare] at h
  cases hcompile : compile source with
  | error err => rw [hcompile] at h; cases h
  | ok program =>
    cases hscope : Scope.ofProgram program now with
    | error err => simp only [hcompile, hscope] at h; cases h
    | ok scope =>
      simp only [hcompile, hscope] at h
      cases h
      refine ⟨fun t ht => ?_, fun t ht e he => ?_, fun line b hb => ?_⟩
      · cases ht
        exact headings_ofProgram hscope
      · cases ht
        cases he
      · have hread := (SortedMap.get?_mapValues _ _ _).symm.trans hb
        obtain ⟨old, -, rfl⟩ := Option.map_eq_some_iff.1 hread
        rfl

/-- The condition of a new breakpoint is compiled for the present program. -/
theorem Controller.Fits.setBreakpoint (h : c.Fits) (line : UInt32) (enabled : Bool) (condition : Option String)
    (hitCount : Option UInt32) : (c.setBreakpoint line enabled condition hitCount).Fits := by
  refine h.congr rfl fun other b hb => ?_
  by_cases ho : other = line
  · subst ho
    obtain rfl := Option.some.inj ((SortedMap.get?_insert_self _ _ _).symm.trans hb)
    rfl
  · exact h.breakpoints other b ((SortedMap.get?_insert_of_ne _ _ ho).symm.trans hb)

/-- A cycle under way fits together with the program it belongs to. -/
structure Progress.Fits (program : Program) (p : Progress) : Prop where
  scope : p.scope.headings = program.vars.map Declaration.heading
  execution : p.execution.Within program
  breakpoints : ∀ line b, p.controller.breakpoints.get? line = some b → b.CompiledFor (some program)

/-- A step keeps the scope to the variables of the program, and the execution to its blocks. -/
theorem Progress.Fits.step {program : Program} {p : Progress} (h : p.Fits program) (now : Millis) :
    (p.step now).2.Fits program :=
  ⟨(headings_step ..).trans h.scope, h.execution.step _ _ _, h.breakpoints⟩

/-- A hit is counted, and the condition stays. -/
theorem Progress.Fits.arrive {program : Program} {p : Progress} (h : p.Fits program) (line : UInt32) (now : Millis) :
    (p.arrive line now).2.Fits program := by
  unfold Progress.arrive
  simp only []
  split
  · rename_i b hb
    refine ⟨h.scope, h.execution, fun other b' hb' => ?_⟩
    by_cases ho : other = line
    · subst ho
      obtain rfl := Option.some.inj ((SortedMap.get?_insert_self _ _ _).symm.trans hb')
      exact h.breakpoints other b hb
    · exact h.breakpoints other b' ((SortedMap.get?_insert_of_ne _ _ ho).symm.trans hb')
  · exact ⟨h.scope, h.execution, h.breakpoints⟩

/-- So does a run of any number of steps. -/
theorem Progress.Fits.run {program : Program} (stepping : Bool) (now : Millis) (budget : ℕ) {p : Progress}
    (h : p.Fits program) : (p.run stepping now budget).2.Fits program := by
  induction budget generalizing p with
  | zero => exact h
  | succ budget ih =>
    have hstep := h.step now
    rw [Progress.run]
    rcases hs : p.step now with ⟨_ | line | _, q⟩
    all_goals rw [hs] at hstep
    · exact hstep
    · simp only
      split
      · exact hstep.arrive line now
      · exact ih (hstep.arrive line now)
    · exact hstep

/-- The cycle that a turn goes on with, or starts. -/
theorem Controller.Fits.progress (h : c.Fits) {t : Task} (ht : c.task = some t) (s : Substation) :
    Progress.Fits t.program ⟨t.execution.getD (.start t.program), t.scope, c, s⟩ := by
  have hprogram : c.program? = some t.program := by rw [Controller.program?, ht]; rfl
  have hbreakpoints := h.breakpoints
  rw [hprogram] at hbreakpoints
  refine ⟨h.scope t ht, ?_, hbreakpoints⟩
  cases he : t.execution with
  | none => exact within_start t.program
  | some e => exact h.execution t ht e he

/-- **A turn** takes the scope and the cycle out of the controller, and puts back what fits. -/
theorem Controller.Fits.turn (h : c.Fits) (s : Substation) (budget : ℕ) (stepping : Bool) (now : Millis) :
    (c.turn s budget stepping now).2.1.Fits := by
  unfold Controller.turn
  cases ht : c.task with
  | none => exact h
  | some t =>
    have hp := h.progress ht s
    have hrun := hp.run stepping now budget
    rcases hended : Progress.run stepping now budget ⟨t.execution.getD (.start t.program), t.scope, c, s⟩
      with ⟨ending, p⟩
    rw [hended] at hrun
    simp only [hended]
    refine ⟨fun t' ht' => ?_, fun t' ht' e he => ?_, hrun.breakpoints⟩
    · cases ht'
      exact hrun.scope
    · cases ht'
      cases ending with
      | completed | failed err => cases he
      | idle | yielded | paused line =>
        cases he
        exact hrun.execution

/-- **Every change keeps the parts of a controller together.** -/
theorem fits_change (h : c.Fits) (hchange : c.Change c') : c'.Fits := by
  cases hchange with
  | reset => exact h.reset
  | enable enabled => exact h.congr rfl h.breakpoints
  | setTickRate rate => exact h.congr rfl h.breakpoints
  | load source now hload => exact fits_load hload
  | setBreakpoint line enabled condition hitCount => exact h.setBreakpoint line enabled condition hitCount
  | removeBreakpoint line =>
    exact h.congr rfl fun other b hb => h.breakpoints other b (SortedMap.get?_erase_eq_some.1 hb).2
  | clearBreakpoints => exact h.congr rfl fun _ _ hb => nomatch hb
  | turn s budget stepping now => exact h.turn s budget stepping now

/-- A program, its variables and its cycle, each in a place of its own. -/
structure Slots where
  program : Option Program
  scope : Option Scope
  execution : Option Execution

/-- What a controller keeps. -/
def Controller.slots (c : Controller) : Slots := ⟨c.program?, c.scope?, c.execution?⟩

/-- What a turn of a controller runs, from a cycle and variables. -/
def Controller.runs (c : Controller) (s : Substation) (budget : ℕ) (stepping : Bool) (now : Millis)
    (execution : Execution) (scope : Scope) : TurnEnd × Execution × Scope :=
  let ran := Progress.run stepping now budget ⟨execution, scope, c, s⟩
  (ran.1, ran.2.execution, ran.2.scope)

namespace Slots

def empty : Slots := ⟨none, none, none⟩

/-- A turn, with what it runs. It takes out the cycle, or begins one, and then the variables. If these are missing it
ends there, and the cycle is lost; otherwise it puts back the variables, and the cycle unless that is over. -/
def turn (s : Slots) (run : Execution → Scope → TurnEnd × Execution × Scope) : Slots :=
  match s.program with
  | none => s
  | some program =>
    match s.scope with
    | none => { s with execution := none }
    | some scope =>
      let (ending, execution, scope) := run (s.execution.getD (.start program)) scope
      { s with
        scope := some scope
        execution := match ending with
          | .completed | .failed _ => none
          | _ => some execution }

/-- The slots change: with a reset, when a text is installed, or in a turn of a controller. -/
inductive Change : Slots → Slots → Prop
  | keep (s) : Change s s
  | reset (s : Slots) : Change s { s with execution := none }
  | install (s) {source now program scope} (h : Controller.prepare source now = .ok (program, scope)) :
      Change s ⟨some program, some scope, none⟩
  | turn (s : Slots) (c : Controller) (substation budget stepping now) :
      Change s (s.turn (c.runs substation budget stepping now))

/-- Slots that have come to be by changes. -/
def Led (s : Slots) : Prop := ReflTransGen Change empty s

/-- **Nothing is missing in slots** that have come to be by changes: there are variables exactly if there is a
program, so no turn ends for want of them. -/
theorem scope_isSome_of_led {s : Slots} (h : s.Led) : s.scope.isSome = s.program.isSome := by
  induction h with
  | refl => rfl
  | tail _ hchange ih =>
    cases hchange with
    | keep | reset => exact ih
    | install => rfl
    | turn c substation budget stepping now =>
      rename_i before
      unfold turn
      split
      · exact ih
      · rename_i program hprogram
        split
        · exact ih
        · exact (congrArg Option.isSome hprogram).symm

end Slots

/-- Without a program, all slots are empty. -/
theorem slots_of_no_task (h : c.task = none) : c.slots = .empty := by
  simp [Controller.slots, Controller.program?, Controller.scope?, Controller.execution?, h, Slots.empty]

/-- With a program, its slots are those of the task. -/
theorem slots_of_task {t : Task} (h : c.task = some t) : c.slots = ⟨some t.program, some t.scope, t.execution⟩ := by
  simp [Controller.slots, Controller.program?, Controller.scope?, Controller.execution?, h]

/-- **A controller changes as slots do** that are kept apart. -/
theorem slots_change (h : c.Change c') : c.slots.Change c'.slots := by
  -- Only three changes touch the slots: a reset, a program that is loaded, and a turn.
  cases h with
  | reset =>
    have hslots : c.reset.slots = { c.slots with execution := none } := by
      cases ht : c.task with
      | none =>
        have hreset : c.reset.task = none := by rw [Controller.reset, ht]; rfl
        rw [slots_of_no_task ht, slots_of_no_task hreset]
        rfl
      | some t =>
        have hreset : c.reset.task = some { t with execution := none } := by rw [Controller.reset, ht]; rfl
        rw [slots_of_task ht, slots_of_task hreset]
    rw [hslots]
    exact .reset _
  | load source now hload =>
    obtain ⟨program, scope, hprepare, rfl⟩ := Controller.load_eq_ok hload
    exact .install _ hprepare
  | turn s budget stepping now =>
    have hslots : (c.turn s budget stepping now).2.1.slots = c.slots.turn (c.runs s budget stepping now) := by
      cases ht : c.task with
      | none =>
        simp only [Controller.turn, ht]
        rw [slots_of_no_task ht]
        rfl
      | some t =>
        simp only [Controller.turn, ht]
        rw [slots_of_task ht]
        rfl
    rw [hslots]
    exact .turn _ c s budget stepping now
  | _ => exact .keep _

/-- **After a call** a controller is new, with nothing in its slots, or its slots have changed as slots do. -/
theorem slots_after (e : Engine) (now : Millis) (call : Call)
    (hc' : (e.after now call).controllers.get? id = some c') :
    c'.slots = .empty ∨ ∃ c, e.controllers.get? id = some c ∧ ReflTransGen Slots.Change c.slots c'.slots := by
  rcases controller_origin e now call hc' with ⟨config, rate, capacity, rfl⟩ | ⟨c, hc, hchanges⟩
  · exact .inl rfl
  · exact .inr ⟨c, hc, hchanges.lift Controller.slots fun _ _ => slots_change⟩

/-- **A text is refused** if it does not compile or one of its initializers fails. -/
theorem loadProgram_fails_iff (hc : e.controllers.get? id = some c) (source : String) (now : Millis) :
    (∃ fault, e.loadProgram id source now = .error fault) ↔
      (∃ err, compile source = .error err) ∨
        ∃ program err, compile source = .ok program ∧ Scope.ofProgram program now = .error err := by
  simp only [loadProgram, hc, Controller.load, Controller.prepare]
  cases hcompile : compile source with
  | error err => simp [Except.map]
  | ok program => cases hscope : Scope.ofProgram program now <;> simp [Except.map, hscope]

/-- **A text that is accepted is installed**: what it compiles to, with fresh variables and no cycle in progress. -/
theorem installed_of_loadProgram {source : String} (hok : e.loadProgram id source now = .ok e') :
    ∃ c' program scope, e'.controllers.get? id = some c' ∧ compile source = .ok program ∧
      Scope.ofProgram program now = .ok scope ∧ c'.program? = some program ∧ c'.scope? = some scope ∧
      c'.execution? = none := by
  obtain ⟨c, c', -, hload, rfl⟩ := loadProgram_eq_ok hok
  rw [Controller.load, Controller.prepare] at hload
  cases hcompile : compile source with
  | error err => rw [hcompile] at hload; cases hload
  | ok program =>
    cases hscope : Scope.ofProgram program now with
    | error err => simp only [hcompile, hscope] at hload; cases hload
    | ok scope =>
      simp only [hcompile, hscope] at hload
      cases hload
      exact ⟨_, program, scope, SortedMap.get?_insert_self .., rfl, hscope, rfl, rfl, rfl⟩

/-- **Controllers fit together** after any calls at any times. With program, variables and cycle kept apart, a call
changes a controller only with resets, by installing what a text has been prepared to, and in turns, which take the
variables and the cycle out for a while. Then there are variables exactly if there is a program, and they are the ones
that the program declares, in order. A cycle in progress consists of what is left of blocks of that program. A
breakpoint has a compiled condition exactly if it has a text that is accepted for that program, and it is what the text
is compiled to. And a text is refused exactly if it does not compile or one of its initializers fails, and then nothing
changes; otherwise what it compiles to is installed, and no cycle is in progress. -/
theorem controllers_fit (settings : Settings) (calls : List (Millis × Call)) :
    let e := (new settings).follow calls
    ∀ id c, e.controllers.get? id = some c →
      (c.slots.Led ∧
        (∀ now call c', (e.after now call).controllers.get? id = some c' →
          c'.slots = .empty ∨ ReflTransGen Slots.Change c.slots c'.slots) ∧
        (∀ slots : Slots, slots.Led → slots.scope.isSome = slots.program.isSome) ∧
        c.scope?.isSome = c.program?.isSome ∧
        ∀ program scope, c.program? = some program → c.scope? = some scope →
          scope.bindings.map (fun b => (b.key, b.name, b.type)) =
            program.vars.map fun d => (d.key, d.name, d.type)) ∧
      (∀ execution, c.execution? = some execution →
        ∃ program, c.program? = some program ∧
          ∀ rest ∈ execution.frames, ∃ block, program.Block block ∧ rest <:+ block) ∧
      (∀ line b, c.breakpoints.get? line = some b → ∀ compiled, b.compiled = some compiled ↔
        ∃ text program, b.condition = some text ∧ c.program? = some program ∧
          parseCondition program text = .ok compiled) ∧
      ∀ source now,
        ((∃ fault, e.answer now (.loadProgram id source) = .error fault) ↔
          (∃ err, compile source = .error err) ∨
            ∃ program err, compile source = .ok program ∧ Scope.ofProgram program now = .error err) ∧
        ((∃ fault, e.answer now (.loadProgram id source) = .error fault) →
          e.after now (.loadProgram id source) = e) ∧
        ∀ e', e.answer now (.loadProgram id source) = .ok e' → ∃ c' program scope,
          e'.controllers.get? id = some c' ∧ compile source = .ok program ∧
            Scope.ofProgram program now = .ok scope ∧ c'.program? = some program ∧ c'.scope? = some scope ∧
            c'.execution? = none := by
  intro e id c hc
  -- Both invariants hold of a new controller and survive every change of one, so they hold along all calls.
  have hfits : c.Fits :=
    controllers_follow fits_ofConfig (fun _ _ h hchange => fits_change h hchange) settings calls id c hc
  have hled : c.slots.Led :=
    controllers_follow (P := fun c => c.slots.Led) (fun _ _ _ => .refl)
      (fun _ _ h hchange => h.tail (slots_change hchange)) settings calls id c hc
  refine ⟨⟨hled, fun now call c' hc' => ?_, fun _ => Slots.scope_isSome_of_led, Slots.scope_isSome_of_led hled,
    fun program scope hprogram hscope => ?_⟩, fun execution he => ?_, fun line b hb compiled => ?_,
    fun source now => ⟨loadProgram_fails_iff hc source now, ?_, fun _ hok => installed_of_loadProgram hok⟩⟩
  · refine (slots_after e now call hc').imp_right fun ⟨before, hbefore, hchanges⟩ => ?_
    obtain rfl := Option.some.inj (hc.symm.trans hbefore)
    exact hchanges
  · obtain ⟨t, ht, rfl⟩ := Option.map_eq_some_iff.1 hprogram
    rw [Controller.scope?, ht] at hscope
    cases hscope
    exact hfits.scope t ht
  · obtain ⟨t, ht, he⟩ := Option.bind_eq_some_iff.1 he
    exact ⟨t.program, by rw [Controller.program?, ht]; rfl, hfits.execution t ht execution he⟩
  · rw [show b.compiled = _ from hfits.breakpoints line b hb]
    exact compileFor_eq_some
  · rintro ⟨fault, hfault⟩
    simp only [Engine.after, hfault]

/-- An engine that has been paused within a loop, by a breakpoint whose condition was set before there was a program. -/
def midway : List (Millis × Call) :=
  [(0, .addController ⟨"a", none, "default", true, none⟩), (0, .setBreakpoint "a" 3 true (some "N > 1") none),
    (0, .loadProgram "a" "VAR n : INT; END_VAR\nWHILE n < 5 DO\nn := n + 1;\nEND_WHILE"), (0, .start), (0, .tick)]

theorem midway_fits :
    let e := (new .standard).follow midway
    e.run = .paused ∧ ∃ c b execution program compiled, e.controllers.get? "a" = some c ∧
      c.execution? = some execution ∧ execution.depth = 2 ∧ c.program? = some program ∧
      (∀ rest ∈ execution.frames, ∃ block, program.Block block ∧ rest <:+ block) ∧
      c.breakpoints.get? 3 = some b ∧ b.compiled = some compiled ∧ parseCondition program "N > 1" = .ok compiled ∧
      e.after 0 (.loadProgram "a" "VAR n : INT := 1 / 0; END_VAR") = e := by
  intro e
  -- The run is evaluated for what the theorem does not say, the rest comes from the theorem itself.
  have hrun : e.run = .paused := by decide +kernel
  have hstate : (e.controllers.get? "a").any (fun c => (c.execution?.any fun execution => execution.depth == 2) &&
      (c.breakpoints.get? 3).any fun b => b.condition == some "N > 1" && b.compiled.isSome) = true := by decide +kernel
  have hfails : (e.loadProgram "a" "VAR n : INT := 1 / 0; END_VAR" 0).toOption.isNone = true := by decide +kernel
  obtain ⟨c, hc, hstate⟩ := (Option.any_eq_true _ _).1 hstate
  obtain ⟨hcycle, hbreakpoint⟩ := Bool.and_eq_true_iff.1 hstate
  obtain ⟨execution, hexecution, hdepth⟩ := (Option.any_eq_true _ _).1 hcycle
  obtain ⟨b, hb, hcondition⟩ := (Option.any_eq_true _ _).1 hbreakpoint
  obtain ⟨htext, hcompiled⟩ := Bool.and_eq_true_iff.1 hcondition
  obtain ⟨compiled, hcompiled⟩ := Option.isSome_iff_exists.1 hcompiled
  obtain ⟨-, hblocks, hconditions, hloads⟩ := controllers_fit .standard midway "a" c hc
  obtain ⟨program, hprogram, hwithin⟩ := hblocks execution hexecution
  obtain ⟨text, program', htext', hprogram', hparse⟩ := (hconditions 3 b hb compiled).1 hcompiled
  obtain rfl : program = program' := Option.some.inj (hprogram.symm.trans hprogram')
  obtain rfl : text = "N > 1" := Option.some.inj (htext'.symm.trans (beq_iff_eq.1 htext))
  refine ⟨hrun, c, b, execution, program, compiled, hc, hexecution, beq_iff_eq.1 hdepth, hprogram, hwithin, hb,
    hcompiled, hparse, (hloads _ 0).2.1 ?_⟩
  cases hload : e.loadProgram "a" "VAR n : INT := 1 / 0; END_VAR" 0 with
  | error fault => exact ⟨fault, hload⟩
  | ok e' =>
    rw [hload] at hfails
    cases hfails

end Switchyard.Engine
