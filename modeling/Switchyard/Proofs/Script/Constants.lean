import Switchyard.Proofs.Script.StepTime

/-!
# State constants

The timer of a state constant stands for the value that the constant starts with, and
goes on standing for it whatever happens. The constant itself is a variable like any
other: the compiler takes an assignment to it, and a step that stores another value
parts the two (`constant_reassigned`). They stay together exactly where all that is
stored in the constant is the value its timer stands for, and so in every program that
has no assignment to it (`constant_stands_iff`).

* `Scope.Stands`: a constant has the value that its timer stands for.
* `Execution.Stores`: the value that the next step stores in a variable.
* `Stmt.targets`, `blockTargets`: the variables that are assigned to.
-/

namespace Switchyard.Script

variable {σ : Type} {p : Program} {dev : Device σ} {state : σ} {e : Execution} {s s' : Scope} {key : String}
  {d : Declaration} {w : Scalar}

/-- A constant has the value that its timer stands for. -/
def Scope.Stands (s : Scope) (key : String) : Prop := ∃ n, s.target? key = some n ∧ s.get? key = some (.int n)

/-- **A constant stays what its timer stands for**, wherever the program comes to. -/
def Program.Fixes (p : Program) (key : String) : Prop := ∀ e s, Reached p e s → s.Stands key

/-- **The value that a step stores** in a variable: the next statement is an assignment to it, and this is what the
variable makes of the value. -/
def Execution.Stores (e : Execution) (dev : Device σ) (s : Scope) (state : σ) (key : String) (w : Scalar) : Prop :=
  ∃ line value after outer v b, e.settle.frames = (.assign line key value :: after) :: outer ∧
    ((evaluate dev s value).run state).1 = .ok v ∧ s.find? key = some b ∧ convert b.type b.name v = .ok w

namespace Scope

theorem target?_set {value : Scalar} (h : s.set key value = .ok s') (other : String) :
    s'.target? other = s.target? other := by
  rw [target?, target?, timer?_set h]

theorem target?_followState (s : Scope) (now : Millis) (key : String) :
    (s.followState now).target? key = s.target? key := by
  rcases s.followState_cases now with ⟨hs, -⟩ | ⟨n, -, -, hs⟩
  · rw [hs]
  · rw [hs, target?, timer?_map_restart, target?, Option.map_map]
    -- a timer that is restarted stands for the same value
    refine congrArg (Option.map · (s.timer? key)) (funext fun t => ?_)
    simp only [Function.comp_apply]
    split
    · rfl
    · rfl

end Scope

/-- **No step changes what a timer stands for.** -/
theorem target?_step (e : Execution) (dev : Device σ) (s : Scope) (state : σ) (key : String) :
    (e.step dev s state).scope.target? key = s.target? key := by
  rcases e.scope_step dev s state with hsame | ⟨mid, now, hscope, rfl | hassigned⟩
  · rw [hsame]
  · rw [hscope, Scope.target?_followState]
  · obtain ⟨line, other, value, v, after, outer, -, -, hset⟩ := hassigned
    rw [hscope, Scope.target?_followState, Scope.target?_set hset]

/-- A value that a step stores is there after the step. -/
theorem get?_step_of_stores (h : e.Stores dev s state key w) : (e.step dev s state).scope.get? key = some w := by
  obtain ⟨line, value, after, outer, v, b, hframes, hv, hfind, hconvert⟩ := h
  obtain ⟨s', hset, hget⟩ : ∃ s', s.set key v = .ok s' ∧ s'.get? key = some w := by
    refine ⟨s.modify key fun b => { b with value := w }, by simp only [Scope.set, hfind, hconvert], ?_⟩
    rw [Scope.get?, Scope.find?_modify_self, hfind]
    · rfl
    · exact fun _ => rfl
  have hleft : ((runStmt dev s (.assign line key value) after).run state).1 = .ok (s', [after]) :=
    runStmt_assign_eq_ok.2 ⟨v, s', hv, hset, rfl⟩
  rw [Execution.step_of_frames hframes]
  rcases hrun : (runStmt dev s (.assign line key value) after).run state with ⟨err | left, state'⟩
  · rw [hrun] at hleft
    cases hleft
  · rw [hrun] at hleft
    cases hleft
    exact (Scope.get?_followState s' _ key).trans hget

/-- A variable in which a step stores nothing keeps its value. -/
theorem get?_step_of_not_stores (h : ∀ w, ¬ e.Stores dev s state key w) :
    (e.step dev s state).scope.get? key = s.get? key := by
  rcases e.scope_step dev s state with hsame | ⟨mid, now, hscope, rfl | hassigned⟩
  · rw [hsame]
  · rw [hscope, Scope.get?_followState]
  · obtain ⟨line, other, value, v, after, outer, hframes, hv, hset⟩ := hassigned
    rw [hscope, Scope.get?_followState]
    by_cases hother : key = other
    · subst hother
      obtain ⟨b, w, hfind, hconvert, -⟩ := Scope.set_eq_ok hset
      exact absurd ⟨line, value, after, outer, v, b, hframes, hv, hfind, hconvert⟩ (h w)
    · rw [Scope.get?, Scope.get?, Scope.find?_set_of_ne hset hother]

/-- **One step**: a constant that is what its timer stands for stays so, unless another value is stored in it. -/
theorem Scope.Stands.step (h : s.Stands key)
    (hstores : ∀ w, e.Stores dev s state key w → (s.target? key).map Scalar.int = some w) :
    (e.step dev s state).scope.Stands key := by
  obtain ⟨n, htarget, hget⟩ := h
  refine ⟨n, (target?_step e dev s state key).trans htarget, ?_⟩
  by_cases hw : ∃ w, e.Stores dev s state key w
  · obtain ⟨w, hw⟩ := hw
    have hint : some (Scalar.int n) = some w := by rw [← hstores w hw, htarget, Option.map_some]
    rw [get?_step_of_stores hw, hint]
  · rw [get?_step_of_not_stores fun w hstored => hw ⟨w, hstored⟩, hget]

mutual

/-- The variables that a statement may assign to. -/
def Stmt.targets : Stmt → List String
  | .assign _ target _ => [target]
  | .call _ _ _ => []
  | .choose _ arms => arms.targets
  | .loop _ _ body => blockTargets body

def Arms.targets : Arms → List String
  | .none => []
  | .otherwise body => blockTargets body
  | .arm _ body rest => blockTargets body ++ rest.targets

def blockTargets : List Stmt → List String
  | [] => []
  | s :: ss => s.targets ++ blockTargets ss

end

theorem targets_subset_of_mem {stmt : Stmt} {block : List Stmt} (h : stmt ∈ block) :
    stmt.targets ⊆ blockTargets block := by
  induction block with
  | nil => cases h
  | cons first rest ih =>
    rw [blockTargets]
    rcases List.mem_cons.1 h with rfl | hrest
    · exact List.subset_append_left _ _
    · exact List.subset_append_of_subset_right _ (ih hrest)

theorem targets_subset_of_branch {arm : Expr × List Stmt} : (arms : Arms) → arm ∈ arms.branches →
    blockTargets arm.2 ⊆ arms.targets
  | .none, h | .otherwise _, h => by cases h
  | .arm cond body rest, h => by
    rw [Arms.targets]
    rcases List.mem_cons.1 h with rfl | hrest
    · exact List.subset_append_left _ _
    · exact List.subset_append_of_subset_right _ (targets_subset_of_branch rest hrest)

theorem targets_subset_of_last {body : List Stmt} : (arms : Arms) → arms.last? = some body →
    blockTargets body ⊆ arms.targets
  | .none, h => by cases h
  | .otherwise _, h => by
    cases h
    exact List.Subset.refl _
  | .arm _ _ rest, h => by
    rw [Arms.targets]
    exact List.subset_append_of_subset_right _ (targets_subset_of_last rest h)

/-- **What a block of a program assigns to**, its body assigns to. -/
theorem targets_subset_of_block {block : List Stmt} (h : p.Block block) : blockTargets block ⊆ blockTargets p.body := by
  induction h with
  | body => exact List.Subset.refl _
  | @branch block line arms arm _ hstmt harm ih =>
    exact List.Subset.trans (targets_subset_of_branch arms harm) (List.Subset.trans (targets_subset_of_mem hstmt) ih)
  | @last block line arms body _ hstmt hlast ih =>
    exact List.Subset.trans (targets_subset_of_last arms hlast) (List.Subset.trans (targets_subset_of_mem hstmt) ih)
  | loop _ hstmt ih => exact List.Subset.trans (targets_subset_of_mem hstmt) ih

theorem Reached.within (h : Reached p e s) : e.Within p := by
  induction h with
  | start h => exact within_start p
  | step dev state _ ih => exact ih.step dev _ state
  | again _ _ => exact within_start p

theorem Reached.scopes (h : Reached p e s) : p.Scopes s := by
  induction h with
  | start h => exact .start h
  | step dev state _ ih => exact ih.step _ dev state
  | again _ ih => exact ih

/-- What is stored in the course of a run is assigned to in the text. -/
theorem mem_targets_of_stores (h : Reached p e s) (hstores : e.Stores dev s state key w) :
    key ∈ blockTargets p.body := by
  obtain ⟨line, value, after, outer, v, b, hframes, -⟩ := hstores
  have hrest : p.Rest (.assign line key value :: after) := h.within.settle _ (hframes ▸ List.mem_cons_self)
  obtain ⟨block, hblock, hsuffix⟩ := hrest
  have hmem : Stmt.assign line key value ∈ block := hsuffix.subset List.mem_cons_self
  have hkey : key ∈ (Stmt.assign line key value).targets := by
    rw [Stmt.targets]
    exact List.mem_singleton_self key
  exact targets_subset_of_block hblock (targets_subset_of_mem hmem hkey)

/-- **What a timer stands for** is what the initializer of its constant has come to at the start of the run. -/
theorem target_of_reached (hp : p.WellFormed) (hd : d ∈ p.vars) (hstate : d.isStateName = true)
    (h : Reached p e s) : ∃ start n, p.Initializes start d (.int n) ∧ s.target? d.key = some n := by
  obtain ⟨start, s₀, calls, hs, rfl⟩ := Scope.scopes_iff_reach.1 h.scopes
  obtain ⟨targets, hfirst, hconstants, -⟩ := tracks_start hp.distinct hs
  obtain ⟨n, hvalue, -, htarget⟩ := hconstants d hd hstate
  refine ⟨start, n, hvalue, ?_⟩
  rw [(tracks_reach hfirst calls).target, htarget]

theorem stands_start {start : Millis} (hp : p.WellFormed) (hd : d ∈ p.vars) (hstate : d.isStateName = true)
    (hs : Scope.ofProgram p start = .ok s) : s.Stands d.key := by
  obtain ⟨targets, hfirst, hconstants, -⟩ := tracks_start hp.distinct hs
  obtain ⟨n, -, hget, htarget⟩ := hconstants d hd hstate
  exact ⟨n, by rw [hfirst.target, htarget], hget⟩

/-- **A run** leaves a constant what its timer stands for, if each step of it that stores in the constant stores
this value. -/
theorem fixes_of_stores (hp : p.WellFormed) (hd : d ∈ p.vars) (hstate : d.isStateName = true)
    (hstores : ∀ e s, Reached p e s → ∀ {σ : Type} (dev : Device σ) (state : σ) w, e.Stores dev s state d.key w →
      (s.target? d.key).map Scalar.int = some w) : p.Fixes d.key := by
  intro e s h
  induction h with
  | start hs => exact stands_start hp hd hstate hs
  | step dev state hreached ih => exact ih.step fun w hw => hstores _ _ hreached dev state w hw
  | again _ ih => exact ih

/-- **State constants and their timers.** In a program that compiles, a state constant stays what its timer stands for
exactly if every step that stores in it stores this value. It does if the program has no assignment to it; and the timer
stands for what the constant was initialized with in any case. -/
theorem constant_stands_iff {source : String} (h : compile source = .ok p) (hd : d ∈ p.vars)
    (hstate : d.isStateName = true) :
    (p.Fixes d.key ↔ ∀ e s, Reached p e s → ∀ {σ : Type} (dev : Device σ) (state : σ) w,
      e.Stores dev s state d.key w → (s.target? d.key).map Scalar.int = some w) ∧
    (d.key ∉ blockTargets p.body → p.Fixes d.key) ∧
    ∀ e s, Reached p e s → ∃ start n, p.Initializes start d (.int n) ∧ s.target? d.key = some n := by
  have hp : p.WellFormed := wellFormed_of_compile h
  refine ⟨⟨fun hfixes e s hreached σ dev state w hw => ?_, fixes_of_stores hp hd hstate⟩, fun hnot => ?_,
    fun e s hreached => target_of_reached hp hd hstate hreached⟩
  · obtain ⟨n, htarget, hget⟩ := hfixes _ _ (hreached.step dev state)
    rw [get?_step_of_stores hw] at hget
    rw [target?_step] at htarget
    rw [htarget, hget, Option.map_some]
  · exact fixes_of_stores hp hd hstate fun e s hreached σ dev state w hw =>
      absurd (mem_targets_of_stores hreached hw) hnot

/-- A program that moves `STATE` to a constant, in a loop. -/
def resting : String :=
  "VAR STATE : INT := 0; STATE_RUN : INT := 1; END_VAR WHILE STATE < 1 DO STATE := STATE_RUN; END_WHILE"

theorem constant_stands_iff_resting : ∃ p d, compile resting = .ok p ∧ d ∈ p.vars ∧ d.isStateName = true ∧
    d.key = "STATE_RUN" ∧ p.Fixes d.key := by
  have hruns : (compile resting).toOption.any (fun p =>
      p.vars.any fun d => d.isStateName ∧ d.key = "STATE_RUN" ∧ d.key ∉ blockTargets p.body) = true := by
    decide +kernel
  cases hp : compile resting with
  | error e =>
    rw [hp] at hruns
    cases hruns
  | ok p =>
    rw [hp, Except.toOption, Option.any_some, List.any_eq_true] at hruns
    obtain ⟨d, hd, hconstant⟩ := hruns
    obtain ⟨hstate, hkey, hnot⟩ := of_decide_eq_true hconstant
    exact ⟨p, d, rfl, hd, hstate, hkey, (constant_stands_iff hp hd hstate).2.1 hnot⟩

/-- A program that assigns to a constant. -/
def reassigning : String := "VAR STATE : INT := 0; STATE_RUN : INT := 1; END_VAR STATE_RUN := 5;"

/-- **An assignment to a constant is accepted**, and the timer goes on standing for the value before. -/
theorem constant_reassigned : ∃ p d e s, compile reassigning = .ok p ∧ d ∈ p.vars ∧ d.isStateName = true ∧
    Reached p e s ∧ s.target? d.key = some 1 ∧ s.get? d.key = some (.int 5) ∧ ¬ p.Fixes d.key := by
  have hruns : (compile reassigning).toOption.any (fun p => (Scope.ofProgram p 0).toOption.any fun s =>
      let after := ((Execution.start p).step detached s 0).scope
      p.vars.any fun d => d.isStateName ∧ after.target? d.key = some 1 ∧ after.get? d.key = some (.int 5)) = true := by
    decide +kernel
  cases hp : compile reassigning with
  | error e =>
    rw [hp] at hruns
    cases hruns
  | ok p =>
    rw [hp] at hruns
    cases hs : Scope.ofProgram p 0 with
    | error e =>
      rw [Except.toOption, Option.any_some, hs] at hruns
      cases hruns
    | ok s =>
      rw [Except.toOption, Option.any_some, hs, Except.toOption, Option.any_some, List.any_eq_true] at hruns
      obtain ⟨d, hd, hconstant⟩ := hruns
      obtain ⟨hstate, htarget, hget⟩ := of_decide_eq_true hconstant
      have hreached := (Reached.start hs).step detached 0
      refine ⟨p, d, _, _, rfl, hd, hstate, hreached, htarget, hget, fun hfixes => ?_⟩
      obtain ⟨n, hn, hvalue⟩ := hfixes _ _ hreached
      rw [htarget] at hn
      cases hn
      rw [hget] at hvalue
      cases hvalue

end Switchyard.Script
