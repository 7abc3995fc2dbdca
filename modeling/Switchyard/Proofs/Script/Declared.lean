import Switchyard.Proofs.Script.Failure
import Switchyard.Proofs.Script.Yields
import Switchyard.Script.Execution

/-!
# Variables are there

A scope that belongs to a program has a variable for each of its declarations, and
keeps it. So a well-formed program never meets a variable that is not there: not in
its initializers, not in any of its steps, whatever device answers its calls, and not
in the conditions of its breakpoints (`variables_known`).

* `known_evaluate`: well-formed expressions in a scope with their variables.
* `Reached`, `sound_of_reached`: executions and scopes that a program can come to.
-/

namespace Switchyard.Script

variable {σ : Type} {vars : List Declaration}

/-- A scope has the variables of the declarations, in their order. -/
def Scope.Declares (vars : List Declaration) (s : Scope) : Prop :=
  s.bindings.map Binding.key = vars.map Declaration.key

/-- An error for another reason than that a variable is not there. -/
def Known (err : RuntimeError) : Prop := ∀ key, err.fault ≠ .unknownVariable key

theorem tolerates_known : Tolerates Known := fun _ hf => hf

namespace Scope

/-- **An assignment that is taken** converts the value and stores it, and does nothing else. -/
theorem set_eq_ok {s s' : Scope} {key : String} {value : Scalar} (h : s.set key value = .ok s') :
    ∃ b v, s.find? key = some b ∧ convert b.type b.name value = .ok v ∧
      s' = s.modify key fun b => { b with value := v } := by
  rw [set] at h
  cases hfind : s.find? key with
  | none =>
    rw [hfind] at h
    cases h
  | some b =>
    cases hconvert : convert b.type b.name value with
    | error err =>
      simp only [hfind, hconvert] at h
      cases h
    | ok v =>
      simp only [hfind, hconvert] at h
      cases h
      exact ⟨b, v, rfl, hconvert, rfl⟩

/-- The integer in `STATE`, where there is one. -/
def found? (s : Scope) : Option Int64 := (s.get? stateKey).bind Scalar.toInt64?

/-- **Following `STATE`** does nothing, unless its integer is another one than the last. -/
theorem followState_cases (s : Scope) (now : Millis) :
    (s.followState now = s ∧ ∀ n, s.found? = some n → s.lastState = some n) ∨
      ∃ n, s.found? = some n ∧ s.lastState ≠ some n ∧
        s.followState now = ⟨s.bindings.map (restart n now), some n⟩ := by
  cases hfound : s.found? with
  | none =>
    rw [found?] at hfound
    exact .inl ⟨by simp only [followState, hfound], nofun⟩
  | some n =>
    rw [found?] at hfound
    by_cases hlast : s.lastState = some n
    · exact .inl ⟨by simp only [followState, hfound, if_pos hlast], fun _ hn => hn ▸ hlast⟩
    · exact .inr ⟨n, rfl, hlast, by simp only [followState, hfound, if_neg hlast]⟩

end Scope

namespace Scope.Declares

variable {s s' : Scope} {key : String}

/-- A variable that the checks accept is found. -/
theorem find?_isSome (h : s.Declares vars) {stepTime : Bool} (hkey : Admits vars key stepTime) :
    (s.find? key).isSome = true := by
  obtain ⟨d, hd, -⟩ := hkey
  have hkey : d.key = key := by simpa using List.find?_some hd
  have hmem : d.key ∈ s.bindings.map Binding.key := by
    rw [h]
    exact List.mem_map_of_mem (List.mem_of_find?_eq_some hd)
  obtain ⟨b, hb, hbkey⟩ := List.mem_map.1 hmem
  exact List.find?_isSome.2 ⟨b, hb, by simp [hbkey, hkey]⟩

/-- Bindings may change in any way that leaves the keys alone. -/
theorem map (h : s.Declares vars) {f : Binding → Binding} (hf : ∀ b, (f b).key = b.key) (last : Option Int64) :
    Scope.Declares vars ⟨s.bindings.map f, last⟩ := by
  rw [Scope.Declares, List.map_map]
  exact (List.map_congr_left fun b _ => hf b).trans h

theorem modify (h : s.Declares vars) {f : Binding → Binding} (hf : ∀ b, (f b).key = b.key) :
    (s.modify key f).Declares vars := by
  refine h.map (fun b => ?_) s.lastState
  split
  · exact hf b
  · rfl

/-- A value that is assigned stays with its variable. -/
theorem set {value : Scalar} (h : s.Declares vars) (hset : s.set key value = .ok s') : s'.Declares vars := by
  obtain ⟨-, v, -, -, rfl⟩ := Scope.set_eq_ok hset
  exact h.modify fun _ => rfl

theorem startTimer (h : s.Declares vars) : (s.startTimer key).Declares vars := h.modify fun _ => rfl

/-- Observing `STATE` starts timers at most, and the variables stay. -/
theorem followState (h : s.Declares vars) (now : Millis) : (s.followState now).Declares vars := by
  rcases s.followState_cases now with ⟨hs, -⟩ | ⟨n, -, -, hs⟩
  · rw [hs]
    exact h
  · rw [hs]
    exact h.map (f := Scope.restart n now) (fun _ => rfl) _

/-- At first, a scope has the variables of the declarations. -/
theorem ofDecls (vars : List Declaration) : (Scope.ofDecls vars).Declares vars := by
  simp [Scope.Declares, Scope.ofDecls]

end Scope.Declares

theorem known_evaluateAll {dev : Device σ} {s : Scope} {args : List Expr}
    (h : ∀ e ∈ args, Run.Errs Known (evaluate dev s e)) : Run.Errs Known (evaluateAll dev s args) := by
  induction args with
  | nil =>
    rw [evaluateAll]
    exact .pure _
  | cons e args ih =>
    rw [evaluateAll]
    have hrest := ih fun e' he' => h e' (List.mem_cons_of_mem _ he')
    exact (h e List.mem_cons_self).bind fun v => hrest.bind fun vs => .pure _

/-- **A well-formed expression finds its variables** in a scope that declares them. -/
theorem known_evaluate {e : Expr} (he : e.WellFormed vars) {s : Scope} (hs : s.Declares vars) (dev : Device σ) :
    Run.Errs Known (evaluate dev s e) := by
  induction he with
  | literal v =>
    rw [evaluate]
    exact .pure v
  | @var key h =>
    rw [evaluate]
    split
    · exact .pure _
    · -- the one error in question: the scope has the variable, so it does not arise
      rename_i hnone
      obtain ⟨b, hb⟩ := Option.isSome_iff_exists.1 (hs.find?_isSome h)
      rw [Scope.get?, hb] at hnone
      cases hnone
  | stepTime h =>
    rw [evaluate]
    exact (Run.Errs.modifyGet fun state => (state, state)).bind fun _ => .pure _
  | unary op _ ih =>
    rw [evaluate]
    exact ih.bind fun v => .lift (errs_applyUnary tolerates_known op v)
  | binary op _ _ ihl ihr =>
    rw [evaluate]
    refine ihl.bind fun a => ?_
    split
    · exact .pure _
    · exact ihr.bind fun b => .lift (errs_applyBinary tolerates_known op a b)
  | builtin _ _ ih =>
    rw [evaluate]
    exact (known_evaluateAll ih).bind fun vs => .lift (errs_applyBuiltin tolerates_known _ vs)
  | device _ _ _ ih =>
    rw [evaluate]
    exact (known_evaluateAll ih).bind fun vs => errs_performOp tolerates_known dev _ vs

/-- A condition over declared variables finds all of them. -/
theorem known_condition {e : Expr} (he : e.WellFormed vars) {s : Scope} (hs : s.Declares vars) (dev : Device σ) :
    Run.Errs Known (condition dev s e) := by
  unfold condition
  refine (known_evaluate he hs dev).bind fun v => ?_
  split
  · exact .pure _
  · exact .lift (.error nofun)

/-- The conditions of a conditional find all variables, one after the other. -/
theorem known_chooseArm {s : Scope} (hs : s.Declares vars) (dev : Device σ) (arms : Arms)
    (h : ∀ arm ∈ arms.branches, arm.1.WellFormed vars) : Run.Errs Known (chooseArm dev s arms) := by
  match arms with
  | .none => exact .pure _
  | .otherwise body => exact .pure _
  | .arm cond body rest =>
    rw [chooseArm]
    rw [Arms.branches] at h
    refine (known_condition (h _ List.mem_cons_self) hs dev).bind fun holds => ?_
    cases holds with
    | true => exact .pure _
    | false => exact known_chooseArm hs dev rest fun arm harm => h arm (List.mem_cons_of_mem _ harm)

/-- An assignment to a declared variable finds it. -/
theorem known_set {s : Scope} (hs : s.Declares vars) {key : String} (hkey : Admits vars key false) (v : Scalar) :
    Errs Known (s.set key v) := by
  refine errs_set tolerates_known s v fun hnone => ?_
  have hsome := hs.find?_isSome hkey
  rw [hnone] at hsome
  cases hsome

/-- **A well-formed statement finds its variables.** -/
theorem known_runStmt {stmt : Stmt} (h : stmt.WellFormed vars) {s : Scope} (hs : s.Declares vars) (dev : Device σ)
    (after : List Stmt) : Run.Errs Known (runStmt dev s stmt after) := by
  cases h with
  | assign line htarget hvalue =>
    refine (known_evaluate hvalue hs dev).bind fun v => (Run.Errs.lift ?_).bind fun s' => .pure _
    exact known_set hs htarget v
  | call line harity hargs =>
    exact (known_evaluateAll fun e he => known_evaluate (hargs e he) hs dev).bind fun vs =>
      (errs_performOp tolerates_known dev _ vs).bind fun _ => .pure _
  | choose line hconds _ _ =>
    refine (known_chooseArm hs dev _ hconds).bind fun chosen => ?_
    cases chosen with
    | none => exact .pure _
    | some body => exact .pure _
  | loop line hcond _ =>
    refine (known_condition hcond hs dev).bind fun holds => ?_
    cases holds with
    | true => exact .pure _
    | false => exact .pure _

/-- A computation whose results have a property. -/
def Run.Gives {α : Type} (Q : α → Prop) (x : Run σ α) : Prop := ∀ state a, (x.run state).1 = .ok a → Q a

namespace Run.Gives

variable {α β : Type} {Q : α → Prop} {R : β → Prop}

/-- What a computation gives need not be known. -/
theorem any (x : Run σ α) : Gives (fun _ => True) x := fun _ _ _ => trivial

theorem pure {a : α} (h : Q a) : Gives Q (pure a : Run σ α) := by
  intro state a' ha
  cases ha
  exact h

theorem lift {r : Except RuntimeError α} (h : ∀ a, r = .ok a → Q a) : Gives Q (liftM r : Run σ α) := fun _ => h

/-- The second computation may use what the first one gives. -/
theorem bind {x : Run σ α} {f : α → Run σ β} (hx : Gives Q x) (hf : ∀ a, Q a → Gives R (f a)) :
    Gives R (x >>= f) := by
  intro state b hb
  rw [run_bind] at hb
  rcases hrun : x.run state with ⟨err | a, state'⟩
  · rw [hrun] at hb
    cases hb
  · rw [hrun] at hb
    exact hf a (hx state a (by rw [hrun])) state' b hb

end Run.Gives

/-- The block that an `IF` chooses is one of its blocks. -/
theorem gives_chooseArm (dev : Device σ) (s : Scope) (arms : Arms)
    (hbodies : ∀ arm ∈ arms.branches, BlockWellFormed vars arm.2)
    (hlast : ∀ body, arms.last? = some body → BlockWellFormed vars body) :
    Run.Gives (fun chosen => ∀ body, chosen = some body → BlockWellFormed vars body) (chooseArm dev s arms) := by
  match arms with
  | .none => exact .pure nofun
  | .otherwise body => exact .pure hlast
  | .arm cond body rest =>
    rw [chooseArm]
    rw [Arms.branches] at hbodies
    refine (Run.Gives.any _).bind fun holds _ => ?_
    cases holds with
    | true =>
      refine .pure fun body' hbody => ?_
      cases hbody
      exact hbodies _ List.mem_cons_self
    | false =>
      exact gives_chooseArm dev s rest (fun arm harm => hbodies arm (List.mem_cons_of_mem _ harm)) hlast

/-- What a statement leaves to run: the variables are still there, and the blocks that
take the place of the one it stands in are well formed. -/
def LeavesWellFormed (vars : List Declaration) (left : Scope × List (List Stmt)) : Prop :=
  left.1.Declares vars ∧ ∀ block ∈ left.2, BlockWellFormed vars block

/-- A block may be all that is left. -/
theorem LeavesWellFormed.of_block {s : Scope} (hs : s.Declares vars) {block : List Stmt}
    (h : BlockWellFormed vars block) : LeavesWellFormed vars (s, [block]) := ⟨hs, List.forall_mem_singleton.2 h⟩

/-- A block may be left inside of another one. -/
theorem LeavesWellFormed.of_blocks {s : Scope} (hs : s.Declares vars) {block outer : List Stmt}
    (h : BlockWellFormed vars block) (houter : BlockWellFormed vars outer) :
    LeavesWellFormed vars (s, [block, outer]) :=
  ⟨hs, List.forall_mem_cons.2 ⟨h, List.forall_mem_singleton.2 houter⟩⟩

/-- **What a statement leaves to run is well formed**, for each kind of statement. -/
theorem gives_runStmt {stmt : Stmt} (h : stmt.WellFormed vars) {s : Scope} (hs : s.Declares vars) (dev : Device σ)
    {after : List Stmt} (hafter : BlockWellFormed vars after) :
    Run.Gives (LeavesWellFormed vars) (runStmt dev s stmt after) := by
  cases h with
  | assign line _ _ =>
    refine (Run.Gives.any _).bind fun v _ => (Run.Gives.lift fun s' hset => hs.set hset).bind fun s' hs' => ?_
    exact .pure (.of_block hs' hafter)
  | call line _ _ =>
    exact (Run.Gives.any _).bind fun vs _ => (Run.Gives.any _).bind fun _ _ => .pure (.of_block hs hafter)
  | choose line _ hbodies hlast =>
    refine (gives_chooseArm dev s _ hbodies hlast).bind fun chosen hchosen => ?_
    cases chosen with
    | none => exact .pure (.of_block hs hafter)
    | some body => exact .pure (.of_blocks hs (hchosen body rfl) hafter)
  | loop line hcond hbody =>
    refine (Run.Gives.any _).bind fun holds _ => ?_
    cases holds with
    | true =>
      refine .pure (.of_blocks hs hbody ?_)
      exact List.forall_mem_cons.2 ⟨.loop line hcond hbody, hafter⟩
    | false => exact .pure (.of_block hs hafter)

/-- The checks accept a variable that is declared. -/
theorem admits_of_mem {d : Declaration} (hd : d ∈ vars) : Admits vars d.key false := by
  have hfound : (declared? vars d.key).isSome := List.find?_isSome.2 ⟨d, hd, beq_self_eq_true d.key⟩
  obtain ⟨d', hd'⟩ := Option.isSome_iff_exists.1 hfound
  exact ⟨d', hd', nofun⟩

/-- **What an initializer does**: it is evaluated and assigned, and a state constant gets the timer of its value. -/
theorem Scope.runInitializer_eq_ok {s s' : Scope} {now : Millis} {d : Declaration}
    (h : s.runInitializer now d = .ok s') :
    ∃ mid, (d.init = none ∧ mid = s ∨
        ∃ e v, d.init = some e ∧ evaluateDetached s now e = .ok v ∧ s.set d.key v = .ok mid) ∧
      s' = if d.isStateName then mid.startTimer d.key else mid := by
  unfold runInitializer at h
  cases hinit : d.init with
  | none =>
    rw [hinit] at h
    cases h
    exact ⟨s, .inl ⟨rfl, rfl⟩, rfl⟩
  | some e =>
    cases hrun : (evaluateDetached s now e).bind (s.set d.key) with
    | error err =>
      simp only [hinit, hrun] at h
      cases h
    | ok mid =>
      simp only [hinit, hrun] at h
      cases h
      obtain ⟨v, hv, hset⟩ := bind_eq_ok.1 hrun
      exact ⟨mid, .inr ⟨e, v, rfl, hv, hset⟩, rfl⟩

/-- Where an error happened says nothing about its cause. -/
theorem Known.atLine {err : RuntimeError} (h : Known err) (line : UInt32) : Known (err.atLine line) := h

/-- The outcome of an initializer: the variables are still there, or the error is not that one is missing. -/
def KeepsVariables (vars : List Declaration) (r : Except RuntimeError Scope) : Prop :=
  Errs Known r ∧ ∀ s, r = .ok s → s.Declares vars

theorem KeepsVariables.ok {s : Scope} (hs : s.Declares vars) : KeepsVariables vars (.ok s) :=
  ⟨.ok s, fun _ h => by cases h; exact hs⟩

theorem KeepsVariables.error {err : RuntimeError} (h : Known err) : KeepsVariables vars (.error err) :=
  ⟨.error h, nofun⟩

/-- An initializer may follow another one. -/
theorem KeepsVariables.bind {r : Except RuntimeError Scope} {f : Scope → Except RuntimeError Scope}
    (hr : KeepsVariables vars r) (hf : ∀ s, s.Declares vars → KeepsVariables vars (f s)) :
    KeepsVariables vars (r >>= f) := by
  cases r with
  | error err => exact .error (hr.1 err rfl)
  | ok s => exact hf s (hr.2 s rfl)

theorem keepsVariables_runInitializer {d : Declaration} (hmem : d ∈ vars) (hd : d.WellFormed vars) {s : Scope}
    (hs : s.Declares vars) (now : Millis) : KeepsVariables vars (s.runInitializer now d) := by
  have hstarted (s' : Scope) (hs' : s'.Declares vars) :
      KeepsVariables vars (.ok (if d.isStateName then s'.startTimer d.key else s')) := by
    split
    · exact .ok hs'.startTimer
    · exact .ok hs'
  unfold Scope.runInitializer
  cases hinit : d.init with
  | none => exact hstarted s hs
  | some e =>
    have hvalue : Errs Known (evaluateDetached s now e) := known_evaluate (hd e hinit) hs detached now
    have hset : Errs Known ((evaluateDetached s now e).bind (s.set d.key)) :=
      hvalue.bind fun v => known_set hs (admits_of_mem hmem) v
    cases hrun : (evaluateDetached s now e).bind (s.set d.key) with
    | error err =>
      simp only [hrun]
      exact .error ((hset err hrun).atLine d.line)
    | ok s' =>
      obtain ⟨v, -, hs'⟩ := bind_eq_ok.1 hrun
      simp only [hrun]
      exact hstarted s' (hs.set hs')

/-- The initializers of a program find all variables, one after the other. -/
theorem keepsVariables_foldlM {decls : List Declaration} (hmem : ∀ d ∈ decls, d ∈ vars)
    (hdecls : ∀ d ∈ decls, d.WellFormed vars) {s : Scope} (hs : s.Declares vars) (now : Millis) :
    KeepsVariables vars (decls.foldlM (fun scope d => scope.runInitializer now d) s) := by
  induction decls generalizing s with
  | nil => exact .ok hs
  | cons d ds ih =>
    rw [List.foldlM_cons]
    obtain ⟨hd, hds⟩ := List.forall_mem_cons.1 hdecls
    obtain ⟨hdmem, hdsmem⟩ := List.forall_mem_cons.1 hmem
    exact (keepsVariables_runInitializer hdmem hd hs now).bind fun s' hs' => ih hdsmem hds hs'

/-- **The initializers of a well-formed program find their variables**, and leave them all there. -/
theorem keepsVariables_ofProgram {p : Program} (hp : p.WellFormed) (now : Millis) :
    KeepsVariables p.vars (Scope.ofProgram p now) :=
  (keepsVariables_foldlM (fun _ h => h) hp.initializers (Scope.Declares.ofDecls p.vars) now).bind fun _ hs =>
    .ok (hs.followState now)

/-- A place of an execution is sound when its blocks are well formed and the scope has the variables. -/
structure Sound (vars : List Declaration) (e : Execution) (scope : Scope) : Prop where
  blocks : ∀ block ∈ e.frames, BlockWellFormed vars block
  scope : scope.Declares vars

/-- A program that is well formed starts in a sound place. -/
theorem sound_start {p : Program} (hp : p.WellFormed) {scope : Scope} (hs : scope.Declares p.vars) :
    Sound p.vars (.start p) scope := ⟨List.forall_mem_singleton.2 hp.body, hs⟩

/-- The next program cycle starts in a sound place. -/
theorem Sound.settle {e : Execution} {scope : Scope} (h : Sound vars e scope) : Sound vars e.settle scope :=
  ⟨fun block hblock => h.blocks block ((List.dropWhile_sublist _).subset hblock), h.scope⟩

/-- **One step** from a sound place ends in a sound place, and meets no variable that is not there. -/
theorem Sound.step {e : Execution} {scope : Scope} (h : Sound vars e scope) (dev : Device σ) (state : σ) :
    Errs Known (e.step dev scope state).outcome ∧
      Sound vars (e.step dev scope state).execution (e.step dev scope state).scope := by
  have hsettled := h.settle
  -- only a statement that is there can fail; an execution at its end stays where it is
  rcases hframes : e.settle.frames with _ | ⟨_ | ⟨stmt, after⟩, outer⟩
  · simp only [Execution.step, hframes]
    exact ⟨.ok _, hsettled⟩
  · simp only [Execution.step, hframes]
    exact ⟨.ok _, hsettled⟩
  have hblocks := hsettled.blocks
  rw [hframes] at hblocks
  obtain ⟨hblock, houter⟩ := List.forall_mem_cons.1 hblocks
  obtain ⟨hstmt, hafter⟩ := List.forall_mem_cons.1 hblock
  rcases hrun : (runStmt dev scope stmt after).run state with ⟨err | ⟨scope', more⟩, state'⟩
  · simp only [Execution.step, hframes, hrun]
    have herr : Known err := known_runStmt hstmt h.scope dev after state err (by rw [hrun])
    exact ⟨.error (herr.atLine stmt.line), hsettled⟩
  · simp only [Execution.step, hframes, hrun]
    obtain ⟨hscope, hmore⟩ := gives_runStmt hstmt h.scope dev hafter state (scope', more) (by rw [hrun])
    exact ⟨.ok _, List.forall_mem_append.2 ⟨hmore, houter⟩, hscope.followState _⟩

/-- The places that a program can come to: it starts in the scope of its initializers, takes steps
with any device in any state, and may start anew in the scope that it has reached. -/
inductive Reached (p : Program) : Execution → Scope → Prop
  | start {now : Millis} {scope : Scope} (h : Scope.ofProgram p now = .ok scope) : Reached p (.start p) scope
  | step {σ : Type} (dev : Device σ) (state : σ) {e : Execution} {scope : Scope} (h : Reached p e scope) :
      Reached p (e.step dev scope state).execution (e.step dev scope state).scope
  | again {e : Execution} {scope : Scope} (h : Reached p e scope) : Reached p (.start p) scope

/-- **A run** keeps to sound places. -/
theorem sound_of_reached {p : Program} (hp : p.WellFormed) {e : Execution} {scope : Scope}
    (h : Reached p e scope) : Sound p.vars e scope := by
  induction h with
  | start h => exact sound_start hp ((keepsVariables_ofProgram hp _).2 _ h)
  | step dev state _ ih => exact (ih.step dev state).2
  | again _ ih => exact sound_start hp ih.scope

/-- **Variables are there.** A program that compiles is well formed, and it never meets a variable
that is not there: not in its initializers, and in no place that it can come to, neither in its next
step nor in a condition that is accepted for it. -/
theorem variables_known {source : String} {p : Program} (h : compile source = .ok p) :
    p.WellFormed ∧ (∀ now, Errs Known (Scope.ofProgram p now)) ∧
      ∀ e scope, Reached p e scope →
        (∀ {σ : Type} (dev : Device σ) (state : σ), Errs Known (e.step dev scope state).outcome) ∧
        ∀ text cond, parseCondition p text = .ok cond →
          ∀ {σ : Type} (dev : Device σ), Run.Errs Known (evaluate dev scope cond) := by
  have hp : p.WellFormed := wellFormed_of_compile h
  refine ⟨hp, fun now => (keepsVariables_ofProgram hp now).1, fun e scope hreached => ?_⟩
  have hsound : Sound p.vars e scope := sound_of_reached hp hreached
  exact ⟨fun dev state => (hsound.step dev state).1, fun text cond hcond _ dev =>
    known_evaluate (wellFormed_of_parseCondition hcond).1 hsound.scope dev⟩

/-- A lamp that goes out five seconds after it was lit. -/
def lamp : String :=
  "VAR STATE : INT := 1; STATE_LIT : INT := 1; END_VAR " ++
    "WHILE STATE_LIT.StepTime < 5000 DO Device.WriteCoil(1, TRUE); END_WHILE"

theorem variables_known_lamp : ∃ p scope cond,
    compile lamp = .ok p ∧ Reached p (.start p) scope ∧ parseCondition p "STATE_LIT.StepTime > 100" = .ok cond ∧
      p.WellFormed ∧ Errs Known ((Execution.start p).step detached scope 0).outcome ∧
      Run.Errs Known (evaluate detached scope cond) := by
  have hlamp : (compile lamp).toOption.any (fun p => (Scope.ofProgram p 0).toOption.isSome &&
      (parseCondition p "STATE_LIT.StepTime > 100").toOption.isSome) = true := by decide +kernel
  cases hp : compile lamp with
  | error e =>
    rw [hp] at hlamp
    cases hlamp
  | ok p =>
    rw [hp] at hlamp
    obtain ⟨hscope, hcond⟩ := Bool.and_eq_true_iff.1 hlamp
    cases hs : Scope.ofProgram p 0 with
    | error e =>
      rw [hs] at hscope
      cases hscope
    | ok scope =>
      cases hc : parseCondition p "STATE_LIT.StepTime > 100" with
      | error e =>
        rw [hc] at hcond
        cases hcond
      | ok cond =>
        obtain ⟨hwell, -, hplaces⟩ := variables_known hp
        obtain ⟨hsteps, hconds⟩ := hplaces _ scope (.start hs)
        exact ⟨p, scope, cond, rfl, .start hs, hc, hwell, hsteps detached 0, hconds _ cond hc detached⟩

end Switchyard.Script
