import Mathlib.Data.List.TakeWhile
import Switchyard.Proofs.Script.Blocks
import Switchyard.Script.Rehearsal

/-!
# Statements are atomic

What a step asks of its device can be noted, and taking notes changes nothing. The
notes show that expressions of a compiled program only read: a function that writes
has no result, so it makes up a statement of its own. Its arguments are evaluated,
then its operands are checked, and only then it writes; and nothing can fail after
that. So a step writes once at most, as the last thing, and a step that fails has
written nothing, has assigned nothing and still stands on its statement
(`step_atomic`).

* `Device.noted`: a device that notes the calls that it passes on.
* `Run.Reads`: a computation that reads only.
* `Asks`: all that a statement asks of the device.
-/

namespace Switchyard.Script

variable {σ α β : Type} {dev : Device σ} {scope : Scope} {vars : List Declaration}

/-- A call that changes the device, or leaves a line in its log. -/
def DeviceCall.isWrite : DeviceCall → Bool
  | writeCoil _ _ | writeRegister _ _ | setDA _ _ | log _ _ => true
  | readInput _ _ | readRegister _ _ | getDA _ _ => false

/-- A device that passes on all calls to another one and notes them, the first one first. -/
def Device.noted (dev : Device σ) : Device (σ × List DeviceCall) where
  now s := dev.now s.1
  readInput a s :=
    let (b, state) := dev.readInput a s.1
    (b, state, s.2 ++ [.readInput a b])
  readRegister a s :=
    let (w, state) := dev.readRegister a s.1
    (w, state, s.2 ++ [.readRegister a w])
  writeCoil a b s := (dev.writeCoil a b s.1, s.2 ++ [.writeCoil a b])
  writeRegister a w s := (dev.writeRegister a w s.1, s.2 ++ [.writeRegister a w])
  getDA path s :=
    let (v, state) := dev.getDA path s.1
    (v, state, s.2 ++ [.getDA path v])
  setDA path v s := (dev.setDA path v s.1, s.2 ++ [.setDA path v])
  log level message s := (dev.log level message s.1, s.2 ++ [.log level message])

/-- **A computation reads only**: with notes taken it comes to the same end, and there are reads in the notes. -/
def Run.Reads (x : Run σ α) (y : Run (σ × List DeviceCall) α) : Prop :=
  ∀ state calls, ∃ reads : List DeviceCall, (∀ c ∈ reads, c.isWrite = false) ∧
    y.run (state, calls) = ((x.run state).1, (x.run state).2, calls ++ reads)

namespace Run.Reads

/-- Nothing is asked of the device. -/
theorem of_silent {x : Run σ α} {y : Run (σ × List DeviceCall) α}
    (h : ∀ state calls, y.run (state, calls) = ((x.run state).1, (x.run state).2, calls)) : Reads x y := by
  intro state calls
  exact ⟨[], nofun, by rw [h, List.append_nil]⟩

theorem pure (a : α) : Reads (pure a : Run σ α) (pure a) := of_silent fun _ _ => rfl

theorem lift (r : Except RuntimeError α) : Reads (liftM r : Run σ α) (liftM r) := of_silent fun _ _ => rfl

/-- One call that reads. -/
theorem call {read : σ → α × σ} {noted : σ × List DeviceCall → α × σ × List DeviceCall} (note : α → DeviceCall)
    (hread : ∀ a, (note a).isWrite = false)
    (hnoted : ∀ state calls, noted (state, calls) = ((read state).1, (read state).2, calls ++ [note (read state).1])) :
    Reads (modifyGet read : Run σ α) (modifyGet noted) := by
  intro state calls
  refine ⟨[note (read state).1], List.forall_mem_singleton.2 (hread _), ?_⟩
  show (Except.ok (noted (state, calls)).1, (noted (state, calls)).2) = _
  rw [hnoted]
  rfl

theorem bind {x : Run σ α} {y : Run (σ × List DeviceCall) α} {f : α → Run σ β}
    {g : α → Run (σ × List DeviceCall) β} (hx : Reads x y) (hf : ∀ a, Reads (f a) (g a)) :
    Reads (x >>= f) (y >>= g) := by
  intro state calls
  obtain ⟨first, hfirst, hy⟩ := hx state calls
  rw [run_bind, run_bind, hy]
  rcases x.run state with ⟨err | a, state'⟩
  · exact ⟨first, hfirst, rfl⟩
  · obtain ⟨second, hsecond, hg⟩ := hf a state' (calls ++ first)
    refine ⟨first ++ second, List.forall_mem_append.2 ⟨hfirst, hsecond⟩, ?_⟩
    rw [← List.append_assoc]
    exact hg

end Run.Reads

/-- **A function with a result reads.** -/
theorem reads_performOp {func : DeviceOp} (hfunc : func.hasResult = true) (dev : Device σ) (values : List Scalar) :
    Run.Reads (performOp dev func values) (performOp dev.noted func values) := by
  cases func with
  | readInput =>
    refine (Run.Reads.lift _).bind fun a => Run.Reads.bind ?_ fun b => .pure _
    exact .call (.readInput a) (fun _ => rfl) fun _ _ => rfl
  | readRegister =>
    refine (Run.Reads.lift _).bind fun a => Run.Reads.bind ?_ fun w => .pure _
    exact .call (.readRegister a) (fun _ => rfl) fun _ _ => rfl
  | getDA =>
    refine (Run.Reads.lift _).bind fun path => ?_
    exact .call (.getDA path) (fun _ => rfl) fun _ _ => rfl
  | writeCoil | writeRegister | setDA | log => cases hfunc

theorem reads_evaluateAll {es : List Expr}
    (h : ∀ e ∈ es, Run.Reads (evaluate dev scope e) (evaluate dev.noted scope e)) :
    Run.Reads (evaluateAll dev scope es) (evaluateAll dev.noted scope es) := by
  induction es with
  | nil =>
    rw [evaluateAll, evaluateAll]
    exact .pure _
  | cons e es ih =>
    obtain ⟨he, hes⟩ := List.forall_mem_cons.1 h
    rw [evaluateAll, evaluateAll]
    exact he.bind fun v => (ih hes).bind fun vs => .pure _

/-- **A well-formed expression reads only**, to any depth. -/
theorem reads_evaluate {e : Expr} (he : e.WellFormed vars) (dev : Device σ) (scope : Scope) :
    Run.Reads (evaluate dev scope e) (evaluate dev.noted scope e) := by
  induction he with
  | literal v =>
    rw [evaluate, evaluate]
    exact .pure v
  | @var key _ =>
    rw [evaluate, evaluate]
    cases scope.get? key with
    | some v => exact .pure v
    | none => exact .lift (.error _)
  | stepTime _ =>
    -- the clock is no call
    rw [evaluate, evaluate]
    exact .of_silent fun _ _ => rfl
  | unary op _ ih =>
    rw [evaluate, evaluate]
    exact ih.bind fun v => .lift _
  | binary op _ _ ihl ihr =>
    rw [evaluate, evaluate]
    refine ihl.bind fun a => ?_
    cases decided op a with
    | some v => exact .pure v
    | none => exact ihr.bind fun b => .lift _
  | builtin _ _ ih =>
    rw [evaluate, evaluate]
    exact (reads_evaluateAll ih).bind fun vs => .lift _
  | device hresult _ _ ih =>
    rw [evaluate, evaluate]
    exact (reads_evaluateAll ih).bind fun vs => reads_performOp hresult dev vs

theorem reads_condition {e : Expr} (he : e.WellFormed vars) (dev : Device σ) (scope : Scope) :
    Run.Reads (condition dev scope e) (condition dev.noted scope e) := by
  unfold condition
  refine (reads_evaluate he dev scope).bind fun v => ?_
  cases v with
  | bool b => exact .pure b
  | null | int _ | real _ | text _ => exact .lift (.error _)

/-- **A function without a result writes once, or it fails** and asks nothing of the device. -/
theorem performOp_writes {func : DeviceOp} (hfunc : func.hasResult = false) (dev : Device σ) (values : List Scalar)
    (state : σ) (calls : List DeviceCall) :
    (∃ err, (performOp dev func values).run state = (.error err, state) ∧
      (performOp dev.noted func values).run (state, calls) = (.error err, state, calls)) ∨
    ∃ w : DeviceCall, w.isWrite = true ∧ ((performOp dev func values).run state).1 = .ok .null ∧
      (performOp dev.noted func values).run (state, calls) =
        (.ok .null, ((performOp dev func values).run state).2, calls ++ [w]) := by
  have hlift {γ : Type} (r : Except RuntimeError γ) (s : σ) : (liftM r : Run σ γ).run s = (r, s) := rfl
  have hlift' {γ : Type} (r : Except RuntimeError γ) (s : σ × List DeviceCall) :
      (liftM r : Run (σ × List DeviceCall) γ).run s = (r, s) := rfl
  -- All operands are looked at before the one write, so a bad operand leaves the state as it was.
  cases func with
  | readInput | readRegister | getDA => cases hfunc
  | writeCoil =>
    simp only [performOp, run_bind, hlift, hlift']
    cases addressOperand .writeCoil (values.headD .null) with
    | error err => exact .inl ⟨err, rfl, rfl⟩
    | ok a =>
      cases coilOperand .writeCoil (values.tail.headD .null) with
      | error err => exact .inl ⟨err, rfl, rfl⟩
      | ok b => exact .inr ⟨.writeCoil a b, rfl, rfl, rfl⟩
  | writeRegister =>
    simp only [performOp, run_bind, hlift, hlift']
    cases addressOperand .writeRegister (values.headD .null) with
    | error err => exact .inl ⟨err, rfl, rfl⟩
    | ok a =>
      cases wordOperand .writeRegister (values.tail.headD .null) with
      | error err => exact .inl ⟨err, rfl, rfl⟩
      | ok w => exact .inr ⟨.writeRegister a w, rfl, rfl, rfl⟩
  | setDA =>
    simp only [performOp, run_bind, hlift, hlift']
    cases pathOperand .setDA (values.headD .null) with
    | error err => exact .inl ⟨err, rfl, rfl⟩
    | ok path => exact .inr ⟨.setDA path (values.tail.headD .null), rfl, rfl, rfl⟩
  | log =>
    exact .inr ⟨.log (.ofText (values.headD .null).display) (values.tail.headD .null).display, rfl, rfl, rfl⟩

theorem reads_chooseArm (dev : Device σ) (scope : Scope) (arms : Arms)
    (h : ∀ arm ∈ arms.branches, arm.1.WellFormed vars) :
    Run.Reads (chooseArm dev scope arms) (chooseArm dev.noted scope arms) := by
  match arms with
  | .none => exact .pure _
  | .otherwise body => exact .pure _
  | .arm cond body rest =>
    rw [chooseArm, chooseArm]
    rw [Arms.branches] at h
    obtain ⟨hcond, hrest⟩ := List.forall_mem_cons.1 h
    refine (reads_condition hcond dev scope).bind fun holds => ?_
    cases holds with
    | true => exact .pure _
    | false => exact reads_chooseArm dev scope rest hrest

/-- **All that a statement asks of the device**, by the notes that are taken. -/
inductive Asks (dev : Device σ) (scope : Scope) (stmt : Stmt) (after : List Stmt) (state : σ) :
    List DeviceCall → Prop
  /-- It reads, and may fail. -/
  | reads {calls : List DeviceCall} (hreads : ∀ c ∈ calls, c.isWrite = false) : Asks dev scope stmt after state calls
  /-- It is a call: its arguments are evaluated, then it writes, and it does not fail. -/
  | write {line : UInt32} {func : DeviceOp} {args : List Expr} (hstmt : stmt = .call line func args)
      {values : List Scalar} {state' : σ} {reads : List DeviceCall} (hreads : ∀ c ∈ reads, c.isWrite = false)
      (hargs : (evaluateAll dev.noted scope args).run (state, []) = (.ok values, state', reads))
      {w : DeviceCall} (hw : w.isWrite = true) {left : Scope × List (List Stmt)}
      (hdone : ((runStmt dev scope stmt after).run state).1 = .ok left) :
      Asks dev scope stmt after state (reads ++ [w])

namespace Asks

variable {stmt : Stmt} {after : List Stmt} {state : σ} {calls : List DeviceCall}

theorem countP_isWrite_le (h : Asks dev scope stmt after state calls) : calls.countP DeviceCall.isWrite ≤ 1 := by
  have hcount {reads : List DeviceCall} (hreads : ∀ c ∈ reads, c.isWrite = false) :
      reads.countP DeviceCall.isWrite = 0 := List.countP_eq_zero.2 fun c hc => by simp [hreads c hc]
  cases h with
  | reads hreads => exact (hcount hreads).trans_le (Nat.zero_le 1)
  | write _ hreads _ hw => simp [hcount hreads, hw]

/-- What writes is the last call of a call statement. -/
theorem of_write (h : Asks dev scope stmt after state calls) {w : DeviceCall} (hmem : w ∈ calls)
    (hw : w.isWrite = true) : ∃ line func args, stmt = .call line func args ∧
      ∃ values state' reads, (evaluateAll dev.noted scope args).run (state, []) = (.ok values, state', reads) ∧
        calls = reads ++ [w] := by
  cases h with
  | reads hreads =>
    rw [hreads w hmem] at hw
    cases hw
  | @write line func args hstmt values state' reads hreads hargs w' _ _ _ =>
    have hlast : w = w' := by
      rcases List.mem_append.1 hmem with hread | hlast
      · rw [hreads w hread] at hw
        cases hw
      · exact List.mem_singleton.1 hlast
    exact ⟨line, func, args, hstmt, values, state', reads, hargs, by rw [hlast]⟩

/-- A statement that fails has only read: one that writes does not fail any more. -/
theorem of_error (h : Asks dev scope stmt after state calls) {err : RuntimeError}
    (herr : ((runStmt dev scope stmt after).run state).1 = .error err) : ∀ c ∈ calls, c.isWrite = false := by
  cases h with
  | reads hreads => exact hreads
  | write _ _ _ _ hdone =>
    rw [hdone] at herr
    cases herr

end Asks

/-- A statement with notes taken: it comes to the same end, and the notes are all that it asks. -/
def Noted (dev : Device σ) (scope : Scope) (stmt : Stmt) (after : List Stmt) (state : σ) (calls : List DeviceCall) :
    Prop :=
  (runStmt dev.noted scope stmt after).run (state, []) =
      (((runStmt dev scope stmt after).run state).1, ((runStmt dev scope stmt after).run state).2, calls) ∧
    Asks dev scope stmt after state calls

theorem noted_of_reads {stmt : Stmt} {after : List Stmt}
    (h : Run.Reads (runStmt dev scope stmt after) (runStmt dev.noted scope stmt after)) (state : σ) :
    ∃ calls, Noted dev scope stmt after state calls := by
  obtain ⟨reads, hreads, hnoted⟩ := h state []
  exact ⟨reads, hnoted, .reads hreads⟩

/-- A call of a function without a result. -/
theorem noted_call {line : UInt32} {func : DeviceOp} {args : List Expr} (hargs : ∀ e ∈ args, e.WellFormed vars)
    (hfunc : func.hasResult = false) (after : List Stmt) (dev : Device σ) (scope : Scope) (state : σ) :
    ∃ calls, Noted dev scope (.call line func args) after state calls := by
  obtain ⟨reads, hreads, hvalues⟩ := reads_evaluateAll (fun e he => reads_evaluate (hargs e he) dev scope) state []
  rw [List.nil_append] at hvalues
  rcases hrun : (evaluateAll dev scope args).run state with ⟨err | values, state'⟩
  · -- an argument fails, so the function is not called
    rw [hrun] at hvalues
    refine ⟨reads, ?_, .reads hreads⟩
    simp only [runStmt, run_bind, hrun, hvalues]
  rw [hrun] at hvalues
  rcases performOp_writes hfunc dev values state' reads with ⟨err, hplain, hnoted⟩ | ⟨w, hw, hplain, hnoted⟩
  · refine ⟨reads, ?_, .reads hreads⟩
    simp only [runStmt, run_bind, hrun, hvalues, hplain, hnoted]
  · have hdone : (performOp dev func values).run state' =
        (.ok .null, ((performOp dev func values).run state').2) := Prod.ext hplain rfl
    have hstmt : (runStmt dev scope (.call line func args) after).run state =
        (.ok (scope, [after]), ((performOp dev func values).run state').2) := by
      simp only [runStmt, run_bind, hrun]
      rw [hdone]
      rfl
    refine ⟨reads ++ [w], ?_, .write rfl hreads hvalues hw (congrArg Prod.fst hstmt)⟩
    rw [hstmt]
    simp only [runStmt, run_bind, hvalues, hnoted]
    rfl

/-- **One statement**, by its kind: only calls of functions without a result write. -/
theorem noted_runStmt {stmt : Stmt} (h : stmt.WellFormed vars) (after : List Stmt) (dev : Device σ) (scope : Scope)
    (state : σ) : ∃ calls, Noted dev scope stmt after state calls := by
  cases h with
  | assign line _ hvalue =>
    refine noted_of_reads ?_ state
    exact (reads_evaluate hvalue dev scope).bind fun v => (Run.Reads.lift _).bind fun s => .pure _
  | @call line func args _ hargs =>
    cases hfunc : func.hasResult with
    | true =>
      refine noted_of_reads ?_ state
      exact (reads_evaluateAll fun e he => reads_evaluate (hargs e he) dev scope).bind fun vs =>
        (reads_performOp hfunc dev vs).bind fun _ => .pure _
    | false => exact noted_call hargs hfunc after dev scope state
  | choose line hconds _ _ =>
    refine noted_of_reads ?_ state
    refine (reads_chooseArm dev scope _ hconds).bind fun chosen => ?_
    cases chosen with
    | none => exact .pure _
    | some body => exact .pure _
  | loop line hcond _ =>
    refine noted_of_reads ?_ state
    refine (reads_condition hcond dev scope).bind fun holds => ?_
    cases holds with
    | true => exact .pure _
    | false => exact .pure _

namespace Execution

variable {e : Execution} {stmt : Stmt} {after : List Stmt} {outer : List (List Stmt)} {state : σ}

/-- The calls of the next step, the first one first. -/
def calls (e : Execution) (dev : Device σ) (scope : Scope) (state : σ) : List DeviceCall :=
  (e.step dev.noted scope (state, [])).state.2

/-- Closing finished blocks twice closes no more of them. -/
theorem settle_settle (e : Execution) : e.settle.settle = e.settle := by
  have hfirst : e.settle.frames.dropWhile List.isEmpty = e.settle.frames :=
    List.dropWhile_eq_self_iff.2 fun hl => List.dropWhile_get_zero_not _ _ hl
  rw [settle, hfirst]

theorem step_settle (e : Execution) (dev : Device σ) (scope : Scope) (state : σ) :
    e.settle.step dev scope state = e.step dev scope state := by
  unfold step
  rw [settle_settle]

/-- The blocks that are closed are those that are finished. -/
theorem frames_eq (e : Execution) :
    ∃ finished, e.frames = finished ++ e.settle.frames ∧ ∀ block ∈ finished, block = [] := by
  refine ⟨e.frames.takeWhile List.isEmpty, (List.takeWhile_append_dropWhile).symm, ?_⟩
  intro block hblock
  exact List.isEmpty_iff.1 (List.mem_takeWhile_imp hblock)

/-- A step by the end of its statement. -/
theorem step_of_frames (hframes : e.settle.frames = (stmt :: after) :: outer) (dev : Device σ) (scope : Scope)
    (state : σ) : e.step dev scope state =
      match (runStmt dev scope stmt after).run state with
      | (.error err, state) => ⟨.error (err.atLine stmt.line), e.settle, scope, state⟩
      | (.ok (scope, blocks), state) =>
        ⟨.ok (.suspended stmt.line), ⟨blocks ++ outer⟩, scope.followState (dev.now state), state⟩ := by
  rcases hrun : (runStmt dev scope stmt after).run state with ⟨err | ⟨scope', blocks⟩, state'⟩
  · simp only [step, hframes, hrun]
  · simp only [step, hframes, hrun]

/-- Without a statement that is left, there is nothing to do. -/
theorem step_of_no_frames (hdone : ∀ stmt after outer, e.settle.frames ≠ (stmt :: after) :: outer) (dev : Device σ)
    (scope : Scope) (state : σ) : e.step dev scope state = ⟨.ok .completed, e.settle, scope, state⟩ := by
  rcases hframes : e.settle.frames with _ | ⟨_ | ⟨stmt, after⟩, outer⟩
  · simp only [step, hframes]
  · simp only [step, hframes]
  · exact absurd hframes (hdone stmt after outer)

/-- **A step that fails** fails with its statement: it changes no variable, and stays there. -/
theorem step_error {err : RuntimeError} (herr : (e.step dev scope state).outcome = .error err) :
    (e.step dev scope state).scope = scope ∧ (e.step dev scope state).execution = e.settle ∧
      ∃ stmt after outer err', e.settle.frames = (stmt :: after) :: outer ∧
        ((runStmt dev scope stmt after).run state).1 = .error err' := by
  by_cases hframes : ∃ stmt after outer, e.settle.frames = (stmt :: after) :: outer
  · obtain ⟨stmt, after, outer, hframes⟩ := hframes
    rcases hrun : (runStmt dev scope stmt after).run state with ⟨err' | left, state'⟩
    · rw [step_of_frames hframes, hrun]
      exact ⟨rfl, rfl, stmt, after, outer, err', hframes, by rw [hrun]⟩
    · rw [step_of_frames hframes, hrun] at herr
      cases herr
  · rw [step_of_no_frames fun stmt after outer h => hframes ⟨stmt, after, outer, h⟩] at herr
    cases herr

/-- Such a step closes finished blocks only, so the next one takes up the statement that has failed. -/
theorem stays_of_error {err : RuntimeError} (herr : (e.step dev scope state).outcome = .error err) :
    (∃ finished stmt after outer, e.frames = finished ++ (stmt :: after) :: outer ∧ (∀ block ∈ finished, block = []) ∧
      (e.step dev scope state).execution.frames = (stmt :: after) :: outer) ∧
    ∀ {τ : Type} (dev' : Device τ) (scope' : Scope) (state' : τ),
      (e.step dev scope state).execution.step dev' scope' state' = e.step dev' scope' state' := by
  obtain ⟨-, hplace, stmt, after, outer, -, hframes, -⟩ := step_error herr
  obtain ⟨finished, hfinished, hempty⟩ := e.frames_eq
  rw [hframes] at hfinished
  rw [hplace]
  exact ⟨⟨finished, stmt, after, outer, hfinished, hempty, hframes⟩,
    fun dev' scope' state' => e.step_settle dev' scope' state'⟩

/-- A step with notes taken is the step, with the notes of its statement. -/
theorem step_noted (hframes : e.settle.frames = (stmt :: after) :: outer) {calls : List DeviceCall}
    (hnoted : (runStmt dev.noted scope stmt after).run (state, []) =
      (((runStmt dev scope stmt after).run state).1, ((runStmt dev scope stmt after).run state).2, calls)) :
    e.step dev.noted scope (state, []) =
      ⟨(e.step dev scope state).outcome, (e.step dev scope state).execution, (e.step dev scope state).scope,
        (e.step dev scope state).state, calls⟩ := by
  rw [step_of_frames hframes, step_of_frames hframes, hnoted]
  rcases (runStmt dev scope stmt after).run state with ⟨err | ⟨scope', blocks⟩, state'⟩
  · rfl
  · rfl

end Execution

/-- Blocks of statements of a well-formed program are well formed. -/
theorem blockWellFormed_of_block {p : Program} (hp : p.WellFormed) {block : List Stmt} (h : p.Block block) :
    BlockWellFormed p.vars block := by
  induction h with
  | body => exact hp.body
  | branch _ hstmt harm ih =>
    cases ih _ hstmt with
    | choose _ _ hbodies _ => exact hbodies _ harm
  | last _ hstmt hlast ih =>
    cases ih _ hstmt with
    | choose _ _ _ hlasts => exact hlasts _ hlast
  | loop _ hstmt ih =>
    cases ih _ hstmt with
    | loop _ _ hbody => exact hbody

/-- **What a step of an execution of a well-formed program asks of the device**: with notes taken it is the same
step, and it asks what its statement asks, or nothing if there is no statement left. -/
theorem step_asks {p : Program} (hp : p.WellFormed) {e : Execution} (he : e.Within p) (dev : Device σ) (scope : Scope)
    (state : σ) :
    e.step dev.noted scope (state, []) =
      ⟨(e.step dev scope state).outcome, (e.step dev scope state).execution, (e.step dev scope state).scope,
        (e.step dev scope state).state, e.calls dev scope state⟩ ∧
    (e.calls dev scope state = [] ∨ ∃ stmt after outer, e.settle.frames = (stmt :: after) :: outer ∧
      Asks dev scope stmt after state (e.calls dev scope state)) := by
  by_cases hframes : ∃ stmt after outer, e.settle.frames = (stmt :: after) :: outer
  · obtain ⟨stmt, after, outer, hframes⟩ := hframes
    -- the statement stands in a block of the program
    have hrest : p.Rest (stmt :: after) := he.settle _ (hframes ▸ List.mem_cons_self)
    obtain ⟨block, hblock, hsuffix⟩ := hrest
    have hstmt : stmt.WellFormed p.vars :=
      blockWellFormed_of_block hp hblock stmt (hsuffix.subset List.mem_cons_self)
    obtain ⟨calls, hnoted, hasks⟩ := noted_runStmt hstmt after dev scope state
    have hstep := Execution.step_noted hframes hnoted
    have hcalls : e.calls dev scope state = calls := by rw [Execution.calls, hstep]
    rw [hcalls]
    exact ⟨hstep, .inr ⟨stmt, after, outer, hframes, hasks⟩⟩
  · have hdone : ∀ stmt after outer, e.settle.frames ≠ (stmt :: after) :: outer := by
      intro stmt after outer h
      exact hframes ⟨stmt, after, outer, h⟩
    have hcalls : e.calls dev scope state = [] := by rw [Execution.calls, Execution.step_of_no_frames hdone]
    rw [hcalls, Execution.step_of_no_frames hdone, Execution.step_of_no_frames hdone]
    exact ⟨rfl, .inl rfl⟩

/-- **A step is atomic towards the device.** -/
structure Atomic (e : Execution) (dev : Device σ) (scope : Scope) (state : σ) : Prop where
  /-- Taking notes changes nothing: the calls are those of this step. -/
  noted : e.step dev.noted scope (state, []) =
    ⟨(e.step dev scope state).outcome, (e.step dev scope state).execution, (e.step dev scope state).scope,
      (e.step dev scope state).state, e.calls dev scope state⟩
  /-- It writes at most once. -/
  once : (e.calls dev scope state).countP DeviceCall.isWrite ≤ 1
  /-- It writes after its statement, a call, has all its arguments, and then it asks nothing more of the device. -/
  last : ∀ w ∈ e.calls dev scope state, w.isWrite = true →
    ∃ line func args after outer, e.settle.frames = (.call line func args :: after) :: outer ∧
      ∃ values state' reads, (evaluateAll dev.noted scope args).run (state, []) = (.ok values, state', reads) ∧
        e.calls dev scope state = reads ++ [w]
  /-- If it fails, it has not written, the scope is as before, and the execution stands on the statement that has
  failed: only finished blocks before it have been closed, and the next step takes it up again. -/
  failed : ∀ err, (e.step dev scope state).outcome = .error err →
    (∀ c ∈ e.calls dev scope state, c.isWrite = false) ∧ (e.step dev scope state).scope = scope ∧
    (∃ finished stmt after outer, e.frames = finished ++ (stmt :: after) :: outer ∧ (∀ block ∈ finished, block = []) ∧
      (e.step dev scope state).execution.frames = (stmt :: after) :: outer) ∧
    ∀ {τ : Type} (dev' : Device τ) (scope' : Scope) (state' : τ),
      (e.step dev scope state).execution.step dev' scope' state' = e.step dev' scope' state'

/-- **Every step of every execution of a compiled program is atomic** towards every device, in every scope: it writes
once at most, after all that it evaluates, and if it fails nothing has happened. -/
theorem step_atomic {source : String} {p : Program} (hp : compile source = .ok p) {e : Execution} (he : e.Within p)
    (dev : Device σ) (scope : Scope) (state : σ) : Atomic e dev scope state := by
  obtain ⟨hnoted, hasks⟩ := step_asks (wellFormed_of_compile hp) he dev scope state
  refine ⟨hnoted, ?_, ?_, ?_⟩
  · rcases hasks with hnone | ⟨stmt, after, outer, hframes, hasks⟩
    · rw [hnone]
      exact Nat.zero_le 1
    · exact hasks.countP_isWrite_le
  · intro w hmem hw
    rcases hasks with hnone | ⟨stmt, after, outer, hframes, hasks⟩
    · rw [hnone] at hmem
      cases hmem
    · obtain ⟨line, func, args, hstmt, hcalls⟩ := hasks.of_write hmem hw
      rw [hstmt] at hframes
      exact ⟨line, func, args, after, outer, hframes, hcalls⟩
  · intro err herr
    obtain ⟨hscope, -, stmt, after, outer, err', hframes, hrun⟩ := Execution.step_error herr
    obtain ⟨hplace, hagain⟩ := Execution.stays_of_error herr
    refine ⟨?_, hscope, hplace, hagain⟩
    rcases hasks with hnone | ⟨stmt', after', outer', hframes', hasks⟩
    · rw [hnone]
      exact nofun
    · rw [hframes] at hframes'
      cases hframes'
      exact hasks.of_error hrun

/-- A register that is read, and written to twice, the second time with a number that does not fit. -/
def overflow : String :=
  "Device.WriteRegister(Device.ReadRegister(4), 7); Device.WriteRegister(Device.ReadRegister(4), 70000);"

theorem step_atomic_overflow : ∃ p, compile overflow = .ok p ∧
    let scope : Scope := ⟨[], none⟩
    let first := Execution.start p
    let second := (first.step detached scope 0).execution
    first.Within p ∧ Atomic first detached scope 0 ∧ second.Within p ∧ Atomic second detached scope 0 ∧
      first.calls detached scope 0 = [.readRegister 4 0, .writeRegister 0 7] ∧
      second.calls detached scope 0 = [.readRegister 4 0] ∧
      (second.step detached scope 0).outcome.toOption = none := by
  let scope : Scope := ⟨[], none⟩
  have hruns : (compile overflow).toOption.any (fun p =>
      let first := Execution.start p
      let second := (first.step detached scope 0).execution
      first.calls detached scope 0 = [.readRegister 4 0, .writeRegister 0 7] ∧
        second.calls detached scope 0 = [.readRegister 4 0] ∧
        (second.step detached scope 0).outcome.toOption = none) = true := by decide +kernel
  cases hp : compile overflow with
  | error e =>
    rw [hp] at hruns
    cases hruns
  | ok p =>
    rw [hp] at hruns
    obtain ⟨hfirst, hsecond, hfails⟩ := of_decide_eq_true hruns
    have hstart : (Execution.start p).Within p := within_start p
    have hnext := hstart.step detached scope 0
    exact ⟨p, rfl, hstart, step_atomic hp hstart detached scope 0, hnext, step_atomic hp hnext detached scope 0,
      hfirst, hsecond, hfails⟩

end Switchyard.Script
