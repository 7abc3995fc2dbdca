import Switchyard.Proofs.Script.Structured

/-!
# Execution refines the structured semantics

`Execution.observe` takes an execution step by step, while the device changes in
any way between the steps, and notes the suspensions. It shows what the
structured semantics says, and ends as it says (`runs_iff_observe`): the same lines,
scopes and devices in the same order, completion at the same place, and the same
error on the line of the same statement.

The stack of blocks matters only through the statements left in it, read in order
(`Execution.remaining`). One step takes the first of them and puts what it leaves
to run in its place (`leaves`, `step_of_leaves`).

* `runs_of_observe`: what is observed is a run, by induction on the steps.
* `follows_of_runs`: a run is observed, by induction on the run, whatever is left to run after it.
-/

namespace Switchyard.Script

variable {σ : Type}

/-- The run of an execution, up to a number of steps. -/
def Execution.observe (dev : Device σ) (world : ℕ → σ → σ) :
    ℕ → Execution → Moment σ → List (Suspension σ) × Ending σ
  | 0, _, m => ([], .paused m)
  | n + 1, e, m =>
    let result := e.step dev m.scope m.state
    match result.outcome with
    | .ok (.suspended line) =>
      let s : Suspension σ := ⟨line, result.scope, result.state⟩
      let later := result.execution.observe dev world n (m.next world s)
      (s :: later.1, later.2)
    | .ok .completed => ([], .completed ⟨m.steps, result.scope, result.state⟩)
    | .error err => ([], .failed err result.scope result.state)

/-- The statements that an execution has left, in order. -/
def Execution.remaining (e : Execution) : List Stmt := e.frames.flatten

/-- What a statement leaves to run in its place, with the scope after it. -/
def leaves (dev : Device σ) (scope : Scope) : Stmt → Run σ (Scope × List Stmt)
  | .assign _ target value => (·, []) <$> assign dev scope target value
  | .call _ func args => (fun _ => (scope, [])) <$> call dev scope func args
  | .choose _ arms => (scope, ·) <$> (·.getD []) <$> chooseArm dev scope arms
  | .loop line cond body =>
    (fun holds => (scope, if holds then body ++ [.loop line cond body] else [])) <$> condition dev scope cond

variable {dev : Device σ} {world : ℕ → σ → σ} {e : Execution} {m : Moment σ}
  {s : Stmt} {after more : List Stmt} {scope scope' : Scope} {state state' : σ} {err : RuntimeError}
  {shown shown' : List (Suspension σ)} {ending : Ending σ}

/-- **Statements and stack.** The blocks that a statement puts on the stack hold what it leaves to run and then
the statements after it. -/
theorem flatten_runStmt (dev : Device σ) (scope : Scope) (s : Stmt) (after : List Stmt) :
    Prod.map id List.flatten <$> runStmt dev scope s after = Prod.map id (· ++ after) <$> leaves dev scope s := by
  cases s with
  | assign line target value => simp [runStmt, leaves, assign]
  | call line func args => simp [runStmt, leaves, call]
  | choose line arms =>
    simp only [runStmt, leaves, Functor.map_map, map_bind]
    rw [map_eq_pure_bind]
    refine bind_congr fun chosen => ?_
    cases chosen with
    | none => simp
    | some body => simp
  | loop line cond body =>
    simp only [runStmt, leaves, Functor.map_map, map_bind]
    rw [map_eq_pure_bind]
    refine bind_congr fun holds => ?_
    cases holds with
    | false => simp
    | true => simp

theorem runStmt_of_leaves (after : List Stmt) (h : (leaves dev scope s).run state = (.ok (scope', more), state')) :
    ∃ blocks, (runStmt dev scope s after).run state = (.ok (scope', blocks), state') ∧
      blocks.flatten = more ++ after := by
  have hflat : (Prod.map id List.flatten <$> runStmt dev scope s after).run state =
      (.ok (scope', more ++ after), state') := by
    rw [flatten_runStmt]
    exact run_map_ok.2 ⟨_, h, rfl⟩
  obtain ⟨⟨_, blocks⟩, hrun, heq⟩ := run_map_ok.1 hflat
  obtain ⟨rfl, hblocks⟩ := Prod.mk.inj heq
  exact ⟨blocks, hrun, hblocks⟩

theorem runStmt_of_leaves_error (after : List Stmt) (h : (leaves dev scope s).run state = (.error err, state')) :
    (runStmt dev scope s after).run state = (.error err, state') := by
  have hflat : (Prod.map id List.flatten <$> runStmt dev scope s after).run state = (.error err, state') := by
    rw [flatten_runStmt]
    exact run_map_error.2 h
  exact run_map_error.1 hflat

theorem unplaced_leaves (dev : Device σ) (scope : Scope) (s : Stmt) : Run.Unplaced (leaves dev scope s) := by
  cases s with
  | assign line target value => exact (unplaced_assign dev scope target value).map _
  | call line func args => exact (unplaced_call dev scope func args).map _
  | choose line arms => exact ((unplaced_chooseArm dev scope arms).map _).map _
  | loop line cond body => exact (unplaced_condition dev scope cond).map _

/-- The first statement left is the one at the top of the stack, once the blocks without statements are closed. -/
theorem settle_of_remaining (h : e.remaining = s :: after) :
    ∃ block outer, e.settle.frames = (s :: block) :: outer ∧ after = block ++ outer.flatten := by
  obtain ⟨frames⟩ := e
  simp only [Execution.remaining, Execution.settle] at h ⊢
  induction frames with
  | nil => cases h
  | cons block outer ih =>
    cases block with
    | nil => exact ih h
    | cons s' block =>
      rw [List.flatten_cons, List.cons_append, List.cons.injEq] at h
      obtain ⟨rfl, rfl⟩ := h
      exact ⟨block, outer, rfl, rfl⟩

theorem settle_of_remaining_nil (h : e.remaining = []) : e.settle.frames = [] := by
  obtain ⟨frames⟩ := e
  simp only [Execution.remaining, Execution.settle] at h ⊢
  induction frames with
  | nil => rfl
  | cons block outer ih =>
    rw [List.flatten_cons, List.append_eq_nil_iff] at h
    obtain ⟨rfl, houter⟩ := h
    exact ih houter

theorem step_of_leaves (hr : e.remaining = s :: after)
    (h : (leaves dev scope s).run state = (.ok (scope', more), state')) :
    ∃ e', e'.remaining = more ++ after ∧
      e.step dev scope state = ⟨.ok (.suspended s.line), e', scope'.followState (dev.now state'), state'⟩ := by
  obtain ⟨block, outer, hframes, rfl⟩ := settle_of_remaining hr
  obtain ⟨blocks, hrun, hflat⟩ := runStmt_of_leaves block h
  refine ⟨⟨blocks ++ outer⟩, ?_, ?_⟩
  · rw [Execution.remaining, List.flatten_append, hflat, List.append_assoc]
  · simp only [Execution.step, hframes, hrun]

theorem step_of_leaves_error (hr : e.remaining = s :: after)
    (h : (leaves dev scope s).run state = (.error err, state')) :
    e.step dev scope state = ⟨.error ⟨err.fault, some s.line⟩, e.settle, scope, state'⟩ := by
  obtain ⟨block, outer, hframes, -⟩ := settle_of_remaining hr
  have hrun := runStmt_of_leaves_error block h
  simp only [Execution.step, hframes, hrun]
  rw [RuntimeError.atLine_of_unplaced (unplaced_leaves dev scope s) h]

theorem step_of_remaining_nil (hr : e.remaining = []) :
    e.step dev scope state = ⟨.ok .completed, e.settle, scope, state⟩ := by
  simp only [Execution.step, settle_of_remaining_nil hr]

theorem observe_of_leaves (world : ℕ → σ → σ) (hr : e.remaining = s :: after)
    (h : (leaves dev m.scope s).run m.state = (.ok (scope, more), state)) :
    ∃ e' : Execution, e'.remaining = more ++ after ∧ ∀ n, e.observe dev world (n + 1) m =
      (.of dev s.line scope state :: (e'.observe dev world n (m.next world (.of dev s.line scope state))).1,
        (e'.observe dev world n (m.next world (.of dev s.line scope state))).2) := by
  obtain ⟨e', hr', hstep⟩ := step_of_leaves hr h
  refine ⟨e', hr', fun n => ?_⟩
  simp only [Execution.observe, hstep]
  rfl

theorem observe_of_leaves_error (hr : e.remaining = s :: after)
    (h : (leaves dev m.scope s).run m.state = (.error err, state)) (n : ℕ) :
    e.observe dev world (n + 1) m = ([], .failed ⟨err.fault, some s.line⟩ m.scope state) := by
  simp only [Execution.observe, step_of_leaves_error hr h]

theorem observe_of_remaining_nil (hr : e.remaining = []) (n : ℕ) :
    e.observe dev world (n + 1) m = ([], .completed m) := by
  simp only [Execution.observe, step_of_remaining_nil hr]

/-- What completes without a suspension has nothing left to run. -/
theorem remaining_eq_nil {m' : Moment σ} {n : ℕ} (h : e.observe dev world (n + 1) m = ([], .completed m')) :
    e.remaining = [] := by
  cases hr : e.remaining with
  | nil => rfl
  | cons s after =>
    rcases hrun : (leaves dev m.scope s).run m.state with ⟨err | ⟨scope, more⟩, state⟩
    · rw [observe_of_leaves_error hr hrun] at h
      cases h
    · obtain ⟨e', -, hobserve⟩ := observe_of_leaves world hr hrun
      rw [hobserve] at h
      cases h

/-- **A statement and what it leaves.** A statement and those after it run as the structured semantics says,
if what it leaves and those after it do. -/
theorem runs_of_leaves (h : (leaves dev m.scope s).run m.state = (.ok (scope, more), state))
    (hrest : Runs dev world (.block (more ++ after)) (m.next world (.of dev s.line scope state)) shown ending) :
    Runs dev world (.block (s :: after)) m (.of dev s.line scope state :: shown) ending := by
  cases s with
  | assign line target value =>
    obtain ⟨_, hrun, heq⟩ := run_map_ok.1 h
    cases heq
    exact .seq (.assign hrun) hrest
  | call line func args =>
    obtain ⟨_, hrun, heq⟩ := run_map_ok.1 h
    cases heq
    exact .seq (.call hrun) hrest
  | choose line arms =>
    obtain ⟨body, hrun, heq⟩ := run_map_ok.1 h
    cases heq
    have htakes := (takes_iff arms).2 hrun
    rcases runs_append hrest with ⟨m', first, later, rfl, hbody, hlater⟩ | ⟨hstops, hbody⟩
    · exact .seq (.choose htakes hbody) hlater
    · exact .stop (.choose htakes hbody) hstops
  | loop line cond body =>
    obtain ⟨holds, hrun, heq⟩ := run_map_ok.1 h
    cases heq
    cases holds with
    | false => exact .seq (.loopDone hrun) hrest
    | true =>
      -- the body, then the loop itself, then the statements after the loop
      rw [if_pos rfl, List.append_assoc] at hrest
      rcases runs_append hrest with ⟨m', first, later, rfl, hbody, hlater⟩ | ⟨hstops, hbody⟩
      · rcases runs_cons hlater with ⟨m'', middle, last, rfl, hagain, hafter⟩ | ⟨hstops, hagain⟩
        · rw [← List.append_assoc]
          exact .seq (.loopAgain hrun hbody hagain) hafter
        · exact .stop (.loopAgain hrun hbody hagain) hstops
      · exact .stop (.loopStops hrun hbody hstops) hstops

theorem runs_of_leaves_error (h : (leaves dev m.scope s).run m.state = (.error err, state)) :
    Runs dev world (.block (s :: after)) m [] (.failed ⟨err.fault, some s.line⟩ m.scope state) := by
  cases s with
  | assign line target value => exact .stop (.assignFails (run_map_error.1 h)) trivial
  | call line func args => exact .stop (.callFails (run_map_error.1 h)) trivial
  | choose line arms => exact .stop (.chooseFails ((takes_iff arms).2 (run_map_error.1 h))) trivial
  | loop line cond body => exact .stop (.loopFails (run_map_error.1 h)) trivial

/-- **What is observed is a run** of the statements that are left. -/
theorem runs_of_observe (dev : Device σ) (world : ℕ → σ → σ) (n : ℕ) (e : Execution) (m : Moment σ) :
    Runs dev world (.block e.remaining) m (e.observe dev world n m).1 (e.observe dev world n m).2 := by
  induction n generalizing e m with
  | zero => exact .paused
  | succ n ih =>
    cases hr : e.remaining with
    | nil =>
      rw [observe_of_remaining_nil hr]
      exact .done
    | cons s after =>
      rcases hrun : (leaves dev m.scope s).run m.state with ⟨err | ⟨scope, more⟩, state⟩
      · rw [observe_of_leaves_error hr hrun]
        exact runs_of_leaves_error hrun
      · obtain ⟨e', hr', hobserve⟩ := observe_of_leaves world hr hrun
        rw [hobserve]
        refine runs_of_leaves hrun ?_
        rw [← hr']
        exact ih e' _

/-- An execution shows these suspensions from a moment and comes to this ending; where it completes, it goes on
with the statements after it. -/
def Execution.Follows (dev : Device σ) (world : ℕ → σ → σ) (e : Execution) (m : Moment σ)
    (shown : List (Suspension σ)) (after : List Stmt) : Ending σ → Prop
  | .completed m' => ∃ e' : Execution, e'.remaining = after ∧ ∀ n, e.observe dev world (shown.length + n) m =
      (shown ++ (e'.observe dev world n m').1, (e'.observe dev world n m').2)
  | ending => ∃ n, e.observe dev world n m = (shown, ending)

/-- Where nothing runs after an ending, the statements after it do not matter. -/
theorem Execution.Follows.of_stops {after' : List Stmt} (h : e.Follows dev world m shown after ending)
    (hstops : ending.Stops) : e.Follows dev world m shown after' ending := by
  cases ending with
  | paused m' => exact h
  | completed m' => exact hstops.elim
  | failed error scope state => exact h

/-- Two parts of a run, one after the other. -/
theorem Execution.Follows.trans {m' : Moment σ} {after' : List Stmt}
    (h : e.Follows dev world m shown after (.completed m'))
    (h' : ∀ e' : Execution, e'.remaining = after → e'.Follows dev world m' shown' after' ending) :
    e.Follows dev world m (shown ++ shown') after' ending := by
  obtain ⟨e₁, hr₁, hfirst⟩ := h
  have hlater := h' e₁ hr₁
  have hstops (hlater : ∃ n, e₁.observe dev world n m' = (shown', ending)) :
      ∃ n, e.observe dev world n m = (shown ++ shown', ending) := by
    obtain ⟨n, hn⟩ := hlater
    exact ⟨shown.length + n, by rw [hfirst, hn]⟩
  cases ending with
  | paused m'' => exact hstops hlater
  | failed error scope state => exact hstops hlater
  | completed m'' =>
    obtain ⟨e₂, hr₂, hsecond⟩ := hlater
    refine ⟨e₂, hr₂, fun n => ?_⟩
    rw [List.length_append, Nat.add_assoc, hfirst, hsecond, List.append_assoc]

/-- One statement, then what it leaves. -/
theorem follows_of_leaves (hr : e.remaining = s :: after)
    (h : (leaves dev m.scope s).run m.state = (.ok (scope, more), state)) {after' : List Stmt}
    (h' : ∀ e' : Execution, e'.remaining = more ++ after →
      e'.Follows dev world (m.next world (.of dev s.line scope state)) shown after' ending) :
    e.Follows dev world m (.of dev s.line scope state :: shown) after' ending := by
  obtain ⟨e₁, hr₁, hobserve⟩ := observe_of_leaves world hr h
  have hone : e.Follows dev world m [.of dev s.line scope state] (more ++ after)
      (.completed (m.next world (.of dev s.line scope state))) := by
    refine ⟨e₁, hr₁, fun n => ?_⟩
    rw [List.length_singleton, Nat.add_comm, hobserve]
    rfl
  exact hone.trans h'

theorem follows_of_leaves_error (hr : e.remaining = s :: after)
    (h : (leaves dev m.scope s).run m.state = (.error err, state)) (after' : List Stmt) :
    e.Follows dev world m [] after' (.failed ⟨err.fault, some s.line⟩ m.scope state) :=
  ⟨1, observe_of_leaves_error hr h 0⟩

theorem follows_refl (hr : e.remaining = after) : e.Follows dev world m [] after (.completed m) :=
  ⟨e, hr, fun n => by rw [List.length_nil, Nat.zero_add]; rfl⟩

/-- The statements of a code, in order. -/
def Code.stmts : Code → List Stmt
  | .stmt s => [s]
  | .block b => b

/-- **A run is observed**, whatever is left to run after it. -/
theorem follows_of_runs {c : Code} (h : Runs dev world c m shown ending) (hr : e.remaining = c.stmts ++ after) :
    e.Follows dev world m shown after ending := by
  induction h generalizing e after with
  | paused => exact ⟨0, rfl⟩
  | done => exact follows_refl hr
  | @seq s rest _ _ _ _ _ _ _ ihs ihrest =>
    -- the rest of the block is part of what is left to run after its first statement
    have hs : e.remaining = (Code.stmt s).stmts ++ (rest ++ after) := hr
    exact (ihs hs).trans fun e' hr' => ihrest hr'
  | @stop s rest _ _ _ _ hstops ihs =>
    have hs : e.remaining = (Code.stmt s).stmts ++ (rest ++ after) := hr
    exact (ihs hs).of_stops hstops
  | assign h => exact follows_of_leaves hr (run_map_ok.2 ⟨_, h, rfl⟩) fun e' hr' => follows_refl hr'
  | assignFails h => exact follows_of_leaves_error hr (run_map_error.2 h) _
  | call h => exact follows_of_leaves hr (run_map_ok.2 ⟨_, h, rfl⟩) fun e' hr' => follows_refl hr'
  | callFails h => exact follows_of_leaves_error hr (run_map_error.2 h) _
  | choose h _ ihbody =>
    exact follows_of_leaves hr (run_map_ok.2 ⟨_, (takes_iff _).1 h, rfl⟩) fun e' hr' => ihbody hr'
  | chooseFails h => exact follows_of_leaves_error hr (run_map_error.2 ((takes_iff _).1 h)) _
  | loopAgain h _ _ ihbody ihagain =>
    -- what is left after the body begins with the loop itself
    refine follows_of_leaves hr (run_map_ok.2 ⟨true, h, rfl⟩) fun e' hr' => ?_
    rw [if_pos rfl, List.append_assoc] at hr'
    exact (ihbody hr').trans fun e'' hr'' => ihagain hr''
  | loopStops h _ hstops ihbody =>
    refine follows_of_leaves hr (run_map_ok.2 ⟨true, h, rfl⟩) fun e' hr' => ?_
    rw [if_pos rfl, List.append_assoc] at hr'
    exact (ihbody hr').of_stops hstops
  | loopDone h => exact follows_of_leaves hr (run_map_ok.2 ⟨false, h, rfl⟩) fun e' hr' => follows_refl hr'
  | loopFails h => exact follows_of_leaves_error hr (run_map_error.2 h) _

/-- **Execution refines the structured semantics.** Whatever the device and however it changes between the
steps, an execution of a program from its first statement shows exactly the suspensions of a run of its body,
and it ends as that run ends. -/
theorem runs_iff_observe (dev : Device σ) (world : ℕ → σ → σ) (program : Program) (m : Moment σ)
    (shown : List (Suspension σ)) (ending : Ending σ) :
    Runs dev world (.block program.body) m shown ending ↔
      ∃ n, (Execution.start program).observe dev world n m = (shown, ending) := by
  have hr : (Execution.start program).remaining = program.body := by
    rw [Execution.start, Execution.remaining, List.flatten_singleton]
  constructor
  · intro h
    have hfollows : (Execution.start program).Follows dev world m shown [] ending :=
      follows_of_runs h (by rw [hr, Code.stmts, List.append_nil])
    cases ending with
    | paused m' => exact hfollows
    | failed error scope state => exact hfollows
    | completed m' =>
      -- one more step finds that nothing is left
      obtain ⟨e', hr', hobserve⟩ := hfollows
      refine ⟨shown.length + 1, ?_⟩
      rw [hobserve, observe_of_remaining_nil hr', List.append_nil]
  · rintro ⟨n, hn⟩
    have hruns := runs_of_observe dev world n (Execution.start program) m
    rw [hr, hn] at hruns
    exact hruns

end Switchyard.Script
