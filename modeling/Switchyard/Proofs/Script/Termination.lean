import Switchyard.Proofs.Script.Blocks
import Switchyard.Proofs.Script.Refinement

/-!
# Programs without loops finish

A statement that is not a loop leaves only statements of its blocks to run. So in a program without loops, what has
been executed, followed by all statements that are still to come, is some of the statements of the program in the
order of its text (`executed_sublist`). Every step takes one of them away, whatever the device answers and whatever
branches are taken; so each is executed at most once, and the run comes to its end (`loopFree_finishes`).

* `Stmt.isLoop`: the statements that may leave themselves to run.
* `Execution.executed`: the statements that a run executes.
-/

namespace Switchyard.Script

variable {σ : Type}

/-- Whether a statement is a `WHILE`. -/
def Stmt.isLoop : Stmt → Bool
  | .loop .. => true
  | _ => false

/-- **The statements that a run executes**, up to a number of steps and in order. One that fails is the last of them. -/
def Execution.executed (dev : Device σ) (world : ℕ → σ → σ) : ℕ → Execution → Moment σ → List Stmt
  | 0, _, _ => []
  | n + 1, e, m =>
    match e.settle.frames with
    | (stmt :: _) :: _ =>
      let result := e.step dev m.scope m.state
      match result.outcome with
      | .ok (.suspended line) =>
        stmt :: result.execution.executed dev world n (m.next world ⟨line, result.scope, result.state⟩)
      | _ => [stmt]
    | _ => []

/-- The run is over: no statement is left, or one has failed. -/
def Ending.IsOver : Ending σ → Prop
  | .paused _ => False
  | .completed _ | .failed .. => True

variable {dev : Device σ} {world : ℕ → σ → σ} {e : Execution} {m : Moment σ} {s : Stmt} {after more : List Stmt}
  {scope scope' : Scope} {state state' : σ} {err : RuntimeError}

theorem executed_of_leaves (hr : e.remaining = s :: after)
    (h : (leaves dev m.scope s).run m.state = (.ok (scope, more), state)) (world : ℕ → σ → σ) :
    ∃ e' : Execution, e'.remaining = more ++ after ∧ ∀ n,
      e.executed dev world (n + 1) m =
          s :: e'.executed dev world n (m.next world (.of dev s.line scope state)) ∧
        e.observe dev world (n + 1) m =
          (.of dev s.line scope state :: (e'.observe dev world n (m.next world (.of dev s.line scope state))).1,
            (e'.observe dev world n (m.next world (.of dev s.line scope state))).2) := by
  obtain ⟨e', hr', hstep⟩ := step_of_leaves hr h
  obtain ⟨block, outer, hframes, -⟩ := settle_of_remaining hr
  refine ⟨e', hr', fun n => ⟨?_, ?_⟩⟩
  · simp only [Execution.executed, hframes, hstep]
    rfl
  · simp only [Execution.observe, hstep]
    rfl

theorem executed_of_leaves_error (hr : e.remaining = s :: after)
    (h : (leaves dev m.scope s).run m.state = (.error err, state)) (world : ℕ → σ → σ) (n : ℕ) :
    e.executed dev world (n + 1) m = [s] := by
  obtain ⟨block, outer, hframes, -⟩ := settle_of_remaining hr
  simp only [Execution.executed, hframes, step_of_leaves_error hr h]

theorem executed_of_remaining_nil (hr : e.remaining = []) (dev : Device σ) (world : ℕ → σ → σ) (m : Moment σ) (n : ℕ) :
    e.executed dev world (n + 1) m = [] := by
  simp only [Execution.executed, settle_of_remaining_nil hr]

/-- **A statement that is not a loop** is done with: what it leaves to run are statements of its blocks. -/
theorem leaves_sublist (hs : s.isLoop = false) (h : (leaves dev scope s).run state = (.ok (scope', more), state')) :
    (s :: allStmts more).Sublist s.all := by
  cases s with
  | assign line target value =>
    obtain ⟨_, -, heq⟩ := run_map_ok.1 h
    cases heq
    rw [Stmt.all]
    exact List.Sublist.refl [_]
  | call line func args =>
    obtain ⟨_, -, heq⟩ := run_map_ok.1 h
    cases heq
    rw [Stmt.all]
    exact List.Sublist.refl [_]
  | choose line arms =>
    obtain ⟨_, hbody, heq⟩ := run_map_ok.1 h
    cases heq
    obtain ⟨chosen, hchosen, rfl⟩ := run_map_ok.1 hbody
    rw [Stmt.all]
    refine List.Sublist.cons_cons _ ?_
    -- the block of one arm is left, the last one, or none
    cases chosen with
    | none =>
      rw [Option.getD_none, allStmts]
      exact List.nil_sublist _
    | some body =>
      have hgiven := gives_chosen dev scope arms state (some body) (by rw [hchosen])
      rcases hgiven body rfl with ⟨arm, harm, rfl⟩ | hlast
      · exact sublist_all_of_branch arms harm
      · exact sublist_all_of_last arms hlast
  | loop line cond body => cases hs

/-- **A run without loops**, by induction on its steps. The statements left carry it: each step takes the first of them
away, and with it those in its blocks that are not run. -/
theorem executed_sublist (dev : Device σ) (world : ℕ → σ → σ) (n : ℕ) (e : Execution) (m : Moment σ)
    (hfree : ∀ s ∈ allStmts e.remaining, s.isLoop = false) :
    (e.executed dev world n m).Sublist (allStmts e.remaining) ∧
      (e.observe dev world n m).1.map Suspension.line <+: (e.executed dev world n m).map Stmt.line ∧
      ((allStmts e.remaining).length < n → (e.observe dev world n m).2.IsOver) := by
  induction n generalizing e m with
  | zero => exact ⟨List.nil_sublist _, List.nil_prefix, fun h => absurd h (Nat.not_lt_zero _)⟩
  | succ n ih =>
    cases hr : e.remaining with
    | nil =>
      rw [executed_of_remaining_nil hr, observe_of_remaining_nil hr]
      exact ⟨List.nil_sublist _, List.nil_prefix, fun _ => trivial⟩
    | cons s after =>
      rw [hr] at hfree
      rw [allStmts] at hfree ⊢
      rcases hrun : (leaves dev m.scope s).run m.state with ⟨err | ⟨scope, more⟩, state⟩
      · rw [executed_of_leaves_error hr hrun, observe_of_leaves_error hr hrun]
        refine ⟨?_, List.nil_prefix, fun _ => trivial⟩
        exact (List.singleton_sublist.2 s.mem_all_self).trans (List.sublist_append_left _ _)
      · obtain ⟨e', hr', hstep⟩ := executed_of_leaves hr hrun world
        obtain ⟨hexecuted, hobserved⟩ := hstep n
        have hs : s.isLoop = false := hfree s (List.mem_append_left _ s.mem_all_self)
        -- what is left has lost the statement that has run
        have hleft : (s :: allStmts e'.remaining).Sublist (s.all ++ allStmts after) := by
          rw [hr', allStmts_append, ← List.cons_append]
          exact (leaves_sublist hs hrun).append_right _
        have hlength : (allStmts e'.remaining).length < (s.all ++ allStmts after).length := hleft.length_le
        have hfree' : ∀ s' ∈ allStmts e'.remaining, s'.isLoop = false :=
          fun s' hs' => hfree s' (hleft.subset (List.mem_cons_of_mem s hs'))
        obtain ⟨hsublist, hprefix, hover⟩ := ih e' (m.next world (.of dev s.line scope state)) hfree'
        rw [hexecuted, hobserved]
        refine ⟨(hsublist.cons_cons s).trans hleft, ?_, fun h => hover (by omega)⟩
        rw [List.map_cons, List.map_cons]
        exact (List.prefix_cons_inj _).2 hprefix

/-- **Where a step completes**, no statement was left; it has changed nothing, and neither will any further step. -/
theorem step_of_completed (h : (e.step dev scope state).outcome = .ok .completed) :
    e.step dev scope state = ⟨.ok .completed, e.settle, scope, state⟩ ∧
      ∀ (τ : Type) (dev' : Device τ) (scope' : Scope) (state' : τ),
        e.settle.step dev' scope' state' = ⟨.ok .completed, e.settle, scope', state'⟩ := by
  cases hr : e.remaining with
  | nil =>
    have hsettled : e.settle = ⟨[]⟩ := congrArg Execution.mk (settle_of_remaining_nil hr)
    refine ⟨step_of_remaining_nil hr, fun τ dev' scope' state' => ?_⟩
    rw [hsettled]
    rfl
  | cons s after =>
    rcases hrun : (leaves dev scope s).run state with ⟨err | ⟨scope', more⟩, state'⟩
    · rw [step_of_leaves_error hr hrun] at h
      cases h
    · obtain ⟨e', -, hstep⟩ := step_of_leaves hr hrun
      rw [hstep] at h
      cases h

/-- **Programs without loops always finish.** From its start, in any scope, on any device and whatever becomes of the
device between the steps, a program without `WHILE` executes each of its statements at most once, in the order of the
text, so it suspends at most as often as it has statements, and after that many suspensions it completes or fails. Once
it has completed, every further step completes, and leaves the scope and the device as they are. -/
theorem loopFree_finishes (p : Program) (hfree : ∀ s ∈ p.stmts, s.isLoop = false) {σ : Type} (dev : Device σ)
    (world : ℕ → σ → σ) (scope : Scope) (state : σ) :
    (∀ n, ((Execution.start p).executed dev world n ⟨0, scope, state⟩).Sublist p.stmts ∧
      ((Execution.start p).observe dev world n ⟨0, scope, state⟩).1.map Suspension.line <+:
        ((Execution.start p).executed dev world n ⟨0, scope, state⟩).map Stmt.line ∧
      ((Execution.start p).observe dev world n ⟨0, scope, state⟩).1.length ≤ p.stmts.length) ∧
    ((Execution.start p).observe dev world (p.stmts.length + 1) ⟨0, scope, state⟩).2.IsOver ∧
    ∀ (e : Execution) (scope' : Scope) (state' : σ), (e.step dev scope' state').outcome = .ok .completed →
      (e.step dev scope' state').scope = scope' ∧ (e.step dev scope' state').state = state' ∧
        ∀ (τ : Type) (dev' : Device τ) (later : Scope) (left : τ),
          (e.step dev scope' state').execution.step dev' later left =
            ⟨.ok .completed, (e.step dev scope' state').execution, later, left⟩ := by
  have hstart : (Execution.start p).remaining = p.body := List.append_nil p.body
  have hrun (n : ℕ) := executed_sublist dev world n (.start p) ⟨0, scope, state⟩ (by rwa [hstart])
  rw [hstart] at hrun
  refine ⟨fun n => ?_, (hrun _).2.2 (Nat.lt_succ_self _), fun e scope' state' hcompleted => ?_⟩
  · obtain ⟨hsublist, hprefix, -⟩ := hrun n
    refine ⟨hsublist, hprefix, ?_⟩
    have hsuspended := hprefix.length_le
    rw [List.length_map, List.length_map] at hsuspended
    exact Nat.le_trans hsuspended hsublist.length_le
  · obtain ⟨hstep, hlater⟩ := step_of_completed hcompleted
    rw [hstep]
    exact ⟨rfl, rfl, hlater⟩

/-- A text with branches and without loops. -/
def oneWay : String := "VAR x : INT; END_VAR\nIF x > 0 THEN\n  x := 1;\nELSE\n  x := 2;\nEND_IF;\nx := x + 1;\n"

/-- A program without loops completes after three of its four statements. -/
theorem loopFree_finishes_branching : ∃ p scope, compile oneWay = .ok p ∧ Scope.ofProgram p 0 = .ok scope ∧
    p.stmts.map Stmt.line = [2, 3, 5, 7] ∧ (∀ s ∈ p.stmts, s.isLoop = false) ∧
    ((Execution.start p).observe detached (fun _ t => t + 5) 4 ⟨0, scope, 0⟩).1.map Suspension.line = [2, 5, 7] ∧
    ((Execution.start p).executed detached (fun _ t => t + 5) 4 ⟨0, scope, 0⟩).Sublist p.stmts := by
  have hrun : (compile oneWay).toOption.any (fun p => (Scope.ofProgram p 0).toOption.any fun scope =>
      p.stmts.map Stmt.line == [2, 3, 5, 7] && p.stmts.all (fun s => !s.isLoop) &&
        ((Execution.start p).observe detached (fun _ t => t + 5) 4 ⟨0, scope, 0⟩).1.map Suspension.line == [2, 5, 7]) =
      true := by decide +kernel
  obtain ⟨p, hp, hrun⟩ := (Option.any_eq_true _ _).1 hrun
  obtain ⟨scope, hscope, hrun⟩ := (Option.any_eq_true _ _).1 hrun
  obtain ⟨hstmts, hlines⟩ := Bool.and_eq_true_iff.1 hrun
  obtain ⟨hstmts, hfree⟩ := Bool.and_eq_true_iff.1 hstmts
  have hfree : ∀ s ∈ p.stmts, s.isLoop = false := fun s hs => by simpa using List.all_eq_true.1 hfree s hs
  obtain ⟨hbounded, -, -⟩ := loopFree_finishes p hfree detached (fun _ t => t + 5) scope 0
  exact ⟨p, scope, eq_ok_of_toOption hp, eq_ok_of_toOption hscope, eq_of_beq hstmts, hfree, eq_of_beq hlines,
    (hbounded 4).1⟩

end Switchyard.Script
