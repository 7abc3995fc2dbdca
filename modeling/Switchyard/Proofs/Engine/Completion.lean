import Switchyard.Proofs.Engine.Pauses

/-!
# Cycles within the budget

A cycle of fewer statements than the budget is completed in the tick in which it starts.
A cycle of as many statements as the budget is not: that it is over would show only in
the step after its last statement, and the budget has no step left. All of its statements
run, but the cycle stays in progress with nothing left to run, the tick is not noted as
its end, and the controller is due at every time (`cycle_completes_iff`).

* `WholeCycle`: a cycle that starts in a tick and has no stop in it.
* `spends_run`, `ended_run`: how much of the budget statements use up, and how they end.
* `Ended`, `ended_turn`: where the turn leaves its controller; `turn_of_remaining_nil`: what the next turn comes to.
* `get?_turns`: where the turns of other controllers leave it.
-/

namespace Switchyard.Engine

open Script

variable {e e' : Engine} {now : Millis} {id : String} {p : Progress} {c : Controller} {ids : List String}
  {shown : List (Suspension Surroundings)} {budget : ℕ} {t : Task} {m : Moment Surroundings}

/-- **A cycle of a controller that starts in a tick**: no step is pending, the tick comes to the controller, which is
enabled and due, and it has no cycle in progress; a run of its program shows these suspensions and completes, and the
controller stops at none of them. -/
structure WholeCycle (e : Engine) (now : Millis) (id : String) (p : Progress)
    (shown : List (Suspension Surroundings)) : Prop where
  noStep : e.stepPending = false
  turn : e.HasTurn now id p
  cycle : ∃ t m, p.controller.task = some t ∧ t.execution = none ∧
    Runs (reach p.controller.profile now) (fun _ around => around) (.block t.program.body) ⟨0, p.scope, p.around⟩ shown
      (.completed m)
  unstopped : ∀ n s, ¬ p.controller.StopsAt now false shown n s

/-- A turn that ends in this way has used up so much of its budget. -/
def TurnEnd.Spends (budget used : ℕ) : TurnEnd → Prop
  | .yielded => used = budget
  | .completed | .failed _ => used < budget
  | .paused _ => used ≤ budget
  | .idle => False

theorem TurnEnd.Spends.succ {used : ℕ} {ending : TurnEnd} (h : ending.Spends budget used) :
    ending.Spends (budget + 1) (used + 1) := by
  cases ending with
  | idle => exact h
  | yielded => exact congrArg (· + 1) h
  | completed | failed err => exact Nat.succ_lt_succ h
  | paused line => exact Nat.succ_le_succ h

/-- **The end of a run says how much of the budget it has used up.** The step that finds a cycle complete counts. -/
theorem spends_run (stepping : Bool) (now : Millis) (budget : ℕ) (p : Progress) :
    (p.run stepping now budget).1.Spends budget (p.lines stepping now budget).length := by
  induction budget generalizing p with
  | zero => exact rfl
  | succ budget ih =>
    rw [Progress.run, Progress.lines]
    rcases p.step now with ⟨err | line | _, q⟩
    · exact Nat.succ_pos budget
    · rcases hq : q.arrive line now with ⟨hit, q'⟩
      simp only [hq]
      by_cases hpause : (hit || stepping) = true
      · rw [if_pos hpause, if_pos hpause]
        exact Nat.succ_le_succ (Nat.zero_le budget)
      · rw [if_neg hpause, if_neg hpause]
        exact (ih q').succ
    · exact Nat.succ_pos budget

/-- What an uninterrupted run shows of a cycle that completes: with no more statements than the cycle has, that it goes
on, and with more, that it is complete. -/
theorem unbroken_of_runs {program : Program} (hstart : p.execution = .start program)
    (hruns : Runs (reach p.controller.profile now) (fun _ around => around) (.block program.body)
      ⟨0, p.scope, p.around⟩ shown (.completed m)) :
    p.unbroken now shown.length 0 = (shown, .paused m) ∧
      ∀ n, p.unbroken now (shown.length + n + 1) 0 = (shown, .completed m) := by
  have hr : p.execution.remaining = (Code.block program.body).stmts ++ [] := by
    rw [hstart, Execution.start, Execution.remaining, List.flatten_singleton, Code.stmts, List.append_nil]
  obtain ⟨last, hlast, hobserve⟩ := follows_of_runs hruns hr
  refine ⟨?_, fun n => ?_⟩
  · have hall := hobserve 0
    rwa [Nat.add_zero, Execution.observe, List.append_nil] at hall
  · have hover := hobserve (n + 1)
    rwa [observe_of_remaining_nil hlast, List.append_nil, ← Nat.add_assoc] at hover

/-- **A cycle without a stop within a budget.** All of its statements run. With budget to spare it is complete,
and otherwise it yields with nothing left to run. -/
theorem ended_run {program : Program} (hfits : p.Fits program) (hprogram : p.controller.program? = some program)
    (hstart : p.execution = .start program)
    (hruns : Runs (reach p.controller.profile now) (fun _ around => around) (.block program.body)
      ⟨0, p.scope, p.around⟩ shown (.completed m))
    (hunstopped : ∀ n s, ¬ p.controller.StopsAt now false shown n s) (hle : shown.length ≤ budget) :
    p.lines false now budget = shown.map Suspension.line ∧
      (shown.length < budget → (p.run false now budget).1 = .completed) ∧
      (shown.length = budget → (p.run false now budget).1 = .yielded ∧
        (p.run false now budget).2.execution.remaining = []) := by
  obtain ⟨hgoes, hover⟩ := unbroken_of_runs hstart hruns
  have hall : (p.unbroken now budget 0).1 = shown := by
    rcases hle.eq_or_lt with rfl | hlt
    · rw [hgoes]
    · obtain ⟨n, rfl⟩ := Nat.exists_eq_add_of_lt hlt
      rw [hover]
  -- nothing stops the run, so its lines are all that is shown
  obtain ⟨hpaused, hlines⟩ : (∀ line, (p.run false now budget).1 ≠ .paused line) ∧
      p.lines false now budget = shown.map Suspension.line := by
    have hstopping := stopping_run false now budget 0 hfits hprogram
    rw [hall] at hstopping
    generalize (p.run false now budget).1 = ending at hstopping ⊢
    generalize p.lines false now budget = lines at hstopping ⊢
    cases hstopping with
    | stopped hfirst => exact absurd hfirst.stops (hunstopped _ _)
    | unstopped _ hending => exact ⟨hending, rfl⟩
  have hspends := spends_run false now budget p
  obtain ⟨shown', hshown', -, hleads⟩ := p.leads_run false now budget
  have hlength : shown'.length = shown.length := by
    rw [← List.length_map Suspension.line, hshown', hlines, List.length_map]
  rw [hlines, List.length_map] at hspends
  refine ⟨hlines, ?_⟩
  rcases hrun : p.run false now budget with ⟨ending, q⟩
  rw [hrun] at hspends hleads hpaused
  simp only [] at hspends hleads hpaused ⊢
  cases ending with
  | idle => exact hspends.elim
  | paused line => exact absurd rfl (hpaused line)
  | completed => exact ⟨fun _ => rfl, fun hfull => absurd hspends (by simp [TurnEnd.Spends, hfull])⟩
  | failed err =>
    -- the run that has been given completes
    have hfails := hleads 0 0
    rw [hlength, hover 0] at hfails
    cases hfails
  | yielded =>
    have hfull : shown.length = budget := hspends
    refine ⟨fun hlt => absurd hfull hlt.ne, fun _ => ⟨rfl, ?_⟩⟩
    have hnext := hleads 1 0
    rw [hlength, hover 0, Prod.mk.injEq] at hnext
    obtain ⟨hfirst, hend⟩ := hnext
    have hnothing : (q.unbroken now 1 (0 + shown.length)).1 = [] := by
      have hlengths := congrArg List.length hfirst
      rw [List.length_append, hlength] at hlengths
      exact List.eq_nil_of_length_eq_zero (by omega)
    exact remaining_eq_nil (n := 0) (Prod.ext hnothing hend.symm)

/-- **Where a cycle of so many statements leaves its controller.** With budget to spare, no cycle is in progress and
this is its end. Otherwise the cycle is in progress, with nothing left to run. -/
structure Ended (now : Millis) (n budget : ℕ) (c c' : Controller) : Prop where
  tickRate : c'.tickRate = c.tickRate
  complete : n < budget → c'.executing = false ∧ c'.lastCycle = some now
  full : n = budget → c'.lastCycle = c.lastCycle ∧ ∃ x, c'.execution? = some x ∧ x.remaining = []

/-- **The turn of a cycle without a stop** runs all of its statements, and goes on to the next controller. -/
theorem ended_turn (hfits : c.Fits) (ht : c.task = some t) (hnone : t.execution = none) {s : Substation}
    (hruns : Runs (reach c.profile now) (fun _ around => around) (.block t.program.body)
      ⟨0, t.scope, ⟨s, c.logs⟩⟩ shown (.completed m))
    (hunstopped : ∀ n s, ¬ c.StopsAt now false shown n s) (hle : shown.length ≤ budget) :
    c.lines s budget false now = shown.map Suspension.line ∧
      ((c.turn s budget false now).1 = .completed ∨ (c.turn s budget false now).1 = .yielded) ∧
      Ended now shown.length budget c (c.turn s budget false now).2.1 := by
  have hprogram : c.program? = some t.program := by rw [Controller.program?, ht]; rfl
  have hstart : (c.progress t s).execution = .start t.program := by rw [Controller.progress, hnone]; rfl
  obtain ⟨hlines, hcomplete, hfull⟩ :=
    ended_run (p := c.progress t s) (hfits.progress ht s) hprogram hstart hruns hunstopped hle
  have hlasting := (c.progress t s).lasting_run false now budget
  rcases hrun : (c.progress t s).run false now budget with ⟨ending, q⟩
  rw [hrun] at hcomplete hfull hlasting
  have hrate := congrArg Controller.tickRate hlasting
  rw [turn_of_run ht hrun]
  refine ⟨?_, ?_, hrate, fun hlt => ?_, fun heq => ?_⟩
  · simp only [Controller.lines, ht, hlines]
  · rcases hle.eq_or_lt with heq | hlt
    · exact .inr (hfull heq).1
    · exact .inl (hcomplete hlt)
  · obtain rfl : ending = .completed := hcomplete hlt
    exact ⟨rfl, rfl⟩
  · obtain ⟨hyielded, hnothing⟩ := hfull heq
    obtain rfl : ending = .yielded := hyielded
    exact ⟨rfl, q.execution, rfl, hnothing⟩

/-- **The next turn of a cycle with nothing left to run** is its end, and runs nothing. -/
theorem turn_of_remaining_nil {x : Execution} (ht : c.task = some t) (hx : t.execution = some x)
    (hnothing : x.remaining = []) (s : Substation) (budget : ℕ) (stepping : Bool) (now : Millis) :
    c.lines s (budget + 1) stepping now = [] ∧ (c.turn s (budget + 1) stepping now).1 = .completed ∧
      (c.turn s (budget + 1) stepping now).2.1.executing = false ∧
      (c.turn s (budget + 1) stepping now).2.1.lastCycle = some now := by
  have hexecution : (c.progress t s).execution = x := by rw [Controller.progress, hx]; rfl
  obtain ⟨q, hstep⟩ : ∃ q, (c.progress t s).step now = (.ok .completed, q) := by
    simp only [Progress.step, hexecution, step_of_remaining_nil hnothing]
    exact ⟨_, rfl⟩
  have hrun : (c.progress t s).run stepping now (budget + 1) = (.completed, q) := by rw [Progress.run, hstep]
  rw [turn_of_run ht hrun]
  refine ⟨?_, rfl, rfl, rfl⟩
  simp only [Controller.lines, ht, Progress.lines, hstep]

/-- **Turns of other controllers** leave a controller as it is, but an error in one of them drops its cycle. -/
theorem get?_turns (hid : id ∉ ids) (e : Engine) (now : Millis) :
    (e.turns now ids).2.controllers.get? id = e.controllers.get? id ∨
    (∃ message, (e.turns now ids).1 = .error message) ∧
      (e.turns now ids).2.controllers.get? id = (e.controllers.get? id).map Controller.reset := by
  by_cases hgoes : (e.turns now ids).1 = .none
  · exact .inl ((beside_turns (Prod.ext hgoes rfl)).controllers id hid)
  · obtain ⟨first, other, later, e', rfl, hfirst, -, hturns⟩ := turns_interrupted hgoes
    rw [List.mem_append, List.mem_cons, not_or, not_or] at hid
    have hbefore := (beside_turns hfirst).controllers id hid.1
    rw [hturns, ← hbefore]
    have hcases := turn_cases e' other now
    rcases hturn : e'.turn other now with ⟨interruption, e''⟩
    rw [hturn] at hcases
    cases hcases with
    | passed => exact .inl rfl
    | went | paused => exact .inl (SortedMap.get?_insert_of_ne _ _ hid.2.1)
    | failed =>
      refine .inr ⟨⟨_, rfl⟩, (get?_stop _ id).trans (congrArg _ ?_)⟩
      exact SortedMap.get?_insert_of_ne _ _ hid.2.1

/-- A turn that neither pauses nor fails goes on to the next controller. -/
theorem turn_goes (hc : e.controllers.get? id = some c) (henabled : c.enabled = true) (hdue : c.due now = true)
    (hends : (c.turn e.substation e.settings.statementBudget (e.stepping id) now).1 = .completed ∨
      (c.turn e.substation e.settings.statementBudget (e.stepping id) now).1 = .yielded) :
    (e.turn id now).1 = .none ∧ (e.turn id now).2.controllers.get? id =
      some (c.turn e.substation e.settings.statementBudget (e.stepping id) now).2.1 := by
  have hgoes : (c.enabled && (c.due now || e.stepping id)) = true := by rw [henabled, hdue]; rfl
  simp only [turn, hc, if_pos hgoes]
  rcases hturn : c.turn e.substation e.settings.statementBudget (e.stepping id) now with ⟨ending, c', substation⟩
  rw [hturn] at hends
  obtain rfl | rfl : ending = .completed ∨ ending = .yielded := hends
  · exact ⟨rfl, SortedMap.get?_insert_self _ _ _⟩
  · exact ⟨rfl, SortedMap.get?_insert_self _ _ _⟩

/-- **A controller after the tick** is as its turn has left it, but an error in a later turn drops its cycle. -/
theorem controller_of_comesTo (hcomes : e.ComesTo now id e') (hgoes : (e'.turn id now).1 = .none)
    (hc : (e'.turn id now).2.controllers.get? id = some c) :
    (e.tick now).2.controllers.get? id = some c ∨
      (∃ message, (e.tick now).1.error = some message) ∧ (e.tick now).2.controllers.get? id = some c.reset := by
  obtain ⟨first, later, hkeys, hfirst⟩ := hcomes.turns
  have hids := keys_ascend e.controllers
  rw [hkeys] at hids
  obtain ⟨htick, herror⟩ := tick_of_running hcomes.running now
  have hturns : (e.prepared now).turns now e.controllers.keys = (e'.turn id now).2.turns now later := by
    rw [hkeys, turns_append, hfirst]
    simp only [turns]
    rcases hturn : e'.turn id now with ⟨interruption, e''⟩
    rw [hturn] at hgoes
    obtain rfl : interruption = .none := hgoes
    rfl
  rw [hturns] at herror
  rw [htick, hturns]
  rcases get?_turns (not_mem_of_ascend hids).2.1 (e'.turn id now).2 now with hsame | ⟨⟨message, hfails⟩, hreset⟩
  · exact .inl (hsame.trans hc)
  · exact .inr ⟨⟨message, herror message hfails⟩, by rw [hreset, hc]; rfl⟩

/-- **The tick of a cycle without a stop**: all of its statements run, and the controller is left as the turn leaves
it, unless an error in a later turn drops the cycle. -/
theorem WholeCycle.ended (h : WholeCycle e now id p shown) (hfits : p.controller.Fits)
    (hle : shown.length ≤ e.settings.statementBudget) :
    e.tickLines now id = shown.map Suspension.line ∧ ∃ c,
      Ended now shown.length e.settings.statementBudget p.controller c ∧
        ((e.tick now).2.controllers.get? id = some c ∨
          (∃ message, (e.tick now).1.error = some message) ∧ (e.tick now).2.controllers.get? id = some c.reset) := by
  obtain ⟨t, m, ht, hnone, hruns⟩ := h.cycle
  obtain ⟨t', e', ht', hcomes, hp⟩ := h.turn.started
  obtain rfl : t = t' := Option.some.inj (ht.symm.trans ht')
  obtain ⟨hsettings, hstepping, hget⟩ := beside_of_comesTo hcomes
  have hc : e'.controllers.get? id = some p.controller := (hget id le_rfl).trans h.turn.controller
  have hidle : e.stepping id = false := by rw [stepping, h.noStep, Bool.false_and]
  have hdue : p.controller.due now = true := h.turn.due.resolve_right (by rw [hidle]; exact Bool.false_ne_true)
  have hscope : p.scope = t.scope := by rw [hp]; rfl
  have haround : p.around = ⟨e'.substation, p.controller.logs⟩ := by rw [hp]; rfl
  rw [hscope, haround] at hruns
  obtain ⟨hlines, hends, hended⟩ := ended_turn hfits ht hnone hruns h.unstopped hle
  refine ⟨?_, _, hended, ?_⟩
  · rw [h.turn.tickLines_eq hcomes, hidle, hlines]
  · rw [← hsettings, ← hidle, ← hstepping] at hends ⊢
    obtain ⟨hgoes, hafter⟩ := turn_goes hc h.turn.enabled hdue hends
    exact controller_of_comesTo hcomes hgoes hafter

/-- **Which cycles a tick completes.** Let a cycle start in a tick, have no stop in it and no more statements than the
budget. All of them run in the tick. If they are fewer than the budget, then after the tick no cycle is in progress,
the last one has ended at its time, and the next one starts a tick rate later. If they are as many, the time of the
last cycle is the one from before, and the cycle stays in progress with nothing left to run, so that the controller is
due at every time, unless an error in a later turn stops the engine. -/
theorem cycle_completes_iff {settings : Settings} {calls : List (Millis × Call)} (he : e = (new settings).follow calls)
    (h : WholeCycle e now id p shown) (hle : shown.length ≤ settings.statementBudget) :
    e.tickLines now id = shown.map Suspension.line ∧ ∃ c, (e.tick now).2.controllers.get? id = some c ∧
      (shown.length < settings.statementBudget → c.executing = false ∧ c.lastCycle = some now ∧
        ∀ later, c.due later = true ↔ p.controller.tickRate ≤ Millis.minus later now) ∧
      (shown.length = settings.statementBudget → c.lastCycle = p.controller.lastCycle) ∧
      ((e.tick now).1.error = none →
        (c.executing = false ↔ shown.length < settings.statementBudget) ∧
        (shown.length = settings.statementBudget →
          (∃ x, c.execution? = some x ∧ x.remaining = []) ∧ ∀ later, c.due later = true)) := by
  subst he
  have hsettings := (roomy_follow settings calls).unchanged
  have hfits := controllers_follow fits_ofConfig (fun _ _ h hchange => fits_change h hchange) settings calls
  obtain ⟨hlines, c, hended, hafter⟩ := h.ended (hfits id _ h.turn.controller) (by rw [hsettings]; exact hle)
  rw [hsettings] at hended
  refine ⟨hlines, ?_⟩
  -- Without a cycle in progress, the next one is due when the rate has passed since the last one.
  have hdue (d : Controller) (hrate : d.tickRate = p.controller.tickRate) (hidle : d.executing = false)
      (hlast : d.lastCycle = some now) (later : Millis) :
      d.due later = true ↔ p.controller.tickRate ≤ Millis.minus later now := by
    rw [Controller.due, hidle, hlast, hrate, Bool.false_or, Option.all_some, decide_eq_true_iff]
  -- The turns that come after may end with an error, which resets the controllers.
  rcases hafter with hkept | ⟨⟨message, herror⟩, hreset⟩
  · refine ⟨c, hkept, fun hlt => ?_, fun heq => (hended.full heq).1, fun _ => ⟨?_, fun heq => ?_⟩⟩
    · obtain ⟨hidle, hlast⟩ := hended.complete hlt
      exact ⟨hidle, hlast, hdue c hended.tickRate hidle hlast⟩
    · refine ⟨fun hidle => hle.lt_of_ne fun heq => ?_, fun hlt => (hended.complete hlt).1⟩
      obtain ⟨-, x, hx, -⟩ := hended.full heq
      rw [Controller.executing, hx] at hidle
      cases hidle
    · obtain ⟨-, x, hx, hnothing⟩ := hended.full heq
      exact ⟨⟨x, hx, hnothing⟩, fun later => by rw [Controller.due, Controller.executing, hx]; rfl⟩
  · have hidle : c.reset.executing = false := c.resting_reset.1
    refine ⟨c.reset, hreset, fun hlt => ?_, fun heq => (hended.full heq).1, fun hnone => ?_⟩
    · have hlast : c.reset.lastCycle = some now := (hended.complete hlt).2
      exact ⟨hidle, hlast, hdue c.reset hended.tickRate hidle hlast⟩
    · rw [herror] at hnone
      cases hnone

/-- Whether the only controller of an engine has no breakpoints, and starts a cycle of so many statements in a tick. -/
def startsAlone (e : Engine) (now : Millis) (id : String) (n : ℕ) : Bool :=
  e.run = .running && !e.stepPending && e.controllers.keys = [id] && (e.controllers.get? id).any fun c =>
    c.enabled && c.due now && c.breakpoints.entries.isEmpty && c.task.any fun t => t.execution.isNone &&
      match (c.progress t (e.prepared now).substation).unbroken now (n + 1) 0 with
      | (shown, .completed _) => shown.length = n
      | _ => false

theorem wholeCycle_of_startsAlone {n : ℕ} (h : e.startsAlone now id n = true) :
    ∃ p shown, WholeCycle e now id p shown ∧ shown.length = n := by
  simp only [startsAlone, Bool.and_eq_true, decide_eq_true_iff, Option.any_eq_true, Bool.not_eq_true',
    List.isEmpty_iff, Option.isNone_iff_eq_none] at h
  obtain ⟨⟨⟨hrun, hstep⟩, hkeys⟩, c, hc, ⟨⟨henabled, hdue⟩, hempty⟩, t, ht, hnone, hshown⟩ := h
  have hnobreak (line : UInt32) : c.breakpoints.get? line = none := by rw [SortedMap.get?, hempty]; rfl
  have hcomes : e.ComesTo now id (e.prepared now) := ⟨hrun, [], [], hkeys, rfl⟩
  have hruns := runs_of_observe (reach c.profile now) (fun _ around => around) (n + 1) (.start t.program)
    ⟨0, t.scope, ⟨(e.prepared now).substation, c.logs⟩⟩
  have hremaining : (Execution.start t.program).remaining = t.program.body := by
    rw [Execution.start, Execution.remaining, List.flatten_singleton]
  simp only [Progress.unbroken, Controller.progress, Progress.around, hnone, Option.getD_none] at hshown
  rw [hremaining] at hruns
  split at hshown
  · rename_i shown m hobserved
    rw [hobserved] at hruns
    refine ⟨c.progress t (e.prepared now).substation, shown, ?_, of_decide_eq_true hshown⟩
    refine ⟨hstep, ⟨hc, henabled, .inl hdue, t, _, ht, hcomes, rfl⟩, ⟨t, m, ht, hnone, hruns⟩, ?_⟩
    rintro k s ⟨-, hstepping | ⟨b, hb, -⟩⟩
    · cases hstepping
    · exact absurd ((hnobreak s.line).symm.trans hb) (by simp)
  · cases hshown

/-- An engine with one controller, which has one statement to run in each cycle. -/
def oneStatement (budget : ℕ) : Engine := (new ⟨100, budget, 4, 100, none⟩).follow
  [(0, .addController ⟨"a", none, "default", true, none⟩), (0, .loadProgram "a" "VAR n : INT; END_VAR\nn := n + 1;"),
    (0, .start)]

/-- With a budget of two statements the cycle is complete after the tick. -/
theorem cycle_completes_spare : ∃ p shown, WholeCycle (oneStatement 2) 0 "a" p shown ∧ shown.length ≤ 2 ∧
    ∃ c, ((oneStatement 2).tick 0).2.controllers.get? "a" = some c ∧ c.executing = false ∧ c.lastCycle = some 0 := by
  have hstarts : (oneStatement 2).startsAlone 0 "a" 1 = true := by decide +kernel
  obtain ⟨p, shown, hcycle, hlength⟩ := wholeCycle_of_startsAlone hstarts
  have hlt : shown.length < 2 := by omega
  obtain ⟨-, c, hc, hcomplete, -⟩ := cycle_completes_iff rfl hcycle hlt.le
  obtain ⟨hidle, hlast, -⟩ := hcomplete hlt
  exact ⟨p, shown, hcycle, hlt.le, c, hc, hidle, hlast⟩

/-- **A cycle that uses up its budget** is in progress after the tick, although its only statement has run. -/
theorem full_budget_unfinished :
    (∃ p shown, WholeCycle (oneStatement 1) 0 "a" p shown ∧ shown.length = 1) ∧
      (oneStatement 1).tickLines 0 "a" = [2] ∧ ((oneStatement 1).tick 0).1.error = none ∧
      (((oneStatement 1).tick 0).2.controllers.get? "a").map (fun c => (c.executing, c.lastCycle)) =
        some (true, none) := by
  have hstarts : (oneStatement 1).startsAlone 0 "a" 1 = true := by decide +kernel
  exact ⟨wholeCycle_of_startsAlone hstarts, by decide +kernel, by decide +kernel, by decide +kernel⟩

end Switchyard.Engine
