import Switchyard.Engine.Turn
import Switchyard.Proofs.Script.Refinement

/-!
# Cycles in many turns

A cycle of a program takes as many turns as budgets, breakpoints and single steps cut
it into. None of them can be seen in what the program does: the turns together run
the statements that one uninterrupted run would, in the same order, and lead to the
same scope, substation and messages and to the same end (`visitAll_unbroken`).

* `Visit`, `visitAll`: turns in a row, with nothing in between but changes of the breakpoints.
* `Progress.Leads`: a part of an uninterrupted run.
* `leads_run`, `ran_turn`: the statements within one budget, and one turn.
-/

namespace Switchyard.Engine

open Script

/-- What a turn meets: its budget, whether it is a single step, and the breakpoints of the controller. -/
structure Visit where
  budget : ℕ
  stepping : Bool
  breakpoints : SortedMap UInt32 Breakpoint

/-- The lines that a cycle under way notes within a budget. -/
def Progress.lines (stepping : Bool) (now : Millis) : ℕ → Progress → List UInt32
  | 0, _ => []
  | budget + 1, p =>
    match p.step now with
    | (.ok (.suspended line), p) =>
      let (hit, p) := p.arrive line now
      line :: if hit || stepping then [] else p.lines stepping now budget
    | _ => []

/-- The cycle under way of a task, or a new one. -/
def Controller.progress (c : Controller) (t : Task) (s : Substation) : Progress :=
  ⟨t.execution.getD (.start t.program), t.scope, c, s⟩

/-- The lines that a controller notes in a turn. -/
def Controller.lines (c : Controller) (s : Substation) (budget : ℕ) (stepping : Bool) (now : Millis) : List UInt32 :=
  match c.task with
  | none => []
  | some t => (c.progress t s).lines stepping now budget

/-- What turns come to. -/
structure Course where
  endings : List TurnEnd
  /-- The lines that were noted, in order. -/
  lines : List UInt32
  controller : Controller
  substation : Substation

/-- Turns of one controller at one time, one after the other. Nothing else happens to the controller or the
substation, but the breakpoints may be others in each turn. -/
def Controller.visitAll (now : Millis) (c : Controller) (s : Substation) : List Visit → Course
  | [] => ⟨[], [], c, s⟩
  | v :: visits =>
    let c := { c with breakpoints := v.breakpoints }
    let result := c.turn s v.budget v.stepping now
    let later := result.2.1.visitAll now result.2.2 visits
    { later with
      endings := result.1 :: later.endings
      lines := c.lines s v.budget v.stepping now ++ later.lines }

/-- The turn ends the cycle. -/
def TurnEnd.Final : TurnEnd → Prop
  | .completed | .failed _ => True
  | .idle | .yielded | .paused _ => False

/-- These lines have been noted, one after the other. -/
structure Controller.Noted (lines : List UInt32) (c c' : Controller) : Prop where
  profile : c'.profile = c.profile
  capacity : c'.historyCapacity = c.historyCapacity
  currentLine : c'.currentLine = lines.getLast?.or c.currentLine
  history : c'.history = lines.foldl (remember c.historyCapacity) c.history

namespace Controller.Noted

variable {lines later : List UInt32} {c c' c'' : Controller}

theorem refl (c : Controller) : Noted [] c c := ⟨rfl, rfl, rfl, rfl⟩

theorem trans (h : Noted lines c c') (h' : Noted later c' c'') : Noted (lines ++ later) c c'' := by
  refine ⟨h'.profile.trans h.profile, h'.capacity.trans h.capacity, ?_, ?_⟩
  · rw [h'.currentLine, h.currentLine, List.getLast?_append, Option.or_assoc]
  · rw [h'.history, h.history, h.capacity, List.foldl_append]

end Controller.Noted

namespace Progress

variable {now : Millis} {p q r : Progress} {line : UInt32} {err : RuntimeError}
  {shown shown' : List (Suspension Surroundings)} {ending : TurnEnd}

/-- What the program can reach, as it is now. -/
def around (p : Progress) : Surroundings := ⟨p.substation, p.controller.logs⟩

/-- The next so many statements without an interruption, after some that have run before. -/
def unbroken (now : Millis) (n steps : ℕ) (p : Progress) : List (Suspension Surroundings) × Ending Surroundings :=
  p.execution.observe (reach p.controller.profile now) (fun _ around => around) n ⟨steps, p.scope, p.around⟩

/-- **A part of an uninterrupted run.** Uninterrupted, a cycle shows these suspensions and goes on as the later
one, or it ends there as a turn does that ends in this way. -/
def Leads (now : Millis) (p : Progress) (shown : List (Suspension Surroundings)) (q : Progress) : TurnEnd → Prop
  | .completed => ∀ n steps, p.unbroken now (shown.length + n + 1) steps =
      (shown, .completed ⟨steps + shown.length, q.scope, q.around⟩)
  | .failed err => ∀ n steps, p.unbroken now (shown.length + n + 1) steps = (shown, .failed err q.scope q.around)
  | .idle | .yielded | .paused _ => ∀ n steps, p.unbroken now (shown.length + n) steps =
      (shown ++ (q.unbroken now n (steps + shown.length)).1, (q.unbroken now n (steps + shown.length)).2)

theorem leads_refl (h : ¬ ending.Final) : p.Leads now [] p ending := by
  cases ending with
  | completed => exact absurd trivial h
  | failed err => exact absurd trivial h
  | idle | yielded | paused line =>
    intro n steps
    rw [List.length_nil, Nat.zero_add, Nat.add_zero]
    rfl

/-- Two parts of a run, one after the other. -/
theorem Leads.trans {earlier : TurnEnd} (h : p.Leads now shown q earlier) (hgoes : ¬ earlier.Final)
    (h' : q.Leads now shown' r ending) : p.Leads now (shown ++ shown') r ending := by
  have hfirst : ∀ n steps, p.unbroken now (shown.length + n) steps =
      (shown ++ (q.unbroken now n (steps + shown.length)).1, (q.unbroken now n (steps + shown.length)).2) := by
    cases earlier with
    | completed => exact absurd trivial hgoes
    | failed err => exact absurd trivial hgoes
    | idle | yielded | paused line => exact h
  have hlength : (shown ++ shown').length = shown.length + shown'.length := List.length_append
  cases ending with
  | completed =>
    intro n steps
    have hsecond := h' n (steps + shown.length)
    rw [show (shown ++ shown').length + n + 1 = shown.length + (shown'.length + n + 1) by omega, hfirst, hsecond,
      hlength, Nat.add_assoc]
  | failed err =>
    intro n steps
    have hsecond := h' n (steps + shown.length)
    rw [show (shown ++ shown').length + n + 1 = shown.length + (shown'.length + n + 1) by omega, hfirst, hsecond]
  | idle | yielded | paused line =>
    intro n steps
    have hsecond := h' n (steps + shown.length)
    rw [show (shown ++ shown').length + n = shown.length + (shown'.length + n) by omega, hfirst, hsecond,
      hlength, Nat.add_assoc, List.append_assoc]

/-- A cycle goes on in the same way from all that agree on the execution, the scope, the surroundings and the
profile; where it ends, the execution does not matter. -/
theorem Leads.congr (h : p.Leads now shown q ending) (hexecution : ¬ ending.Final → r.execution = q.execution)
    (hscope : r.scope = q.scope) (haround : r.around = q.around)
    (hprofile : r.controller.profile = q.controller.profile) : p.Leads now shown r ending := by
  cases ending with
  | completed =>
    intro n steps
    rw [hscope, haround]
    exact h n steps
  | failed err =>
    intro n steps
    rw [hscope, haround]
    exact h n steps
  | idle | yielded | paused line =>
    have hsame : ∀ n steps, r.unbroken now n steps = q.unbroken now n steps := by
      intro n steps
      rw [unbroken, unbroken, hexecution id, hscope, haround, hprofile]
    intro n steps
    rw [hsame]
    exact h n steps

/-- A statement notes nothing itself. -/
theorem noted_step (p : Progress) (now : Millis) : Controller.Noted [] p.controller (p.step now).2.controller :=
  ⟨rfl, rfl, rfl, rfl⟩

theorem leads_step (h : p.step now = (.ok (.suspended line), q)) :
    p.Leads now [⟨line, q.scope, q.around⟩] q .yielded := by
  intro n steps
  obtain ⟨houtcome, rfl⟩ := Prod.mk.inj h
  rw [List.length_singleton, Nat.add_comm 1 n]
  simp only [unbroken, Execution.observe, around] at houtcome ⊢
  rw [houtcome]
  rfl

theorem leads_completed (h : p.step now = (.ok .completed, q)) : p.Leads now [] q .completed := by
  intro n steps
  obtain ⟨houtcome, rfl⟩ := Prod.mk.inj h
  simp only [unbroken, Execution.observe, around] at houtcome ⊢
  rw [houtcome]
  rfl

theorem leads_failed (h : p.step now = (.error err, q)) : p.Leads now [] q (.failed err) := by
  intro n steps
  obtain ⟨houtcome, rfl⟩ := Prod.mk.inj h
  simp only [unbroken, Execution.observe, around] at houtcome ⊢
  rw [houtcome]

/-- What is noted where a line is reached. Whether a breakpoint stands there and pauses, the cycle is what it
was. -/
theorem arrive_cases (p : Progress) (line : UInt32) (now : Millis) :
    (p.arrive line now).2.execution = p.execution ∧ (p.arrive line now).2.scope = p.scope ∧
      (p.arrive line now).2.around = p.around ∧
      Controller.Noted [line] p.controller (p.arrive line now).2.controller := by
  unfold arrive
  simp only []
  split
  · exact ⟨rfl, rfl, rfl, rfl, rfl, rfl, rfl⟩
  · exact ⟨rfl, rfl, rfl, rfl, rfl, rfl, rfl⟩

/-- **What runs within a budget is a part of the uninterrupted run**, and its lines are noted. -/
theorem leads_run (stepping : Bool) (now : Millis) (budget : ℕ) (p : Progress) :
    ∃ shown : List (Suspension Surroundings), shown.map Suspension.line = p.lines stepping now budget ∧
      Controller.Noted (p.lines stepping now budget) p.controller (p.run stepping now budget).2.controller ∧
      p.Leads now shown (p.run stepping now budget).2 (p.run stepping now budget).1 := by
  induction budget generalizing p with
  | zero => exact ⟨[], rfl, .refl _, leads_refl id⟩
  | succ budget ih =>
    have hnoted := p.noted_step now
    rw [lines, run]
    rcases hstep : p.step now with ⟨err | line | _, q⟩
    · rw [hstep] at hnoted
      exact ⟨[], rfl, hnoted, leads_failed hstep⟩
    · rw [hstep] at hnoted
      obtain ⟨hexecution, hscope, haround, harrive⟩ := q.arrive_cases line now
      rcases hq : q.arrive line now with ⟨hit, q'⟩
      rw [hq] at hexecution hscope haround harrive
      have hhere : p.Leads now [⟨line, q.scope, q.around⟩] q' .yielded :=
        (leads_step hstep).congr (fun _ => hexecution) hscope haround harrive.profile
      simp only [hq]
      -- The run ends at the statement or goes on behind it with the next suspension.
      by_cases hpause : (hit || stepping) = true
      · rw [if_pos hpause, if_pos hpause]
        exact ⟨[⟨line, q.scope, q.around⟩], rfl, hnoted.trans harrive, hhere⟩
      · rw [if_neg hpause, if_neg hpause]
        obtain ⟨shown, hlines, hlater, hleads⟩ := ih q'
        refine ⟨⟨line, q.scope, q.around⟩ :: shown, ?_, (hnoted.trans harrive).trans hlater, hhere.trans id hleads⟩
        rw [List.map_cons, hlines]
    · rw [hstep] at hnoted
      exact ⟨[], rfl, hnoted, leads_completed hstep⟩

end Progress

/-- **What turns have done to the cycle of a task.** They have run statements that show these suspensions, and
noted their lines; the cycle is under way where they end, or it is over. -/
structure Ran (now : Millis) (c : Controller) (t : Task) (s : Substation) (shown : List (Suspension Surroundings))
    (ending : TurnEnd) (c' : Controller) (t' : Task) (s' : Substation) : Prop where
  task : c'.task = some t'
  program : t'.program = t.program
  finished : ending.Final → t'.execution = none
  noted : Controller.Noted (shown.map Suspension.line) c c'
  leads : (c.progress t s).Leads now shown (c'.progress t' s') ending

section Turns

variable {now : Millis} {c c' c'' : Controller} {s s' s'' : Substation} {t t' t'' : Task}
  {shown shown' : List (Suspension Surroundings)} {ending last : TurnEnd} {earlier : List TurnEnd}

theorem Ran.trans (h : Ran now c t s shown ending c' t' s') (hgoes : ¬ ending.Final)
    (h' : Ran now c' t' s' shown' last c'' t'' s'') : Ran now c t s (shown ++ shown') last c'' t'' s'' := by
  refine ⟨h'.task, h'.program.trans h.program, h'.finished, ?_, h.leads.trans hgoes h'.leads⟩
  rw [List.map_append]
  exact h.noted.trans h'.noted

/-- A turn runs statements, and puts the task and the time of the last cycle back. -/
theorem turn_of_run {budget : ℕ} {stepping : Bool} {p : Progress} (ht : c.task = some t)
    (hrun : (c.progress t s).run stepping now budget = (ending, p)) :
    c.turn s budget stepping now = (ending,
      { p.controller with
        task := some (t.after ending p)
        lastCycle := if ending = .completed then some now else c.lastCycle }, p.substation) := by
  rw [Controller.progress] at hrun
  simp only [Controller.turn, ht, hrun]

/-- **A turn.** -/
theorem ran_turn (ht : c.task = some t) (s : Substation) (budget : ℕ) (stepping : Bool) (now : Millis) :
    ∃ shown t', shown.map Suspension.line = c.lines s budget stepping now ∧
      Ran now c t s shown (c.turn s budget stepping now).1 (c.turn s budget stepping now).2.1 t'
        (c.turn s budget stepping now).2.2 := by
  obtain ⟨shown, hlines, hnoted, hleads⟩ := (c.progress t s).leads_run stepping now budget
  rcases hrun : (c.progress t s).run stepping now budget with ⟨ending, p⟩
  rw [hrun] at hnoted hleads
  rw [turn_of_run ht hrun]
  refine ⟨shown, t.after ending p, ?_, rfl, rfl, ?_, ?_, ?_⟩
  · rw [hlines, Controller.lines, ht]
  · intro hfinal
    cases ending with
    | completed | failed err => rfl
    | idle | yielded | paused line => exact hfinal.elim
  · rw [hlines]
    exact ⟨hnoted.profile, hnoted.capacity, hnoted.currentLine, hnoted.history⟩
  · refine hleads.congr (fun hgoes => ?_) rfl rfl rfl
    cases ending with
    | completed | failed err => exact absurd trivial hgoes
    | idle | yielded | paused line => rfl

theorem length_endings (visits : List Visit) (c : Controller) (s : Substation) :
    (c.visitAll now s visits).endings.length = visits.length := by
  induction visits generalizing c s with
  | nil => rfl
  | cons v visits ih =>
    rw [Controller.visitAll, List.length_cons, List.length_cons, ih]

/-- **Turns in a row**, of which only the last one may end the cycle. -/
theorem ran_visitAll (visits : List Visit) (ht : c.task = some t)
    (hends : (c.visitAll now s visits).endings = earlier ++ [last]) (hearlier : ∀ e ∈ earlier, ¬ e.Final) :
    ∃ shown t', shown.map Suspension.line = (c.visitAll now s visits).lines ∧
      Ran now c t s shown last (c.visitAll now s visits).controller t' (c.visitAll now s visits).substation := by
  induction visits generalizing c s t earlier with
  | nil => exact absurd hends (by simp [Controller.visitAll])
  | cons v visits ih =>
    have ht' : { c with breakpoints := v.breakpoints }.task = some t := ht
    obtain ⟨shown, t₁, hlines, hran⟩ := ran_turn ht' s v.budget v.stepping now
    -- the breakpoints are no part of the cycle
    have hfirst : Ran now c t s shown _ _ t₁ _ :=
      ⟨hran.task, hran.program, hran.finished, ⟨hran.noted.profile, hran.noted.capacity, hran.noted.currentLine,
        hran.noted.history⟩, hran.leads⟩
    rw [Controller.visitAll] at hends ⊢
    cases earlier with
    | nil =>
      obtain ⟨hlast, hlater⟩ := List.cons.inj hends
      have hnone : visits = [] := by
        rw [← List.length_eq_zero_iff, ← length_endings visits, hlater]
        rfl
      subst hnone
      rw [← hlast]
      exact ⟨shown, t₁, by rw [hlines, Controller.visitAll, List.append_nil], hfirst⟩
    | cons first earlier =>
      obtain ⟨hturn, hlater⟩ := List.cons.inj hends
      have hgoes : ¬ first.Final := hearlier first (by simp)
      obtain ⟨shown', t₂, hlines', hran'⟩ := ih hfirst.task hlater fun e he => hearlier e (by simp [he])
      rw [← hturn] at hgoes
      refine ⟨shown ++ shown', t₂, ?_, hfirst.trans hgoes hran'⟩
      rw [List.map_append, hlines, hlines']

/-- **Interruptions cannot be seen.** Take a controller between two cycles, and give it turns with any budgets,
single steps and breakpoints, up to the first that completes the cycle or fails. An uninterrupted run of its
program, from the same scope, in the same surroundings and at the same time, ends as that turn does, with the
same error if it fails, and it leads to the same scope, the same substation and the same messages. The lines that
were noted in the turns are, in order, the lines of its statements. -/
theorem visitAll_unbroken (visits : List Visit) (ht : c.task = some t) (hfresh : t.execution = none)
    (hends : (c.visitAll now s visits).endings = earlier ++ [last]) (hearlier : ∀ e ∈ earlier, ¬ e.Final)
    (hlast : last.Final) :
    let course := c.visitAll now s visits
    let around : Surroundings := ⟨course.substation, course.controller.logs⟩
    ∃ (shown : List (Suspension Surroundings)) (scope : Scope) (ending : Ending Surroundings),
      (∀ n, shown.length < n → (Execution.start t.program).observe (reach c.profile now) (fun _ around => around) n
        ⟨0, t.scope, ⟨s, c.logs⟩⟩ = (shown, ending)) ∧
      ((last = .completed ∧ ending = .completed ⟨shown.length, scope, around⟩) ∨
        ∃ err, last = .failed err ∧ ending = .failed err scope around) ∧
      course.lines = shown.map Suspension.line ∧
      course.controller.task = some ⟨t.program, scope, none⟩ ∧
      course.controller.currentLine = course.lines.getLast?.or c.currentLine ∧
      course.controller.history = course.lines.foldl (remember c.historyCapacity) c.history := by
  intro course around
  obtain ⟨shown, t', hlines, hran⟩ := ran_visitAll visits ht hends hearlier
  -- The visits start where an execution without a break starts.
  have hstart : c.progress t s = ⟨.start t.program, t.scope, c, s⟩ := by
    rw [Controller.progress, hfresh]
    rfl
  have htask : course.controller.task = some ⟨t.program, t'.scope, none⟩ := by
    have hprogram := hran.program
    have hfinished := hran.finished hlast
    obtain ⟨program, scope, execution⟩ := t'
    rw [← hprogram, ← hfinished]
    exact hran.task
  have hline := hran.noted.currentLine
  have hhistory := hran.noted.history
  rw [hlines] at hline hhistory
  have hleads := hran.leads
  rw [hstart] at hleads
  -- The last visit completes or fails, and all that was shown before comes from one uninterrupted execution.
  cases last with
  | completed =>
    refine ⟨shown, t'.scope, _, fun n hn => ?_, .inl ⟨rfl, rfl⟩, hlines.symm, htask, hline, hhistory⟩
    obtain ⟨k, rfl⟩ := Nat.exists_eq_add_of_lt hn
    have hrun := hleads k 0
    rw [Nat.zero_add] at hrun
    exact hrun
  | failed err =>
    refine ⟨shown, t'.scope, _, fun n hn => ?_, .inr ⟨err, rfl, rfl⟩, hlines.symm, htask, hline, hhistory⟩
    obtain ⟨k, rfl⟩ := Nat.exists_eq_add_of_lt hn
    exact hleads k 0
  | idle | yielded | paused line => exact hlast.elim

end Turns

/-- A program that counts to two and stores the count. -/
def counting : Program where
  source := ""
  vars := []
  body := [.loop 1 (.binary .lt (.var "N") (.literal (.int 2)))
      [.assign 2 "N" (.binary .add (.var "N") (.literal (.int 1)))],
    .call 3 .writeRegister [.literal (.int 1), .var "N"]]

/-- A controller about to count. -/
def counter : Controller :=
  { Controller.ofConfig ⟨"a", none, "default", true, none⟩ 100 4 with
    task := some ⟨counting, ⟨[⟨"N", "n", .int, .int 0, none⟩], none⟩, none⟩ }

/-- Turns that are cut by a budget, a single step, a breakpoint within the loop and an empty budget. -/
def counterVisits : List Visit :=
  [⟨1, false, ∅⟩, ⟨10, true, ∅⟩, ⟨10, false, SortedMap.ofList [(2, ⟨true, none, none, 0, none⟩)]⟩, ⟨0, false, ∅⟩,
    ⟨10, false, ∅⟩]

theorem counter_unbroken :
    (counter.visitAll 5 .blank counterVisits).endings = [.yielded, .paused 2, .paused 2, .yielded] ++ [.completed] ∧
      ∃ (shown : List (Suspension Surroundings)) (m : Moment Surroundings),
        (Execution.start counting).observe (reach "default" 5) (fun _ around => around) 7
          ⟨0, ⟨[⟨"N", "n", .int, .int 0, none⟩], none⟩, ⟨.blank, []⟩⟩ = (shown, .completed m) ∧
        shown.map Suspension.line = [1, 2, 1, 2, 1, 3] ∧
        m.state = ⟨(counter.visitAll 5 .blank counterVisits).substation, []⟩ := by
  have hends : (counter.visitAll 5 .blank counterVisits).endings =
      [.yielded, .paused 2, .paused 2, .yielded] ++ [.completed] := by decide +kernel
  have hlines : (counter.visitAll 5 .blank counterVisits).lines = [1, 2, 1, 2, 1, 3] := by decide +kernel
  have hlogs : (counter.visitAll 5 .blank counterVisits).controller.logs = [] := by decide +kernel
  have hearlier : ∀ e ∈ [TurnEnd.yielded, .paused 2, .paused 2, .yielded], ¬ e.Final := by
    intro e he hfinal
    simp only [List.mem_cons, List.not_mem_nil, or_false] at he
    rcases he with rfl | rfl | rfl | rfl <;> exact hfinal
  obtain ⟨shown, scope, ending, hrun, hsame, hshown, -, -, -⟩ :=
    visitAll_unbroken counterVisits (show counter.task = some _ from rfl) rfl hends hearlier trivial
  rw [hlines] at hshown
  have hlength : shown.length = 6 := by rw [← List.length_map (f := Suspension.line), ← hshown]; rfl
  rcases hsame with ⟨-, rfl⟩ | ⟨err, hfailed, -⟩
  · rw [hlogs] at hrun
    exact ⟨hends, shown, _, hrun 7 (by omega), hshown.symm, rfl⟩
  · cases hfailed

end Switchyard.Engine
