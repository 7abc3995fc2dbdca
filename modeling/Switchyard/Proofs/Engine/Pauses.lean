import Switchyard.Proofs.Engine.Hits

/-!
# Where ticks pause

Uninterrupted, a cycle goes from suspension to suspension. A turn follows it up to the
first one at which its controller stops: because it is to make one step, or because
there is a breakpoint on the line that is enabled, has been hit often enough by then,
and has no condition or a true one (`stopping_run`). So that is where a tick pauses that
comes to the controller, and controllers with larger ids do nothing in it
(`pausesFirst_of_fits`).

* `Breakpoint.Stops`, `Controller.StopsAt`, `Controller.FirstStop`: where a controller stops, and where it does first.
* `Stopping`, `stopping_run`: a run ends at the first stop, or there is none.
* `HasTurn`, `HasTurn.stopping`: the controllers that have a turn in a tick, and what they execute in it.
* `breakpoints_kept`: hits, pauses and histories after any calls.
-/

namespace Switchyard.Engine

open Script

variable {now : Millis} {stepping : Bool} {shown : List (Suspension Surroundings)} {n m : ℕ} {line : UInt32}

/-- **A breakpoint stops its controller** in a scope, with so many hits: it is enabled, the hits are enough, and its
condition, if it has one, is accepted for the program and true. -/
structure Breakpoint.Stops (b : Breakpoint) (program : Option Program) (now : Millis) (scope : Scope) (hits : ℕ) :
    Prop where
  enabled : b.enabled = true
  enough : ∀ count, b.hitCount = some count → count.toNat ≤ hits
  holds : ∀ text, b.condition = some text →
    ∃ p e, program = some p ∧ parseCondition p text = .ok e ∧ evaluateDetached scope now e = .ok (.bool true)

/-- **A controller stops at a suspension** of a cycle, the one after `n` others in the same turn: it is to make one
step, or there is a breakpoint on the line that stops it, with the hits of this turn counted. -/
structure Controller.StopsAt (c : Controller) (now : Millis) (stepping : Bool) (shown : List (Suspension Surroundings))
    (n : ℕ) (s : Suspension Surroundings) : Prop where
  here : shown[n]? = some s
  stops : stepping = true ∨ ∃ b, c.breakpoints.get? s.line = some b ∧
    b.Stops c.program? now s.scope
      (min (b.hits.toNat + ((shown.take (n + 1)).map Suspension.line).count s.line) (2 ^ 32 - 1))

/-- **The first suspension at which a controller stops.** -/
structure Controller.FirstStop (c : Controller) (now : Millis) (stepping : Bool)
    (shown : List (Suspension Surroundings)) (n : ℕ) (s : Suspension Surroundings) : Prop where
  stops : c.StopsAt now stepping shown n s
  first : ∀ m < n, ∀ t, ¬ c.StopsAt now stepping shown m t

theorem Breakpoint.holds_iff {b : Breakpoint} {program : Option Program} (h : b.CompiledFor program) (scope : Scope)
    (now : Millis) : b.holds scope now = true ↔ ∀ text, b.condition = some text →
      ∃ p e, program = some p ∧ parseCondition p text = .ok e ∧ evaluateDetached scope now e = .ok (.bool true) := by
  have hcompiled (e : Expr) := (iff_of_eq (congrArg (· = some e) h)).trans compileFor_eq_some
  -- no condition, one that has been rejected for the program, and one that has been compiled
  rw [Breakpoint.holds]
  split
  · rename_i hnone
    simp [hnone]
  · rename_i text htext hnone
    refine iff_of_false (by simp) fun hall => ?_
    obtain ⟨p, e, hp, he, -⟩ := hall text htext
    exact absurd (hnone.symm.trans ((hcompiled e).2 ⟨text, p, htext, hp, he⟩)) (by simp)
  · rename_i text e htext hsome
    obtain ⟨text', p, htext', hp, he⟩ := (hcompiled e).1 hsome
    obtain rfl := Option.some.inj (htext.symm.trans htext')
    constructor
    · intro hvalue text' htext'
      obtain rfl := Option.some.inj (htext.symm.trans htext')
      refine ⟨p, e, hp, he, ?_⟩
      split at hvalue
      · rename_i v hv
        rw [hv, beq_iff_eq.1 hvalue]
      · cases hvalue
    · intro hall
      obtain ⟨p', e', hp', he', hvalue⟩ := hall text htext
      obtain rfl := Option.some.inj (hp.symm.trans hp')
      obtain rfl := Except.ok.inj (he.symm.trans he')
      rw [hvalue]
      rfl

/-- Whether a breakpoint pauses is whether it stops its controller. -/
theorem Breakpoint.pauses_iff {b : Breakpoint} {program : Option Program} (h : b.CompiledFor program) (scope : Scope)
    (now : Millis) : b.pauses scope now = true ↔ b.Stops program now scope b.hits.toNat := by
  have hcount : (b.hitCount.all fun count => decide (count ≤ b.hits)) = true ↔
      ∀ count, b.hitCount = some count → count.toNat ≤ b.hits.toNat := by
    cases b.hitCount <;> simp [UInt32.le_iff_toNat_le]
  rw [Breakpoint.pauses, Bool.and_eq_true, Bool.and_eq_true, Breakpoint.holds_iff h, hcount]
  exact ⟨fun ⟨⟨henabled, hholds⟩, henough⟩ => ⟨henabled, henough, hholds⟩,
    fun ⟨henabled, henough, hholds⟩ => ⟨⟨henabled, hholds⟩, henough⟩⟩

/-- A breakpoint that has counted a hit stops where it would have stopped before. -/
theorem Breakpoint.stops_count {b : Breakpoint} {program : Option Program} {scope : Scope} {hits : ℕ} :
    b.count.Stops program now scope hits ↔ b.Stops program now scope hits :=
  ⟨fun h => ⟨h.enabled, h.enough, h.holds⟩, fun h => ⟨h.enabled, h.enough, h.holds⟩⟩

/-- There is one first stop. -/
theorem Controller.FirstStop.unique {c : Controller} {s t : Suspension Surroundings}
    (h : c.FirstStop now stepping shown n s) (h' : c.FirstStop now stepping shown m t) : n = m ∧ s = t := by
  have hle : n = m := by
    rcases lt_trichotomy n m with hlt | heq | hlt
    · exact absurd h.stops (h'.first n hlt s)
    · exact heq
    · exact absurd h'.stops (h.first m hlt t)
  subst hle
  exact ⟨rfl, Option.some.inj (h.stops.here.symm.trans h'.stops.here)⟩

/-- **A run goes to the first stop** of its controller, and it pauses there; if there is none, it does not pause. -/
inductive Stopping (c : Controller) (now : Millis) (stepping : Bool) (shown : List (Suspension Surroundings)) :
    TurnEnd → List UInt32 → Prop
  | stopped {n s} (hfirst : c.FirstStop now stepping shown n s) :
      Stopping c now stepping shown (.paused s.line) ((shown.take (n + 1)).map Suspension.line)
  | unstopped {ending} (hnone : ∀ n s, ¬ c.StopsAt now stepping shown n s) (hending : ∀ line, ending ≠ .paused line) :
      Stopping c now stepping shown ending (shown.map Suspension.line)

/-- Where a line has been noted, a controller stops as it would have, counting from before the line. -/
theorem stopsAt_note {c c' : Controller} {first : Suspension Surroundings}
    (hledger : c'.ledger = c.ledger.note first.line) (hprogram : c'.program? = c.program?)
    {s : Suspension Surroundings} :
    c'.StopsAt now stepping shown n s ↔ c.StopsAt now stepping (first :: shown) (n + 1) s := by
  have hget : c'.breakpoints.get? s.line =
      (c.breakpoints.get? s.line).map fun b => if first.line = s.line then b.count else b :=
    (congrArg (fun l : Ledger => l.breakpoints.get? s.line) hledger).trans (get?_note c.ledger s.line first.line)
  -- the hit that the breakpoint has counted is that of the line that comes first
  have hstops (b : Breakpoint) : (if first.line = s.line then b.count else b).Stops c.program? now s.scope
        (min ((if first.line = s.line then b.count else b).hits.toNat +
          ((shown.take (n + 1)).map Suspension.line).count s.line) (2 ^ 32 - 1)) ↔
      b.Stops c.program? now s.scope
        (min (b.hits.toNat + (((first :: shown).take (n + 1 + 1)).map Suspension.line).count s.line) (2 ^ 32 - 1)) := by
    rw [List.take_succ_cons, List.map_cons, List.count_cons]
    by_cases hline : first.line = s.line
    · have hhits : min (b.count.hits.toNat + ((shown.take (n + 1)).map Suspension.line).count s.line) (2 ^ 32 - 1) =
          min (b.hits.toNat + (((shown.take (n + 1)).map Suspension.line).count s.line + 1)) (2 ^ 32 - 1) := by
        rw [Breakpoint.count, toNat_nextHits]
        omega
      rw [if_pos hline, if_pos (beq_iff_eq.2 hline), hhits, Breakpoint.stops_count]
    · simp only [if_neg hline, beq_eq_false_iff_ne.2 hline, Bool.false_eq_true, if_false, Nat.add_zero]
  constructor
  · rintro ⟨hhere, hstop⟩
    refine ⟨hhere, hstop.imp id fun ⟨b', hb', hb'stops⟩ => ?_⟩
    rw [hget] at hb'
    obtain ⟨b, hb, rfl⟩ := Option.map_eq_some_iff.1 hb'
    rw [hprogram] at hb'stops
    exact ⟨b, hb, (hstops b).1 hb'stops⟩
  · rintro ⟨hhere, hstop⟩
    refine ⟨hhere, hstop.imp id fun ⟨b, hb, hbstops⟩ => ⟨_, by rw [hget, hb]; rfl, ?_⟩⟩
    rw [hprogram]
    exact (hstops b).2 hbstops

/-- Where a line is reached, the breakpoint on it is asked once it has counted the hit. -/
theorem arrive_fst (p : Progress) (line : UInt32) (now : Millis) :
    (p.arrive line now).1 = (p.controller.breakpoints.get? line).any fun b => b.count.pauses p.scope now := by
  cases hb : p.controller.breakpoints.get? line <;> simp [Progress.arrive, Controller.record, hb]

/-- Whether a controller stops at the next suspension. -/
theorem stopsAt_zero {c : Controller} {first : Suspension Surroundings}
    (hcompiled : ∀ line b, c.breakpoints.get? line = some b → b.CompiledFor c.program?) :
    c.StopsAt now stepping (first :: shown) 0 first ↔
      ((c.breakpoints.get? first.line).any (fun b => b.count.pauses first.scope now) || stepping) = true := by
  have hstops {b : Breakpoint} (hb : c.breakpoints.get? first.line = some b) :
      b.Stops c.program? now first.scope (min (b.hits.toNat +
        (((first :: shown).take (0 + 1)).map Suspension.line).count first.line) (2 ^ 32 - 1)) ↔
      b.count.pauses first.scope now = true := by
    have hcount : b.count.CompiledFor c.program? := hcompiled first.line b hb
    rw [List.take_succ_cons, List.take_zero, List.map_cons, List.map_nil, List.count_singleton_self, ← toNat_nextHits,
      Breakpoint.pauses_iff hcount, Breakpoint.stops_count]
    rfl
  rw [Bool.or_eq_true, Option.any_eq_true]
  constructor
  · rintro ⟨-, hstepping | ⟨b, hb, hbstops⟩⟩
    · exact .inr hstepping
    · exact .inl ⟨b, hb, (hstops hb).1 hbstops⟩
  · rintro (⟨b, hb, hpauses⟩ | hstepping)
    · exact ⟨rfl, .inr ⟨b, hb, (hstops hb).2 hpauses⟩⟩
    · exact ⟨rfl, .inl hstepping⟩

/-- A run that does not stop at the next suspension goes on to the first stop after it. -/
theorem Stopping.next {c c' : Controller} {first : Suspension Surroundings} {ending : TurnEnd} {lines : List UInt32}
    (hledger : c'.ledger = c.ledger.note first.line) (hprogram : c'.program? = c.program?)
    (hnot : ¬ c.StopsAt now stepping (first :: shown) 0 first)
    (hlater : Stopping c' now stepping shown ending lines) :
    Stopping c now stepping (first :: shown) ending (first.line :: lines) := by
  -- the suspension at place 0 is the next one, and the others are those of the later run
  have hnone {m : ℕ} {t : Suspension Surroundings}
      (hlater : ∀ k, m = k + 1 → ¬ c'.StopsAt now stepping shown k t) :
      ¬ c.StopsAt now stepping (first :: shown) m t := by
    intro hstops
    cases m with
    | zero =>
      obtain rfl : first = t := Option.some.inj hstops.here
      exact hnot hstops
    | succ k => exact hlater k rfl ((stopsAt_note hledger hprogram).2 hstops)
  cases hlater with
  | stopped hfirst =>
    refine .stopped ⟨(stopsAt_note hledger hprogram).1 hfirst.stops, fun m hm t => hnone fun k hk => ?_⟩
    exact hfirst.first k (by omega) t
  | unstopped hnever hending => exact .unstopped (fun m t => hnone fun k _ => hnever k t) hending

theorem program?_arrive (p : Progress) (line : UInt32) (now : Millis) :
    (p.arrive line now).2.controller.program? = p.controller.program? := by
  rw [Progress.arrive]
  simp only []
  split <;> rfl

/-- **A statement and the line it reaches**: the line is noted, the breakpoint on it is asked, and uninterrupted the
cycle shows the suspension there and goes on. -/
theorem reach_line {p q q' : Progress} {hit : Bool} (hstep : p.step now = (.ok (.suspended line), q))
    (harrive : q.arrive line now = (hit, q')) :
    hit = (p.controller.breakpoints.get? line).any (fun b => b.count.pauses q.scope now) ∧
      q'.controller.ledger = p.controller.ledger.note line ∧ q'.controller.program? = p.controller.program? ∧
      ∀ n steps, (p.unbroken now (n + 1) steps).1 = ⟨line, q.scope, q.around⟩ :: (q'.unbroken now n (steps + 1)).1 := by
  have hledger := ledger_arrive q line now
  have hprogram := program?_arrive q line now
  have hhit := arrive_fst q line now
  obtain ⟨hexecution, hscope, haround, hnoted⟩ := q.arrive_cases line now
  rw [harrive] at hledger hprogram hhit hexecution hscope haround hnoted
  have hleads := (Progress.leads_step hstep).congr (fun _ => hexecution) hscope haround hnoted.profile
  obtain rfl : (p.step now).2 = q := congrArg Prod.snd hstep
  refine ⟨hhit, hledger, hprogram, fun n steps => ?_⟩
  have hshown := hleads n steps
  rw [List.length_singleton, Nat.add_comm 1 n] at hshown
  rw [hshown, List.singleton_append]

/-- **Statements within a budget** go to the first stop. -/
theorem stopping_run {program : Program} (stepping : Bool) (now : Millis) (budget steps : ℕ) {p : Progress}
    (h : p.Fits program) (hprogram : p.controller.program? = some program) :
    Stopping p.controller now stepping (p.unbroken now budget steps).1 (p.run stepping now budget).1
      (p.lines stepping now budget) := by
  have hnothing {c : Controller} {ending : TurnEnd} (hending : ∀ line, ending ≠ .paused line) :
      Stopping c now stepping [] ending [] :=
    .unstopped (fun n s hstops => by simpa using hstops.here) hending
  induction budget generalizing p steps with
  | zero => exact hnothing (by simp [Progress.run])
  | succ budget ih =>
    rw [Progress.run, Progress.lines]
    rcases hstep : p.step now with ⟨err | line | _, q⟩
    · have hshown := Progress.leads_failed hstep budget steps
      rw [List.length_nil, Nat.zero_add] at hshown
      rw [hshown]
      exact hnothing (by simp)
    · have hfits := (h.step now).arrive line now
      rw [hstep] at hfits
      rcases hq : q.arrive line now with ⟨hit, q'⟩
      rw [hq] at hfits
      obtain ⟨hhit, hledger, hsame, hshown⟩ := reach_line hstep hq
      have hcompiled := h.breakpoints
      rw [← hprogram] at hcompiled
      -- the first of the suspensions is the one that has been reached
      have hstops : p.controller.StopsAt now stepping (p.unbroken now (budget + 1) steps).1 0
          ⟨line, q.scope, q.around⟩ ↔ (hit || stepping) = true := by
        rw [hshown, hhit]
        exact stopsAt_zero hcompiled
      simp only [hq]
      by_cases hpause : (hit || stepping) = true
      · rw [if_pos hpause, if_pos hpause]
        have hstopped := Stopping.stopped ⟨hstops.2 hpause, fun m hm => absurd hm (Nat.not_lt_zero m)⟩
        rw [hshown] at hstopped ⊢
        exact hstopped
      · rw [if_neg hpause, if_neg hpause]
        have hgoes := mt hstops.1 hpause
        rw [hshown] at hgoes ⊢
        exact .next hledger hsame hgoes (ih (steps + 1) hfits (hsame.trans hprogram))
    · have hshown := Progress.leads_completed hstep budget steps
      rw [List.length_nil, Nat.zero_add] at hshown
      rw [hshown]
      exact hnothing (by simp)

theorem Stopping.paused_iff {c : Controller} {ending : TurnEnd} {lines : List UInt32}
    (h : Stopping c now stepping shown ending lines) :
    ending = .paused line ↔ ∃ n s, c.FirstStop now stepping shown n s ∧ s.line = line := by
  constructor
  · rintro rfl
    generalize hended : TurnEnd.paused line = ending at h
    cases h with
    | stopped hfirst => exact ⟨_, _, hfirst, (TurnEnd.paused.inj hended).symm⟩
    | unstopped _ hending => exact absurd hended.symm (hending line)
  · rintro ⟨n, s, hfirst, rfl⟩
    cases h with
    | stopped hfirst' => rw [(hfirst.unique hfirst').2]
    | unstopped hnone => exact absurd hfirst.stops (hnone n s)

/-- What runs is what is shown up to the first stop, or all of it. -/
theorem Stopping.lines_eq {c : Controller} {ending : TurnEnd} {lines : List UInt32}
    (h : Stopping c now stepping shown ending lines) :
    (∀ n s, c.FirstStop now stepping shown n s → lines = (shown.take (n + 1)).map Suspension.line) ∧
      ((∀ n s, ¬ c.FirstStop now stepping shown n s) → lines = shown.map Suspension.line) := by
  cases h with
  | stopped hfirst =>
    refine ⟨fun n s hfirst' => ?_, fun hnone => absurd hfirst (hnone _ _)⟩
    rw [(hfirst'.unique hfirst).1]
  | unstopped hnone => exact ⟨fun n s hfirst => absurd hfirst.stops (hnone n s), fun _ => rfl⟩

variable {e e' : Engine} {id : String} {p : Progress} {c : Controller}

/-- **A controller has a turn in a tick**, which goes on with this cycle: the tick comes to it, it is enabled and has a
program, and it is due or is to make one step. -/
structure HasTurn (e : Engine) (now : Millis) (id : String) (p : Progress) : Prop where
  controller : e.controllers.get? id = some p.controller
  enabled : p.controller.enabled = true
  due : p.controller.due now = true ∨ e.stepping id = true
  started : ∃ t e', p.controller.task = some t ∧ e.ComesTo now id e' ∧ p = p.controller.progress t e'.substation

/-- The suspensions that a cycle would show in a turn without an interruption. -/
def suspensions (e : Engine) (now : Millis) (p : Progress) : List (Suspension Surroundings) :=
  (p.unbroken now e.settings.statementBudget 0).1

/-- **The turn of a controller** goes to the first stop. -/
theorem stopping_turn (hfits : c.Fits) {t : Task} (ht : c.task = some t) (s : Substation) (budget : ℕ)
    (stepping : Bool) (now : Millis) :
    Stopping c now stepping ((c.progress t s).unbroken now budget 0).1 (c.turn s budget stepping now).1
      (c.lines s budget stepping now) := by
  have hprogram : c.program? = some t.program := by rw [Controller.program?, ht]; rfl
  have hrun : Stopping c now stepping ((c.progress t s).unbroken now budget 0).1
      ((c.progress t s).run stepping now budget).1 ((c.progress t s).lines stepping now budget) :=
    stopping_run stepping now budget 0 (hfits.progress ht s) hprogram
  simp only [Controller.turn, Controller.lines, ht]
  exact hrun

/-- A turn pauses where its controller does. -/
theorem turn_pause_iff : (e.turn id now).1 = .pause id line ↔ ∃ c, e.controllers.get? id = some c ∧
    c.enabled = true ∧ (c.due now = true ∨ e.stepping id = true) ∧
    (c.turn e.substation e.settings.statementBudget (e.stepping id) now).1 = .paused line := by
  rw [turn]
  cases hc : e.controllers.get? id with
  | none => simp
  | some c =>
    simp only [Option.some.injEq, exists_eq_left']
    by_cases hgoes : (c.enabled && (c.due now || e.stepping id)) = true
    · rw [if_pos hgoes]
      rw [Bool.and_eq_true, Bool.or_eq_true] at hgoes
      rcases c.turn e.substation e.settings.statementBudget (e.stepping id) now with ⟨ending, c', substation⟩
      cases ending <;> simp [hgoes]
    · rw [if_neg hgoes]
      rw [Bool.and_eq_true, Bool.or_eq_true] at hgoes
      refine iff_of_false (by simp) ?_
      rintro ⟨henabled, hdue, -⟩
      exact hgoes ⟨henabled, hdue⟩

/-- What a controller executes in its turn is all that it executes in the tick. -/
theorem HasTurn.tickLines_eq (h : e.HasTurn now id p) (hcomes : e.ComesTo now id e') :
    e.tickLines now id = p.controller.lines e'.substation e.settings.statementBudget (e.stepping id) now := by
  obtain ⟨hsettings, hstepping, hget⟩ := beside_of_comesTo hcomes
  have hc := (hget id le_rfl).trans h.controller
  have hgoes : (p.controller.enabled && (p.controller.due now || e.stepping id)) = true := by
    rw [Bool.and_eq_true, Bool.or_eq_true]
    exact ⟨h.enabled, h.due⟩
  simp only [tickLines_of_comesTo hcomes, turnLines, hc, hstepping, hsettings, if_pos hgoes]

/-- **A turn in a tick** goes to the first stop, and that is all that the controller executes in the tick. -/
theorem HasTurn.stopping (h : e.HasTurn now id p) (hfits : p.controller.Fits) : ∃ ending,
    (∀ line, (e.tick now).1.pausedAt = some (id, line) ↔ ending = .paused line) ∧
      Stopping p.controller now (e.stepping id) (e.suspensions now p) ending (e.tickLines now id) := by
  obtain ⟨t, e', ht, hcomes, hp⟩ := h.started
  obtain ⟨hsettings, hstepping, hget⟩ := beside_of_comesTo hcomes
  have hc := (hget id le_rfl).trans h.controller
  have hlines := h.tickLines_eq hcomes
  have hstopping := stopping_turn hfits ht e'.substation e.settings.statementBudget (e.stepping id) now
  rw [← hlines, ← hp] at hstopping
  refine ⟨_, fun line => ?_, hstopping⟩
  have hpause : (e'.turn id now).1 = .pause id line ↔
      (p.controller.turn e'.substation e.settings.statementBudget (e.stepping id) now).1 = .paused line := by
    rw [turn_pause_iff, hc, hsettings, hstepping]
    simp only [Option.some.injEq, exists_eq_left', h.enabled, h.due, true_and]
  rw [← hpause, pausedAt_iff]
  constructor
  · -- the tick comes to the controller once, so the turn that pauses is this one
    rintro ⟨e'', hcomes', hturn⟩
    rwa [hcomes.unique hcomes']
  · exact fun hturn => ⟨e', hcomes, hturn⟩

/-- A controller that pauses a tick has a turn in it. -/
theorem hasTurn_of_pausedAt (h : (e.tick now).1.pausedAt = some (id, line)) : ∃ p, e.HasTurn now id p := by
  obtain ⟨e', hcomes, hpause⟩ := pausedAt_iff.1 h
  obtain ⟨c, hc, henabled, hdue, hturn⟩ := turn_pause_iff.1 hpause
  obtain ⟨-, hstepping, hget⟩ := beside_of_comesTo hcomes
  rw [hget id le_rfl] at hc
  rw [hstepping] at hdue
  cases ht : c.task with
  | none =>
    rw [Controller.turn, ht] at hturn
    cases hturn
  | some t => exact ⟨c.progress t e'.substation, hc, henabled, hdue, t, e', ht, hcomes, rfl⟩

/-- A controller without a turn executes nothing. -/
theorem tickLines_of_not_hasTurn (h : ∀ p, ¬ e.HasTurn now id p) : e.tickLines now id = [] := by
  by_cases hcomes : ∃ e', e.ComesTo now id e'
  · obtain ⟨e', hcomes⟩ := hcomes
    obtain ⟨-, hstepping, hget⟩ := beside_of_comesTo hcomes
    rw [tickLines_of_comesTo hcomes, turnLines, hget id le_rfl, hstepping]
    cases hc : e.controllers.get? id with
    | none => rfl
    | some c =>
      simp only []
      split
      · rename_i hgoes
        rw [Bool.and_eq_true, Bool.or_eq_true] at hgoes
        rw [Controller.lines]
        cases ht : c.task with
        | none => rfl
        | some t => exact absurd ⟨hc, hgoes.1, hgoes.2, t, e', ht, hcomes, rfl⟩ (h (c.progress t e'.substation))
      · rfl
  · exact tickLines_of_not_comesTo fun e' hcomes' => hcomes ⟨e', hcomes'⟩

/-- **The hits of breakpoints on a line** are how often the line has been executed since one was first set there. -/
structure HitsKept (settings : Settings) (calls : List (Millis × Call)) (id : String) (line : UInt32) : Prop where
  /-- Where there is a breakpoint, it has been set. -/
  set : ∀ c b, ((new settings).follow calls).controllers.get? id = some c → c.breakpoints.get? line = some b →
    ∃ first since, Since settings (SetsFirst id line) (Drops id line) calls first since
  counted : ∀ first since, Since settings (SetsFirst id line) (Drops id line) calls first since →
    ∃ c b, ((new settings).follow calls).controllers.get? id = some c ∧ c.breakpoints.get? line = some b ∧
      b.hits.toNat = min ((((new settings).follow first).executed id since).count line) (2 ^ 32 - 1)

/-- **A tick pauses in a controller at the first suspension at which it stops**, and ends there. -/
structure PausesFirst (e : Engine) (now : Millis) (id : String) : Prop where
  pauses : ∀ line, (e.tick now).1.pausedAt = some (id, line) ↔ ∃ p n s, e.HasTurn now id p ∧
    p.controller.FirstStop now (e.stepping id) (e.suspensions now p) n s ∧ s.line = line
  /-- Nothing else has been executed than what is suspended up to the first stop. -/
  upTo : ∀ p n s, e.HasTurn now id p → p.controller.FirstStop now (e.stepping id) (e.suspensions now p) n s →
    e.tickLines now id = ((e.suspensions now p).take (n + 1)).map Suspension.line
  throughout : ∀ p, e.HasTurn now id p →
    (∀ n s, ¬ p.controller.FirstStop now (e.stepping id) (e.suspensions now p) n s) →
    e.tickLines now id = (e.suspensions now p).map Suspension.line
  without : (∀ p, ¬ e.HasTurn now id p) → e.tickLines now id = []
  /-- Controllers with larger ids execute nothing. -/
  later : ∀ line, (e.tick now).1.pausedAt = some (id, line) → ∀ other, id < other →
    e.tickLines now other = [] ∧ e.tickStatements now other = 0 ∧
      (e.tick now).2.controllers.get? other = e.controllers.get? other

/-- **The history** is the last of the lines that have been executed since the program was loaded. -/
structure HistoryKept (settings : Settings) (calls : List (Millis × Call)) (id : String) : Prop where
  unloaded : ∀ c, ((new settings).follow calls).controllers.get? id = some c → c.task = none → c.history = []
  loaded : ∀ c t, ((new settings).follow calls).controllers.get? id = some c → c.task = some t →
    ∃ first since, Since settings (Loads id) (Unloads id) calls first since
  last : ∀ first since, Since settings (Loads id) (Unloads id) calls first since →
    ∃ c t, ((new settings).follow calls).controllers.get? id = some c ∧ c.task = some t ∧
      c.history = (((new settings).follow first).executed id since).rtake (max 1 settings.historyCapacity)

theorem pausesFirst_of_fits (hfits : ∀ id c, e.controllers.get? id = some c → c.Fits) (now : Millis) (id : String) :
    PausesFirst e now id where
  pauses line := by
    constructor
    · intro hpaused
      obtain ⟨p, hturn⟩ := hasTurn_of_pausedAt hpaused
      obtain ⟨ending, hpause, hstopping⟩ := hturn.stopping (hfits id _ hturn.controller)
      obtain ⟨n, s, hfirst, hline⟩ := hstopping.paused_iff.1 ((hpause line).1 hpaused)
      exact ⟨p, n, s, hturn, hfirst, hline⟩
    · rintro ⟨p, n, s, hturn, hfirst, hline⟩
      obtain ⟨ending, hpause, hstopping⟩ := hturn.stopping (hfits id _ hturn.controller)
      exact (hpause line).2 (hstopping.paused_iff.2 ⟨n, s, hfirst, hline⟩)
  upTo p n s hturn hfirst := by
    obtain ⟨ending, -, hstopping⟩ := hturn.stopping (hfits id _ hturn.controller)
    exact hstopping.lines_eq.1 n s hfirst
  throughout p hturn hnone := by
    obtain ⟨ending, -, hstopping⟩ := hturn.stopping (hfits id _ hturn.controller)
    exact hstopping.lines_eq.2 hnone
  without := tickLines_of_not_hasTurn
  later _ hpaused _ hother := rest_of_pause hpaused hother

/-- **Breakpoints and histories after any calls.** The hits of a breakpoint are how often its line has been executed
since a breakpoint was first set there and not given up, up to the largest number; a tick pauses in a controller at the
first suspension at which it stops, and controllers with larger ids execute nothing in that tick; and the history is
the last of the lines that have been executed since the program was loaded. -/
theorem breakpoints_kept (settings : Settings) (calls : List (Millis × Call)) (id : String) :
    (∀ line, HitsKept settings calls id line) ∧ (∀ now, PausesFirst ((new settings).follow calls) now id) ∧
      HistoryKept settings calls id := by
  have hfits := controllers_follow fits_ofConfig (fun _ _ h hchange => fits_change h hchange) settings calls
  refine ⟨fun line => ⟨fun c b hc hb => set_since hc hb, fun first since hsince => hits_since hsince⟩,
    fun now => pausesFirst_of_fits hfits now id, history_of_unloaded settings calls id, ?_, ?_⟩
  · exact fun c t hc ht => loaded_since hc ht
  · exact fun first since hsince => history_since hsince

def watchedLoop : String := "VAR n : INT; END_VAR\nWHILE n < 5 DO\nn := n + 1;\nEND_WHILE"

/-- A loop that runs on two controllers, with a breakpoint in the first of them. -/
def watched : List (Millis × Call) :=
  [(0, .addController ⟨"a", none, "default", true, none⟩), (0, .addController ⟨"b", none, "default", true, none⟩),
    (0, .loadProgram "a" watchedLoop), (0, .loadProgram "b" watchedLoop),
    (0, .setBreakpoint "a" 3 true (some "n > 1") (some 3)), (0, .start)]

def watchedSettings : Settings := ⟨100, 50, 4, 100, none⟩

/-- What none of some calls ends. -/
theorem lasts_of_forall {settings : Settings} {Ends : Engine → Millis × Call → Prop}
    {first since : List (Millis × Call)} (h : ∀ c ∈ since, ∀ e, ¬ Ends e c) :
    ∀ middle c later, since = middle ++ c :: later → ¬ Ends ((new settings).follow (first ++ middle)) c := by
  rintro middle c later rfl
  exact h c (List.mem_append_right _ List.mem_cons_self) _

theorem since_watched_set : Since watchedSettings (SetsFirst "a" 3) (Drops "a" 3) (watched ++ [(0, .tick)])
    (watched.take 5) [(0, .start), (0, .tick)] where
  split := rfl
  begun := by
    have hfree : (((new watchedSettings).follow (watched.take 4)).controllers.get? "a").any
        (fun d => (d.breakpoints.get? 3).isNone) = true := by decide +kernel
    obtain ⟨d, hd, hnone⟩ := (Option.any_eq_true _ _).1 hfree
    exact ⟨watched.take 4, (0, .setBreakpoint "a" 3 true (some "n > 1") (some 3)), rfl, ⟨true, _, _, rfl⟩, d, hd,
      Option.isNone_iff_eq_none.1 hnone⟩
  lasts := lasts_of_forall (by simp [Drops])

theorem since_watched_loaded : Since watchedSettings (Loads "a") (Unloads "a") (watched ++ [(0, .tick)])
    (watched.take 3) (watched.drop 3 ++ [(0, .tick)]) where
  split := rfl
  begun := by
    have hok : (((new watchedSettings).follow (watched.take 2)).loadProgram "a" watchedLoop 0).toOption.isSome =
        true := by decide +kernel
    refine ⟨watched.take 2, (0, .loadProgram "a" watchedLoop), rfl, watchedLoop, ?_⟩
    simp only [answer, true_and]
    cases hload : ((new watchedSettings).follow (watched.take 2)).loadProgram "a" watchedLoop 0 with
    | ok e' => exact ⟨e', rfl⟩
    | error _ =>
      rw [hload] at hok
      cases hok
  lasts := lasts_of_forall (by simp [Unloads, Loads, watched])

theorem breakpoints_kept_watched :
    let e := (new watchedSettings).follow watched
    (∃ p n s, e.HasTurn 0 "a" p ∧ p.controller.FirstStop 0 (e.stepping "a") (e.suspensions 0 p) n s ∧ s.line = 3 ∧
      ((e.suspensions 0 p).take (n + 1)).map Suspension.line = [2, 3, 2, 3, 2, 3]) ∧
    e.tickLines 0 "b" = [] ∧
    (∃ c b, (e.after 0 .tick).controllers.get? "a" = some c ∧ c.breakpoints.get? 3 = some b ∧ b.hits.toNat = 3) ∧
    ∃ c, (e.after 0 .tick).controllers.get? "a" = some c ∧ c.history = [2, 3, 2, 3] := by
  intro e
  obtain ⟨-, hpauses, -⟩ := breakpoints_kept watchedSettings watched "a"
  obtain ⟨hhits, -, hhistory⟩ := breakpoints_kept watchedSettings (watched ++ [(0, .tick)]) "a"
  have hpaused : (e.tick 0).1.pausedAt = some ("a", 3) := by decide +kernel
  have hlines : e.tickLines 0 "a" = [2, 3, 2, 3, 2, 3] := by decide +kernel
  have hset : ((new watchedSettings).follow (watched.take 5)).executed "a" [(0, .start), (0, .tick)] =
      [2, 3, 2, 3, 2, 3] := by decide +kernel
  have hloaded : ((new watchedSettings).follow (watched.take 3)).executed "a" (watched.drop 3 ++ [(0, .tick)]) =
      [2, 3, 2, 3, 2, 3] := by decide +kernel
  obtain ⟨p, n, s, hturn, hfirst, hline⟩ := ((hpauses 0).pauses 3).1 hpaused
  have hupTo := (hpauses 0).upTo p n s hturn hfirst
  obtain ⟨c, b, hc, hb, hcount⟩ := (hhits 3).counted _ _ since_watched_set
  obtain ⟨c', t, hc', -, hlast⟩ := hhistory.last _ _ since_watched_loaded
  rw [follow_concat] at hc hc'
  rw [hset] at hcount
  rw [hloaded] at hlast
  exact ⟨⟨p, n, s, hturn, hfirst, hline, hupTo.symm.trans hlines⟩,
    ((hpauses 0).later 3 hpaused "b" (by decide)).1, ⟨c, b, hc, hb, hcount⟩, c', hc', hlast⟩

end Switchyard.Engine
