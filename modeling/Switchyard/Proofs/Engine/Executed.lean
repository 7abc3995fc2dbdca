import Mathlib.Data.String.Basic
import Switchyard.Proofs.Engine.Resumption
import Switchyard.Proofs.Engine.SingleStep

/-!
# What controllers execute

The lines of a controller are those of its statements that have run, in order. They are
noted in its turns, and a tick comes to a turn only if none before it has interrupted
the tick (`ComesTo`). So a tick is the turn of one controller, as far as this controller
is concerned, or it passes it over (`tickLines_of_comesTo`, `tickLines_of_not_comesTo`).

* `tickLines`, `executed`: the lines in a tick, and in calls.
* `turns_interrupted`: the turns of a tick up to the one that interrupts it.
* `Beside`: all that turns of other controllers leave alone.
-/

namespace Switchyard.Engine

variable {e e' e'' : Engine} {id other : String} {c : Controller} {now : Millis} {first ids later : List String}

/-- The lines that a controller executes in its turn, if it gets one. -/
def turnLines (e : Engine) (id : String) (now : Millis) : List UInt32 :=
  match e.controllers.get? id with
  | none => []
  | some c =>
    if c.enabled && (c.due now || e.stepping id) then
      c.lines e.substation e.settings.statementBudget (e.stepping id) now
    else []

/-- The lines that a controller executes in the turns of a tick. -/
def turnsLines (now : Millis) (id : String) : List String → Engine → List UInt32
  | [], _ => []
  | other :: ids, e =>
    (if other = id then e.turnLines id now else []) ++
      match e.turn other now with
      | (.none, e) => turnsLines now id ids e
      | _ => []

/-- The lines that a controller executes in a tick. -/
def tickLines (e : Engine) (now : Millis) (id : String) : List UInt32 :=
  if e.run = .running then turnsLines now id e.controllers.keys (e.prepared now) else []

/-- The lines that a controller executes during a call. -/
def callLines (e : Engine) (now : Millis) (id : String) : Call → List UInt32
  | .tick => e.tickLines now id
  | _ => []

/-- The lines that a controller executes while calls are made. -/
def executed (id : String) (e : Engine) : List (Millis × Call) → List UInt32
  | [] => []
  | (now, call) :: calls => e.callLines now id call ++ executed id (e.after now call) calls

theorem executed_append (id : String) (e : Engine) (calls more : List (Millis × Call)) :
    e.executed id (calls ++ more) = e.executed id calls ++ (e.follow calls).executed id more := by
  induction calls generalizing e with
  | nil => rfl
  | cons c calls ih => simp only [List.cons_append, executed, follow, ih, List.append_assoc]

theorem turns_append (now : Millis) (first later : List String) (e : Engine) :
    e.turns now (first ++ later) =
      match e.turns now first with
      | (.none, e') => e'.turns now later
      | interrupted => interrupted := by
  induction first generalizing e with
  | nil => rfl
  | cons id first ih =>
    rw [List.cons_append, turns, turns]
    rcases e.turn id now with ⟨_ | ⟨_, _⟩ | _, e'⟩
    · exact ih e'
    · rfl
    · rfl

/-- **The turns of a tick up to the one that interrupts it.** -/
theorem turns_interrupted (h : (e.turns now ids).1 ≠ .none) :
    ∃ first id later e', ids = first ++ id :: later ∧ e.turns now first = (.none, e') ∧
      (e'.turn id now).1 ≠ .none ∧ e.turns now ids = e'.turn id now := by
  induction ids generalizing e with
  | nil => exact absurd rfl h
  | cons id ids ih =>
    rw [turns] at h ⊢
    rcases hturn : e.turn id now with ⟨interruption, e'⟩
    rw [hturn] at h
    cases interruption with
    | none =>
      obtain ⟨first, id', later, e'', rfl, hfirst, hne, hturns⟩ := ih h
      refine ⟨id :: first, id', later, e'', rfl, ?_, hne, hturns⟩
      simp only [turns, hturn, hfirst]
    | pause _ _ | error _ => exact ⟨[], id, ids, e, rfl, rfl, by rw [hturn]; exact h, hturn.symm⟩

/-- Turns of some controllers leave the run state and all other controllers alone. -/
structure Beside (ids : List String) (e e' : Engine) : Prop where
  settings : e'.settings = e.settings
  stepping : ∀ id, e'.stepping id = e.stepping id
  controllers : ∀ id, id ∉ ids → e'.controllers.get? id = e.controllers.get? id

theorem Beside.trans {more : List String} (h : Beside ids e e') (h' : Beside more e' e'') :
    Beside (ids ++ more) e e'' where
  settings := h'.settings.trans h.settings
  stepping id := (h'.stepping id).trans (h.stepping id)
  controllers id hid := by
    rw [List.mem_append, not_or] at hid
    exact (h'.controllers id hid.2).trans (h.controllers id hid.1)

theorem beside_turn (h : e.turn id now = (.none, e')) : Beside [id] e e' := by
  have hcases := turn_cases e id now
  rw [h] at hcases
  cases hcases with
  | passed => exact ⟨rfl, fun _ => rfl, fun _ _ => rfl⟩
  | went =>
    refine ⟨rfl, fun _ => rfl, fun other hother => ?_⟩
    exact SortedMap.get?_insert_of_ne _ _ fun heq => hother (List.mem_singleton.2 heq)

theorem beside_turns (h : e.turns now ids = (.none, e')) : Beside ids e e' := by
  induction ids generalizing e with
  | nil =>
    cases h
    exact ⟨rfl, fun _ => rfl, fun _ _ => rfl⟩
  | cons id ids ih =>
    rw [turns] at h
    rcases hturn : e.turn id now with ⟨interruption, middle⟩
    rw [hturn] at h
    cases interruption with
    | none => exact (beside_turn hturn).trans (ih h)
    | pause _ _ | error _ => cases h

/-- A turn that pauses changes the controller that has it, and no other. -/
theorem controllers_of_pause {line : UInt32} (h : (e.turn id now).1 = .pause id line) (hother : other ≠ id) :
    (e.turn id now).2.controllers.get? other = e.controllers.get? other := by
  have hcases := turn_cases e id now
  rcases hturn : e.turn id now with ⟨interruption, e'⟩
  rw [hturn] at hcases h
  cases hcases with
  | passed => rfl
  | went => cases h
  | paused => exact SortedMap.get?_insert_of_ne _ _ hother
  | failed => cases h

/-- Only the controller that has a turn pauses in it. -/
theorem eq_of_turn_pause {line : UInt32} (h : (e.turn id now).1 = .pause other line) : other = id := by
  have hcases := turn_cases e id now
  rcases hturn : e.turn id now with ⟨interruption, e'⟩
  rw [hturn] at hcases h
  cases hcases with
  | passed | went | failed => cases h
  | paused => exact (Interruption.pause.inj h).1.symm

theorem turnsLines_append (now : Millis) (id : String) (first later : List String) (e : Engine) :
    turnsLines now id (first ++ later) e = turnsLines now id first e ++
      match e.turns now first with
      | (.none, e') => turnsLines now id later e'
      | _ => [] := by
  induction first generalizing e with
  | nil => rfl
  | cons other first ih =>
    rw [List.cons_append, turnsLines, turnsLines, turns]
    rcases e.turn other now with ⟨_ | ⟨_, _⟩ | _, e'⟩
    · simp only [ih, List.append_assoc]
    · simp only [List.append_nil]
    · simp only [List.append_nil]

theorem turnsLines_of_not_mem (h : id ∉ ids) : turnsLines now id ids e = [] := by
  induction ids generalizing e with
  | nil => rfl
  | cons other ids ih =>
    rw [List.mem_cons, not_or] at h
    rw [turnsLines, if_neg (Ne.symm h.1), List.nil_append]
    split
    · exact ih h.2
    · rfl

theorem turnsStatements_append (now : Millis) (id : String) (first later : List String) (e : Engine) :
    turnsStatements now id (first ++ later) e = turnsStatements now id first e +
      match e.turns now first with
      | (.none, e') => turnsStatements now id later e'
      | _ => 0 := by
  induction first generalizing e with
  | nil => exact (Nat.zero_add _).symm
  | cons other first ih =>
    rw [List.cons_append, turnsStatements, turnsStatements, turns]
    rcases e.turn other now with ⟨_ | ⟨_, _⟩ | _, e'⟩
    · simp only [ih, Nat.add_assoc]
    · rfl
    · rfl

theorem turnsStatements_of_not_mem (h : id ∉ ids) : turnsStatements now id ids e = 0 := by
  induction ids generalizing e with
  | nil => rfl
  | cons other ids ih =>
    rw [List.mem_cons, not_or] at h
    rw [turnsStatements, if_neg (Ne.symm h.1), Nat.zero_add]
    split
    · exact ih h.2
    · rfl

/-- **A tick comes to a controller**: those with smaller ids have had their turns, and none of them has interrupted
the tick. -/
structure ComesTo (e : Engine) (now : Millis) (id : String) (e' : Engine) : Prop where
  running : e.run = .running
  turns : ∃ first later, e.controllers.keys = first ++ id :: later ∧ (e.prepared now).turns now first = (.none, e')

theorem keys_ascend (m : SortedMap String Controller) : m.keys.Pairwise (· < ·) := by
  rw [SortedMap.keys, List.pairwise_map]
  exact m.ascending.imp compare_lt_iff_lt.1

/-- Ids that ascend, around one of them. -/
theorem not_mem_of_ascend (h : (first ++ id :: later).Pairwise (· < ·)) :
    id ∉ first ∧ id ∉ later ∧ ∀ other, id < other → other ∉ first := by
  obtain ⟨-, hlater, hfirst⟩ := List.pairwise_append.1 h
  obtain ⟨hid, -⟩ := List.pairwise_cons.1 hlater
  refine ⟨fun hmem => ?_, fun hmem => lt_irrefl _ (hid id hmem), fun other hother hmem => ?_⟩
  · exact lt_irrefl _ (hfirst id hmem id List.mem_cons_self)
  · exact lt_asymm hother (hfirst other hmem id List.mem_cons_self)

/-- **The turns that a tick comes to**: a controller executes what it executes in its turn, and if this interrupts the
tick, those with larger ids execute nothing. -/
theorem turns_of_comesTo (hids : (first ++ id :: later).Pairwise (· < ·)) (hfirst : e.turns now first = (.none, e')) :
    turnsLines now id (first ++ id :: later) e = e'.turnLines id now ∧
      turnsStatements now id (first ++ id :: later) e = e'.turnStatements id now ∧
      ((e'.turn id now).1 ≠ .none → e.turns now (first ++ id :: later) = e'.turn id now ∧
        ∀ other, id < other → turnsLines now other (first ++ id :: later) e = [] ∧
          turnsStatements now other (first ++ id :: later) e = 0) := by
  -- no id stands twice among those that ascend, so there is one turn, the one after the first
  obtain ⟨hnotfirst, hnotlater, hlarger⟩ := not_mem_of_ascend hids
  refine ⟨?_, ?_, fun hne => ⟨?_, fun other hother => ?_⟩⟩
  · rw [turnsLines_append, turnsLines_of_not_mem hnotfirst, hfirst, List.nil_append]
    simp only [turnsLines, if_true]
    split
    · rw [turnsLines_of_not_mem hnotlater, List.append_nil]
    · rw [List.append_nil]
  · rw [turnsStatements_append, turnsStatements_of_not_mem hnotfirst, hfirst, Nat.zero_add]
    simp only [turnsStatements, if_true]
    split
    · rw [turnsStatements_of_not_mem hnotlater, Nat.add_zero]
    · rw [Nat.add_zero]
  · rw [turns_append, hfirst]
    simp only [turns]
    split
    · rename_i hturn
      exact absurd (congrArg Prod.fst hturn) hne
    · rfl
  · have hnot : other ∉ first := hlarger other hother
    rw [turnsLines_append, turnsStatements_append, turnsLines_of_not_mem hnot, turnsStatements_of_not_mem hnot, hfirst]
    simp only [turnsLines, turnsStatements, if_neg hother.ne, List.nil_append, Nat.zero_add]
    rcases hturn : e'.turn id now with ⟨_ | ⟨_, _⟩ | _, e''⟩
    · exact absurd (congrArg Prod.fst hturn) hne
    · exact ⟨rfl, rfl⟩
    · exact ⟨rfl, rfl⟩

/-- A tick comes to a controller once. -/
theorem ComesTo.unique (h : e.ComesTo now id e') (h' : e.ComesTo now id e'') : e' = e'' := by
  obtain ⟨first, later, hkeys, hfirst⟩ := h.turns
  obtain ⟨first', later', hkeys', hfirst'⟩ := h'.turns
  have hids := keys_ascend e.controllers
  rw [hkeys] at hids
  obtain ⟨hnotfirst, hnotlater, -⟩ := not_mem_of_ascend hids
  obtain ⟨rfl, -⟩ := (List.append_cons_inj_of_notMem hnotfirst hnotlater).1 (hkeys.symm.trans hkeys')
  exact congrArg Prod.snd (hfirst.symm.trans hfirst')

theorem tickLines_of_comesTo (h : e.ComesTo now id e') : e.tickLines now id = e'.turnLines id now := by
  obtain ⟨first, later, hkeys, hfirst⟩ := h.turns
  have hids := keys_ascend e.controllers
  rw [hkeys] at hids
  rw [tickLines, if_pos h.running, hkeys]
  exact (turns_of_comesTo hids hfirst).1

/-- A controller that a tick does not come to executes nothing. -/
theorem tickLines_of_not_comesTo (h : ∀ e', ¬ e.ComesTo now id e') : e.tickLines now id = [] := by
  rw [tickLines]
  split
  · rename_i hrun
    by_cases hmem : id ∈ e.controllers.keys
    · obtain ⟨first, later, hkeys⟩ := List.append_of_mem hmem
      have hids := keys_ascend e.controllers
      rw [hkeys] at hids ⊢
      rw [turnsLines_append, turnsLines_of_not_mem (not_mem_of_ascend hids).1, List.nil_append]
      -- one of the turns before has interrupted the tick
      split
      · rename_i e' hfirst
        exact absurd ⟨hrun, first, later, hkeys, hfirst⟩ (h e')
      · rfl
    · exact turnsLines_of_not_mem hmem
  · rfl

/-- A tick to a controller has left it as it was, and goes on in the same way. -/
theorem beside_of_comesTo (h : e.ComesTo now id e') :
    e'.settings = e.settings ∧ (∀ other, e'.stepping other = e.stepping other) ∧
      ∀ other, id ≤ other → e'.controllers.get? other = e.controllers.get? other := by
  obtain ⟨first, later, hkeys, hfirst⟩ := h.turns
  have hids := keys_ascend e.controllers
  rw [hkeys] at hids
  obtain ⟨hnotfirst, -, hlarger⟩ := not_mem_of_ascend hids
  have hbeside := beside_turns hfirst
  refine ⟨hbeside.settings, hbeside.stepping, fun other hother => hbeside.controllers other ?_⟩
  rcases hother.eq_or_lt with rfl | hlt
  · exact hnotfirst
  · exact hlarger other hlt

/-- A tick reports the pause that has ended its turns. -/
theorem pausedAt_of_running {line : UInt32} (hrun : e.run = .running) (now : Millis) :
    (e.tick now).1.pausedAt = some (id, line) ↔
      ((e.prepared now).turns now e.controllers.keys).1 = .pause id line := by
  simp only [tick, if_pos hrun]
  split <;> rename_i hturns
  all_goals
    have hfst : ((e.prepared now).turns now e.controllers.keys).1 = _ := congrArg Prod.fst hturns
    rw [hfst]
    simp

/-- **A tick pauses** where a turn that it comes to does. -/
theorem pausedAt_iff {line : UInt32} :
    (e.tick now).1.pausedAt = some (id, line) ↔ ∃ e', e.ComesTo now id e' ∧ (e'.turn id now).1 = .pause id line := by
  by_cases hrun : e.run = .running
  · rw [pausedAt_of_running hrun]
    constructor
    · intro hpause
      obtain ⟨first, other, later, e', hkeys, hfirst, -, hturns⟩ := turns_interrupted (by rw [hpause]; nofun)
      rw [hturns] at hpause
      obtain rfl := eq_of_turn_pause hpause
      exact ⟨e', ⟨hrun, first, later, hkeys, hfirst⟩, hpause⟩
    · rintro ⟨e', hcomes, hpause⟩
      obtain ⟨first, later, hkeys, hfirst⟩ := hcomes.turns
      have hids := keys_ascend e.controllers
      rw [hkeys] at hids ⊢
      rw [((turns_of_comesTo hids hfirst).2.2 (by rw [hpause]; nofun)).1, hpause]
  · constructor
    · intro hpause
      simp only [tick, if_neg hrun] at hpause
      cases hpause
    · rintro ⟨e', hcomes, -⟩
      exact absurd hcomes.running hrun

/-- **A tick that pauses** ends there: controllers with larger ids execute nothing, and are as before. -/
theorem rest_of_pause {line : UInt32} (h : (e.tick now).1.pausedAt = some (id, line)) (hother : id < other) :
    e.tickLines now other = [] ∧ e.tickStatements now other = 0 ∧
      (e.tick now).2.controllers.get? other = e.controllers.get? other := by
  obtain ⟨e', hcomes, hpause⟩ := pausedAt_iff.1 h
  obtain ⟨first, later, hkeys, hfirst⟩ := hcomes.turns
  have hids := keys_ascend e.controllers
  rw [hkeys] at hids
  obtain ⟨hturns, hlarger⟩ := (turns_of_comesTo hids hfirst).2.2 (by rw [hpause]; nofun)
  obtain ⟨hlines, hstatements⟩ := hlarger other hother
  rw [tickLines, tickStatements, if_pos hcomes.running, if_pos hcomes.running, (tick_of_running hcomes.running now).1,
    hkeys, hturns, controllers_of_pause hpause hother.ne']
  exact ⟨hlines, hstatements, (beside_of_comesTo hcomes).2.2 other hother.le⟩

end Switchyard.Engine
