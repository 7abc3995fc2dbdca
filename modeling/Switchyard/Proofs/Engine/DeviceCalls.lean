import Switchyard.Proofs.Engine.Resumption
import Switchyard.Proofs.Script.Answers
import Switchyard.Proofs.Station.Commutation

/-!
# What the calls of a turn do

A program reaches the substation through its calls only. What a call does depends on the call alone, and it writes one
point or attribute at most (`effect_cases`); what it is answered depends on what it reads (`answers_congr`). A turn does
what its calls do (`turn_calls`), and it is determined by them: in any other substation where they are answered in the
same way, it comes to the same end and leaves the same controller (`turn_of_answered`).

* `DeviceCall.reads`, `DeviceCall.writes`: what a call reads and writes.
* `effects`, `Answered`: what calls do to a substation, and that they are answered in it as they say.
* `Controller.calls`: the calls of a turn.
-/

namespace Switchyard

namespace Script.DeviceCall

/-- What a call reads, if the profile of its device is in a place. -/
def reads (place : Option String) : DeviceCall → List Datum
  | readInput a _ => [.point place .discreteInput a]
  | readRegister a _ => [.point place .holdingRegister a, .point place .inputRegister a]
  | getDA path _ => [.attr path]
  | writeCoil _ _ | writeRegister _ _ | setDA _ _ | log _ _ => []

/-- What a call writes. -/
def writes (place : Option String) : DeviceCall → List Datum
  | writeCoil a _ => [.point place .coil a]
  | writeRegister a _ => [.point place .holdingRegister a]
  | setDA path _ => [.attr path]
  | readInput _ _ | readRegister _ _ | getDA _ _ | log _ _ => []

end Script.DeviceCall

namespace Engine

open Script

/-- What a call does to a substation. -/
def effect (profile : String) (now : Millis) (call : DeviceCall) (s : Substation) : Substation :=
  ((reach profile now).after call ⟨s, []⟩).substation

/-- What a call does to the messages. -/
def logged (logs : List LogEntry) : DeviceCall → List LogEntry
  | .log level message => remember logSize logs ⟨level, message⟩
  | _ => logs

/-- What calls do to a substation. -/
def effects (profile : String) (now : Millis) (calls : List DeviceCall) (s : Substation) : Substation :=
  calls.foldl (fun s call => effect profile now call s) s

/-- Calls are answered in a substation as they say. -/
def Answered (profile : String) (now : Millis) (calls : List DeviceCall) (s : Substation) : Prop :=
  (reach profile now).AnswersAll calls ⟨s, []⟩

section Calls

variable {profile : String} {now : Millis} {call : DeviceCall} {calls : List DeviceCall} {s t : Substation}
  {logs : List LogEntry}

/-- Messages are kept apart from the substation. -/
theorem after_reach (profile : String) (now : Millis) (call : DeviceCall) (s : Substation) (logs : List LogEntry) :
    (reach profile now).after call ⟨s, logs⟩ = ⟨effect profile now call s, logged logs call⟩ := by
  cases call <;> rfl

theorem afterAll_reach (profile : String) (now : Millis) (calls : List DeviceCall) (s : Substation)
    (logs : List LogEntry) :
    (reach profile now).afterAll calls ⟨s, logs⟩ = ⟨effects profile now calls s, calls.foldl logged logs⟩ := by
  induction calls generalizing s logs with
  | nil => rfl
  | cons call calls ih =>
    rw [Device.afterAll, List.foldl_cons, after_reach]
    exact ih _ _

/-- What is answered depends on what is read. -/
theorem answers_congr (hplace : t.model.place profile = s.model.place profile)
    (hreads : ∀ d ∈ call.reads (s.model.place profile), t.datum? d = s.datum? d) (logs logs' : List LogEntry) :
    (reach profile now).Answers call ⟨t, logs⟩ ↔ (reach profile now).Answers call ⟨s, logs'⟩ := by
  have hpoint (table : Table) (a : UInt16) (h : .point (s.model.place profile) table a ∈
      call.reads (s.model.place profile)) :
      (t.model.profile profile).point? table a = (s.model.profile profile).point? table a := by
    rw [← DataModel.point?_place, ← DataModel.point?_place, hplace]
    exact hreads _ h
  cases call with
  | readInput a answer =>
    have hinput : (t.model.profile profile).discreteInputs.get? a = (s.model.profile profile).discreteInputs.get? a :=
      Option.map_injective (fun _ _ => Scalar.bool.inj) (hpoint .discreteInput a (.head _))
    simp only [Device.Answers, reach, hinput]
  | readRegister a answer =>
    have hholding : (t.model.profile profile).holdingRegisters.get? a =
        (s.model.profile profile).holdingRegisters.get? a :=
      Option.map_injective Scalar.ofWord_injective (hpoint .holdingRegister a (.head _))
    have hinput : (t.model.profile profile).inputRegisters.get? a = (s.model.profile profile).inputRegisters.get? a :=
      Option.map_injective Scalar.ofWord_injective (hpoint .inputRegister a (.tail _ (.head _)))
    simp only [Device.Answers, reach, hholding, hinput]
  | getDA path answer =>
    have hvalue : t.model.value? path = s.model.value? path := hreads _ (.head _)
    simp only [Device.Answers, reach, DataModel.value, hvalue]
  | writeCoil | writeRegister | setDA | log => exact Iff.rfl

/-- **What a call writes**: nothing, or one point or attribute. -/
theorem effect_cases (profile : String) (now : Millis) (place : Option String) (call : DeviceCall) :
    (call.writes place = [] ∧ ∀ s, effect profile now call s = s) ∨
      ∃ d value, call.writes place = [d] ∧ ∀ s : Substation, s.model.place profile = place →
        Substation.Puts now d value s (effect profile now call s) := by
  cases call with
  | readInput | readRegister | getDA | log => exact .inl ⟨rfl, fun _ => rfl⟩
  | writeCoil a b =>
    refine .inr ⟨.point place .coil a, .bool b, rfl, fun s hs => ⟨_, ?_, rfl⟩⟩
    rw [← hs]
    exact s.model.stores_modifyProfile profile fun p => p.stores_setCoil a b
  | writeRegister a w =>
    refine .inr ⟨.point place .holdingRegister a, .ofWord w, rfl, fun s hs => ⟨_, ?_, rfl⟩⟩
    rw [← hs]
    exact s.model.stores_modifyProfile profile fun p => p.stores_setHolding a w
  | setDA path value => exact .inr ⟨.attr path, value, rfl, fun s _ => rfl⟩

theorem place_effect (profile : String) (now : Millis) (call : DeviceCall) (s : Substation) (id : String) :
    (effect profile now call s).model.place id = s.model.place id := by
  rcases effect_cases profile now (s.model.place profile) call with ⟨-, hsame⟩ | ⟨d, value, -, hputs⟩
  · rw [hsame]
  · exact (hputs s rfl).place_eq id

theorem answersAll_reach : (reach profile now).AnswersAll calls ⟨s, logs⟩ ↔ Answered profile now calls s := by
  unfold Answered
  generalize ([] : List LogEntry) = logs'
  induction calls generalizing s logs logs' with
  | nil => exact Iff.rfl
  | cons call calls ih =>
    rw [Device.AnswersAll, Device.AnswersAll, after_reach, after_reach, ih]
    exact and_congr_left fun _ => answers_congr rfl (fun _ _ => rfl) _ _

theorem answered_cons : Answered profile now (call :: calls) s ↔
    (reach profile now).Answers call ⟨s, []⟩ ∧ Answered profile now calls (effect profile now call s) := by
  rw [Answered, Device.AnswersAll, after_reach, answersAll_reach]

theorem effects_append (profile : String) (now : Millis) (calls more : List DeviceCall) (s : Substation) :
    effects profile now (calls ++ more) s = effects profile now more (effects profile now calls s) := List.foldl_append

theorem place_effects (profile : String) (now : Millis) (calls : List DeviceCall) (s : Substation) (id : String) :
    (effects profile now calls s).model.place id = s.model.place id := by
  induction calls generalizing s with
  | nil => rfl
  | cons call calls ih => exact (ih (effect profile now call s)).trans (place_effect ..)

theorem answered_append {more : List DeviceCall} : Answered profile now (calls ++ more) s ↔
      Answered profile now calls s ∧ Answered profile now more (effects profile now calls s) := by
  rw [Answered, Device.answersAll_append, afterAll_reach, answersAll_reach, answersAll_reach]

end Calls

theorem standsAt_reach (profile : String) (now : Millis) : (reach profile now).StandsAt now := fun _ => rfl

namespace Progress

variable {p : Progress} {stepping : Bool} {now : Millis} {budget : ℕ} {t : Substation}

/-- The calls of the next statement. -/
def stepCalls (p : Progress) (now : Millis) : List DeviceCall :=
  p.execution.calls (reach p.controller.profile now) p.scope p.around

/-- The calls of statements within a budget. -/
def calls (stepping : Bool) (now : Millis) : ℕ → Progress → List DeviceCall
  | 0, _ => []
  | budget + 1, p => p.stepCalls now ++
    match p.step now with
    | (.ok (.suspended line), p) =>
      let (hit, p) := p.arrive line now
      if hit || stepping then [] else p.calls stepping now budget
    | _ => []

/-- A statement, and the line that it comes to, leave the profile as it is. -/
theorem profile_of_arrive {outcome : Except RuntimeError Outcome} {hit : Bool} {line : UInt32} {q q' : Progress}
    (hstep : p.step now = (outcome, q)) (harrive : q.arrive line now = (hit, q')) :
    q'.controller.profile = p.controller.profile := by
  have hstepped := (p.noted_step now).profile
  have harrived := (q.arrive_cases line now).2.2.2.profile
  rw [hstep] at hstepped
  rw [harrive] at harrived
  exact harrived.trans hstepped

/-- A cycle in another substation. -/
def into (p : Progress) (t : Substation) : Progress := { p with substation := t }

/-- A statement does what its calls do, and they are answered. -/
theorem step_stepCalls (p : Progress) (now : Millis) :
    Answered p.controller.profile now (p.stepCalls now) p.substation ∧
      (p.step now).2.substation = effects p.controller.profile now (p.stepCalls now) p.substation ∧
      (p.step now).2.controller.logs = (p.stepCalls now).foldl logged p.controller.logs := by
  obtain ⟨hanswers, hstate⟩ :=
    Execution.step_calls (standsAt_reach p.controller.profile now) p.execution p.scope p.around
  rw [around, afterAll_reach] at hstate
  exact ⟨answersAll_reach.1 hanswers, congrArg Surroundings.substation hstate, congrArg Surroundings.logs hstate⟩

/-- **A statement is determined by its calls.** -/
theorem step_into (h : Answered p.controller.profile now (p.stepCalls now) t) :
    (p.into t).step now = ((p.step now).1, (p.step now).2.into (effects p.controller.profile now (p.stepCalls now) t)) ∧
      (p.into t).stepCalls now = p.stepCalls now := by
  have hstands := standsAt_reach p.controller.profile now
  obtain ⟨hstep, hcalls⟩ :=
    Execution.step_of_answers hstands hstands (t := (p.into t).around) (answersAll_reach.2 h)
  obtain ⟨-, -, hlogs⟩ := p.step_stepCalls now
  have hafter : (reach p.controller.profile now).afterAll (p.stepCalls now) (p.into t).around =
      ⟨effects p.controller.profile now (p.stepCalls now) t, (p.step now).2.controller.logs⟩ := by
    rw [hlogs]
    exact afterAll_reach ..
  refine ⟨?_, hcalls⟩
  rw [stepCalls] at hafter
  rw [hafter] at hstep
  rw [step, show (p.into t).execution.step (reach (p.into t).controller.profile now) (p.into t).scope
    ⟨(p.into t).substation, (p.into t).controller.logs⟩ = _ from hstep]
  rfl

theorem arrive_into (p : Progress) (t : Substation) (line : UInt32) (now : Millis) :
    (p.into t).arrive line now = ((p.arrive line now).1, (p.arrive line now).2.into t) := by
  unfold arrive
  simp only [into]
  split <;> rfl

/-- **Statements within a budget** do what their calls do, and these are answered. -/
theorem run_calls (stepping : Bool) (now : Millis) (budget : ℕ) (p : Progress) :
    Answered p.controller.profile now (p.calls stepping now budget) p.substation ∧
      (p.run stepping now budget).2.substation =
        effects p.controller.profile now (p.calls stepping now budget) p.substation := by
  induction budget generalizing p with
  | zero => exact ⟨trivial, rfl⟩
  | succ budget ih =>
    obtain ⟨hanswered, hsubstation, -⟩ := p.step_stepCalls now
    rw [calls, run]
    rcases hstep : p.step now with ⟨err | line | _, q⟩
    all_goals rw [hstep] at hsubstation
    · simp only [List.append_nil]
      exact ⟨hanswered, hsubstation⟩
    · obtain ⟨-, -, haround, -⟩ := q.arrive_cases line now
      rcases harrive : q.arrive line now with ⟨hit, q'⟩
      rw [harrive] at haround
      have hsubstation' : q'.substation = effects p.controller.profile now (p.stepCalls now) p.substation :=
        (congrArg Surroundings.substation haround).trans hsubstation
      simp only [harrive]
      split
      · rw [List.append_nil]
        exact ⟨hanswered, hsubstation'⟩
      · -- the rest of the budget goes on where the first statement has led
        obtain ⟨hlater, hend⟩ := ih q'
        rw [profile_of_arrive hstep harrive, hsubstation'] at hlater hend
        refine ⟨answered_append.2 ⟨hanswered, hlater⟩, ?_⟩
        rw [hend, effects_append]
    · simp only [List.append_nil]
      exact ⟨hanswered, hsubstation⟩

/-- **Statements within a budget are determined by their calls.** -/
theorem run_into (h : Answered p.controller.profile now (p.calls stepping now budget) t) :
    (p.into t).run stepping now budget = ((p.run stepping now budget).1,
        (p.run stepping now budget).2.into (effects p.controller.profile now (p.calls stepping now budget) t)) ∧
      (p.into t).calls stepping now budget = p.calls stepping now budget := by
  induction budget generalizing p t with
  | zero => exact ⟨rfl, rfl⟩
  | succ budget ih =>
    rw [calls] at h
    obtain ⟨hfirst, hlater⟩ := answered_append.1 h
    obtain ⟨hstep', hcalls⟩ := step_into hfirst
    rw [calls, calls, run, run, hstep', hcalls]
    -- The step fails, arrives at a statement or completes, and only behind a statement does the run go on.
    rcases hstep : p.step now with ⟨err | line | _, q⟩
    · simp only [List.append_nil, and_self]
    · rw [hstep] at hlater
      simp only [arrive_into] at hlater ⊢
      rcases harrive : q.arrive line now with ⟨hit, q'⟩
      have hprofile := profile_of_arrive hstep harrive
      rw [harrive] at hlater
      simp only at hlater ⊢
      split
      · simp only [List.append_nil, and_self]
      · rename_i hgoes
        rw [if_neg hgoes, ← hprofile] at hlater
        obtain ⟨hrun, hsame⟩ := ih hlater
        rw [hprofile] at hrun hsame
        rw [hrun, hsame, effects_append]
        exact ⟨rfl, rfl⟩
    · simp only [List.append_nil, and_self]

end Progress

section Turns

variable {c : Controller} {s t : Substation} {budget : ℕ} {stepping : Bool} {now : Millis}

/-- The calls of a turn. -/
def Controller.calls (c : Controller) (s : Substation) (budget : ℕ) (stepping : Bool) (now : Millis) :
    List DeviceCall :=
  match c.task with
  | none => []
  | some t => (c.progress t s).calls stepping now budget

/-- **A turn** does what its calls do, and these are answered. -/
theorem turn_calls (c : Controller) (s : Substation) (budget : ℕ) (stepping : Bool) (now : Millis) :
    Answered c.profile now (c.calls s budget stepping now) s ∧
      (c.turn s budget stepping now).2.2 = effects c.profile now (c.calls s budget stepping now) s := by
  unfold Controller.calls Controller.turn
  cases c.task with
  | none => exact ⟨trivial, rfl⟩
  | some t => exact (c.progress t s).run_calls stepping now budget

/-- **A turn is determined by its calls.** Where they are answered in the same way it comes to the same end, leaves the
same controller, and makes the same calls. -/
theorem turn_of_answered (h : Answered c.profile now (c.calls s budget stepping now) t) :
    c.turn t budget stepping now = ((c.turn s budget stepping now).1, (c.turn s budget stepping now).2.1,
        effects c.profile now (c.calls s budget stepping now) t) ∧
      c.calls t budget stepping now = c.calls s budget stepping now := by
  unfold Controller.calls Controller.turn at *
  cases htask : c.task with
  | none => exact ⟨rfl, rfl⟩
  | some task =>
    rw [htask] at h
    obtain ⟨hrun, hcalls⟩ := (c.progress task s).run_into h
    have hprogress : c.progress task t = (c.progress task s).into t := rfl
    refine ⟨?_, hcalls⟩
    simp only [Controller.progress] at hrun hprogress ⊢
    rw [hprogress, hrun]
    rfl

end Turns

end Engine
end Switchyard
