import Switchyard.Proofs.Engine.RunState
import Switchyard.Proofs.Script.Effects
import Switchyard.Proofs.Station.Freshness

/-!
# What engines do to a substation

Seen from the substation, a tick is a stretch of its history (`tick_history`): noise
and programs set coils and registers, programs write attributes, the publishers send
what is due, and the updates are taken (`OfTick`). So whatever holds along histories
holds of a substation that is run by an engine.

* `Passes`: one substation becomes another one by events of a tick.
* `Kept`, `Kept.related_turns`: a relation of substations that programs keep to holds over the turns of a tick.
* `mirrors_tick`: publishers stay coherent with the data model in a tick.
-/

namespace Switchyard.Engine

open Script Goose Substation

/-- **What happens to a substation in a tick**: a program writes an attribute, coils and registers are set, frames
are sent, or the updates are taken. -/
inductive OfTick (now : Millis) (y : Event) : Prop
  | written (path : String) (value : Scalar) (ht : y.time = now) (ha : y.action = .write path value)
  | points (model : DataModel) (ht : y.time = now) (ha : y.action = .replaceModel model)
      (hsame : model.attributes = y.before.model.attributes)
  | sent (ht : y.time = now) (ha : y.action = .transmit)
  | taken (ht : y.time = now) (ha : y.action = .takeUpdates)

variable {now : Millis} {y : Event} {s s' s'' : Substation} {past : List Event} {ref : String} {p p' : Publisher}

theorem OfTick.writesOnly (h : OfTick now y) : y.WritesOnly := by
  intro model hmodel
  cases h with
  | points model' _ ha hsame =>
    obtain rfl : model' = model := Action.replaceModel.inj (ha.symm.trans hmodel)
    exact hsame
  | written _ _ _ ha | sent _ ha | taken _ ha => exact nomatch ha.symm.trans hmodel

/-- Nothing that happens in a tick enables or disables a publisher. -/
theorem OfTick.enabled (h : OfTick now y) (hp' : y.after.publishers.get? ref = some p') :
    ∃ p, y.before.publishers.get? ref = some p ∧ p.enabled = p'.enabled := by
  obtain ⟨s, time, action⟩ := y
  cases h with
  | written path value _ ha =>
    obtain rfl : action = .write path value := ha
    obtain ⟨p, hp, rfl⟩ := Option.map_eq_some_iff.1 ((s.get?_writeAttribute path value time ref).symm.trans hp')
    refine ⟨p, hp, ?_⟩
    split
    · rcases p.observe_cases path value time with ⟨-, stored, -, hq⟩ | ⟨-, hq⟩
      · rw [hq]; rfl
      · rw [hq]
    · rfl
  | sent _ ha =>
    obtain rfl : action = .transmit := ha
    obtain ⟨p, hp, rfl⟩ := Option.map_eq_some_iff.1 ((s.get?_transmit time ref).symm.trans hp')
    refine ⟨p, hp, ?_⟩
    unfold Publisher.tick
    split <;> rfl
  | points model _ ha _ =>
    obtain rfl : action = .replaceModel model := ha
    exact ⟨p', hp', rfl⟩
  | taken _ ha =>
    obtain rfl : action = .takeUpdates := ha
    exact ⟨p', hp', rfl⟩

/-- **A substation becomes another one by events of a tick**, whatever has led to it. -/
def Passes (now : Millis) (s s' : Substation) : Prop :=
  ∀ past, History past → present past = s →
    ∃ newer, History (newer ++ past) ∧ present (newer ++ past) = s' ∧ ∀ y ∈ newer, OfTick now y

namespace Passes

theorem refl (s : Substation) : Passes now s s := fun _ h hs => ⟨[], h, hs, nofun⟩

theorem trans (h : Passes now s s') (h' : Passes now s' s'') : Passes now s s'' := by
  intro past hpast hs
  obtain ⟨first, hfirst, hs', hin⟩ := h past hpast hs
  obtain ⟨second, hsecond, hs'', hin'⟩ := h' (first ++ past) hfirst hs'
  refine ⟨second ++ first, by rwa [List.append_assoc], by rwa [List.append_assoc], fun y hy => ?_⟩
  exact (List.mem_append.1 hy).elim (hin' y) (hin y)

/-- One event of a tick. -/
theorem act {action : Action} (h : OfTick now ⟨s, now, action⟩) : Passes now s (s.act now action).2 := by
  rintro past hpast rfl
  exact ⟨[⟨present past, now, action⟩], hpast.next now action, rfl, fun y hy => List.mem_singleton.1 hy ▸ h⟩

/-- Coils and registers are set. -/
theorem points {model : DataModel} (h : model.attributes = s.model.attributes) : Passes now s { s with model } :=
  act (.points model rfl rfl h)

end Passes

/-- **A relation of substations that controllers keep to**: setting coils and registers and writing an attribute
lead to related substations. -/
structure Kept (now : Millis) (R : Substation → Substation → Prop) : Prop where
  refl (s : Substation) : R s s
  trans {s t u : Substation} (h : R s t) (h' : R t u) : R s u
  points (s : Substation) (model : DataModel) (h : model.attributes = s.model.attributes) : R s { s with model }
  write (s : Substation) (path : String) (value : Scalar) : R s (s.writeAttribute path value now)

theorem kept_passes (now : Millis) : Kept now (Passes now) where
  refl := .refl
  trans := .trans
  points _ _ h := .points h
  write _ path value := .act (.written path value rfl rfl)

theorem Progress.substation_arrive (p : Progress) (line : UInt32) (now : Millis) :
    (p.arrive line now).2.substation = p.substation := by
  simp only [arrive]
  split <;> rfl

namespace Kept

variable {R : Substation → Substation → Prop} (h : Kept now R)

include h

/-- The device of a controller does nothing else to the substation. -/
theorem keepsTo_reach (profile : String) :
    (reach profile now).KeepsTo fun around around' => R around.substation around'.substation where
  refl _ := h.refl _
  trans := h.trans
  readInput _ _ := h.refl _
  readRegister _ _ := h.refl _
  writeCoil _ _ _ := h.points _ _ (DataModel.attributes_modifyProfile _ _ _)
  writeRegister _ _ _ := h.points _ _ (DataModel.attributes_modifyProfile _ _ _)
  getDA _ _ := h.refl _
  setDA path value around := h.write around.substation path value
  log _ _ _ := h.refl _

theorem related_step (p : Progress) : R p.substation (p.step now).2.substation :=
  (h.keepsTo_reach p.controller.profile).related_step p.execution p.scope ⟨p.substation, p.controller.logs⟩

theorem related_run (stepping : Bool) (budget : ℕ) (p : Progress) :
    R p.substation (p.run stepping now budget).2.substation := by
  induction budget generalizing p with
  | zero => exact h.refl _
  | succ budget ih =>
    have hstep := h.related_step p
    rw [Progress.run]
    rcases hs : p.step now with ⟨_ | line | _, q⟩
    all_goals rw [hs] at hstep
    · exact hstep
    · have hq : R p.substation (q.arrive line now).2.substation := by rwa [Progress.substation_arrive]
      simp only
      split
      · exact hq
      · exact h.trans hq (ih _)
    · exact hstep

theorem related_controllerTurn (c : Controller) (s : Substation) (budget : ℕ) (stepping : Bool) :
    R s (c.turn s budget stepping now).2.2 := by
  unfold Controller.turn
  cases c.task with
  | none => exact h.refl s
  | some t => exact h.related_run stepping budget ⟨t.execution.getD (.start t.program), t.scope, c, s⟩

theorem related_turn (e : Engine) (id : String) : R e.substation (e.turn id now).2.substation := by
  have hcontroller (c : Controller) {ending c' substation}
      (hturn : c.turn e.substation e.settings.statementBudget (e.stepping id) now = (ending, c', substation)) :
      R e.substation substation := by
    have hrelated := h.related_controllerTurn c e.substation e.settings.statementBudget (e.stepping id)
    rwa [hturn] at hrelated
  cases hresult : e.turn id now
  have hcases := turn_cases e id now
  rw [hresult] at hcases
  cases hcases with
  | passed => exact h.refl _
  | went _ _ hturn | paused _ _ hturn | failed _ _ hturn => exact hcontroller _ hturn

/-- **The turns of a tick lead to related substations.** -/
theorem related_turns (ids : List String) (e : Engine) : R e.substation (e.turns now ids).2.substation := by
  induction ids generalizing e with
  | nil => exact h.refl _
  | cons id ids ih =>
    have hturn := h.related_turn e id
    rw [turns]
    split
    · rename_i e' hresult
      rw [hresult] at hturn
      exact h.trans hturn (ih e')
    · exact hturn

end Kept

/-- Noise writes input registers only, whatever is drawn. -/
theorem attributes_perturb (g : Generator) (words : ℕ → UInt64) (targets : List NoiseTarget) (m : DataModel)
    (drawn : ℕ) : (perturb g words targets m drawn).1.attributes = m.attributes := by
  induction targets generalizing m drawn with
  | nil => rfl
  | cons t targets ih =>
    have ht : (t.apply g words m drawn).1.attributes = m.attributes := by
      unfold NoiseTarget.apply
      split <;> exact m.attributes_modifyProfile _ _
    exact (ih _ _).trans ht

theorem attributes_applyNoises (noises : List Noise) (m : DataModel) :
    (applyNoises noises m).1.attributes = m.attributes := by
  induction noises generalizing m with
  | nil => rfl
  | cons n noises ih => exact (ih _).trans (attributes_perturb _ _ _ _ _)

theorem passes_prepared (e : Engine) (now : Millis) : Passes now e.substation (e.prepared now).substation := by
  have hnoise : Passes now e.substation { e.substation with model := (applyNoises e.noises e.substation.model).1 } :=
    .points (attributes_applyNoises e.noises e.substation.model)
  exact hnoise.trans ((Passes.act (.sent rfl rfl)).trans (Passes.act (.taken rfl rfl)))

/-- **A tick is a stretch of the history of the substation.** -/
theorem tick_history (e : Engine) (now : Millis) (h : History past) (hpresent : present past = e.substation) :
    ∃ newer, History (newer ++ past) ∧ present (newer ++ past) = (e.tick now).2.substation ∧
      ∀ y ∈ newer, OfTick now y := by
  have hprepared := passes_prepared e now
  by_cases hrun : e.run = .running
  · rw [(tick_of_running hrun now).1]
    exact (hprepared.trans ((kept_passes now).related_turns e.controllers.keys (e.prepared now))) past h hpresent
  · rw [tick_of_not_running hrun now]
    exact hprepared past h hpresent

/-- A publisher is as enabled in a tick as it was before it. -/
theorem enabled_before {newer : List Event} (h : History (newer ++ past)) (htick : ∀ y ∈ newer, OfTick now y)
    (hp' : (present (newer ++ past)).publishers.get? ref = some p') :
    ∃ p, (present past).publishers.get? ref = some p ∧ p.enabled = p'.enabled := by
  induction newer generalizing p' with
  | nil => exact ⟨p', hp', rfl⟩
  | cons y newer ih =>
    obtain ⟨hy, htick⟩ := List.forall_mem_cons.1 htick
    obtain ⟨q, hq, hon⟩ := hy.enabled hp'
    obtain ⟨p, hp, hon'⟩ := ih h.tail htick (h.before_eq ▸ hq)
    exact ⟨p, hp, hon'.trans hon⟩

/-- **Publishers stay coherent with the data model while an engine runs.** A publisher that has been enabled ever
since it read its dataset mirrors the data model after a tick as well, whatever the programs have written. -/
theorem mirrors_tick (e : Engine) {between older : List Event} {d : Event} (h : History (between ++ d :: older))
    (hd : d.Snapshots ref) (hwrites : ∀ y ∈ between, y.WritesOnly)
    (hon : ∀ y ∈ between, ∀ q, y.before.publishers.get? ref = some q → q.enabled = true)
    (hpresent : present (between ++ d :: older) = e.substation)
    (hnow : ∀ q, e.substation.publishers.get? ref = some q → q.enabled = true)
    (hp' : (e.tick now).2.substation.publishers.get? ref = some p') :
    Mirrors p'.members (e.tick now).2.substation.model := by
  obtain ⟨newer, hnewer, hafter, htick⟩ := tick_history e now h hpresent
  rw [← List.append_assoc] at hnewer hafter
  rw [← hafter] at hp' ⊢
  refine mirrors_of_enabled hnewer hd ?_ ?_ hp'
  · intro y hy
    exact (List.mem_append.1 hy).elim (fun hin => (htick y hin).writesOnly) (hwrites y)
  · intro y hy q hq
    rcases List.mem_append.1 hy with hin | hin
    · -- between the start of the tick and the event there are events of the tick only
      obtain ⟨later, earlier, rfl⟩ := List.append_of_mem hin
      rw [List.append_assoc, List.append_assoc, List.cons_append] at hnewer
      have hy := hnewer.of_append
      rw [hy.before_eq] at hq
      obtain ⟨q', hq', hsame⟩ := enabled_before hy.tail (fun z hz => htick z (by simp [hz])) hq
      rw [← hsame]
      exact hnow q' (hpresent ▸ hq')
    · exact hon y hin q hq

end Switchyard.Engine
