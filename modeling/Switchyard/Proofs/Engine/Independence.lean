import Switchyard.Proofs.Engine.DeviceCalls
import Switchyard.Proofs.Engine.Executed

/-!
# Turns that do not depend on each other

Two turns of which neither writes what the other one reads or writes can be taken in either order: each comes to the
same end and leaves its controller as it does alone, and both lead to one substation (`independent_turns_commute`). An
id that has no profile names the default one, so points are told apart by the places of profiles. Publishers are written
by both turns and may burst in both.

* `Apart`: calls of two devices that do not disturb each other; `effects_comm`: such calls in either order.
* `turn_after_apart`: a turn after an independent one.
* `Independent`, `turns_perm`: independent controllers in a tick.
-/

namespace Switchyard

namespace Script.DeviceCall

/-- A call writes nothing that another one reads or writes. -/
def Spares (place : Option String) (call : DeviceCall) (place' : Option String) (other : DeviceCall) : Prop :=
  ∀ d ∈ call.writes place, d ∉ other.reads place' ∧ d ∉ other.writes place'

instance (place place' : Option String) (call other : DeviceCall) : Decidable (call.Spares place place' other) :=
  inferInstanceAs (Decidable (∀ d ∈ call.writes place, d ∉ other.reads place' ∧ d ∉ other.writes place'))

end Script.DeviceCall

namespace Engine

open Script

/-- **Calls of two devices do not disturb each other**: none of them writes what one of the others reads or writes. -/
def Apart (place : Option String) (calls : List DeviceCall) (place' : Option String) (others : List DeviceCall) :
    Prop :=
  ∀ call ∈ calls, ∀ other ∈ others, call.Spares place place' other ∧ other.Spares place' place call

instance (place place' : Option String) (calls others : List DeviceCall) :
    Decidable (Apart place calls place' others) :=
  inferInstanceAs (Decidable
    (∀ call ∈ calls, ∀ other ∈ others, call.Spares place place' other ∧ other.Spares place' place call))

section Calls

variable {profile profile' : String} {now : Millis} {call other : DeviceCall} {calls others : List DeviceCall}
  {s : Substation} {logs logs' : List LogEntry}

theorem Apart.symm {place place' : Option String} (h : Apart place calls place' others) :
    Apart place' others place calls := fun other hother call hcall => (h call hcall other hother).symm

/-- **Two calls commute** if one of them does not write what the other one writes. -/
theorem effect_comm (now : Millis) (h : call.Spares (s.model.place profile) (s.model.place profile') other) :
    effect profile' now other (effect profile now call s) = effect profile now call (effect profile' now other s) := by
  rcases effect_cases profile now (s.model.place profile) call with ⟨-, hsame⟩ | ⟨d, value, hd, hputs⟩
  · rw [hsame, hsame]
  · rcases effect_cases profile' now (s.model.place profile') other with ⟨-, hsame⟩ | ⟨d', value', hd', hputs'⟩
    · rw [hsame, hsame]
    · have hne : d' ≠ d := by
        rintro rfl
        exact (h d' (by rw [hd]; exact List.mem_singleton_self d')).2 (by rw [hd']; exact List.mem_singleton_self d')
      exact (hputs s rfl).comm (hputs' _ (place_effect ..)) (hputs' s rfl) (hputs _ (place_effect ..)) hne

/-- A call is answered as before after one that does not write what it reads. -/
theorem answers_effect_iff (h : call.Spares (s.model.place profile) (s.model.place profile') other) :
    (reach profile' now).Answers other ⟨effect profile now call s, logs⟩ ↔
      (reach profile' now).Answers other ⟨s, logs'⟩ := by
  refine answers_congr (place_effect ..) (fun d' hd' => ?_) logs logs'
  rcases effect_cases profile now (s.model.place profile) call with ⟨-, hsame⟩ | ⟨d, value, hd, hputs⟩
  · rw [hsame]
  · refine (hputs s rfl).datum?_of_ne ?_
    rintro rfl
    exact (h d' (by rw [hd]; exact List.mem_singleton_self d')).1 hd'

/-- One call and several that it does not disturb, in either order. -/
theorem effects_effect (now : Millis)
    (h : ∀ other ∈ others, call.Spares (s.model.place profile) (s.model.place profile') other) :
    effects profile' now others (effect profile now call s) = effect profile now call (effects profile' now others s) ∧
      (Answered profile' now others (effect profile now call s) ↔ Answered profile' now others s) := by
  induction others generalizing s with
  | nil => exact ⟨rfl, Iff.rfl⟩
  | cons other others ih =>
    obtain ⟨hother, hothers⟩ := List.forall_mem_cons.1 h
    obtain ⟨hcomm, hanswered⟩ := ih (s := effect profile' now other s) (by rwa [place_effect, place_effect])
    have hfirst := effect_comm now hother
    refine ⟨?_, by rw [answered_cons, answered_cons, hfirst, hanswered, answers_effect_iff hother]⟩
    calc effects profile' now (other :: others) (effect profile now call s)
        = effects profile' now others (effect profile now call (effect profile' now other s)) :=
          congrArg (effects profile' now others) hfirst
      _ = effect profile now call (effects profile' now (other :: others) s) := hcomm

/-- **Calls that do not disturb each other**, in either order: they do the same, and what is answered does not depend
on the order. -/
theorem effects_comm (h : Apart (s.model.place profile) calls (s.model.place profile') others) :
    effects profile' now others (effects profile now calls s) =
        effects profile now calls (effects profile' now others s) ∧
      (Answered profile' now others (effects profile now calls s) ↔ Answered profile' now others s) := by
  induction calls generalizing s with
  | nil => exact ⟨rfl, Iff.rfl⟩
  | cons call calls ih =>
    obtain ⟨hcall, hcalls⟩ := List.forall_mem_cons.1 h
    obtain ⟨hcomm, hanswered⟩ := ih (s := effect profile now call s) (by rwa [place_effect, place_effect])
    obtain ⟨hfirst, hfirstAnswered⟩ := effects_effect now fun other hother => (hcall other hother).1
    refine ⟨?_, hanswered.trans hfirstAnswered⟩
    calc effects profile' now others (effects profile now (call :: calls) s)
        = effects profile now calls (effects profile' now others (effect profile now call s)) := hcomm
      _ = effects profile now (call :: calls) (effects profile' now others s) :=
          congrArg (effects profile now calls) hfirst

end Calls

section Turns

variable {c d : Controller} {s : Substation} {budget : ℕ} {stepping stepping' : Bool} {now : Millis}

/-- **A turn after an independent one** comes to the same end, leaves the same controller and makes the same calls. -/
theorem turn_after_apart
    (h : Apart (s.model.place c.profile) (c.calls s budget stepping now)
      (s.model.place d.profile) (d.calls s budget stepping' now)) :
    let after := (c.turn s budget stepping now).2.2
    (d.turn after budget stepping' now).1 = (d.turn s budget stepping' now).1 ∧
      (d.turn after budget stepping' now).2.1 = (d.turn s budget stepping' now).2.1 ∧
      (d.turn after budget stepping' now).2.2 = effects d.profile now (d.calls s budget stepping' now)
        (effects c.profile now (c.calls s budget stepping now) s) ∧
      d.calls after budget stepping' now = d.calls s budget stepping' now := by
  intro after
  have hafter : after = effects c.profile now (c.calls s budget stepping now) s :=
    (turn_calls c s budget stepping now).2
  have hanswered := (effects_comm h).2.2 (turn_calls d s budget stepping' now).1
  rw [← hafter] at hanswered ⊢
  obtain ⟨hturn, hcalls⟩ := turn_of_answered hanswered
  rw [hturn]
  exact ⟨rfl, rfl, rfl, hcalls⟩

/-- It does not matter whether the calls of the second turn are looked at before or after the first one. -/
theorem apart_of_apart_after
    (h : Apart (s.model.place c.profile) (c.calls s budget stepping now)
      (s.model.place d.profile) (d.calls (c.turn s budget stepping now).2.2 budget stepping' now)) :
    Apart (s.model.place c.profile) (c.calls s budget stepping now)
      (s.model.place d.profile) (d.calls s budget stepping' now) := by
  obtain ⟨-, hafter⟩ := turn_calls c s budget stepping now
  have hanswered := (turn_calls d (c.turn s budget stepping now).2.2 budget stepping' now).1
  rw [hafter] at hanswered h
  rw [(turn_of_answered ((effects_comm h).2.1 hanswered)).2]
  exact h

/-- Two independent turns lead to one substation in either order. -/
theorem substation_of_apart
    (h : Apart (s.model.place c.profile) (c.calls s budget stepping now)
      (s.model.place d.profile) (d.calls s budget stepping' now)) :
    (d.turn (c.turn s budget stepping now).2.2 budget stepping' now).2.2 =
      (c.turn (d.turn s budget stepping' now).2.2 budget stepping now).2.2 := by
  rw [(turn_after_apart h).2.2.1, (turn_after_apart h.symm).2.2.1]
  exact (effects_comm h).1

end Turns

section Ticks

variable {e e₁ e₂ e' : Engine} {id other : String} {c d : Controller} {now : Millis} {ids ids' : List String}

/-- The controller that gets a turn, if it is there and has one to take. -/
def runner? (e : Engine) (id : String) (now : Millis) : Option Controller :=
  (e.controllers.get? id).filter fun c => c.enabled && (c.due now || e.stepping id)

/-- What a controller makes of its turn. -/
def taken (e : Engine) (c : Controller) (id : String) (now : Millis) : TurnEnd × Controller × Substation :=
  c.turn e.substation e.settings.statementBudget (e.stepping id) now

/-- The calls of a controller in its turn. -/
def turnCalls (e : Engine) (c : Controller) (id : String) (now : Millis) : List DeviceCall :=
  c.calls e.substation e.settings.statementBudget (e.stepping id) now

/-- **Two controllers are independent** at a time: neither writes in its turn what the other one reads or writes. -/
def Independent (e : Engine) (now : Millis) (id other : String) : Prop :=
  ∀ c ∈ e.runner? id now, ∀ d ∈ e.runner? other now,
    Apart (e.substation.model.place c.profile) (e.turnCalls c id now)
      (e.substation.model.place d.profile) (e.turnCalls d other now)

instance (e : Engine) (now : Millis) (id other : String) : Decidable (e.Independent now id other) :=
  inferInstanceAs (Decidable (∀ c ∈ e.runner? id now, ∀ d ∈ e.runner? other now,
    Apart (e.substation.model.place c.profile) (e.turnCalls c id now)
      (e.substation.model.place d.profile) (e.turnCalls d other now)))

/-- The engine after a turn that does not interrupt the tick. -/
def passOn (e : Engine) (id : String) (result : TurnEnd × Controller × Substation) : Engine :=
  { e with controllers := e.controllers.insert id result.2.1, substation := result.2.2 }

theorem Independent.symm (h : e.Independent now id other) : e.Independent now other id :=
  fun d hd c hc => (h c hc d hd).symm

theorem turn_of_runner_none (h : e.runner? id now = none) : e.turn id now = (.none, e) := by
  unfold turn
  cases hc : e.controllers.get? id with
  | none => rfl
  | some c =>
    rw [runner?, hc, Option.filter_some] at h
    simp only
    split
    · rename_i hgoes
      rw [if_pos hgoes] at h
      cases h
    · rfl

/-- A turn goes on unless it ends in a pause or an error. -/
theorem turn_of_runner (h : e.runner? id now = some c) :
    e.turn id now = (.none, e') ↔ (∀ line, (e.taken c id now).1 ≠ .paused line) ∧
      (∀ err, (e.taken c id now).1 ≠ .failed err) ∧ e' = e.passOn id (e.taken c id now) := by
  obtain ⟨hc, hgoes⟩ := Option.filter_eq_some_iff.1 h
  unfold turn
  simp only [hc, if_pos hgoes]
  rw [show c.turn e.substation e.settings.statementBudget (e.stepping id) now = e.taken c id now from rfl]
  rcases hresult : e.taken c id now with ⟨ending, c', s'⟩
  cases ending <;> simp [passOn, eq_comm]

/-- Other controllers have the same turns to take after a turn that does not interrupt the tick. -/
theorem runner?_of_turn (h : e.turn id now = (.none, e')) (hne : other ≠ id) :
    e'.runner? other now = e.runner? other now := by
  have hbeside := beside_turn h
  rw [runner?, runner?, hbeside.controllers other fun hmem => hne (List.mem_singleton.1 hmem), hbeside.stepping]

/-- After a turn that does not interrupt the tick, an independent controller comes to the same end in its turn, makes
the same calls, and it finds its profile in the same place. -/
theorem taken_passOn (h : Apart (e.substation.model.place c.profile) (e.turnCalls c id now)
    (e.substation.model.place d.profile) (e.turnCalls d other now)) :
    let e' := e.passOn id (e.taken c id now)
    (e'.taken d other now).1 = (e.taken d other now).1 ∧ (e'.taken d other now).2.1 = (e.taken d other now).2.1 ∧
      e'.turnCalls d other now = e.turnCalls d other now ∧
      ∀ profile, e'.substation.model.place profile = e.substation.model.place profile := by
  intro e'
  obtain ⟨hend, hleft, -, hcalls⟩ := turn_after_apart h
  refine ⟨hend, hleft, hcalls, fun profile => ?_⟩
  have hsubstation : e'.substation = (e.taken c id now).2.2 := rfl
  rw [hsubstation, taken, (turn_calls c _ _ _ now).2, place_effects]

/-- **Two independent turns that do not interrupt the tick**, in either order. -/
theorem turn_comm (hid : other ≠ id) (h : e.Independent now id other) (h₁ : e.turn id now = (.none, e₁))
    (h₂ : e.turn other now = (.none, e₂)) : ∃ e₃, e₁.turn other now = (.none, e₃) ∧ e₂.turn id now = (.none, e₃) := by
  cases hc : e.runner? id now with
  | none =>
    obtain rfl : e = e₁ := congrArg Prod.snd ((turn_of_runner_none hc).symm.trans h₁)
    exact ⟨e₂, h₂, turn_of_runner_none ((runner?_of_turn h₂ (Ne.symm hid)).trans hc)⟩
  | some c =>
    cases hd : e.runner? other now with
    | none =>
      obtain rfl : e = e₂ := congrArg Prod.snd ((turn_of_runner_none hd).symm.trans h₂)
      exact ⟨e₁, turn_of_runner_none ((runner?_of_turn h₁ hid).trans hd), h₁⟩
    | some d =>
      have hapart := h c hc d hd
      have hd' := (runner?_of_turn h₁ hid).trans hd
      have hc' := (runner?_of_turn h₂ (Ne.symm hid)).trans hc
      obtain ⟨hpause, hfail, rfl⟩ := (turn_of_runner hc).1 h₁
      obtain ⟨hpause', hfail', rfl⟩ := (turn_of_runner hd).1 h₂
      obtain ⟨hend, hleft, -, -⟩ := taken_passOn hapart
      obtain ⟨hend', hleft', -, -⟩ := taken_passOn hapart.symm
      refine ⟨_, (turn_of_runner hd').2 ⟨by rwa [hend], by rwa [hend], rfl⟩,
        (turn_of_runner hc').2 ⟨by rwa [hend'], by rwa [hend'], ?_⟩⟩
      simp only [passOn] at hleft hleft' ⊢
      rw [hleft, hleft', SortedMap.insert_comm _ _ _ (Ne.symm hid)]
      exact congrArg (fun substation => ({ e with controllers := _, substation } : Engine)) (substation_of_apart hapart)

/-- Controllers that are independent of one that has had its turn are as independent of each other as before. -/
theorem independent_of_turn (hturn : e.turn id now = (.none, e')) {i j : String} (hi : i ≠ id) (hj : j ≠ id)
    (hidi : e.Independent now id i) (hidj : e.Independent now id j) (h : e.Independent now i j) :
    e'.Independent now i j := by
  intro ci hci cj hcj
  rw [runner?_of_turn hturn hi] at hci
  rw [runner?_of_turn hturn hj] at hcj
  cases hc : e.runner? id now with
  | none =>
    obtain rfl : e = e' := congrArg Prod.snd ((turn_of_runner_none hc).symm.trans hturn)
    exact h ci hci cj hcj
  | some c =>
    obtain ⟨-, -, rfl⟩ := (turn_of_runner hc).1 hturn
    obtain ⟨-, -, hcallsi, hplace⟩ := taken_passOn (hidi c hc ci hci)
    obtain ⟨-, -, hcallsj, -⟩ := taken_passOn (hidj c hc cj hcj)
    rw [hcallsi, hcallsj, hplace, hplace]
    exact h ci hci cj hcj

theorem turns_cons_of_none (h : e.turn id now = (.none, e')) (ids : List String) :
    e.turns now (id :: ids) = e'.turns now ids := by
  rw [turns, h]

/-- **The order of independent controllers in a tick cannot be observed** if none of them interrupts it. -/
theorem turns_perm (hperm : ids.Perm ids') (hnodup : ids.Nodup) (hgoes : ∀ id ∈ ids, (e.turn id now).1 = .none)
    (h : ids.Pairwise (e.Independent now)) : e.turns now ids = e.turns now ids' := by
  have hturn (e : Engine) (id : String) (h : (e.turn id now).1 = .none) : e.turn id now = (.none, (e.turn id now).2) :=
    Prod.ext h rfl
  -- A permutation is made of exchanges of neighbours, and each of them is an exchange of two turns.
  induction hperm generalizing e with
  | nil => rfl
  | @cons id ids ids' _ ih =>
    obtain ⟨hid, hids⟩ := List.forall_mem_cons.1 hgoes
    obtain ⟨hnot, hnodup⟩ := List.nodup_cons.1 hnodup
    obtain ⟨hfirst, hrest⟩ := List.pairwise_cons.1 h
    have hne {i : String} (hi : i ∈ ids) : i ≠ id := fun heq => hnot (heq ▸ hi)
    rw [turns_cons_of_none (hturn e id hid), turns_cons_of_none (hturn e id hid)]
    refine ih hnodup (fun i hi => ?_) ?_
    · obtain ⟨e₃, hlater, -⟩ := turn_comm (hne hi) (hfirst i hi) (hturn e id hid) (hturn e i (hids i hi))
      rw [hlater]
    -- The turns that are left are still independent behind the first one.
    · refine hrest.imp_of_mem fun {i j} hi hj hij => ?_
      exact independent_of_turn (hturn e id hid) (hne hi) (hne hj) (hfirst i hi) (hfirst j hj) hij
  | swap id other ids =>
    have hother := hgoes other List.mem_cons_self
    have hid := hgoes id (List.mem_cons_of_mem _ List.mem_cons_self)
    have hne : id ≠ other := fun heq => (List.nodup_cons.1 hnodup).1 (by simp [heq])
    have hindependent := (List.pairwise_cons.1 h).1 id List.mem_cons_self
    obtain ⟨e₃, hlater, hlater'⟩ := turn_comm hne hindependent (hturn e other hother) (hturn e id hid)
    rw [turns_cons_of_none (hturn e other hother), turns_cons_of_none hlater, turns_cons_of_none (hturn e id hid),
      turns_cons_of_none hlater']
  | @trans ids middle ids' hperm _ ih ih' =>
    refine (ih hnodup hgoes h).trans (ih' (hperm.nodup_iff.1 hnodup) (fun id hid => hgoes id (hperm.mem_iff.2 hid)) ?_)
    exact (hperm.pairwise_iff fun h => h.symm).1 h

end Ticks

/-- **Independent turns commute.** Take two controllers of which neither writes in its turn what the other one reads or
writes, whether the calls of the second turn are looked at before or after the first one. In either order each turn
comes to the same end and leaves its controller as it does alone, and both leave one substation. So the order in which
a tick gives independent controllers their turns cannot be observed, unless one of them interrupts the tick. -/
theorem independent_turns_commute :
    (∀ (c d : Controller) (s : Substation) (budget : ℕ) (stepping stepping' : Bool) (now : Millis),
      let one := c.turn s budget stepping now
      let two := d.turn s budget stepping' now
      let thenTwo := d.turn one.2.2 budget stepping' now
      let thenOne := c.turn two.2.2 budget stepping now
      Apart (s.model.place c.profile) (c.calls s budget stepping now)
          (s.model.place d.profile) (d.calls s budget stepping' now) ∨
        Apart (s.model.place c.profile) (c.calls s budget stepping now)
          (s.model.place d.profile) (d.calls one.2.2 budget stepping' now) →
      thenTwo.1 = two.1 ∧ thenTwo.2.1 = two.2.1 ∧ thenOne.1 = one.1 ∧ thenOne.2.1 = one.2.1 ∧
        thenTwo.2.2 = thenOne.2.2) ∧
    ∀ (e e' : Engine) (now : Millis) (first ids ids' later : List String), e.turns now first = (.none, e') →
      ids.Perm ids' → ids.Nodup → ids.Pairwise (e'.Independent now) → (∀ id ∈ ids, (e'.turn id now).1 = .none) →
      e.turns now (first ++ (ids ++ later)) = e.turns now (first ++ (ids' ++ later)) := by
  constructor
  · intro c d s budget stepping stepping' now one two thenTwo thenOne happart
    have h : Apart (s.model.place c.profile) (c.calls s budget stepping now)
        (s.model.place d.profile) (d.calls s budget stepping' now) := happart.elim id apart_of_apart_after
    obtain ⟨hend, hleft, -, -⟩ := turn_after_apart h
    obtain ⟨hend', hleft', -, -⟩ := turn_after_apart h.symm
    exact ⟨hend, hleft, hend', hleft', substation_of_apart h⟩
  · intro e e' now first ids ids' later hfirst hperm hnodup hindependent hgoes
    rw [turns_append, turns_append, hfirst]
    simp only
    rw [turns_append, turns_append, turns_perm hperm hnodup hgoes hindependent]

/-- A program that sets a coil and writes an attribute. -/
def writing (coil : Int64) (path : String) : Program where
  source := ""
  vars := []
  body := [.call 1 .writeCoil [.literal (.int coil), .literal (.bool true)],
    .call 2 .setDA [.literal (.text path), .literal (.int coil)]]

/-- A controller with such a program. -/
def writer (id profile : String) (coil : Int64) (path : String) : Controller :=
  { Controller.ofConfig ⟨id, none, profile, true, none⟩ 100 4 with
    task := some ⟨writing coil path, ⟨[], none⟩, none⟩ }

/-- Two controllers, one on a profile that does not exist and one on the default profile, and a publisher of the
attributes that they write. -/
def twoWriters : Engine :=
  { new .standard with
    substation := Substation.blank.addPublisher "g" ⟨1, 1, 10, 1000, "d"⟩ ["p", "q"] 0
    controllers := .ofList [("a", writer "a" "nowhere" 1 "p"), ("b", writer "b" "default" 2 "q")]
    run := .running }

/-- Their turns lead to one engine in either order; the publisher bursts twice and shows both attributes. -/
theorem independent_turns_commute_burst :
    let c := writer "a" "nowhere" 1 "p"
    let d := writer "b" "default" 2 "q"
    let s := twoWriters.substation
    Apart (s.model.place c.profile) (c.calls s 9 false 5) (s.model.place d.profile) (d.calls s 9 false 5) ∧
      (d.turn (c.turn s 9 false 5).2.2 9 false 5).2.2 = (c.turn (d.turn s 9 false 5).2.2 9 false 5).2.2 ∧
      twoWriters.turns 5 ["a", "b"] = twoWriters.turns 5 ["b", "a"] ∧
      ((twoWriters.turns 5 ["b", "a"]).2.substation.publishers.get? "g").map (fun p => (p.stNum, p.members)) =
        some (3, [⟨"p", .int 1⟩, ⟨"q", .int 2⟩]) := by
  intro c d s
  obtain ⟨hturns, hticks⟩ := independent_turns_commute
  have hapart : Apart (s.model.place c.profile) (c.calls s 9 false 5)
      (s.model.place d.profile) (d.calls s 9 false 5) := by decide +kernel
  have hindependent : ["a", "b"].Pairwise (twoWriters.Independent 5) := by decide +kernel
  have hgoes : ∀ id ∈ ["a", "b"], (twoWriters.turn id 5).1 = .none := by decide +kernel
  obtain ⟨-, -, -, -, hsame⟩ := hturns c d s 9 false false 5 (.inl hapart)
  refine ⟨hapart, hsame, ?_, by decide +kernel⟩
  exact hticks twoWriters twoWriters 5 [] ["a", "b"] ["b", "a"] [] rfl (.swap "b" "a" []) (by decide) hindependent hgoes

end Engine
end Switchyard
