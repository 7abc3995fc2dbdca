import Switchyard.Station.Substation

/-!
# Histories of a substation

An `Action` is anything that can be done to a substation from outside, and a
`History` is the list of everything that has been done to a blank one, the
latest first. Each `Event` of a history keeps the substation it met, so what an
action answered, and what was in force at the time, can be read off.

Nothing is assumed of the times of a history: they may even run backwards.

* `Action`, `act`: the actions and their answers.
* `Event`, `present`, `History`: what has happened, and where it has led.
-/

namespace Switchyard.Substation

/-- What can be done to a substation. -/
inductive Action where
  | write (path : String) (value : Scalar)
  | select (path client : String)
  | operate (path : String) (value : Scalar) (client : String)
  | cancel (path : String)
  | takeUpdates
  | addPublisher (ref : String) (config : Goose.Config) (dataset : List String)
  | removePublisher (ref : String)
  | enablePublisher (ref : String) (enabled : Bool)
  | configurePublisher (ref : String) (config : Goose.Config)
  | setDataset (ref : String) (dataset : List String)
  | transmit
  | serveModbus (unit : UInt8) (request : Modbus.Request)
  /-- Puts any other data model in the place of the present one, behind the back of the publishers. -/
  | replaceModel (model : DataModel)
  | equip (interlock : Interlock) (bindings : List BreakerBinding)

/-- What an action answers. -/
inductive Answer where
  | done
  | changed (changed : Bool)
  | control (result : Except Refusal Unit)
  | updates (updates : List ControlUpdate)
  | frames (frames : List Goose.Frame)
  | response (response : Modbus.Response)

/-- What an action at a time answers, and the substation after it. -/
def act (s : Substation) (now : Millis) : Action → Answer × Substation
  | .write path value => (.changed (s.model.changes path value), s.writeAttribute path value now)
  | .select path client => (s.select path client now).map .control id
  | .operate path value client => (s.operate path value client now).map .control id
  | .cancel path => (.control (.ok ()), s.cancel path)
  | .takeUpdates => s.takeUpdates.map .updates id
  | .addPublisher ref config dataset => (.done, s.addPublisher ref config dataset now)
  | .removePublisher ref => (.changed (s.publishers.contains ref), s.removePublisher ref)
  | .enablePublisher ref enabled => (.changed (s.publishers.contains ref), s.enablePublisher ref enabled)
  | .configurePublisher ref config =>
    (.changed (s.publishers.contains ref), s.configurePublisher ref config now)
  | .setDataset ref dataset => (.changed (s.publishers.contains ref), s.setDataset ref dataset now)
  | .transmit => (s.transmit now).map .frames id
  | .serveModbus unit request => (s.serveModbus unit request).map .response id
  | .replaceModel model => (.done, { s with model })
  | .equip interlock bindings => (.done, { s with interlock, bindings })

/-- An action at a time, with the substation it met. -/
structure Event where
  before : Substation
  time : Millis
  action : Action

namespace Event

def answer (e : Event) : Answer := (e.before.act e.time e.action).1

def after (e : Event) : Substation := (e.before.act e.time e.action).2

/-- The frames an event has sent. -/
def frames (e : Event) : List Goose.Frame :=
  match e.answer with
  | .frames frames => frames
  | _ => []

end Event

/-- The substation after the events of a history. -/
def present : List Event → Substation
  | [] => blank
  | e :: _ => e.after

/-- **The histories**: the events since a substation was blank, the latest first. -/
inductive History : List Event → Prop
  | start : History []
  | next {past : List Event} (time : Millis) (action : Action) (h : History past) :
      History (⟨present past, time, action⟩ :: past)

theorem History.tail {e : Event} {past : List Event} (h : History (e :: past)) : History past := by
  cases h with
  | next _ _ h => exact h

theorem History.before_eq {e : Event} {past : List Event} (h : History (e :: past)) :
    e.before = present past := by
  cases h with
  | next _ _ h => rfl

/-- What a history has led to has been reached by a history, event by event. -/
theorem History.of_append {newer older : List Event} (h : History (newer ++ older)) : History older := by
  induction newer with
  | nil => exact h
  | cons e newer ih => exact ih h.tail

/-- The history of a list of actions with their times, the latest first. -/
def historyOf : List (Millis × Action) → List Event
  | [] => []
  | (time, action) :: actions => ⟨present (historyOf actions), time, action⟩ :: historyOf actions

/-- Every list of actions is a run. -/
theorem history_historyOf (actions : List (Millis × Action)) : History (historyOf actions) := by
  induction actions with
  | nil => exact .start
  | cons a actions ih => exact ih.next a.1 a.2

/-- **An invariant of substations** that holds of a blank one and is kept by every action holds along
every history. -/
theorem History.invariant {P : Substation → Prop} (hblank : P blank)
    (hact : ∀ s now action, P s → P (s.act now action).2) {past : List Event} (h : History past) :
    P (present past) := by
  induction h with
  | start => exact hblank
  | next time action _ ih => exact hact _ time action ih

end Switchyard.Substation
