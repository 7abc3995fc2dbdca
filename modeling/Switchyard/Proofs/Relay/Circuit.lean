import Switchyard.Proofs.Relay.Settling
import Switchyard.Relay.Control
import Switchyard.Relay.Traffic

/-!
# Circuits

A `Circuit` is a relay together with an engine that answers its commands. Frames of
any number of clients, answers of the engine and sweeps come in any order; an answer
may come long after the request has been swept. A `History` is the list of all that
has happened to an idle circuit, the latest first.

* `Action`, `act`: what can happen to a circuit.
* `Event`, `present`, `History`: what has happened, and where it has led.
* `effect`: all that an event can do to pending requests, to the calls that wait for
  the engine, and to clients.
-/

namespace Switchyard.Relay

open Channel Modbus

/-- A relay, and the calls that wait for the engine: their commands have been heard, and have not been
answered yet. -/
structure Circuit where
  relay : Relay
  waiting : List Call

/-- A relay that has just been started. -/
def Circuit.idle : Circuit := ⟨Relay.new .standard, []⟩

/-- What can happen to a circuit. -/
inductive Action where
  /-- A frame comes in on a connection, and the engine hears of it or does not. -/
  | frame (heard : Bool) (moment : Moment) (connection : ConnectionId) (frame : Frame)
  /-- The engine answers the command of a call. -/
  | answer (moment : Moment) (call : Call) (answer : Answer)
  | sweep (moment : Moment)
  /-- Whatever leaves the pending requests alone: clients come and go, listeners change. -/
  | rewire (relay : Relay)

namespace Circuit

/-- What goes out when something happens, and the circuit after it. The engine answers each command once,
under its number, and frames come in on connections that exist. -/
def act (s : Circuit) : Action → Output × Circuit
  | .frame heard m connection frame =>
    match s.relay.connections.get? connection with
    | none => (∅, s)
    | some c =>
      let result := request heard m connection c frame s.relay
      (result.1, ⟨result.2, if heard then (callOf connection frame).toList ++ s.waiting else s.waiting⟩)
  | .answer m call a =>
    if call ∈ s.waiting ∧ a.id = call.transaction then
      let result := complete m a s.relay
      (result.1, ⟨result.2, s.waiting.erase call⟩)
    else (∅, s)
  | .sweep m =>
    let result := sweep m s.relay
    (result.1, { s with relay := result.2 })
  | .rewire relay => (∅, { s with relay := { relay with pending := s.relay.pending } })

end Circuit

theorem Step.pending_all {steps : List Step} (h : ∀ f ∈ steps, ∀ r, (f r).2.pending = r.pending) (r : Relay) :
    (Step.all steps r).2.pending = r.pending := by
  induction steps generalizing r with
  | nil => rfl
  | cons f steps ih =>
    have hrest := ih (fun g hg => h g (List.mem_cons_of_mem _ hg)) (f r).2
    exact hrest.trans (h f List.mem_cons_self r)

theorem pending_bindAdapter (host : Host) (ip : String) (r : Relay) :
    (bindAdapter host ip r).2.pending = r.pending := by
  refine Step.pending_all (fun f hf r => ?_) _
  obtain ⟨p, -, rfl⟩ := List.mem_map.1 hf
  rfl

theorem pending_register (host : Host) (r : Relay) : (register host r).2.pending = r.pending := by
  simp only [register]
  split
  · refine Step.pending_all (fun f hf r => ?_) _
    obtain ⟨p, -, rfl⟩ := List.mem_map.1 hf
    rfl
  · rfl

/-- **Of all messages, only the answers to commands touch pending requests.** -/
theorem pending_handle (host : Host) (m : Moment) {message : Message} (h : ∀ a, message ≠ .modbusResponse a)
    (r : Relay) : (handle host m message r).2.pending = r.pending := by
  cases message with
  | modbusResponse a => exact absurd rfl (h a)
  | bindAdapter ip => exact pending_bindAdapter host ip r
  | _ => rfl

theorem pending_accept {host : Host} {p : Protocol} {ip : String} {r r' : Relay} {id : ConnectionId}
    (h : accept host p ip r = .ok (id, r')) : r'.pending = r.pending := by
  unfold accept at h
  split at h
  · split at h
    · cases h
    · split at h
      · cases h
      · cases h
        rfl
  · cases h

/-- Something that happens, with the circuit it meets. -/
structure Event where
  before : Circuit
  action : Action

namespace Event

def output (e : Event) : Output := (e.before.act e.action).1

def after (e : Event) : Circuit := (e.before.act e.action).2

/-- The replies that clients get. -/
def sent (e : Event) : List (ConnectionId × Bytes) := e.output.sent

/-- The call that comes in. -/
def arrival? (e : Event) : Option Call :=
  match e.action with
  | .frame _ _ connection frame =>
    if e.before.relay.connections.contains connection then callOf connection frame else none
  | _ => none

/-- A frame on a connection is refused because it holds no request. -/
def Refuses (e : Event) (connection : ConnectionId) : Prop :=
  ∃ heard m frame error, e.action = .frame heard m connection frame ∧ Request.decode frame.pdu = .error error

/-- The engine answers the command of a call. -/
structure Answers (e : Event) (call : Call) (a : Answer) : Prop where
  action : ∃ m, e.action = .answer m call a
  waits : call ∈ e.before.waiting
  number : a.id = call.transaction

end Event

/-- The circuit after the events of a history. -/
def present : List Event → Circuit
  | [] => .idle
  | e :: _ => e.after

/-- **The histories**: the events since a circuit was idle, the latest first. -/
inductive History : List Event → Prop
  | start : History []
  | next {past : List Event} (action : Action) (h : History past) : History (⟨present past, action⟩ :: past)

theorem History.tail {e : Event} {past : List Event} (h : History (e :: past)) : History past := by
  cases h with
  | next _ h => exact h

theorem History.before_eq {e : Event} {past : List Event} (h : History (e :: past)) : e.before = present past := by
  cases h with
  | next _ h => rfl

/-- The history of a list of things that happen, the latest first. -/
def historyOf : List Action → List Event
  | [] => []
  | action :: actions => ⟨present (historyOf actions), action⟩ :: historyOf actions

/-- Every list of things that happen is a run. -/
theorem history_historyOf (actions : List Action) : History (historyOf actions) := by
  induction actions with
  | nil => exact .start
  | cons action actions ih => exact ih.next action

/-- **All that an event can do** to pending requests, to the calls that wait for the engine, and to clients. -/
inductive Effect (e : Event) : Prop
  /-- Nothing, but that it may refuse a frame. -/
  | unrelated (hpending : e.after.relay.pending = e.before.relay.pending)
      (hwaiting : e.after.waiting = e.before.waiting) (hsent : ∀ reply ∈ e.sent, e.Refuses reply.1)
      (harrival : e.arrival? = none)
  /-- A request comes in and is passed on to the engine. -/
  | heard (p : Pending) (t : UInt16) (harrival : e.arrival? = some (p.call t)) (hsent : e.sent = [])
      (hpending : e.after.relay.pending = e.before.relay.pending.insert t p)
      (hwaiting : e.after.waiting = p.call t :: e.before.waiting)
  /-- A request comes in and fails at once. -/
  | unheard (p : Pending) (t : UInt16) (harrival : e.arrival? = some (p.call t))
      (hsettles : Settles [t] failure { e.before.relay with pending := e.before.relay.pending.insert t p }
        (e.output, e.after.relay))
      (hwaiting : e.after.waiting = e.before.waiting)
  /-- The engine answers a command. -/
  | answered (call : Call) (a : Answer) (h : e.Answers call a)
      (hsettles : Settles [call.transaction] a.response e.before.relay (e.output, e.after.relay))
      (hwaiting : e.after.waiting = e.before.waiting.erase call)
  /-- Requests that are too old fail. -/
  | swept (ids : List UInt16) (hsettles : Settles ids failure e.before.relay (e.output, e.after.relay))
      (hwaiting : e.after.waiting = e.before.waiting)

theorem effect_of_nothing {e : Event} (hact : e.before.act e.action = (∅, e.before)) (harrival : e.arrival? = none) :
    Effect e := by
  have hafter : e.after = e.before := by rw [Event.after, hact]
  have hsent : e.sent = [] := by
    rw [Event.sent, Event.output, hact]
    rfl
  exact .unrelated (by rw [hafter]) (by rw [hafter]) (by simp [hsent]) harrival

/-- A frame on a connection that exists. -/
theorem effect_frame (s : Circuit) (heard : Bool) (m : Moment) {connection : ConnectionId} {c : Connection}
    (hc : s.relay.connections.get? connection = some c) (frame : Frame) :
    Effect ⟨s, .frame heard m connection frame⟩ := by
  have hact : s.act (.frame heard m connection frame) =
      ((request heard m connection c frame s.relay).1, ⟨(request heard m connection c frame s.relay).2,
        if heard then (callOf connection frame).toList ++ s.waiting else s.waiting⟩) := by
    simp only [Circuit.act, hc]
  have harrival : Event.arrival? ⟨s, .frame heard m connection frame⟩ = callOf connection frame := by
    simp [Event.arrival?, SortedMap.contains, hc]
  -- A frame holds no request and is refused, or its request is heard or not.
  cases hcall : callOf connection frame with
  | none =>
    obtain ⟨error, hdecode⟩ := decode_of_callOf_eq_none hcall
    obtain ⟨hrelay, hsent⟩ := request_refused heard m connection c frame s.relay hdecode
    refine .unrelated ?_ ?_ (fun reply hreply => ?_) (harrival.trans hcall)
    · simp only [Event.after, hact, hrelay]
    · cases heard <;> simp [Event.after, hact, hcall]
    · simp only [Event.sent, Event.output, hact, hsent, List.mem_singleton] at hreply
      subst hreply
      exact ⟨heard, m, frame, error, rfl, hdecode⟩
  | some call =>
    cases heard with
    | true =>
      obtain ⟨p, hp, hsent, hrelay⟩ := request_heard m c s.relay hcall
      refine .heard p call.transaction ?_ ?_ ?_ ?_
      · rw [harrival, hcall, hp]
      · simp only [Event.sent, Event.output, hact, hsent]
      · simp only [Event.after, hact, hrelay]
      · simp [Event.after, hact, hcall, hp]
    | false =>
      obtain ⟨p, hp, hsettles⟩ := request_unheard m c s.relay hcall
      refine .unheard p call.transaction ?_ ?_ ?_
      · rw [harrival, hcall, hp]
      · simp only [Event.output, Event.after, hact]
        exact hsettles
      · simp [Event.after, hact]

theorem effect (e : Event) : Effect e := by
  obtain ⟨s, action⟩ := e
  cases action with
  | frame heard m connection frame =>
    cases hc : s.relay.connections.get? connection with
    | none =>
      refine effect_of_nothing ?_ ?_
      · simp only [Circuit.act, hc]
      · simp [Event.arrival?, SortedMap.contains, hc]
    | some c => exact effect_frame s heard m hc frame
  | answer m call a =>
    by_cases h : call ∈ s.waiting ∧ a.id = call.transaction
    · have hact : s.act (.answer m call a) =
          ((complete m a s.relay).1, ⟨(complete m a s.relay).2, s.waiting.erase call⟩) := if_pos h
      have hsettles := settles_complete m a s.relay
      rw [h.2] at hsettles
      refine .answered call a ⟨⟨m, rfl⟩, h.1, h.2⟩ ?_ ?_
      · simp only [Event.output, Event.after, hact]
        exact hsettles
      · simp only [Event.after, hact]
    · exact effect_of_nothing (if_neg h) rfl
  | sweep m => exact .swept _ (settles_sweep m s.relay) rfl
  | rewire relay => exact .unrelated rfl rfl (fun reply hreply => nomatch hreply) rfl

end Switchyard.Relay
