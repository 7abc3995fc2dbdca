import Switchyard.Relay.Pending

/-!
# What a relay does to pending requests

Pending requests are answered one by one: the request goes, and the reply goes to
the connection that the request came from, if that is still there. A frame that
holds a request puts a new pending request under its transaction id.

* `Call`: a request as its client knows it, and the reply to it.
* `settles_complete`, `settles_sweep`: which requests an answer and a sweep settle.
* `request_refused`, `request_heard`, `request_unheard`: what a frame leads to.
-/

namespace Switchyard.Relay

open Channel Modbus

/-- A request as its client knows it: the client's connection, the transaction id and the unit id that the
client has chosen, and what is asked for. -/
structure Call where
  connection : ConnectionId
  transaction : UInt16
  unit : UInt8
  request : Request
  deriving DecidableEq, Repr

/-- The reply that brings a response to a call: where it goes, and its bytes. -/
def Call.reply (c : Call) (response : Response) : ConnectionId × Bytes :=
  (c.connection, encodeFrame c.transaction c.unit response.encode)

/-- The call behind a request that is pending under a transaction id. -/
def Pending.call (p : Pending) (transaction : UInt16) : Call := ⟨p.connection, transaction, p.unit, p.request⟩

@[simp] theorem Pending.call_transaction (p : Pending) (t : UInt16) : (p.call t).transaction = t := rfl

@[simp] theorem Output.sent_append (a b : Output) : (a ++ b).sent = a.sent ++ b.sent := rfl

@[simp] theorem Step.fst_next (f g : Step) (r : Relay) : (f.next g r).1 = (f r).1 ++ (g (f r).2).1 := rfl

@[simp] theorem Step.snd_next (f g : Step) (r : Relay) : (f.next g r).2 = (g (f r).2).2 := rfl

section
variable (m : Moment) (transaction : UInt16) (p : Pending) (response : Response) (r : Relay)

@[simp] theorem snd_deliver : (deliver m transaction p response r).2 = r := by
  unfold deliver
  split <;> rfl

theorem sent_deliver : (deliver m transaction p response r).1.sent =
    if r.connections.contains p.connection then [(p.call transaction).reply response] else [] := by
  unfold deliver
  split <;> rfl

end

/-- **The requests under some transaction ids are settled**: they are not pending any more, and exactly they
have got replies, each with the response that belongs to it, and each on its own connection if that is still
there. -/
structure Settles (ids : List UInt16) (response : Request → Response) (r : Relay) (result : Output × Relay) :
    Prop where
  connections : result.2.connections = r.connections
  pending : ∀ t, result.2.pending.get? t = if t ∈ ids then none else r.pending.get? t
  sent : ∀ reply, reply ∈ result.1.sent ↔ ∃ t ∈ ids, ∃ p, r.pending.get? t = some p ∧
    r.connections.contains p.connection = true ∧ reply = (p.call t).reply (response p.request)

variable {ids ids' : List UInt16} {response : Request → Response} {r : Relay} {f g : Step}

theorem settles_nil (response : Request → Response) (r : Relay) : Settles [] response r (∅, r) where
  connections := rfl
  pending t := by simp
  sent reply := by
    have hnone : (∅ : Output).sent = [] := rfl
    simp [hnone]

/-- One after the other: what the first step has settled is not there for the second one. -/
theorem Settles.next (hf : Settles ids response r (f r)) (hg : Settles ids' response (f r).2 (g (f r).2)) :
    Settles (ids ++ ids') response r (f.next g r) where
  connections := hg.connections.trans hf.connections
  pending t := by
    rw [Step.snd_next, hg.pending, hf.pending]
    by_cases h : t ∈ ids <;> by_cases h' : t ∈ ids' <;> simp [h, h']
  sent reply := by
    rw [Step.fst_next, Output.sent_append, List.mem_append, hf.sent, hg.sent, hf.connections]
    constructor
    · rintro (⟨t, ht, hp⟩ | ⟨t, ht, p, hp, hc⟩)
      · exact ⟨t, List.mem_append_left _ ht, hp⟩
      · rw [hf.pending] at hp
        split at hp
        · cases hp
        · exact ⟨t, List.mem_append_right _ ht, p, hp, hc⟩
    · rintro ⟨t, ht, p, hp, hc⟩
      by_cases h : t ∈ ids
      · exact .inl ⟨t, h, p, hp, hc⟩
      · have h' := (List.mem_append.1 ht).resolve_left h
        exact .inr ⟨t, h', p, by rw [hf.pending, if_neg h]; exact hp, hc⟩

/-- A request that is settled is answered if its client is still there, and is pending no more. -/
theorem settles_settle (m : Moment) (t : UInt16) (response : Request → Response) (r : Relay) :
    Settles [t] response r (settle m t response r) := by
  cases h : r.pending.get? t with
  | none =>
    have hnone : (∅ : Output).sent = [] := rfl
    simp only [settle, h]
    refine ⟨rfl, fun t' => ?_, fun reply => by simp [hnone, h]⟩
    by_cases ht : t' = t <;> simp [ht, h]
  | some p =>
    simp only [settle, h]
    refine ⟨by rw [snd_deliver], fun t' => ?_, fun reply => ?_⟩
    · rw [snd_deliver]
      by_cases ht : t' = t
      · simp [ht, SortedMap.get?_erase_self]
      · simp [ht, SortedMap.get?_erase_of_ne _ ht]
    · rw [sent_deliver]
      by_cases hc : r.connections.contains p.connection = true <;> simp [hc, h]

/-- Requests that are settled one after the other are answered each in its turn. -/
theorem settles_all (m : Moment) (ids : List UInt16) (response : Request → Response) (r : Relay) :
    Settles ids response r (Step.all (ids.map fun t => settle m t response) r) := by
  induction ids generalizing r with
  | nil => exact settles_nil response r
  | cons t ids ih => exact (settles_settle m t response r).next (ih _)

/-- **An answer settles the request under its number**, whoever has made that request. -/
theorem settles_complete (m : Moment) (a : Answer) (r : Relay) : Settles [a.id] a.response r (complete m a r) :=
  settles_settle m a.id a.response r

/-- **A sweep settles the requests that are too old**, as failed. -/
theorem settles_sweep (m : Moment) (r : Relay) : Settles (r.expired m) failure r (sweep m r) :=
  settles_all m (r.expired m) failure r

section
variable {result : Output × Relay} (h : Settles ids response r result)
include h

/-- Only what was not settled stays pending. -/
theorem Settles.pending_eq_some {t : UInt16} {p : Pending} :
    result.2.pending.get? t = some p ↔ t ∉ ids ∧ r.pending.get? t = some p := by
  rw [h.pending]
  split <;> simp_all

/-- A request that was pending still is, or the reply to it is on its way, if its client is still there. -/
theorem Settles.kept_or_replied {t : UInt16} {p : Pending} (hp : r.pending.get? t = some p)
    (hc : r.connections.contains p.connection = true) :
    result.2.pending.get? t = some p ∨ (p.call t).reply (response p.request) ∈ result.1.sent := by
  by_cases ht : t ∈ ids
  · exact .inr ((h.sent _).2 ⟨t, ht, p, hp, hc, rfl⟩)
  · exact .inl (h.pending_eq_some.2 ⟨ht, hp⟩)

end

/-- The call that a frame on a connection makes, if it holds a request. -/
def callOf (id : ConnectionId) (frame : Frame) : Option Call :=
  (Request.decode frame.pdu).toOption.map (⟨id, frame.header.transaction, frame.header.unit, ·⟩)

/-- A frame that holds no request makes no call. -/
theorem callOf_error {id : ConnectionId} {frame : Frame} {e : DecodeError}
    (h : Request.decode frame.pdu = .error e) : callOf id frame = none := by
  simp [callOf, h, Except.toOption]

theorem callOf_ok {id : ConnectionId} {frame : Frame} {request : Request}
    (h : Request.decode frame.pdu = .ok request) :
    callOf id frame = some ⟨id, frame.header.transaction, frame.header.unit, request⟩ := by
  simp [callOf, h, Except.toOption]

/-- A frame that makes no call holds no request. -/
theorem decode_of_callOf_eq_none {id : ConnectionId} {frame : Frame} (h : callOf id frame = none) :
    ∃ e, Request.decode frame.pdu = .error e := by
  cases hdecode : Request.decode frame.pdu with
  | error e => exact ⟨e, rfl⟩
  | ok request => simp [callOf_ok hdecode] at h

section
variable (heard : Bool) (m : Moment) (id : ConnectionId) (c : Connection) (frame : Frame) (r : Relay)

/-- A frame that holds no request is refused on its own connection, and the relay stays as it is. -/
theorem request_refused {e : DecodeError} (h : Request.decode frame.pdu = .error e) :
    (request heard m id c frame r).2 = r ∧ (request heard m id c frame r).1.sent =
      [(id, encodeFrame frame.header.transaction frame.header.unit e.response.encode)] := by
  simp only [request, h]
  exact ⟨rfl, rfl⟩

variable {id frame} {call : Call} (h : callOf id frame = some call)
include h

/-- A request that is heard is pending from then on, in place of any older one with the same transaction id. -/
theorem request_heard : ∃ p : Pending, p.call call.transaction = call ∧ (request true m id c frame r).1.sent = [] ∧
    (request true m id c frame r).2 = { r with pending := r.pending.insert call.transaction p } := by
  cases hdecode : Request.decode frame.pdu with
  | error e => simp [callOf_error hdecode] at h
  | ok request =>
    rw [callOf_ok hdecode, Option.some.injEq] at h
    subst h
    refine ⟨⟨request, frame.header.unit, c.address.label, id, m.elapsed⟩, rfl, ?_⟩
    simp only [Relay.request, hdecode]
    exact ⟨rfl, rfl⟩

/-- A request that nobody hears is settled at once, as failed. -/
theorem request_unheard : ∃ p : Pending, p.call call.transaction = call ∧
    Settles [call.transaction] failure { r with pending := r.pending.insert call.transaction p }
      (request false m id c frame r) := by
  cases hdecode : Request.decode frame.pdu with
  | error e => simp [callOf_error hdecode] at h
  | ok request =>
    rw [callOf_ok hdecode, Option.some.injEq] at h
    subst h
    let p : Pending := ⟨request, frame.header.unit, c.address.label, id, m.elapsed⟩
    have hsettled := settles_settle m frame.header.transaction failure
      { r with pending := r.pending.insert frame.header.transaction p }
    refine ⟨p, rfl, ?_⟩
    simp only [Relay.request, hdecode]
    exact ⟨hsettled.connections, hsettled.pending, hsettled.sent⟩

end

end Switchyard.Relay
