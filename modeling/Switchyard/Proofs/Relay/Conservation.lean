import Mathlib.Data.List.Nodup
import Switchyard.Proofs.Modbus.Framing
import Switchyard.Proofs.Relay.Correlation

/-!
# Conservation of requests

Requests, answers and sweeps put requests into one table and take them out of it, in
any order, and clients may use a transaction id again while a request is held under it.
No request is lost or answered twice. The table holds the requests that have been passed
on and are neither answered nor swept nor replaced; and each request is either held,
or there has been one reply to it -- or none, if its client has gone
(`requests_conserved`).

* `replyTo?`, `sent_all`: the replies that settle requests, in order.
* `Action`, `Event`, `History`: what can happen to the table, one step at a time.
* `Fate`, `fate`: all that an event can do under one transaction id.
* `pending_iff`: which requests are held.
* `Account`, `account`: what has become of a request.
* `Conserved`: what holds at each moment of a run.
-/

namespace Switchyard.Relay

open Channel Modbus

variable {r : Relay} {t u : UInt16} {p : Pending} {ids : List UInt16} {response : Request → Response}

/-- What the client of the request under a transaction id gets when the request is settled, if it is still there. -/
def replyTo? (r : Relay) (response : Request → Response) (t : UInt16) : Option (ConnectionId × Bytes) :=
  (r.pending.get? t).bind fun p =>
    if r.connections.contains p.connection then some ((p.call t).reply (response p.request)) else none

/-- Settling a request sends its reply, if there is someone to send it to. -/
theorem sent_settle (m : Moment) (t : UInt16) (response : Request → Response) (r : Relay) :
    (settle m t response r).1.sent = (r.replyTo? response t).toList := by
  rw [settle, replyTo?]
  cases r.pending.get? t with
  | none => rfl
  | some p =>
    simp only [sent_deliver, Option.bind_some]
    split <;> rfl

/-- Requests under different ids are settled without regard to each other. -/
theorem replyTo?_settle (m : Moment) (hu : u ≠ t) :
    (settle m t response r).2.replyTo? response u = r.replyTo? response u := by
  have hsettles := settles_settle m t response r
  have hpending := hsettles.pending u
  rw [if_neg (by simpa using hu)] at hpending
  rw [replyTo?, replyTo?, hpending, hsettles.connections]

/-- **Requests are settled one by one**, each as it was pending at first. -/
theorem sent_all (m : Moment) (hids : ids.Nodup) (response : Request → Response) (r : Relay) :
    (Step.all (ids.map fun t => settle m t response) r).1.sent = ids.filterMap (r.replyTo? response) := by
  induction ids generalizing r with
  | nil => rfl
  | cons t ids ih =>
    obtain ⟨ht, hids⟩ := List.nodup_cons.1 hids
    -- the first request is not among the rest, so it does not matter to them that it is gone
    have hrest : ids.filterMap ((settle m t response r).2.replyTo? response) = ids.filterMap (r.replyTo? response) :=
      List.filterMap_congr fun u hu => replyTo?_settle m (ne_of_mem_of_not_mem hu ht)
    rw [List.map_cons, Step.all, Step.fst_next, Output.sent_append, sent_settle, ih hids, hrest, List.filterMap_cons]
    cases r.replyTo? response t <;> rfl

theorem nodup_expired (r : Relay) (m : Moment) : (r.expired m).Nodup := by
  have hascending := (r.pending.filter fun _ p => isExpired r.settings m p).ascending
  rw [expired, SortedMap.keys, List.Nodup, List.pairwise_map]
  refine hascending.imp fun hlt heq => ?_
  rw [heq, Std.ReflOrd.compare_self] at hlt
  cases hlt

/-- The requests that a sweep settles. -/
theorem mem_expired {m : Moment} : t ∈ r.expired m ↔ ∃ p, r.pending.get? t = some p ∧ isExpired r.settings m p := by
  simp only [expired, SortedMap.keys, SortedMap.filter, List.mem_map, List.mem_filter]
  constructor
  · rintro ⟨⟨u, p⟩, ⟨hmem, hold⟩, rfl⟩
    exact ⟨p, SortedMap.get?_of_mem hmem, hold⟩
  · rintro ⟨p, hp, hold⟩
    exact ⟨(t, p), ⟨SortedMap.mem_of_get? hp, hold⟩, rfl⟩

/-- **The replies of a sweep**: the requests that are too old fail, one reply for each whose client is still there. -/
theorem sent_sweep (m : Moment) (r : Relay) : (sweep m r).1.sent =
    (r.pending.entries.filter fun x => isExpired r.settings m x.2 && r.connections.contains x.2.connection).map
      fun x => (x.2.call x.1).reply (failure x.2.request) := by
  rw [sweep, sent_all m (nodup_expired r m), expired, SortedMap.keys, SortedMap.filter, List.filterMap_map,
    List.filterMap_filter, ← List.filterMap_eq_map, List.filterMap_filter]
  refine List.filterMap_congr fun x hx => ?_
  -- an entry is what a lookup of its transaction id finds
  have hreply : r.replyTo? failure x.1 =
      if r.connections.contains x.2.connection then some ((x.2.call x.1).reply (failure x.2.request)) else none := by
    rw [replyTo?, SortedMap.get?_of_mem hx]
    rfl
  simp only [Function.comp_apply, hreply, Bool.and_eq_true]
  split <;> simp_all

/-- A reply bears a transaction id. -/
def bears (t : UInt16) (reply : ConnectionId × Bytes) : Bool :=
  (Header.decode? reply.2).any fun h => h.transaction == t

theorem bears_reply (c : Call) (response : Response) : bears t (c.reply response) = (c.transaction == t) := by
  rw [bears, Call.reply, encodeFrame, Header.decode?_encode]
  rfl

/-- A reply bears the number of its request. -/
theorem transaction_of_replyTo? {reply : ConnectionId × Bytes} (h : r.replyTo? response u = some reply) :
    bears t reply = (u == t) := by
  obtain ⟨p, -, hreply⟩ := Option.bind_eq_some_iff.1 h
  split at hreply <;> cases hreply
  exact bears_reply _ _

/-- **Among the replies to several requests**, the one to the request under a transaction id is the only one that
bears it. -/
theorem filter_replies (hids : ids.Nodup) : (ids.filterMap (r.replyTo? response)).filter (bears t) =
    if t ∈ ids then (r.replyTo? response t).toList else [] := by
  induction ids with
  | nil => rfl
  | cons u ids ih =>
    obtain ⟨hu, hids⟩ := List.nodup_cons.1 hids
    have hrest := ih hids
    rw [List.filterMap_cons]
    by_cases hut : u = t
    · subst hut
      rw [if_neg hu] at hrest
      rw [if_pos List.mem_cons_self]
      cases hreply : r.replyTo? response u with
      | none => exact hrest
      | some reply => simp [transaction_of_replyTo? hreply, hrest]
    · have hmem : t ∈ u :: ids ↔ t ∈ ids := by simp [Ne.symm hut]
      simp only [hmem]
      cases hreply : r.replyTo? response u with
      | none => exact hrest
      | some reply => simp [transaction_of_replyTo? hreply, hut, hrest]

namespace Wire

/-- What can happen to a relay. -/
inductive Action where
  /-- A frame comes in on a connection, and some control client hears of it or none does. -/
  | frame (heard : Bool) (moment : Moment) (connection : ConnectionId) (frame : Frame)
  /-- An answer to a command comes in, under any number. -/
  | answer (moment : Moment) (answer : Answer)
  | sweep (moment : Moment)
  /-- Whatever leaves the pending requests alone: clients come and go, listeners change. -/
  | rewire (relay : Relay)

/-- What goes out when something happens, and the relay after it. Frames come in on connections that exist. -/
def act (r : Relay) : Action → Output × Relay
  | .frame heard m connection frame =>
    match r.connections.get? connection with
    | none => (∅, r)
    | some c => request heard m connection c frame r
  | .answer m a => complete m a r
  | .sweep m => Relay.sweep m r
  | .rewire relay => (∅, { relay with pending := r.pending })

/-- Something that happens, with the relay it meets. -/
structure Event where
  before : Relay
  action : Action

namespace Event

def after (e : Event) : Relay := (act e.before e.action).2

/-- What goes to clients. -/
def sent (e : Event) : List (ConnectionId × Bytes) := (act e.before e.action).1.sent

/-- A request that comes in: its transaction id, and how it is held. -/
def arrival? (e : Event) : Option (UInt16 × Pending) :=
  match e.action with
  | .frame _ m connection frame =>
    match e.before.connections.get? connection, Request.decode frame.pdu with
    | some c, .ok request =>
      some (frame.header.transaction, ⟨request, frame.header.unit, c.address.label, connection, m.elapsed⟩)
    | _, _ => none
  | _ => none

/-- Some control client hears of the frame that comes in. -/
def Heard (e : Event) : Prop := ∃ m connection frame, e.action = .frame true m connection frame

/-- A request comes in and is passed on. -/
structure Forwards (e : Event) (t : UInt16) (p : Pending) : Prop where
  arrival : e.arrival? = some (t, p)
  heard : e.Heard

/-- **A request that is held is held no longer**: an answer comes in under its transaction id, it is swept, or
another request comes in under its transaction id. -/
inductive Ends (e : Event) (t : UInt16) (p : Pending) : Prop
  | answered (m a) (ha : e.action = .answer m a) (ht : a.id = t)
  | swept (m) (ha : e.action = .sweep m) (hold : isExpired e.before.settings m p = true)
  | replaced (q) (harrival : e.arrival? = some (t, q))

/-- A frame comes in that holds no request. It is refused. -/
def refuses (e : Event) : Bool :=
  match e.action with
  | .frame _ _ _ frame => (Request.decode frame.pdu).toOption.isNone
  | _ => false

/-- The replies to requests under a transaction id. Refusals of frames that hold no request are none. -/
def replies (e : Event) (t : UInt16) : List (ConnectionId × Bytes) := if e.refuses then [] else e.sent.filter (bears t)

end Event

/-- The relay after the events of a history. -/
def present : List Event → Relay
  | [] => Relay.new .standard
  | e :: _ => e.after

/-- **The histories**: the events since a relay was started, the latest first. -/
inductive History : List Event → Prop
  | start : History []
  | next {past : List Event} (action : Action) (h : History past) : History (⟨present past, action⟩ :: past)

theorem History.tail {e : Event} {past : List Event} (h : History (e :: past)) : History past := by
  cases h with
  | next _ h => exact h

/-- Each action finds the relay as the one before has left it. -/
theorem History.before_eq {e : Event} {past : List Event} (h : History (e :: past)) : e.before = present past := by
  cases h with
  | next _ h => rfl

/-- The history of a list of things that happen, the latest first. -/
def historyOf : List Action → List Event
  | [] => []
  | action :: actions => ⟨present (historyOf actions), action⟩ :: historyOf actions

/-- Every list of things that happen is a run. -/
theorem history_of_actions (actions : List Action) : History (historyOf actions) := by
  induction actions with
  | nil => exact .start
  | cons action actions ih => exact ih.next action

/-- **All that an event can do under one transaction id.** -/
inductive Fate (e : Event) (t : UInt16) : Prop
  /-- Nothing. -/
  | unrelated (harrival : ∀ p, e.arrival? ≠ some (t, p)) (hends : ∀ p, e.before.pending.get? t = some p → ¬ e.Ends t p)
      (hpending : e.after.pending.get? t = e.before.pending.get? t) (hreplies : e.replies t = [])
  /-- A request comes in, is passed on and held. -/
  | held (p : Pending) (h : e.Forwards t p) (hpending : e.after.pending.get? t = some p) (hreplies : e.replies t = [])
  /-- A request comes in, and fails at once. -/
  | failed (p : Pending) (harrival : e.arrival? = some (t, p)) (hheard : ¬ e.Heard)
      (hpending : e.after.pending.get? t = none) (hreplies : e.replies t = [(p.call t).reply (failure p.request)])
  /-- The request that is held is answered or swept. -/
  | settled (p : Pending) (hbefore : e.before.pending.get? t = some p) (harrival : e.arrival? = none)
      (hends : e.Ends t p) (hpending : e.after.pending.get? t = none) (response : Request → Response)
      (hreplies : e.replies t = (e.before.replyTo? response t).toList)

variable {e : Event} {past newer older : List Event}

/-- Nothing has come in under the transaction id, and nothing has ended what is held under it. -/
theorem fate_unrelated (hafter : e.after.pending.get? t = e.before.pending.get? t) (hreplies : e.replies t = [])
    (harrival : ∀ p, e.arrival? ≠ some (t, p)) (hanswered : ∀ m a, e.action = .answer m a → a.id ≠ t)
    (hswept : ∀ m, e.action = .sweep m → t ∉ e.before.expired m) : Fate e t := by
  refine .unrelated harrival (fun p hp hends => ?_) hafter hreplies
  cases hends with
  | answered m a ha ht => exact hanswered m a ha ht
  | swept m ha hold => exact hswept m ha (mem_expired.2 ⟨p, hp, hold⟩)
  | replaced q hq => exact harrival q hq

/-- A frame on a connection that exists, and that holds a request. -/
theorem exists_of_arrival (h : e.arrival? = some (t, p)) : ∃ heard m frame c,
    e.action = .frame heard m p.connection frame ∧ e.before.connections.get? p.connection = some c ∧
      Request.decode frame.pdu = .ok p.request ∧ t = frame.header.transaction ∧
      p = ⟨p.request, frame.header.unit, c.address.label, p.connection, m.elapsed⟩ := by
  obtain ⟨r, action⟩ := e
  cases action with
  | frame heard m connection frame =>
    simp only [Event.arrival?] at h
    split at h
    · rename_i c request hc hdecode
      cases h
      exact ⟨heard, m, frame, c, rfl, hc, hdecode, rfl, rfl⟩
    · cases h
  | answer _ _ | sweep _ | rewire _ => cases h

/-- A request that is passed on is held, in place of any older one under its transaction id. -/
theorem after_of_forwards (h : e.Forwards t p) :
    e.sent = [] ∧ e.after = { e.before with pending := e.before.pending.insert t p } := by
  obtain ⟨heard, m, frame, c, ha, hc, hdecode, ht, hp⟩ := exists_of_arrival h.arrival
  obtain ⟨m', connection', frame', ha'⟩ := h.heard
  obtain ⟨rfl, -⟩ := Action.frame.inj (ha.symm.trans ha')
  simp only [Event.sent, Event.after, ha, act, hc, request, hdecode]
  rw [hp, ht]
  exact ⟨rfl, rfl⟩

/-- A request that nobody hears of fails at once, and takes the place of any older one under its transaction id. -/
theorem after_of_unheard (harrival : e.arrival? = some (t, p)) (hheard : ¬ e.Heard) :
    e.sent = [(p.call t).reply (failure p.request)] ∧
      ∀ u, e.after.pending.get? u = if u = t then none else e.before.pending.get? u := by
  obtain ⟨heard, m, frame, c, ha, hc, hdecode, ht, hp⟩ := exists_of_arrival harrival
  obtain rfl : heard = false := by
    refine Bool.eq_false_iff.2 ?_
    rintro rfl
    exact hheard ⟨m, p.connection, frame, ha⟩
  -- it is held for a moment, and settled
  let held : Relay := { e.before with pending := e.before.pending.insert t p }
  have hsettled : (act e.before e.action).1.sent = (settle m t failure held).1.sent ∧
      e.after = (settle m t failure held).2 := by
    simp only [Event.after, ha, act, hc, request, hdecode, held]
    rw [hp, ht]
    exact ⟨rfl, rfl⟩
  have hconnected : held.connections.contains p.connection = true := by simp [SortedMap.contains, held, hc]
  constructor
  · rw [Event.sent, hsettled.1, sent_settle, replyTo?, SortedMap.get?_insert_self, Option.bind_some, if_pos hconnected]
    rfl
  · intro u
    rw [hsettled.2, (settles_settle m t failure held).pending]
    by_cases hu : u = t
    · simp [hu]
    · simp [hu, held, SortedMap.get?_insert_of_ne]

/-- A request that arrives is not refused. -/
theorem refuses_of_arrival (h : e.arrival? = some (t, p)) : e.refuses = false := by
  obtain ⟨heard, m, frame, c, ha, -, hdecode, -⟩ := exists_of_arrival h
  simp [Event.refuses, ha, hdecode, Except.toOption]

/-- A frame that holds no request, or comes in on no connection, changes nothing. -/
theorem fate_frame_of_no_arrival {heard : Bool} {m : Moment} {connection : ConnectionId} {frame : Frame}
    (ha : e.action = .frame heard m connection frame) (harrival : e.arrival? = none) : Fate e t := by
  have hnothing : e.after = e.before ∧ e.replies t = [] := by
    cases hc : e.before.connections.get? connection with
    | none =>
      have hempty : (∅ : Output).sent = [] := rfl
      simp [Event.after, Event.replies, Event.sent, ha, act, hc, hempty]
    | some c =>
      cases hdecode : Request.decode frame.pdu with
      | ok request => simp [Event.arrival?, ha, hc, hdecode] at harrival
      | error error =>
        obtain ⟨hrelay, -⟩ := request_refused heard m connection c frame e.before hdecode
        simp [Event.after, Event.replies, Event.refuses, ha, act, hc, hrelay, hdecode, Except.toOption]
  refine fate_unrelated (by rw [hnothing.1]) hnothing.2 (by simp [harrival]) ?_ ?_ <;> simp [ha]

/-- A request comes in, under this transaction id or another one. -/
theorem fate_arrival (harrival : e.arrival? = some (u, p)) : Fate e t := by
  have hreplies : e.replies t = e.sent.filter (bears t) := by
    rw [Event.replies, refuses_of_arrival harrival, if_neg Bool.false_ne_true]
  have hother (ht : t ≠ u) (hafter : e.after.pending.get? t = e.before.pending.get? t) (hnone : e.replies t = []) :
      Fate e t := by
    obtain ⟨_, _, _, _, ha, -⟩ := exists_of_arrival harrival
    refine fate_unrelated hafter hnone (fun q hq => ?_) (by simp [ha]) (by simp [ha])
    exact ht (congrArg Prod.fst (Option.some.inj (harrival.symm.trans hq))).symm
  by_cases hheard : e.Heard
  · obtain ⟨hsent, hafter⟩ := after_of_forwards ⟨harrival, hheard⟩
    rw [hsent] at hreplies
    by_cases ht : t = u
    · subst ht
      exact .held p ⟨harrival, hheard⟩ (by rw [hafter]; exact SortedMap.get?_insert_self ..) hreplies
    · exact hother ht (by rw [hafter]; exact SortedMap.get?_insert_of_ne _ _ ht) hreplies
  · obtain ⟨hsent, hafter⟩ := after_of_unheard harrival hheard
    rw [hsent, List.filter_singleton, bears_reply, Pending.call_transaction] at hreplies
    by_cases ht : t = u
    · subst ht
      exact .failed p harrival hheard (by rw [hafter, if_pos rfl]) (by simpa using hreplies)
    · rw [beq_eq_false_iff_ne.2 (Ne.symm ht)] at hreplies
      exact hother ht (by rw [hafter, if_neg ht]) hreplies

/-- Some requests are settled in the same way, those under the transaction id among them or not. -/
theorem fate_settled (hids : ids.Nodup) (harrival : e.arrival? = none) (hrefuses : e.refuses = false)
    (hsettles : Settles ids response e.before (act e.before e.action))
    (hsent : e.sent = ids.filterMap (e.before.replyTo? response))
    (hends : ∀ p, e.before.pending.get? t = some p → (t ∈ ids ↔ e.Ends t p)) : Fate e t := by
  have hreplies : e.replies t = if t ∈ ids then (e.before.replyTo? response t).toList else [] := by
    rw [Event.replies, hrefuses, if_neg Bool.false_ne_true, hsent, filter_replies hids]
  have hafter : e.after.pending.get? t = if t ∈ ids then none else e.before.pending.get? t := hsettles.pending t
  have hnothing : ∀ p, e.arrival? ≠ some (t, p) := by simp [harrival]
  by_cases ht : t ∈ ids
  · rw [if_pos ht] at hreplies hafter
    cases hp : e.before.pending.get? t with
    | none =>
      -- an answer under a number that no request is held under
      refine .unrelated hnothing (fun p hp' => ?_) (hafter.trans hp.symm) ?_
      · rw [hp] at hp'
        cases hp'
      · rw [hreplies, replyTo?, hp]
        rfl
    | some p => exact .settled p hp harrival ((hends p hp).1 ht) hafter response hreplies
  · rw [if_neg ht] at hreplies hafter
    exact .unrelated hnothing (fun p hp hends' => ht ((hends p hp).2 hends')) hafter hreplies

theorem fate_answer (r : Relay) (m : Moment) (a : Answer) (t : UInt16) : Fate ⟨r, .answer m a⟩ t := by
  refine fate_settled (List.nodup_singleton a.id) rfl rfl (settles_complete m a r) ?_ fun p hp => ?_
  · refine (sent_settle m a.id a.response r).trans ?_
    rw [List.filterMap_cons]
    cases r.replyTo? a.response a.id <;> rfl
  · constructor
    · intro ht
      exact .answered m a rfl (List.mem_singleton.1 ht).symm
    · intro hends
      cases hends with
      | answered m' a' ha ht =>
        cases ha
        exact List.mem_singleton.2 ht.symm
      | swept m' ha => cases ha
      | replaced q harrival => cases harrival

theorem fate_sweep (r : Relay) (m : Moment) (t : UInt16) : Fate ⟨r, .sweep m⟩ t := by
  refine fate_settled (nodup_expired r m) rfl rfl (settles_sweep m r) (sent_all m (nodup_expired r m) failure r)
    fun p hp => ?_
  constructor
  · intro ht
    obtain ⟨q, hq, hold⟩ := mem_expired.1 ht
    obtain rfl : p = q := Option.some.inj (hp.symm.trans hq)
    exact .swept m rfl hold
  · intro hends
    cases hends with
    | answered m' a ha => cases ha
    | swept m' ha hold =>
      cases ha
      exact mem_expired.2 ⟨p, hp, hold⟩
    | replaced q harrival => cases harrival

/-- **What becomes of a request in one event**, for each kind of event. -/
theorem fate (e : Event) (t : UInt16) : Fate e t := by
  obtain ⟨r, action⟩ := e
  cases action with
  | frame heard m connection frame =>
    cases harrival : Event.arrival? ⟨r, .frame heard m connection frame⟩ with
    | none => exact fate_frame_of_no_arrival rfl harrival
    | some x => exact fate_arrival harrival
  | answer m a => exact fate_answer r m a t
  | sweep m => exact fate_sweep r m t
  | rewire relay =>
    exact fate_unrelated rfl rfl (fun _ h => nomatch h) (fun _ _ ha => nomatch ha) (fun _ ha => nomatch ha)

/-- A request has come in and has been passed on, and nothing has ended that since. -/
def Outstanding (past : List Event) (t : UInt16) (p : Pending) : Prop :=
  ∃ newer e older, past = newer ++ e :: older ∧ e.Forwards t p ∧ ∀ x ∈ newer, ¬ x.Ends t p

/-- A request is held after an event if it has been passed on with it, or was held before and has not ended. -/
theorem pending_after : e.after.pending.get? t = some p ↔
    e.Forwards t p ∨ (e.before.pending.get? t = some p ∧ ¬ e.Ends t p) := by
  cases fate e t with
  | unrelated harrival hends hpending =>
    rw [hpending]
    refine ⟨fun hp => .inr ⟨hp, hends p hp⟩, fun h => ?_⟩
    rcases h with hforwards | ⟨hp, -⟩
    · exact absurd hforwards.arrival (harrival p)
    · exact hp
  | held q hq hpending =>
    rw [hpending]
    constructor
    · rintro ⟨⟩
      exact .inl hq
    · rintro (hforwards | ⟨-, hgoes⟩)
      · exact congrArg (fun x => some x.2) (Option.some.inj (hq.arrival.symm.trans hforwards.arrival))
      · exact absurd (.replaced q hq.arrival) hgoes
  | failed q harrival hheard hpending =>
    rw [hpending]
    refine ⟨fun hp => (nomatch hp), fun h => ?_⟩
    rcases h with hforwards | ⟨-, hgoes⟩
    · exact absurd hforwards.heard hheard
    · exact absurd (.replaced q harrival) hgoes
  | settled q hbefore harrival hends hpending =>
    rw [hpending, hbefore]
    refine ⟨fun hp => (nomatch hp), fun h => ?_⟩
    rcases h with hforwards | ⟨⟨⟩, hgoes⟩
    · exact nomatch harrival.symm.trans hforwards.arrival
    · exact absurd hends hgoes

/-- A request is outstanding when it has just been forwarded, or was and has not ended. -/
theorem outstanding_cons : Outstanding (e :: past) t p ↔
    e.Forwards t p ∨ (Outstanding past t p ∧ ¬ e.Ends t p) := by
  constructor
  · rintro ⟨newer, x, older, hpast, hforwards, hgoes⟩
    cases newer with
    | nil =>
      cases hpast
      exact .inl hforwards
    | cons y newer =>
      cases hpast
      obtain ⟨hy, hgoes⟩ := List.forall_mem_cons.1 hgoes
      exact .inr ⟨⟨newer, x, older, rfl, hforwards, hgoes⟩, hy⟩
  · rintro (hforwards | ⟨⟨newer, x, older, rfl, hforwards, hgoes⟩, he⟩)
    · exact ⟨[], e, past, rfl, hforwards, fun _ hx => nomatch hx⟩
    · exact ⟨e :: newer, x, older, rfl, hforwards, List.forall_mem_cons.2 ⟨he, hgoes⟩⟩

/-- **The table holds the outstanding requests**, no more and no fewer. -/
theorem pending_iff (h : History past) : (present past).pending.get? t = some p ↔ Outstanding past t p := by
  induction h with
  | start =>
    refine ⟨fun hp => (nomatch hp), ?_⟩
    rintro ⟨newer, e, older, hpast, -⟩
    cases newer <;> cases hpast
  | @next past action _ ih => rw [outstanding_cons, ← ih, present, pending_after]

/-- **The account of a request**: it is held and has had no reply; or it is held no longer and has had one reply; or
it is held no longer, and its client was gone when it was settled. -/
inductive Account (r : Relay) (t : UInt16) (p : Pending) (replies : List (ConnectionId × Bytes)) (gone : Prop) : Prop
  | held (hpending : r.pending.get? t = some p) (hreplies : replies = [])
  | answered (hpending : r.pending.get? t = none) (response : Response)
      (hreplies : replies = [(p.call t).reply response])
  | lost (hpending : r.pending.get? t = none) (hreplies : replies = []) (hgone : gone)

/-- **One event more** since a request came in. -/
theorem Account.next {replies : List (ConnectionId × Bytes)} {gone : Prop} (h : Account e.before t p replies gone)
    (harrival : ∀ q, e.arrival? ≠ some (t, q)) :
    Account e.after t p (e.replies t ++ replies)
      ((e.Ends t p ∧ e.before.connections.contains p.connection = false) ∨ gone) := by
  cases fate e t with
  | unrelated _ _ hpending hnone =>
    rw [hnone, List.nil_append]
    cases h with
    | held hbefore hreplies => exact .held (hpending.trans hbefore) hreplies
    | answered hbefore response hreplies => exact .answered (hpending.trans hbefore) response hreplies
    | lost hbefore hreplies hgone => exact .lost (hpending.trans hbefore) hreplies (.inr hgone)
  | held q hq => exact absurd hq.arrival (harrival q)
  | failed q hq => exact absurd hq (harrival q)
  | settled q hq _ hends hpending response hreply =>
    -- only a request that is still held can be settled, so a second reply is out of the question
    cases h with
    | held hbefore hreplies =>
      obtain rfl : q = p := Option.some.inj (hq.symm.trans hbefore)
      rw [hreply, hreplies, replyTo?, hbefore, Option.bind_some]
      split
      · exact .answered hpending (response q.request) rfl
      · rename_i hgone
        exact .lost hpending rfl (.inl ⟨hends, Bool.eq_false_iff.2 hgone⟩)
    | answered hbefore => exact nomatch hq.symm.trans hbefore
    | lost hbefore => exact nomatch hq.symm.trans hbefore

/-- The account of a request when it comes in: it is held, or it fails at once. -/
theorem account_arrival (harrival : e.arrival? = some (t, p)) : Account e.after t p (e.replies t) False := by
  have heq {q : Pending} (hq : e.arrival? = some (t, q)) : q = p :=
    congrArg Prod.snd (Option.some.inj (hq.symm.trans harrival))
  cases fate e t with
  | unrelated hother => exact absurd harrival (hother p)
  | held q hq hpending hreplies => exact .held (heq hq.arrival ▸ hpending) hreplies
  | failed q hq _ hpending hreplies =>
    obtain rfl := heq hq
    exact .answered hpending _ hreplies
  | settled _ _ hnone => exact nomatch hnone.symm.trans harrival

/-- **The account of a request** up to the next one under its transaction id. -/
theorem account (h : History (newer ++ e :: older)) (harrival : e.arrival? = some (t, p))
    (hlast : ∀ x ∈ newer, ∀ q, x.arrival? ≠ some (t, q)) :
    Account (present (newer ++ e :: older)) t p ((newer ++ [e]).flatMap fun x => x.replies t)
      (∃ x ∈ newer, x.Ends t p ∧ x.before.connections.contains p.connection = false) := by
  induction newer with
  | nil =>
    simpa [present] using account_arrival harrival
  | cons x newer ih =>
    obtain ⟨hx, hlast⟩ := List.forall_mem_cons.1 hlast
    have hbefore : x.before = present (newer ++ e :: older) := h.before_eq
    have haccount := ih h.tail hlast
    rw [← hbefore] at haccount
    simpa only [List.cons_append, List.flatMap_cons, List.exists_mem_cons_iff, present] using haccount.next hx

/-- Nothing is sent under a transaction id before a request comes in under it. -/
theorem replies_of_no_arrival (h : History past) (hnone : ∀ x ∈ past, ∀ q, x.arrival? ≠ some (t, q)) :
    (present past).pending.get? t = none ∧ (past.flatMap fun x => x.replies t) = [] := by
  induction h with
  | start => exact ⟨rfl, rfl⟩
  | @next past action _ ih =>
    obtain ⟨hx, hnone⟩ := List.forall_mem_cons.1 hnone
    obtain ⟨hbefore, hreplies⟩ := ih hnone
    rw [List.flatMap_cons, hreplies, List.append_nil, present]
    cases fate ⟨present past, action⟩ t with
    | unrelated _ _ hpending hreplies => exact ⟨hpending.trans hbefore, hreplies⟩
    | held q hq => exact absurd hq.arrival (hx q)
    | failed q hq => exact absurd hq (hx q)
    | settled q hq => exact nomatch hq.symm.trans hbefore

/-- No action but a change of the wiring opens or closes connections. -/
theorem connections_after (hrewire : ∀ relay, e.action ≠ .rewire relay) :
    e.after.connections = e.before.connections := by
  obtain ⟨r, action⟩ := e
  cases action with
  | frame heard m connection frame =>
    cases hc : r.connections.get? connection with
    | none => simp only [Event.after, act, hc]
    | some c =>
      simp only [Event.after, act, hc]
      cases hcall : callOf connection frame with
      | none =>
        obtain ⟨error, hdecode⟩ := decode_of_callOf_eq_none hcall
        rw [(request_refused heard m connection c frame r hdecode).1]
      | some call =>
        cases heard with
        | true =>
          obtain ⟨p, -, -, hrelay⟩ := request_heard m c r hcall
          rw [hrelay]
        | false =>
          obtain ⟨p, -, hsettles⟩ := request_unheard m c r hcall
          exact hsettles.connections
  | answer m a => exact (settles_complete m a r).connections
  | sweep m => exact (settles_sweep m r).connections
  | rewire relay => exact absurd rfl (hrewire relay)

theorem connected_of_arrival (harrival : e.arrival? = some (t, p)) :
    e.after.connections.contains p.connection = true := by
  obtain ⟨heard, m, frame, c, ha, hc, -⟩ := exists_of_arrival harrival
  rw [connections_after (by simp [ha]), SortedMap.contains, hc]
  rfl

/-- **The client of a request is there** as long as clients do not come and go. -/
theorem connected_since (h : History (newer ++ e :: older)) (harrival : e.arrival? = some (t, p))
    (hstay : ∀ x ∈ newer, ∀ relay, x.action ≠ .rewire relay) :
    (∀ x ∈ newer, x.before.connections.contains p.connection = true) ∧
      (present (newer ++ e :: older)).connections.contains p.connection = true := by
  induction newer with
  | nil => exact ⟨fun _ hx => (nomatch hx), connected_of_arrival harrival⟩
  | cons x newer ih =>
    obtain ⟨hx, hstay⟩ := List.forall_mem_cons.1 hstay
    have hbefore : x.before = present (newer ++ e :: older) := h.before_eq
    obtain ⟨hearlier, hnow⟩ := ih h.tail hstay
    rw [← hbefore] at hnow
    exact ⟨List.forall_mem_cons.2 ⟨hnow, hearlier⟩, (connections_after hx).symm ▸ hnow⟩

/-- **Requests are conserved**: what holds at each moment of a run. -/
structure Conserved (past : List Event) : Prop where
  /-- The table holds the requests that have been passed on and neither answered nor swept nor replaced. -/
  table : ∀ t p, (present past).pending.get? t = some p ↔ Outstanding past t p
  /-- Up to the next request under its transaction id, which has an account of its own, there is at most one reply to
  a request, and none as long as it is held. -/
  account : ∀ newer e older t p, past = newer ++ e :: older → e.arrival? = some (t, p) →
    (∀ x ∈ newer, ∀ q, x.arrival? ≠ some (t, q)) →
      Account (present past) t p ((newer ++ [e]).flatMap fun x => x.replies t)
        (∃ x ∈ newer, x.Ends t p ∧ x.before.connections.contains p.connection = false)
  /-- Without a request there is no reply. -/
  silent : ∀ t, (∀ x ∈ past, ∀ q, x.arrival? ≠ some (t, q)) → (past.flatMap fun x => x.replies t) = []
  /-- The client of a request is there, unless clients have come or gone since. -/
  connected : ∀ newer e older t p, past = newer ++ e :: older → e.arrival? = some (t, p) →
    (∀ x ∈ newer, ∀ relay, x.action ≠ .rewire relay) →
      (∀ x ∈ newer, x.before.connections.contains p.connection = true) ∧
        (present past).connections.contains p.connection = true
  /-- A sweep answers the requests that are at least as old as the timeout with a device failure, which has code 4,
  in some order, and leaves the others. -/
  swept : ∀ m : Moment,
    (sweep m (present past)).1.sent.Perm (((present past).pending.entries.filter fun x =>
      (present past).settings.requestTimeout.toNat ≤ m.elapsed - x.2.created &&
        (present past).connections.contains x.2.connection).map fun x =>
          (x.2.call x.1).reply (.exception x.2.request.function.code .deviceFailure)) ∧
    ∀ t p, (sweep m (present past)).2.pending.get? t = some p ↔
      (present past).pending.get? t = some p ∧ m.elapsed - p.created < (present past).settings.requestTimeout.toNat
  /-- An answer under a number that no request is held under changes nothing, and nothing goes out. -/
  unknown : ∀ (m : Moment) (a : Answer), (present past).pending.get? a.id = none →
    complete m a (present past) = (∅, present past)
  /-- A request that nobody hears of is answered with a device failure at once, and it is not held. -/
  unheard : ∀ (e : Event) (t : UInt16) (p : Pending), e.before = present past → e.arrival? = some (t, p) → ¬ e.Heard →
    e.sent = [(p.call t).reply (.exception p.request.function.code .deviceFailure)] ∧ e.after.pending.get? t = none

/-- **In every run, requests are conserved.** -/
theorem requests_conserved (h : History past) : Conserved past where
  table _ _ := pending_iff h
  account newer e older t p hpast harrival hlast := by
    subst hpast
    exact Wire.account h harrival hlast
  silent t hnone := (replies_of_no_arrival h hnone).2
  connected newer e older t p hpast harrival hstay := by
    subst hpast
    exact connected_since h harrival hstay
  swept m := by
    refine ⟨.of_eq (sent_sweep m (present past)), fun t p => ?_⟩
    rw [(settles_sweep m (present past)).pending_eq_some, mem_expired]
    constructor
    · rintro ⟨hfresh, hp⟩
      refine ⟨hp, Nat.lt_of_not_le fun hold => hfresh ⟨p, hp, decide_eq_true hold⟩⟩
    · rintro ⟨hp, hfresh⟩
      refine ⟨?_, hp⟩
      rintro ⟨q, hq, hold⟩
      obtain rfl : p = q := Option.some.inj (hp.symm.trans hq)
      exact absurd (of_decide_eq_true hold) (Nat.not_le_of_lt hfresh)
  unknown m a hnone := by simp only [complete, settle, hnone]
  unheard e t p _ harrival hheard := by
    obtain ⟨hsent, hafter⟩ := after_of_unheard harrival hheard
    exact ⟨hsent, by rw [hafter, if_pos rfl]⟩

/-- The frame of a call comes in. -/
def comes (heard : Bool) (elapsed : Nat) (c : Call) : Action :=
  .frame heard ⟨elapsed, default⟩ c.connection ⟨⟨c.transaction, 0, 6, c.unit⟩, c.request.encode⟩

/-- A client asks under two transaction ids, and another client uses one of them again before an answer comes in. -/
def crossing : List Action :=
  [.answer ⟨30, default⟩ ⟨7, 3, some [.ofWord 51], none⟩, comes true 20 (readRegister 1 7 1),
    comes true 10 (readRegister 0 8 0), comes true 0 (readRegister 0 7 0), .rewire twoClients]

/-- The second client has the answer, the first one still waits for one of its own and is told of a failure when the
time has passed, and a request that nobody hears of fails at once. -/
theorem requests_conserved_crossing :
    let past := historyOf crossing
    let unheard : Event := ⟨present past, comes false 40 (readRegister 1 9 0)⟩
    Conserved past ∧ (present past).pending.get? 7 = none ∧
      (past.take 2).flatMap (fun x => x.replies 7) =
        [(readRegister 1 7 1).reply (.registers .readHoldingRegisters [51])] ∧
      (past.drop 2).flatMap (fun x => x.replies 7) = [] ∧ (sweep ⟨5009, default⟩ (present past)).1.sent = [] ∧
      (sweep ⟨5010, default⟩ (present past)).1.sent = [(readRegister 0 8 0).reply (.exception 3 .deviceFailure)] ∧
      unheard.sent = [(readRegister 1 9 0).reply (.exception 3 .deviceFailure)] := by
  intro past unheard
  have hconserved : Conserved past := requests_conserved (history_of_actions crossing)
  refine ⟨hconserved, ?_, ?_, ?_, ?_, ?_, ?_⟩ <;> decide

end Wire
end Switchyard.Relay
