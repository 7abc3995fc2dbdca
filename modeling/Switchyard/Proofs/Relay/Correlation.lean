import Switchyard.Proofs.Relay.Circuit

/-!
# Which request a reply belongs to

Requests of all clients are held under their transaction ids alone, and clients
choose these ids for themselves. So a request takes the place of an older one with
the same id, and an answer of the engine goes to whoever holds the id when it comes.
Each reply still goes to a client that has asked under its transaction id, but the
answer in it may have been made for another request (`replies_correlated`).

* `pending_after`: what is pending after an event has come in with it, or was pending
  before.
* `called_of_pending`, `waiting_of_pending`: a pending request has come in on its own
  connection, and its call waits for the engine.
* `agrees_of_pending`: whatever relates each request that comes in to the calls that wait
  under its transaction id relates a pending request to them.
-/

namespace Switchyard.Relay

open Channel Modbus

/-- A call has come in. -/
def Called (past : List Event) (call : Call) : Prop := ∃ e ∈ past, e.arrival? = some call

/-- The calls that wait under a transaction id when another one comes in under it are related to that one. -/
def Meets (R : Call → Call → Prop) (t : UInt16) (past : List Event) : Prop :=
  ∀ e ∈ past, ∀ call, e.arrival? = some call → call.transaction = t →
    ∀ other ∈ e.before.waiting, other.transaction = t → R other call

/-- **A transaction id is not shared**: nobody uses it while a call of another client waits under it. -/
def Unshared (t : UInt16) (past : List Event) : Prop :=
  Meets (fun other call => other.connection = call.connection) t past

/-- **A transaction id is not ambiguous**: nobody uses it while a call waits under it, unless it is the same
call again. -/
def Unambiguous (t : UInt16) (past : List Event) : Prop := Meets (fun other call => other = call) t past

theorem Meets.tail {R : Call → Call → Prop} {t : UInt16} {e : Event} {past : List Event}
    (h : Meets R t (e :: past)) : Meets R t past := fun x hx => h x (List.mem_cons_of_mem _ hx)

theorem Called.cons {past : List Event} {call : Call} (h : Called past call) (e : Event) :
    Called (e :: past) call := by
  obtain ⟨x, hx, harrival⟩ := h
  exact ⟨x, List.mem_cons_of_mem _ hx, harrival⟩

variable {e : Event} {past : List Event} {t : UInt16} {p : Pending}

/-- **What is pending after an event** has come in with it and waits for the engine from now on, or it was
pending before, and among the calls under its transaction id nothing has changed. -/
theorem pending_after (h : e.after.relay.pending.get? t = some p) :
    (e.arrival? = some (p.call t) ∧ e.after.waiting = p.call t :: e.before.waiting) ∨
    (e.before.relay.pending.get? t = some p ∧
      ∀ call : Call, call.transaction = t → (call ∈ e.after.waiting ↔ call ∈ e.before.waiting)) := by
  -- By what the event does: it brings a request, it settles some, or it touches none.
  cases effect e with
  | unrelated hpending hwaiting hsent harrival =>
    rw [hpending] at h
    exact .inr ⟨h, fun call _ => by rw [hwaiting]⟩
  | heard q u harrival hsent hpending hwaiting =>
    rw [hpending] at h
    by_cases ht : t = u
    · subst ht
      obtain rfl : q = p := by simpa [SortedMap.get?_insert_self] using h
      exact .inl ⟨harrival, hwaiting⟩
    · rw [SortedMap.get?_insert_of_ne _ _ ht] at h
      refine .inr ⟨h, fun call hcall => ?_⟩
      -- The request that arrives bears another number than the one in question.
      have hne : call ≠ q.call u := by
        rintro rfl
        exact ht hcall.symm
      rw [hwaiting, List.mem_cons, or_iff_right hne]
  | unheard q u harrival hsettles hwaiting =>
    obtain ⟨ht, h⟩ := hsettles.pending_eq_some.1 h
    rw [SortedMap.get?_insert_of_ne _ _ (by simpa using ht)] at h
    exact .inr ⟨h, fun call _ => by rw [hwaiting]⟩
  | answered other a ha hsettles hwaiting =>
    obtain ⟨ht, h⟩ := hsettles.pending_eq_some.1 h
    refine .inr ⟨h, fun call hcall => ?_⟩
    have hne : call ≠ other := by
      rintro rfl
      exact ht (by simp [hcall])
    rw [hwaiting, List.mem_erase_of_ne hne]
  | swept ids hsettles hwaiting =>
    exact .inr ⟨(hsettles.pending_eq_some.1 h).2, fun call _ => by rw [hwaiting]⟩

theorem called_of_pending (h : History past) (hp : (present past).relay.pending.get? t = some p) :
    Called past (p.call t) := by
  induction h with
  | start => cases hp
  | @next past action _ ih =>
    rcases pending_after (e := ⟨present past, action⟩) hp with ⟨harrival, -⟩ | ⟨hp, -⟩
    · exact ⟨_, List.mem_cons_self, harrival⟩
    · exact (ih hp).cons _

/-- A pending request has not been answered by the engine: its call waits. -/
theorem waiting_of_pending (h : History past) (hp : (present past).relay.pending.get? t = some p) :
    p.call t ∈ (present past).waiting := by
  induction h with
  | start => cases hp
  | @next past action _ ih =>
    rcases pending_after (e := ⟨present past, action⟩) hp with ⟨-, hwaiting⟩ | ⟨hp, hwaiting⟩
    · exact hwaiting ▸ List.mem_cons_self
    · exact (hwaiting _ rfl).2 (ih hp)

/-- **What holds of the calls that meet holds of a pending request** and all calls that wait under its
transaction id, calls of requests that have been swept or replaced among them. -/
theorem agrees_of_pending {R : Call → Call → Prop} (hrefl : ∀ call, R call call) (h : History past)
    (hmeets : Meets R t past) (hp : (present past).relay.pending.get? t = some p) {other : Call}
    (hother : other ∈ (present past).waiting) (ht : other.transaction = t) : R other (p.call t) := by
  induction h with
  | start => cases hp
  | @next past action _ ih =>
    rcases pending_after (e := ⟨present past, action⟩) hp with ⟨harrival, hwaiting⟩ | ⟨hp, hwaiting⟩
    · have hother : other ∈ (Event.after ⟨present past, action⟩).waiting := hother
      rw [hwaiting, List.mem_cons] at hother
      rcases hother with rfl | hother
      · exact hrefl _
      · exact hmeets _ List.mem_cons_self _ harrival rfl other hother ht
    · exact ih hmeets.tail hp ((hwaiting other ht).1 hother)

section
variable (h : History past) (hp : (present past).relay.pending.get? t = some p) {other : Call}
  (hother : other ∈ (present past).waiting) (ht : other.transaction = t)
include h hp hother ht

theorem connection_of_unshared (hmeets : Unshared t past) : other.connection = p.connection :=
  agrees_of_pending (R := fun other call => other.connection = call.connection) (fun _ => rfl) h hmeets hp hother ht

theorem call_of_unambiguous (hmeets : Unambiguous t past) : other = p.call t :=
  agrees_of_pending (fun _ => rfl) h hmeets hp hother ht

end

/-- **A reply is the client's own**: it goes to the connection that a call has come in on, and tells that the
call has failed, or what the engine has answered to that very call. -/
inductive Proper (past : List Event) (e : Event) : ConnectionId × Bytes → Prop
  | failed (call : Call) (hcalled : Called past call) : Proper past e (call.reply (failure call.request))
  | computed (call : Call) (a : Answer) (hcalled : Called past call) (hanswers : e.Answers call a) :
      Proper past e (call.reply (a.response call.request))

/-- **A pending request loses its reply to another client**: a call of another connection comes in under its
transaction id, and the request is not pending any more, without a reply to it. -/
structure Event.Robs (e : Event) (t : UInt16) (p : Pending) : Prop where
  pending : e.before.relay.pending.get? t = some p
  gone : e.after.relay.pending.get? t ≠ some p
  unanswered : ∀ response, (p.call t).reply response ∉ e.sent
  other : ∃ call, e.arrival? = some call ∧ call.transaction = t ∧ call.connection ≠ p.connection

/-- What a client gets is a refusal of its frame, or a reply to a call that has just come in or is pending: that
it has failed, or an answer of the engine to a call with the same transaction id. -/
theorem sent_origin {reply : ConnectionId × Bytes} (h : reply ∈ e.sent) :
    e.Refuses reply.1 ∨
    (∃ call, e.arrival? = some call ∧ reply = call.reply (failure call.request)) ∨
    ∃ t p, e.before.relay.pending.get? t = some p ∧
      (reply = (p.call t).reply (failure p.request) ∨
        ∃ other a, e.Answers other a ∧ other.transaction = t ∧ reply = (p.call t).reply (a.response p.request)) := by
  cases effect e with
  | unrelated hpending hwaiting hsent harrival => exact .inl (hsent reply h)
  | heard p t harrival hsent => simp [hsent] at h
  | unheard p t harrival hsettles =>
    obtain ⟨u, hu, q, hq, -, rfl⟩ := (hsettles.sent reply).1 h
    obtain rfl : u = t := by simpa using hu
    obtain rfl : p = q := by simpa [SortedMap.get?_insert_self] using hq
    exact .inr (.inl ⟨_, harrival, rfl⟩)
  | answered other a ha hsettles =>
    obtain ⟨u, hu, p, hp, -, rfl⟩ := (hsettles.sent reply).1 h
    obtain rfl : u = other.transaction := by simpa using hu
    exact .inr (.inr ⟨_, p, hp, .inr ⟨other, a, ha, rfl, rfl⟩⟩)
  | swept ids hsettles =>
    obtain ⟨t, -, p, hp, -, rfl⟩ := (hsettles.sent reply).1 h
    exact .inr (.inr ⟨t, p, hp, .inl rfl⟩)

/-- A pending request stays, or its client gets a reply, or another request takes its place. -/
theorem kept_or_replied_or_replaced (hp : e.before.relay.pending.get? t = some p)
    (hc : e.before.relay.connections.contains p.connection = true) :
    e.after.relay.pending.get? t = some p ∨ (∃ response, (p.call t).reply response ∈ e.sent) ∨
    ∃ call, e.arrival? = some call ∧ call.transaction = t := by
  cases effect e with
  | unrelated hpending => exact .inl (by rw [hpending, hp])
  | heard q u harrival hsent hpending =>
    by_cases ht : t = u
    · exact .inr (.inr ⟨_, harrival, ht.symm⟩)
    · exact .inl (by rw [hpending, SortedMap.get?_insert_of_ne _ _ ht, hp])
  | unheard q u harrival hsettles =>
    by_cases ht : t = u
    · exact .inr (.inr ⟨_, harrival, ht.symm⟩)
    · have hmem : t ∉ [u] := by simpa using ht
      refine .inl (hsettles.pending_eq_some.2 ⟨hmem, ?_⟩)
      rw [SortedMap.get?_insert_of_ne _ _ ht, hp]
  | answered other a ha hsettles =>
    exact (hsettles.kept_or_replied hp hc).imp_right fun h => .inl ⟨_, h⟩
  | swept ids hsettles =>
    exact (hsettles.kept_or_replied hp hc).imp_right fun h => .inl ⟨_, h⟩

/-- A reply that the engine's answer to a call makes is the client's own, if the call is the one it is read for.
Otherwise the transaction id is ambiguous, or even shared. -/
theorem proper_or_mixed (h : History (e :: past)) (hp : e.before.relay.pending.get? t = some p) {other : Call}
    {a : Answer} (ha : e.Answers other a) (ht : other.transaction = t) :
    Proper (e :: past) e ((p.call t).reply (a.response p.request)) ∨
      Called past (p.call t) ∧ ¬ Unambiguous t past ∧ (Unshared t past → other.connection = p.connection) := by
  have hwaits := ha.waits
  rw [h.before_eq] at hp hwaits
  have hcalled := called_of_pending h.tail hp
  by_cases hother : other = p.call t
  · subst hother
    exact .inl (.computed _ a (hcalled.cons e) ha)
  · refine .inr ⟨hcalled, fun hmeets => hother ?_, fun hmeets => ?_⟩
    · exact call_of_unambiguous h.tail hp hwaits ht hmeets
    · exact connection_of_unshared h.tail hp hwaits ht hmeets

/-- Nobody is robbed under a transaction id that is not shared. -/
theorem not_robs_of_unshared (h : History (e :: past)) (hmeets : Unshared t (e :: past)) : ¬ e.Robs t p := by
  rintro ⟨hp, -, -, call, harrival, ht, hne⟩
  -- the call of a pending request waits, so the call that comes in meets it
  have hwaits : p.call t ∈ e.before.waiting := by
    rw [h.before_eq] at hp ⊢
    exact waiting_of_pending h.tail hp
  exact hne (hmeets e List.mem_cons_self call harrival ht _ hwaits rfl).symm

/-- **Replies are told apart by their transaction ids only.** Every reply is the client's own, or it holds the
engine's answer to another call with the same transaction id. That takes an ambiguous id, and the other call
is of another client only if the id is shared. A pending request stays until its client gets a reply to it or
another request comes in under its transaction id, and it loses its reply to another client only if the id is
shared. -/
theorem replies_correlated (h : History (e :: past)) :
    (∀ reply ∈ e.sent, e.Refuses reply.1 ∨ Proper (e :: past) e reply ∨
      ∃ call other a, Called past call ∧ e.Answers other a ∧ other.transaction = call.transaction ∧
        reply = call.reply (a.response call.request) ∧ ¬ Unambiguous call.transaction past ∧
        (Unshared call.transaction past → other.connection = call.connection)) ∧
    (∀ t p, e.before.relay.pending.get? t = some p → e.before.relay.connections.contains p.connection = true →
      e.after.relay.pending.get? t = some p ∨ (∃ response, (p.call t).reply response ∈ e.sent) ∨
        ∃ call, e.arrival? = some call ∧ call.transaction = t) ∧
    ∀ t p, Unshared t (e :: past) → ¬ e.Robs t p := by
  refine ⟨fun reply hreply => ?_, fun t p => kept_or_replied_or_replaced, fun t p => not_robs_of_unshared h⟩
  rcases sent_origin hreply with hrefuses | ⟨call, harrival, rfl⟩ | ⟨t, p, hp, rfl | ⟨other, a, ha, ht, rfl⟩⟩
  · exact .inl hrefuses
  · exact .inr (.inl (.failed call ⟨e, List.mem_cons_self, harrival⟩))
  · rw [h.before_eq] at hp
    exact .inr (.inl (.failed (p.call t) ((called_of_pending h.tail hp).cons e)))
  · rcases proper_or_mixed h hp ha ht with hproper | ⟨hcalled, hambiguous, hshared⟩
    · exact .inr (.inl hproper)
    · exact .inr (.inr ⟨p.call t, other, a, hcalled, ha, ht, rfl, hambiguous, hshared⟩)

/-- Two clients of one listener. -/
def twoClients : Relay :=
  let client : Connection := ⟨.modbus, ⟨"127.0.0.1", 502⟩, { ip := "127.0.0.1", port := 502 }, []⟩
  { Relay.new .standard with connections := (SortedMap.empty.insert 0 client).insert 1 client }

/-- A client asks for one register. -/
def readRegister (connection : ConnectionId) (transaction address : UInt16) : Call :=
  ⟨connection, transaction, 1, .read .readHoldingRegisters address 1⟩

/-- The frame of a call comes in, and the engine hears of it. -/
def Call.comes (c : Call) : Action :=
  .frame true ⟨0, default⟩ c.connection ⟨⟨c.transaction, 0, 6, c.unit⟩, c.request.encode⟩

/-- The engine answers the command of a call with one word. -/
def Call.answered (c : Call) (word : UInt16) : Action :=
  .answer ⟨0, default⟩ c ⟨c.transaction, c.request.function.code, some [.ofWord word], none⟩

/-- Two clients have chosen different transaction ids. The engine answers the second one first, each gets its
own reply. -/
theorem replies_out_of_order :
    let first := readRegister 0 7 0
    let second := readRegister 1 8 1
    let past := historyOf [second.comes, first.comes, .rewire twoClients]
    let e : Event := ⟨present past, second.answered 51⟩
    let reply := second.reply (.registers .readHoldingRegisters [51])
    History (e :: past) ∧ reply ∈ e.sent ∧ Proper (e :: past) e reply ∧
      (e.after.relay.pending.get? 7).map (Pending.call · 7) = some first := by
  intro first second past e reply
  have h : History (e :: past) := (history_historyOf _).next _
  have hp : e.before.relay.pending.get? 7 = some ⟨first.request, 1, "127.0.0.1:502", 0, 0⟩ := by
    simp only [e, past, first, second]
    rfl
  have hsent : e.sent = [reply] := by
    simp only [e, past, first, second, reply]
    rfl
  have hconnected : e.before.relay.connections.contains 0 = true := by
    simp only [e, past, first, second]
    rfl
  have hwaiting : ∀ x ∈ past, ∀ other ∈ x.before.waiting, other = first := by
    simp only [past, first, second]
    decide
  -- The number of the second request is not in use when it arrives.
  have hunambiguous : Unambiguous 8 past := by
    intro x hx call harrival ht other hother ht'
    rw [hwaiting x hx other hother] at ht'
    cases ht'
  obtain ⟨hreplies, hpending, -⟩ := replies_correlated h
  refine ⟨h, by simp [hsent], ?_, ?_⟩
  -- Of the three ways to reply, only the proper one is left.
  · rcases hreplies reply (by simp [hsent]) with hrefuses | hproper | ⟨call, other, a, -, hanswers, ht, -, hne, -⟩
    · obtain ⟨heard, m, frame, error, ha, -⟩ := hrefuses
      cases ha
    · exact hproper
    · obtain ⟨m, ha⟩ := hanswers.action
      obtain ⟨-, rfl, -⟩ := Action.answer.inj ha
      rw [← ht] at hne
      exact absurd hunambiguous hne
  · rcases hpending 7 _ hp hconnected with hkept | ⟨response, hreply⟩ | ⟨call, harrival, -⟩
    · rw [hkept]
      rfl
    · rw [hsent, List.mem_singleton] at hreply
      have hconnection : first.connection = second.connection := congrArg Prod.fst hreply
      cases hconnection
    · cases harrival

/-- **Two clients that have chosen the same transaction id.** The second request takes the place of the first
one, and the engine's answer to the first one goes to the second client. -/
theorem replies_mixed_up :
    let first := readRegister 0 1 0
    let second := readRegister 1 1 1
    let past := historyOf [first.comes, .rewire twoClients]
    let robbing : Event := ⟨present past, second.comes⟩
    let answering : Event := ⟨present (robbing :: past), first.answered 50⟩
    let reply := second.reply (.registers .readHoldingRegisters [50])
    History (answering :: robbing :: past) ∧
      (∃ p : Pending, p.call 1 = first ∧ robbing.Robs 1 p) ∧
      reply ∈ answering.sent ∧ ¬ answering.Refuses reply.1 ∧
      ¬ Proper (answering :: robbing :: past) answering reply := by
  intro first second past robbing answering reply
  have h : History (answering :: robbing :: past) := ((history_historyOf _).next _).next _
  have hp : robbing.before.relay.pending.get? 1 = some ⟨first.request, 1, "127.0.0.1:502", 0, 0⟩ := by
    simp only [robbing, past, first]
    rfl
  have hafter : robbing.after.relay.pending.get? 1 = some ⟨second.request, 1, "127.0.0.1:502", 1, 0⟩ := by
    simp only [robbing, past, first, second]
    rfl
  have hnone : robbing.sent = [] := by
    simp only [robbing, past, first, second]
    rfl
  have harrival : robbing.arrival? = some second := by
    simp only [robbing, past, first, second]
    rfl
  have hsent : answering.sent = [reply] := by
    simp only [answering, robbing, past, first, second, reply]
    rfl
  refine ⟨h, ⟨_, rfl, hp, ?_, by simp [hnone], second, harrival, rfl, by decide⟩, by simp [hsent], ?_, ?_⟩
  · rw [hafter]
    decide
  · rintro ⟨heard, m, frame, error, ha, -⟩
    cases ha
  · generalize hreply : reply = other
    intro hproper
    cases hproper with
    | failed call =>
      -- a register takes two bytes more than an exception code
      have hlength : (call.reply (failure call.request)).2.length = 9 := rfl
      rw [← hreply] at hlength
      cases hlength
    | computed call a hcalled hanswers =>
      obtain ⟨m, ha⟩ := hanswers.action
      obtain ⟨-, rfl, -⟩ := Action.answer.inj ha
      have hconnection : reply.1 = first.connection := congrArg Prod.fst hreply
      cases hconnection

end Switchyard.Relay
