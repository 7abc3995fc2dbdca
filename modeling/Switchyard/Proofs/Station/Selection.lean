import Mathlib.Data.Nat.Notation
import Switchyard.Proofs.Station.History
import Switchyard.Proofs.Station.Operation

/-!
# Selections authorize operations

A stored session is the trace of a selection: along every history, the session
on a path belongs to the client whose selection succeeded last, nothing has ended
that selection since, and the session expires no later than the selection says
(`selection_of_session`). The step behind it is `session_origin`: where a session
that is stored after an event comes from.

So an operation of an object that has to be selected comes within the lifetime of
a selection by its own client, and each such operation has a selection to itself
(`operation_selected`).
-/

namespace Switchyard.Substation

namespace Event

/-- A client selects an object, with success. -/
def Selects (e : Event) (path client : String) : Prop :=
  e.action = .select path client ∧ e.answer = .control (.ok ())

/-- A client operates an object, with success. -/
def Operates (e : Event) (path : String) : Prop :=
  ∃ value client, e.action = .operate path value client ∧ e.answer = .control (.ok ())

/-- What ends a client's selection of an object, its expiry apart. -/
inductive Ends (e : Event) (path client : String) : Prop
  /-- Another client has selected the object. -/
  | taken (other : String) (hne : other ≠ client) (h : e.Selects path other)
  /-- The object has been operated. -/
  | used (h : e.Operates path)
  | cancelled (h : e.action = .cancel path)

/-- The last time at which a selection of an object by this event is good: the lifetime in force at
the event is added to its time. -/
def expiry (e : Event) (path : String) : ℕ := e.time.toNat + (e.before.model.selectTimeout path).toNat

end Event

theorem sessions_act (s : Substation) (now : Millis) (action : Action) :
    (s.act now action).2.sessions =
      match action with
      | .select path client => (s.sessions.select s.model s.interlock path client now).2
      | .operate path value client => (s.operate path value client now).2.sessions
      | .cancel path => s.sessions.erase path
      | _ => s.sessions := by
  cases action <;> rfl

/-- **Where a session comes from.** One that is stored after an event was either put there by the
event, which is a selection by its client, or it was stored before and the event has not ended it. -/
theorem session_origin (e : Event) {path : String} {session : Session}
    (h : e.after.sessions.get? path = some session) :
    (e.Selects path session.client ∧ session.expiresAt.toNat ≤ e.expiry path) ∨
      (e.before.sessions.get? path = some session ∧ ¬ e.Ends path session.client) := by
  obtain ⟨s, now, action⟩ := e
  simp only [Event.after, sessions_act] at h
  cases action with
  | select p client =>
    rcases Sessions.get?_select h with ⟨rfl, hok, rfl⟩ | ⟨hs, hrefused⟩
    · refine Or.inl ⟨⟨rfl, by simp [Event.answer, act, select_eq, hok]⟩, ?_⟩
      -- the sum may wrap around, and then the session only expires earlier
      simp only [Event.expiry, UInt64.toNat_add]
      exact Nat.mod_le _ _
    · refine Or.inr ⟨hs, ?_⟩
      rintro (⟨other, -, ha, hok⟩ | ⟨_, _, ha, -⟩ | ha)
      · obtain ⟨rfl, rfl⟩ := Action.select.inj ha
        obtain ⟨refusal, hr⟩ := hrefused rfl
        simp [Event.answer, act, select_eq, hr] at hok
      · simp at ha
      · simp at ha
  | operate p value client =>
    obtain ⟨hs, hrefused⟩ := get?_operate h
    refine Or.inr ⟨hs, ?_⟩
    rintro (⟨_, -, ha, -⟩ | ⟨_, _, ha, hok⟩ | ha)
    · simp at ha
    · obtain ⟨rfl, rfl, rfl⟩ := Action.operate.inj ha
      obtain ⟨refusal, hr⟩ := hrefused rfl
      simp [Event.answer, act, hr] at hok
    · simp at ha
  | cancel p =>
    obtain ⟨hne, hs⟩ := SortedMap.get?_erase_eq_some.1 h
    refine Or.inr ⟨hs, ?_⟩
    rintro (⟨_, -, ha, -⟩ | ⟨_, _, ha, -⟩ | ha)
    · simp at ha
    · simp at ha
    · obtain rfl := Action.cancel.inj ha
      exact hne rfl
  | _ =>
    -- nothing else touches the sessions, and nothing else ends one
    refine Or.inr ⟨h, ?_⟩
    rintro (⟨_, -, ha, -⟩ | ⟨_, _, ha, -⟩ | ha) <;> simp at ha

variable {past : List Event} {path client : String} {value : Scalar} {now : Millis}

/-- **A stored session is the trace of a selection**, which nothing has ended since. -/
theorem selection_of_session (h : History past) {session : Session}
    (hs : (present past).sessions.get? path = some session) :
    ∃ since d earlier, past = since ++ d :: earlier ∧ d.Selects path session.client ∧
      session.expiresAt.toNat ≤ d.expiry path ∧ ∀ e ∈ since, ¬ e.Ends path session.client := by
  induction h with
  | start => simp [present, blank] at hs
  | @next past time action h ih =>
    rcases session_origin _ hs with ⟨hsel, hexp⟩ | ⟨hbefore, hend⟩
    · exact ⟨[], _, past, rfl, hsel, hexp, by simp⟩
    · obtain ⟨since, d, earlier, rfl, hsel, hexp, hsince⟩ := ih hbefore
      refine ⟨_ :: since, d, earlier, rfl, hsel, hexp, ?_⟩
      rintro e (_ | ⟨_, he⟩)
      · exact hend
      · exact hsince e he

/-- An operation comes before a selection that no operation has ended. -/
theorem operation_before_selection {since earlier newer older : List Event} {d e : Event}
    (hsel : d.Selects path client) (hsince : ∀ e ∈ since, ¬ e.Ends path client)
    (h : since ++ d :: earlier = newer ++ e :: older) (he : e.Operates path) :
    ∃ between, newer = since ++ d :: between := by
  have hde : d ≠ e := by
    rintro rfl
    obtain ⟨_, _, ha, -⟩ := he
    rw [hsel.1] at ha; cases ha
  -- either the selection or the operation is the newer one of the two
  rcases List.append_eq_append_iff.1 h with ⟨l, rfl, hl⟩ | ⟨l, rfl, hl⟩
  · cases l with
    | nil => exact absurd (List.cons.inj hl).1 hde
    | cons x l => exact ⟨l, by rw [(List.cons.inj hl).1]⟩
  · cases l with
    | nil => exact absurd (List.cons.inj hl).1.symm hde
    | cons x l =>
      have hx : e = x := (List.cons.inj hl).1
      exact absurd (.used he) (hsince e (by simp [hx]))

/-- **Operations are authorized by selections.** Whenever an operation succeeds on an object that has
to be selected, its client has selected the object before, the selection had not expired, and since
then no other client has selected the object, nobody has operated it and nobody has cancelled. An
earlier operation of the object is older than that selection, so no selection authorizes two. -/
theorem operation_selected (h : History past)
    (hneed : ((present past).model.controlModel path).needsSelect = true)
    (hok : ((present past).operate path value client now).1 = .ok ()) :
    ∃ since d earlier, past = since ++ d :: earlier ∧ d.Selects path client ∧ now.toNat ≤ d.expiry path ∧
      (∀ e ∈ since, ¬ e.Ends path client) ∧
      ∀ newer e older, past = newer ++ e :: older → e.Operates path →
        ∃ between, newer = since ++ d :: between := by
  obtain ⟨session, hget, rfl, hlive⟩ := (operate_ok_iff.1 hok).held hneed
  obtain ⟨since, d, earlier, rfl, hd, hexp, hsince⟩ := selection_of_session h hget
  refine ⟨since, d, earlier, rfl, hd, ?_, hsince, fun newer e older => operation_before_selection hd hsince⟩
  have hle : now.toNat ≤ session.expiresAt.toNat := by
    simpa [Session.expired, UInt64.le_iff_toNat_le] using hlive
  omega

/-- The second of two operations has the second of two selections to itself. -/
theorem second_operation_selected :
    let past := historyOf
      [(1200, .select "IED1LD0/CSWI1.Pos" "panel"), (1100, .operate "IED1LD0/CSWI1.Pos" (.int 2) "remote"),
        (1000, .select "IED1LD0/CSWI1.Pos" "remote"), (0, .write "IED1LD0/CSWI1.Pos.ctlModel" (.int 2))]
    ((present past).model.controlModel "IED1LD0/CSWI1.Pos").needsSelect = true ∧
      ((present past).operate "IED1LD0/CSWI1.Pos" (.int 1) "panel" 1300).1 = .ok () ∧
      ∃ since d earlier, past = since ++ d :: earlier ∧ d.Selects "IED1LD0/CSWI1.Pos" "panel" ∧
        (1300 : Millis).toNat ≤ d.expiry "IED1LD0/CSWI1.Pos" ∧
        (∀ e ∈ since, ¬ e.Ends "IED1LD0/CSWI1.Pos" "panel") ∧
        ∀ newer e older, past = newer ++ e :: older → e.Operates "IED1LD0/CSWI1.Pos" →
          ∃ between, newer = since ++ d :: between := by
  intro past
  have hok : ((present past).operate "IED1LD0/CSWI1.Pos" (.int 1) "panel" 1300).1 = .ok () := rfl
  exact ⟨rfl, hok, operation_selected (history_historyOf _) rfl hok⟩

end Switchyard.Substation
