import Mathlib.Data.Nat.Notation
import Switchyard.Proofs.Station.Places
import Switchyard.Proofs.Station.Selection

/-!
# Selections exclude other clients

A selection that has succeeded is good until it expires: nothing but its own
client, a cancellation or a new control model can end it before. Up to its last
moment every other client is kept from selecting and operating the object, and
the client itself can operate it (`selection_exclusive`).

* `Path.member_inj`: an attribute belongs to one object only, so nothing that is written
  about one object is the control model of another.
* `value?_ctlModel_after`: the events that keep a control model.
* `secured_after`: the events that keep a selection.
-/

namespace Switchyard

/-- The path of a member says which object it belongs to, if the names of members hold no point. -/
theorem Path.member_inj {path path' name name' : String} (hname : '.' ∉ name.toList) (hname' : '.' ∉ name'.toList)
    (h : member path name = member path' name') : path = path' ∧ name = name' := by
  have hlist : path.toList ++ '.' :: name.toList = path'.toList ++ '.' :: name'.toList := by
    simpa [member] using congrArg String.toList h
  -- one path goes on where the other one ends: then the point after it is a character of a name
  rcases List.append_eq_append_iff.1 hlist with ⟨l, hpath, hl⟩ | ⟨l, hpath, hl⟩
  · cases l with
    | nil =>
      rw [List.append_nil] at hpath
      exact ⟨String.toList_inj.1 hpath.symm, String.toList_inj.1 (List.cons.inj hl).2⟩
    | cons c l => exact absurd (by rw [(List.cons.inj hl).2]; simp) hname
  · cases l with
    | nil =>
      rw [List.append_nil] at hpath
      exact ⟨String.toList_inj.1 hpath, String.toList_inj.1 (List.cons.inj hl).2.symm⟩
    | cons c l => exact absurd (by rw [(List.cons.inj hl).2]; simp) hname'

namespace DataModel

theorem value?_write_of_ne (m : DataModel) {path other : String} (value : Scalar) (h : other ≠ path) :
    (m.write path value).value? other = m.value? other := SortedMap.get?_insert_of_ne _ _ h

end DataModel

/-- Requests touch registers and coils only. -/
theorem Modbus.attributes_handle (m : DataModel) (unit : UInt8) (r : Request) :
    (handle m unit r).2.attributes = m.attributes := by
  unfold handle execute
  cases r with
  | read function address quantity =>
    simp only
    split <;> rfl
  | writeCoil address value | writeRegister address value =>
    simp only
    split
    · exact DataModel.attributes_modifyProfile _ _ _
    · rfl

namespace Sessions

/-- What a refusal drops is no session that is still good. -/
theorem Dropped.get?_of_live {s s' : Sessions} {path other : String} {now : Millis}
    (h : s.Dropped other now s') {session : Session} (hs : s.get? path = some session)
    (hlive : session.expired now = false) : s'.get? path = some session := by
  rcases h with rfl | ⟨dropped, hdropped, hexpired, rfl⟩
  · exact hs
  · refine (SortedMap.get?_erase_of_ne _ ?_).trans hs
    rintro rfl
    rw [hs] at hdropped
    rw [← Option.some.inj hdropped, hlive] at hexpired
    cases hexpired

end Sessions

theorem Session.not_expired {deadline now : Millis} (client : String) (h : now ≤ deadline) :
    (Session.mk client deadline).expired now = false := by
  simpa [expired] using h

namespace Substation

theorem attributes_setCoils (s : Substation) (path : String) (closed : Bool) :
    (s.setCoils path closed).model.attributes = s.model.attributes := by
  simp only [setCoils]
  generalize s.bindings.filter (fun b => b.path == path) = bindings
  generalize s.model = m
  induction bindings generalizing m with
  | nil => rfl
  | cons b bindings ih => exact (ih _).trans (DataModel.attributes_modifyProfile _ _ _)

theorem value?_followPosition (s : Substation) (path : String) (value : Scalar) (other : String) :
    (s.followPosition path value).model.value? other = s.model.value? other := by
  unfold followPosition DataModel.value?
  split
  · split
    · rw [attributes_setCoils]
    · rfl
  · rfl

theorem value?_stamp_of_ne (s : Substation) {path other : String} (now : Millis)
    (h : other ≠ Path.member path "t") : (s.stamp path now).model.value? other = s.model.value? other := by
  simp only [stamp]
  split
  · exact s.model.value?_write_of_ne _ h
  · rfl

/-- An operation writes the status value and the time of its object, and no other attribute. -/
theorem value?_perform_of_ne (s : Substation) {path other : String} (value : Scalar) (client : String) (now : Millis)
    (hstatus : other ≠ Path.member path "stVal") (htime : other ≠ Path.member path "t") :
    (s.perform path value client now).model.value? other = s.model.value? other := by
  simp only [perform]
  rw [value?_followPosition]
  exact (value?_stamp_of_ne _ now htime).trans (s.model.value?_write_of_ne value hstatus)

/-- An event writes the control model of an object, or puts a data model in place that has another one or
none. -/
inductive Event.Rewrites (e : Event) (path : String) : Prop
  | written (value : Scalar) (ha : e.action = .write (Path.member path "ctlModel") value)
  | replaced (model : DataModel) (ha : e.action = .replaceModel model)
      (hne : model.value? (Path.member path "ctlModel") ≠ e.before.model.value? (Path.member path "ctlModel"))

/-- **All other events keep the control model**, operations of this and of other objects included. -/
theorem value?_ctlModel_after (e : Event) {path : String} (h : ¬ e.Rewrites path) :
    e.after.model.value? (Path.member path "ctlModel") = e.before.model.value? (Path.member path "ctlModel") := by
  obtain ⟨s, now, action⟩ := e
  simp only [Event.after]
  cases action with
  | write p value =>
    refine s.model.value?_write_of_ne value ?_
    rintro rfl
    exact h (.written value rfl)
  | operate p value client =>
    rcases s.operate_cases p value now client with ⟨refusal, sessions, hs, -⟩ | ⟨-, hs⟩
    · simp only [act, Prod.map, hs, id]
    · have hstatus : Path.member path "ctlModel" ≠ Path.member p "stVal" := fun heq =>
        absurd (Path.member_inj (by decide) (by decide) heq).2 (by decide)
      have htime : Path.member path "ctlModel" ≠ Path.member p "t" := fun heq =>
        absurd (Path.member_inj (by decide) (by decide) heq).2 (by decide)
      simp only [act, Prod.map, hs, id]
      exact s.value?_perform_of_ne value client now hstatus htime
  | serveModbus unit request =>
    simp only [act, serveModbus, Prod.map, id, DataModel.value?, Modbus.attributes_handle]
  | replaceModel model =>
    by_contra hne
    exact h (.replaced model rfl hne)
  | _ => rfl

theorem controlModel_after (e : Event) {path : String} (h : ¬ e.Rewrites path) :
    e.after.model.controlModel path = e.before.model.controlModel path := by
  simp only [DataModel.controlModel, value?_ctlModel_after e h]

/-- The last time at which a selection of an object by this event is good. -/
def Event.deadline (e : Event) (path : String) : Millis := e.time + e.before.model.selectTimeout path

/-- **What can end a client's selection of an object before it expires.** A new selection by the client
counts: it gives the selection a new end. -/
inductive Event.Releases (e : Event) (path client : String) : Prop
  | rewritten (h : e.Rewrites path)
  | cancelled (ha : e.action = .cancel path)
  | operated (value : Scalar) (ha : e.action = .operate path value client) (hok : e.answer = .control (.ok ()))
  | reselected (h : e.Selects path client)

variable {path client : String} {deadline now : Millis} {s : Substation}

/-- **A client has an object secured up to a time**: the object has to be selected, and the client's selection
is stored with that time. -/
structure Secured (s : Substation) (path client : String) (deadline : Millis) : Prop where
  session : s.sessions.get? path = some ⟨client, deadline⟩
  needed : (s.model.controlModel path).needsSelect = true

/-- A selection that succeeds secures the object. -/
theorem secured_of_selects {d : Event} (hd : d.Selects path client) :
    Secured d.after path client (d.deadline path) := by
  obtain ⟨s, time, action⟩ := d
  obtain ⟨ha, hok⟩ := hd
  obtain rfl : action = .select path client := ha
  rcases s.sessions.select_cases s.model s.interlock path client time with
    ⟨refusal, sessions, h, -⟩ | ⟨hneed, -, -, h⟩
  · simp [Event.answer, act, select_eq, h] at hok
  · refine ⟨?_, hneed⟩
    simp only [Event.after, act, select_eq, h, Prod.map, id]
    exact SortedMap.get?_insert_self _ _ _

/-- **An object stays secured** through every event up to the deadline that does not release it. -/
theorem secured_after {e : Event} (h : Secured e.before path client deadline) (htime : e.time ≤ deadline)
    (hkeep : ¬ e.Releases path client) : Secured e.after path client deadline := by
  have hlive := Session.not_expired client htime
  have hneed := controlModel_after e fun hw => hkeep (.rewritten hw)
  refine ⟨?_, by rw [hneed]; exact h.needed⟩
  obtain ⟨s, time, action⟩ := e
  obtain ⟨hs, hneeded⟩ := h
  simp only at hs hneeded htime hlive
  simp only [Event.after, sessions_act]
  cases action with
  | select p other =>
    rcases s.sessions.select_cases s.model s.interlock p other time with
      ⟨refusal, sessions, h, hdropped⟩ | ⟨-, hown, -, h⟩
    · simp only [h]
      exact hdropped.get?_of_live hs hlive
    · have hexpire := (Sessions.dropped_expire s.sessions p time).get?_of_live hs hlive
      simp only [h]
      by_cases hp : path = p
      · -- the selection has succeeded, so it is one of the client's own
        subst hp
        obtain rfl : client = other := hown _ hexpire
        exact absurd (.reselected ⟨rfl, by simp [Event.answer, act, select_eq, h]⟩) hkeep
      · rw [SortedMap.get?_insert_of_ne _ _ hp, hexpire]
  | operate p value other =>
    rcases s.operate_cases p value time other with ⟨refusal, sessions, h, hdropped, -⟩ | ⟨hpermits, h⟩
    · simp only [h]
      exact hdropped.get?_of_live hs hlive
    · simp only [h, sessions_perform]
      by_cases hp : path = p
      · -- the operation is permitted, so it is one of the client's own
        subst hp
        obtain ⟨session, hsession, rfl, -⟩ := hpermits.held hneeded
        obtain rfl := Option.some.inj (hs.symm.trans hsession)
        exact absurd (.operated value rfl (by simp [Event.answer, act, h])) hkeep
      · exact (SortedMap.get?_erase_of_ne _ hp).trans hs
  | cancel p =>
    have hp : path ≠ p := by
      rintro rfl
      exact hkeep (.cancelled rfl)
    exact (SortedMap.get?_erase_of_ne _ hp).trans hs
  | _ => exact hs

/-- An object stays secured along a stretch of a history. -/
theorem secured_run {since older : List Event} (h : History (since ++ older))
    (hs : Secured (present older) path client deadline)
    (hsince : ∀ e ∈ since, e.time ≤ deadline ∧ ¬ e.Releases path client) :
    Secured (present (since ++ older)) path client deadline := by
  induction since with
  | nil => exact hs
  | cons e since ih =>
    have hbefore := ih h.tail fun x hx => hsince x (List.mem_cons_of_mem _ hx)
    obtain ⟨htime, hkeep⟩ := hsince e List.mem_cons_self
    exact secured_after (h.before_eq ▸ hbefore) htime hkeep

theorem Secured.select_other (h : Secured s path client deadline) (hnow : now ≤ deadline) {other : String}
    (hother : other ≠ client) : (s.select path other now).1 = .error .lockedByOther := by
  have hlive : s.sessions.expire path now = s.sessions := by
    simp [Sessions.expire, h.session, Session.not_expired client hnow]
  simp [select_eq, Sessions.select, h.needed, hlive, h.session, hother.symm]

theorem Secured.operable (h : Secured s path client deadline) : s.model.controlModel path ≠ .statusOnly := by
  intro hstatus
  have := h.needed
  rw [hstatus] at this
  cases this

theorem Secured.operate_other (h : Secured s path client deadline) (hnow : now ≤ deadline) {other : String}
    (hother : other ≠ client) (value : Scalar) : (s.operate path value other now).1 = .error .clientMismatch := by
  simp [operate, Sessions.authorize, h.operable, h.needed, Sessions.checkSelected, h.session,
    Session.not_expired client hnow, hother.symm]

/-- The client itself is permitted all that the interlock lets pass. -/
theorem Secured.operate_own (h : Secured s path client deadline) (hnow : now ≤ deadline) (value : Scalar) :
    (s.operate path value client now).1 =
      if (s.model.controlModel path).isEnhanced && s.interlock.blocks s.model path (some value)
      then .error .interlocked else .ok () := by
  have hselected : s.sessions.checkSelected path client now = (.ok (), s.sessions) := by
    simp [Sessions.checkSelected, h.session, Session.not_expired client hnow]
  simp only [operate, Sessions.authorize, h.operable, h.needed, if_true, if_false, hselected, Interlock.check]
  cases (s.model.controlModel path).isEnhanced <;> cases s.interlock.blocks s.model path (some value) <;> rfl

/-- **A selection excludes the other clients until it expires.** Take the client's latest selection of an
object that has succeeded, and a history since then with no event after `now` and none that releases the
object: the control model is not written or removed, nobody cancels, and the client has not operated the
object. Up to the deadline, and at it, every other client is refused, and the client is not: its operations
succeed, unless the object has enhanced security and the interlock stops the value. -/
theorem selection_exclusive {since earlier : List Event} {d : Event} (h : History (since ++ d :: earlier))
    (hd : d.Selects path client) (hsince : ∀ e ∈ since, e.time ≤ now ∧ ¬ e.Releases path client)
    (hnow : now ≤ d.deadline path) :
    let s := present (since ++ d :: earlier)
    (∀ other, other ≠ client →
      (s.select path other now).1.mapError Refusal.message = .error "Locked by another client" ∧
      ∀ value, (s.operate path value other now).1.mapError Refusal.message = .error "Selected by another client") ∧
    ∀ value, (s.operate path value client now).1 =
      if (s.model.controlModel path).isEnhanced && s.interlock.blocks s.model path (some value)
      then .error .interlocked else .ok () := by
  intro s
  have hsecured : Secured s path client (d.deadline path) := by
    refine secured_run h (secured_of_selects hd) fun e he => ?_
    obtain ⟨htime, hkeep⟩ := hsince e he
    exact ⟨UInt64.le_trans htime hnow, hkeep⟩
  refine ⟨fun other hother => ⟨?_, fun value => ?_⟩, fun value => hsecured.operate_own hnow value⟩
  · rw [hsecured.select_other hnow hother]
    rfl
  · rw [hsecured.operate_other hnow hother]
    rfl

/-- At the last moment of a selection the panel is still kept out, and the remote operator gets through. In
between the panel has operated another object and tried to select this one. -/
theorem excluded_at_deadline :
    let earlier := historyOf [(0, .write "IED1LD0/CSWI1.Pos.ctlModel" (.int 2))]
    let d : Event := ⟨present earlier, 1000, .select "IED1LD0/CSWI1.Pos" "remote"⟩
    let x : Event := ⟨present (d :: earlier), 1500, .operate "IED1LD0/XCBR1.Pos" (.int 2) "panel"⟩
    let y : Event := ⟨present (x :: d :: earlier), 2000, .select "IED1LD0/CSWI1.Pos" "panel"⟩
    let s := present ([y, x] ++ d :: earlier)
    History ([y, x] ++ d :: earlier) ∧ d.Selects "IED1LD0/CSWI1.Pos" "remote" ∧
      (∀ e ∈ [y, x], e.time ≤ 31000 ∧ ¬ e.Releases "IED1LD0/CSWI1.Pos" "remote") ∧
      31000 ≤ d.deadline "IED1LD0/CSWI1.Pos" ∧
      (s.select "IED1LD0/CSWI1.Pos" "panel" 31000).1.mapError Refusal.message =
        .error "Locked by another client" ∧
      (s.operate "IED1LD0/CSWI1.Pos" (.int 1) "panel" 31000).1.mapError Refusal.message =
        .error "Selected by another client" ∧
      (s.operate "IED1LD0/CSWI1.Pos" (.int 1) "remote" 31000).1 = .ok () := by
  intro earlier d x y s
  have h : History ([y, x] ++ d :: earlier) := (((history_historyOf _).next _ _).next _ _).next _ _
  have hd : d.Selects "IED1LD0/CSWI1.Pos" "remote" := ⟨rfl, rfl⟩
  have hsince : ∀ e ∈ [y, x], e.time ≤ 31000 ∧ ¬ e.Releases "IED1LD0/CSWI1.Pos" "remote" := by
    simp only [List.forall_mem_cons, List.not_mem_nil, false_implies, implies_true, and_true]
    refine ⟨⟨by decide, ?_⟩, by decide, ?_⟩
    · rintro ((⟨_, ha⟩ | ⟨_, ha, -⟩) | ha | ⟨_, ha, -⟩ | ⟨ha, -⟩) <;> simp [y] at ha
    · rintro ((⟨_, ha⟩ | ⟨_, ha, -⟩) | ha | ⟨_, ha, -⟩ | ⟨ha, -⟩) <;> simp [x] at ha
  have hnow : 31000 ≤ d.deadline "IED1LD0/CSWI1.Pos" := by decide
  obtain ⟨hothers, hown⟩ := selection_exclusive h hd hsince hnow
  obtain ⟨hselect, hoperate⟩ := hothers "panel" (by decide)
  exact ⟨h, hd, hsince, hnow, hselect, hoperate _, hown _⟩

end Substation
end Switchyard
