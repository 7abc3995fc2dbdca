import Switchyard.Proofs.Station.Interlock
import Switchyard.Proofs.Station.Places
import Switchyard.Proofs.Station.Shown

/-!
# What a control does to a whole substation

A control that is refused leaves a substation as it was, except that a session of
its own object that had expired may be gone (`Undisturbed`). An operation that
succeeds writes the status of its object, stamps the time, uses up the session, sets
the coils that follow the object, queues one update and tells the publishers; it does
nothing else (`Performed`).

A coil is told from another one by the place where its profile is kept, and not by the
id (`DataModel.place`).

* `Substation.Follows`, `Substation.model_followPosition`: the coils that an operation sets.
* `Substation.refused_undisturbed`: what refused controls leave.
* `Substation.performed_operate`: what operations that succeed leave.
-/

namespace Switchyard

namespace Substation

variable {s : Substation} {path client : String} {value : Scalar} {now : Millis} {closed : Bool} {m : DataModel}
  {b : BreakerBinding} {place : Option String} {table : Table} {a : UInt16}

theorem place_follow (closed : Bool) (m : DataModel) (b : BreakerBinding) (id : String) :
    (follow closed m b).place id = m.place id := m.place_modifyProfile _ _ id

theorem heading?_follow (closed : Bool) (m : DataModel) (b : BreakerBinding) (place : Option String) :
    (follow closed m b).heading? place = m.heading? place := by
  rw [DataModel.heading?, follow, DataModel.profileAt?_modifyProfile]
  split
  · rw [Option.map_map]
    rfl
  · rfl

theorem point?_follow (h : ¬ (table = .coil ∧ m.place b.profile = place ∧ b.coil = a)) :
    (follow closed m b).point? place table a = m.point? place table a := by
  rw [DataModel.point?, follow, DataModel.profileAt?_modifyProfile]
  split
  · rename_i hplace
    have hcoil : ¬ (table = .coil ∧ b.coil = a) := fun hin => h ⟨hin.1, hplace.symm, hin.2⟩
    unfold DataModel.point?
    cases m.profileAt? place with
    | none => rfl
    | some p => exact p.point?_setCoil_of_ne closed hcoil
  · rfl

theorem place_foldl_follow (l : List BreakerBinding) (m : DataModel) (id : String) :
    (l.foldl (follow closed) m).place id = m.place id := by
  induction l generalizing m with
  | nil => rfl
  | cons b l ih => exact (ih _).trans (place_follow closed m b id)

/-- Profiles keep their ids and units when coils are set. -/
theorem heading?_foldl_follow (l : List BreakerBinding) (m : DataModel) (place : Option String) :
    (l.foldl (follow closed) m).heading? place = m.heading? place := by
  induction l generalizing m with
  | nil => rfl
  | cons b l ih => exact (ih _).trans (heading?_follow closed m b place)

/-- Points that no binding leads to stay when the coils of the bindings are set. -/
theorem point?_foldl_follow (l : List BreakerBinding) (m : DataModel)
    (h : ∀ b ∈ l, ¬ (table = .coil ∧ m.place b.profile = place ∧ b.coil = a)) :
    (l.foldl (follow closed) m).point? place table a = m.point? place table a := by
  induction l generalizing m with
  | nil => rfl
  | cons b l ih =>
    obtain ⟨hb, hl⟩ := List.forall_mem_cons.1 h
    refine (ih _ fun c hc => ?_).trans (point?_follow hb)
    rw [place_follow]
    exact hl c hc

/-- **A coil follows an operation**: the object is the position of a breaker, the value has a state for it, and a
binding of the object leads to the coil. -/
def Follows (s : Substation) (path : String) (value : Scalar) (place : Option String) (a : UInt16) : Prop :=
  Path.namesBreaker path = true ∧ (closedState? value).isSome = true ∧
    ∃ b ∈ s.bindings, b.path = path ∧ s.model.place b.profile = place ∧ b.coil = a

/-- **A new position sets coils that follow it**, one after the other, and does nothing else. -/
theorem model_followPosition (s : Substation) (path : String) (value : Scalar) :
    ∃ (closed : Bool) (l : List BreakerBinding),
      (s.followPosition path value).model = l.foldl (follow closed) s.model ∧
        ∀ b ∈ l, s.Follows path value (s.model.place b.profile) b.coil := by
  unfold followPosition
  split
  · rename_i hbreaker
    split
    · rename_i closed hstate
      refine ⟨closed, _, rfl, ?_⟩
      intro b hb
      obtain ⟨hb, hpath⟩ := List.mem_filter.1 hb
      refine ⟨hbreaker, ?_, b, hb, ?_, rfl, rfl⟩
      · rw [hstate]
        rfl
      · simpa using hpath
    · exact ⟨false, [], rfl, nofun⟩
  · exact ⟨false, [], rfl, nofun⟩

/-- **What a refused control leaves**: all that was there, and the sessions, but for a session of the object
that had expired. -/
structure Undisturbed (s : Substation) (path : String) (now : Millis) (s' : Substation) : Prop where
  model : s'.model = s.model
  publishers : s'.publishers = s.publishers
  interlock : s'.interlock = s.interlock
  bindings : s'.bindings = s.bindings
  updates : s'.updates = s.updates
  others : ∀ other, other ≠ path → s'.sessions.get? other = s.sessions.get? other
  own : s'.sessions.get? path = s.sessions.get? path ∨
    ∃ session, s.sessions.get? path = some session ∧ session.expired now = true ∧ s'.sessions.get? path = none

theorem undisturbed_of_dropped {sessions : Sessions} (h : s.sessions.Dropped path now sessions) :
    Undisturbed s path now { s with sessions } := by
  rcases h with rfl | ⟨session, hsession, hexpired, rfl⟩
  · exact ⟨rfl, rfl, rfl, rfl, rfl, fun _ _ => rfl, Or.inl rfl⟩
  · exact ⟨rfl, rfl, rfl, rfl, rfl, fun _ hne => SortedMap.get?_erase_of_ne _ hne,
      Or.inr ⟨session, hsession, hexpired, SortedMap.get?_erase_self _ _⟩⟩

/-- **Refused controls change nothing**, whatever they are refused for, except that a session of the object that
had expired may be dropped. -/
theorem refused_undisturbed (s : Substation) (path client : String) (now : Millis) :
    (∀ refusal, (s.select path client now).1 = .error refusal →
      Undisturbed s path now (s.select path client now).2) ∧
    ∀ value refusal, (s.operate path value client now).1 = .error refusal →
      Undisturbed s path now (s.operate path value client now).2 := by
  constructor
  · intro refusal hrefused
    rw [select_eq] at hrefused ⊢
    rcases s.sessions.select_cases s.model s.interlock path client now with ⟨_, sessions, h, hd⟩ | ⟨-, -, -, h⟩
    · rw [h]
      exact undisturbed_of_dropped hd
    · rw [h] at hrefused
      cases hrefused
  · intro value refusal hrefused
    rcases s.operate_cases path value now client with ⟨_, sessions, h, hd, -⟩ | ⟨-, h⟩
    · rw [h]
      exact undisturbed_of_dropped hd
    · rw [h] at hrefused
      cases hrefused

/-- A session that has expired is dropped by a selection that the kill switch stops, and by an operation of the
client it belongs to. -/
theorem expired_dropped :
    let killed := DataModel.blank.modifyProfile defaultProfileId fun p => p.setCoil defaultKillSwitch true
    let s := present (historyOf [(1500, .replaceModel (killed.write "IED1LD0/CSWI1.Pos.ctlModel" (.int 4))),
      (1000, .select "IED1LD0/CSWI1.Pos" "remote"), (0, .write "IED1LD0/CSWI1.Pos.ctlModel" (.int 4))])
    s.sessions.get? "IED1LD0/CSWI1.Pos" = some ⟨"remote", 31000⟩ ∧
      (s.select "IED1LD0/CSWI1.Pos" "panel" 31001).1 = .error .interlocked ∧
      Undisturbed s "IED1LD0/CSWI1.Pos" 31001 (s.select "IED1LD0/CSWI1.Pos" "panel" 31001).2 ∧
      (s.operate "IED1LD0/CSWI1.Pos" (.int 2) "remote" 31001).1 = .error .selectionExpired ∧
      Undisturbed s "IED1LD0/CSWI1.Pos" 31001 (s.operate "IED1LD0/CSWI1.Pos" (.int 2) "remote" 31001).2 ∧
      (s.operate "IED1LD0/CSWI1.Pos" (.int 2) "remote" 31001).2.sessions.get? "IED1LD0/CSWI1.Pos" = none := by
  intro killed s
  have hselect : (s.select "IED1LD0/CSWI1.Pos" "panel" 31001).1 = .error .interlocked := rfl
  have hoperate : (s.operate "IED1LD0/CSWI1.Pos" (.int 2) "remote" 31001).1 = .error .selectionExpired := rfl
  exact ⟨rfl, hselect, (refused_undisturbed s _ _ _).1 _ hselect, hoperate,
    (refused_undisturbed s _ _ _).2 _ _ hoperate, rfl⟩

/-- **What an operation leaves that succeeds.** What is not named here is as it was; the publishers take note of the
status and of the time. -/
structure Performed (s : Substation) (path : String) (value : Scalar) (client : String) (now : Millis)
    (s' : Substation) : Prop where
  status : s'.model.value? (Path.member path "stVal") = some value
  /-- The time is stamped where the object has one. -/
  time : s'.model.value? (Path.member path "t") =
    (s.model.value? (Path.member path "t")).map fun _ => .ofMillis now
  attributes : ∀ other, other ≠ Path.member path "stVal" → other ≠ Path.member path "t" →
    s'.model.value? other = s.model.value? other
  released : s'.sessions.get? path = none
  sessions : ∀ other, other ≠ path → s'.sessions.get? other = s.sessions.get? other
  /-- All coils that follow the object have the state of the value. -/
  coils : Path.namesBreaker path = true → ∀ closed, closedState? value = some closed →
    ∀ b ∈ s.bindings, b.path = path → (s'.model.profile b.profile).coils.get? b.coil = some closed
  points : ∀ place table a, ¬ (table = .coil ∧ s.Follows path value place a) →
    s'.model.point? place table a = s.model.point? place table a
  places : ∀ id, s'.model.place id = s.model.place id
  headings : ∀ place, s'.model.heading? place = s.model.heading? place
  interlock : s'.interlock = s.interlock
  bindings : s'.bindings = s.bindings
  publishers : s'.publishers = (s.writeAll now (s.operationWrites path value now)).publishers
  /-- One update is queued, behind those that wait. -/
  updates : s'.updates = s.updates ++ [⟨path, client, value, now⟩]

/-- A new position is a matter of the data model. -/
theorem followPosition_eq (s : Substation) (path : String) (value : Scalar) :
    s.followPosition path value = { s with model := (s.followPosition path value).model } := by
  unfold followPosition
  split
  · split <;> rfl
  · rfl

/-- The time is a matter of the attributes, and of the publishers that take note of it. -/
theorem stamp_eq (s : Substation) (path : String) (now : Millis) :
    s.stamp path now =
      { s with
        model := { s.model with attributes := (s.stamp path now).model.attributes }
        publishers := (s.stamp path now).publishers } := by
  simp only [stamp]
  split <;> rfl

/-- An operation that is performed uses up the session, queues an update, and is otherwise a matter of the data
model and of the publishers. -/
theorem perform_eq (s : Substation) (path : String) (value : Scalar) (client : String) (now : Millis) :
    s.perform path value client now =
      { s with
        model := (s.perform path value client now).model
        sessions := s.sessions.erase path
        publishers := (s.perform path value client now).publishers
        updates := s.updates ++ [⟨path, client, value, now⟩] } := by
  simp only [perform]
  rw [followPosition_eq, stamp_eq]
  rfl

/-- **What an operation does to the data model**: it changes attributes, and sets coils that follow it. -/
theorem model_perform (s : Substation) (path : String) (value : Scalar) (client : String) (now : Millis) :
    ∃ (attributes : SortedMap String Scalar) (closed : Bool) (l : List BreakerBinding),
      (s.perform path value client now).model = l.foldl (follow closed) { s.model with attributes } ∧
        ∀ b ∈ l, s.Follows path value (s.model.place b.profile) b.coil := by
  -- attributes are written first, and neither the places of profiles nor the bindings depend on them
  let written := (s.writeAttribute (Path.member path "stVal") value now).stamp path now
  have hwritten : written.model = { s.model with attributes := written.model.attributes } :=
    congrArg Substation.model (stamp_eq _ path now)
  have hbindings : written.bindings = s.bindings := bindings_stamp _ path now
  have hplace (id : String) : written.model.place id = s.model.place id := by rw [hwritten]; rfl
  obtain ⟨closed, l, hmodel, hl⟩ :=
    model_followPosition { written with sessions := written.sessions.erase path } path value
  refine ⟨written.model.attributes, closed, l, hwritten ▸ hmodel, fun b hb => ?_⟩
  simpa only [Follows, hbindings, hplace] using hl b hb

/-- The attributes of an operation are written before the coils are set, and among the attributes only the
status and the time. -/
theorem value?_perform (s : Substation) (path : String) (value : Scalar) (client : String) (now : Millis) :
    (s.perform path value client now).model.value? (Path.member path "stVal") = some value ∧
      (s.perform path value client now).model.value? (Path.member path "t") =
        (s.model.value? (Path.member path "t")).map fun _ => .ofMillis now := by
  have hne : Path.member path "t" ≠ Path.member path "stVal" := fun h =>
    absurd (Path.member_inj (by decide) (by decide) h).2 (by decide)
  have htime : (s.writeAttribute (Path.member path "stVal") value now).model.value? (Path.member path "t") =
      s.model.value? (Path.member path "t") := s.model.value?_write_of_ne value hne
  simp only [perform, value?_followPosition]
  constructor
  · exact (value?_stamp_of_ne _ now hne.symm).trans (SortedMap.get?_insert_self _ _ _)
  · simp only [stamp, htime]
    cases h : s.model.value? (Path.member path "t") with
    | none => exact htime.trans h
    | some old => exact SortedMap.get?_insert_self _ _ _

/-- **An operation that succeeds does all that, and no more.** -/
theorem performed_operate (hok : (s.operate path value client now).1 = .ok ()) :
    Performed s path value client now (s.operate path value client now).2 := by
  have hcoils (hbreaker : Path.namesBreaker path = true) (closed : Bool) (hstate : closedState? value = some closed)
      (b : BreakerBinding) (hb : b ∈ s.bindings) (hpath : b.path = path) :
      ((s.operate path value client now).2.model.profile b.profile).coils.get? b.coil = some closed :=
    Moves.coil ⟨hok, hbreaker, hstate⟩ hb hpath
  rcases s.operate_cases path value now client with ⟨_, _, h, -⟩ | ⟨-, h⟩
  · rw [h] at hok
    cases hok
  -- from here on the operation is what `perform` does
  rw [h] at hcoils ⊢
  have hfields := s.perform_eq path value client now
  obtain ⟨hstatus, htime⟩ := s.value?_perform path value client now
  obtain ⟨attributes, closed, l, hmodel, hl⟩ := s.model_perform path value client now
  refine ⟨hstatus, htime, ?attributes, ?released, ?sessions, hcoils, ?points, ?places, ?headings, ?interlock,
    ?bindings, ?publishers, ?updates⟩
  case attributes =>
    intro other hne hne'
    exact s.value?_perform_of_ne value client now hne hne'
  case released =>
    rw [hfields]
    exact SortedMap.get?_erase_self _ _
  case sessions =>
    intro other hne
    rw [hfields]
    exact SortedMap.get?_erase_of_ne _ hne
  case points =>
    intro place table a hnot
    rw [hmodel]
    apply point?_foldl_follow
    rintro b hb ⟨htable, rfl, rfl⟩
    exact hnot ⟨htable, hl b hb⟩
  case places =>
    intro id
    rw [hmodel]
    exact place_foldl_follow l _ id
  case headings =>
    intro place
    rw [hmodel]
    exact heading?_foldl_follow l _ place
  case interlock => rw [hfields]
  case bindings => rw [hfields]
  case publishers => exact s.publishers_perform path value client now
  case updates => rw [hfields]

end Substation
end Switchyard
