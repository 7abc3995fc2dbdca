import Mathlib.Tactic.Common
import Switchyard.Station.Substation

/-!
# What selecting and operating do

One statement for each operation says all it can do: the guards it has passed,
or that it is refused, in which case no more than an expired session of its own
path is dropped. The proofs about histories go by these cases and open no
definition.

* `Sessions.select_cases`, `Sessions.authorize_cases`: the two gates. What the second one asks for is
  `Sessions.Permits`.
* `Substation.operate_cases`: an operation is refused, or it is permitted and performed.
-/

namespace Switchyard

namespace Sessions

variable {s s' : Sessions} {m : DataModel} {i : Interlock} {path client : String} {now : Millis}

/-- What a refusal may do to the sessions: a session on the path that had expired may be dropped. -/
def Dropped (s : Sessions) (path : String) (now : Millis) (s' : Sessions) : Prop :=
  s' = s ∨ ∃ session, s.get? path = some session ∧ session.expired now = true ∧ s' = s.erase path

/-- A session that has expired is dropped. -/
theorem dropped_expire (s : Sessions) (path : String) (now : Millis) : s.Dropped path now (s.expire path now) := by
  cases hs : s.get? path with
  | none => exact Or.inl (by simp [expire, hs])
  | some session =>
    by_cases hx : session.expired now = true
    · exact Or.inr ⟨session, hs, hx, by simp [expire, hs, hx]⟩
    · exact Or.inl (by simp [expire, hs, hx])

theorem Dropped.get? (h : s.Dropped path now s') {other : String} {session : Session}
    (hs : s'.get? other = some session) : s.get? other = some session := by
  rcases h with rfl | ⟨-, -, -, rfl⟩
  · exact hs
  · exact (SortedMap.get?_erase_eq_some.1 hs).2

/-- **How a selection ends.** It is refused, or it is stored for the client in the place of the
client's own session or of none. -/
theorem select_cases (s : Sessions) (m : DataModel) (i : Interlock) (path client : String) (now : Millis) :
    (∃ refusal s', s.select m i path client now = (.error refusal, s') ∧ s.Dropped path now s') ∨
      ((m.controlModel path).needsSelect = true ∧
        (∀ session, (s.expire path now).get? path = some session → session.client = client) ∧
        ((m.controlModel path).isEnhanced && i.blocks m path none) = false ∧
        s.select m i path client now =
          (.ok (), (s.expire path now).insert path ⟨client, now + m.selectTimeout path⟩)) := by
  simp only [select]
  by_cases hneed : (m.controlModel path).needsSelect = true
  swap
  · exact Or.inl ⟨.selectionUnsupported, s, by simp [hneed], Or.inl rfl⟩
  by_cases hother : ((s.expire path now).get? path).any (fun session => session.client != client) = true
  · exact Or.inl ⟨.lockedByOther, _, by simp [hneed, hother], dropped_expire s path now⟩
  by_cases hblock : ((m.controlModel path).isEnhanced && i.blocks m path none) = true
  · exact Or.inl ⟨.interlocked, _, by simp only [hneed, hother, hblock]; rfl, dropped_expire s path now⟩
  refine Or.inr ⟨hneed, ?_, by simpa using hblock, by simp only [hneed, hother, hblock]; rfl⟩
  intro session hs
  simpa [hs] using hother

/-- **Where a session comes from when an object is selected**: it is the one that is stored, or it was there
before; on the object itself the latter takes a refusal. -/
theorem get?_select {other : String} {session : Session}
    (h : (s.select m i path client now).2.get? other = some session) :
    (other = path ∧ (s.select m i path client now).1 = .ok () ∧
        session = ⟨client, now + m.selectTimeout path⟩) ∨
      (s.get? other = some session ∧
        (other = path → ∃ refusal, (s.select m i path client now).1 = .error refusal)) := by
  rcases s.select_cases m i path client now with ⟨refusal, s', hs, hd⟩ | ⟨-, -, -, hs⟩
  · rw [hs] at h ⊢
    exact Or.inr ⟨hd.get? h, fun _ => ⟨refusal, rfl⟩⟩
  · rw [hs] at h ⊢
    by_cases hp : other = path
    · subst hp
      rw [SortedMap.get?_insert_self] at h
      exact Or.inl ⟨rfl, rfl, (Option.some.inj h).symm⟩
    · rw [SortedMap.get?_insert_of_ne _ _ hp] at h
      exact Or.inr ⟨(dropped_expire s path now).get? h, fun hpath => absurd hpath hp⟩

/-- A client holds an object: its selection is stored and has not expired. -/
def Holds (s : Sessions) (path client : String) (now : Millis) : Prop :=
  ∃ session, s.get? path = some session ∧ session.client = client ∧ session.expired now = false

/-- **What permission takes**: the object can be operated, the client holds it, where it has to be
selected, and the interlock lets the value pass, where it applies. -/
structure Permits (s : Sessions) (m : DataModel) (i : Interlock) (path : String) (value : Scalar)
    (client : String) (now : Millis) : Prop where
  operable : m.controlModel path ≠ .statusOnly
  held : (m.controlModel path).needsSelect = true → s.Holds path client now
  unblocked : (m.controlModel path).isEnhanced = true → i.blocks m path (some value) = false

/-- A client holds the selection or is refused, and the refusal drops no session that has not expired. -/
theorem checkSelected_cases (s : Sessions) (path client : String) (now : Millis) :
    (∃ refusal s', s.checkSelected path client now = (.error refusal, s') ∧ s.Dropped path now s' ∧
        ¬ s.Holds path client now) ∨
      (s.Holds path client now ∧ s.checkSelected path client now = (.ok (), s)) := by
  unfold checkSelected Holds
  cases hs : s.get? path with
  | none => exact Or.inl ⟨.notSelected, s, rfl, Or.inl rfl, by simp⟩
  | some session =>
    by_cases hx : session.expired now = true
    · exact Or.inl ⟨.selectionExpired, _, by simp [hx], Or.inr ⟨session, hs, hx, rfl⟩, by simp [hx]⟩
    by_cases hc : session.client = client
    · exact Or.inr ⟨⟨session, rfl, hc, by simpa using hx⟩, by simp [hx, hc]⟩
    · exact Or.inl ⟨.clientMismatch, s, by simp [hx, hc], Or.inl rfl, by simp [hc]⟩

/-- **How a request for permission ends.** It is refused exactly when permission is lacking. -/
theorem authorize_cases (s : Sessions) (m : DataModel) (i : Interlock) (path : String) (value : Scalar)
    (client : String) (now : Millis) :
    (∃ refusal s', s.authorize m i path value client now = (.error refusal, s') ∧ s.Dropped path now s' ∧
        ¬ s.Permits m i path value client now) ∨
      (s.Permits m i path value client now ∧ s.authorize m i path value client now = (.ok (), s)) := by
  simp only [authorize]
  by_cases hstatus : m.controlModel path = .statusOnly
  · exact Or.inl ⟨.operationUnsupported, s, by rw [if_pos hstatus], Or.inl rfl, fun h => h.operable hstatus⟩
  rw [if_neg hstatus]
  -- the last gate, behind the selection: the interlock
  have hgate : ∀ r : Except Refusal Unit × Sessions,
      r = (if (m.controlModel path).isEnhanced = true then (i.check m path (some value), s) else (.ok (), s)) →
      ((m.controlModel path).isEnhanced = true ∧ i.blocks m path (some value) = true ∧
        r = (.error .interlocked, s)) ∨
      (((m.controlModel path).isEnhanced = true → i.blocks m path (some value) = false) ∧ r = (.ok (), s)) := by
    rintro r rfl
    by_cases he : (m.controlModel path).isEnhanced = true
    · by_cases hb : i.blocks m path (some value) = true
      · exact Or.inl ⟨he, hb, by simp [he, hb, Interlock.check]⟩
      · exact Or.inr ⟨fun _ => by simpa using hb, by simp [he, hb, Interlock.check]⟩
    · exact Or.inr ⟨fun h => absurd h he, by simp [he]⟩
  have hblocked : (m.controlModel path).isEnhanced = true → i.blocks m path (some value) = true →
      ¬ s.Permits m i path value client now := by
    intro he hb h
    rw [h.unblocked he] at hb; cases hb
  by_cases hneed : (m.controlModel path).needsSelect = true
  · rw [if_pos hneed]
    rcases checkSelected_cases s path client now with ⟨refusal, s', hr, hd, hn⟩ | ⟨hheld, hr⟩
    · exact Or.inl ⟨refusal, s', by rw [hr], hd, fun h => hn (h.held hneed)⟩
    · rw [hr]
      rcases hgate _ rfl with ⟨he, hb, h⟩ | ⟨hb, h⟩
      · exact Or.inl ⟨.interlocked, s, h, Or.inl rfl, hblocked he hb⟩
      · exact Or.inr ⟨⟨hstatus, fun _ => hheld, hb⟩, h⟩
  · rw [if_neg hneed]
    rcases hgate _ rfl with ⟨he, hb, h⟩ | ⟨hb, h⟩
    · exact Or.inl ⟨.interlocked, s, h, Or.inl rfl, hblocked he hb⟩
    · exact Or.inr ⟨⟨hstatus, fun h => absurd h hneed, hb⟩, h⟩

end Sessions

namespace DataModel

variable (m : DataModel) (id : String) (f : Profile → Profile)

theorem profile_modifyProfile_self : (m.modifyProfile id f).profile id = f (m.profile id) := by
  cases h : m.profiles.get? id with
  | none => simp [modifyProfile, profile, h]
  | some p => simp [modifyProfile, profile, h, SortedMap.get?_insert_self]

/-- A change of a profile reaches every id that names the profile, and no other. -/
theorem profile_modifyProfile_cases (other : String) :
    (m.modifyProfile id f).profile other = f (m.profile other) ∨
      (m.modifyProfile id f).profile other = m.profile other := by
  by_cases ho : other = id
  · subst ho; exact Or.inl (m.profile_modifyProfile_self other f)
  cases h : m.profiles.get? id with
  | none =>
    cases h' : m.profiles.get? other with
    | none => exact Or.inl (by simp [modifyProfile, profile, h, h'])
    | some p => exact Or.inr (by simp [modifyProfile, profile, h, h'])
  | some p => exact Or.inr (by simp [modifyProfile, profile, h, SortedMap.get?_insert_of_ne _ _ ho])

end DataModel

namespace Substation

variable (s : Substation) (path : String) (value : Scalar) (now : Millis)

@[simp] theorem sessions_writeAttribute : (s.writeAttribute path value now).sessions = s.sessions := rfl

@[simp] theorem bindings_writeAttribute : (s.writeAttribute path value now).bindings = s.bindings := rfl

@[simp] theorem bindings_stamp : (s.stamp path now).bindings = s.bindings := by
  simp only [stamp]
  split <;> rfl

@[simp] theorem sessions_stamp : (s.stamp path now).sessions = s.sessions := by
  simp only [stamp]
  split <;> rfl

@[simp] theorem sessions_followPosition : (s.followPosition path value).sessions = s.sessions := by
  unfold followPosition
  split
  · split <;> rfl
  · rfl

@[simp] theorem sessions_perform (client : String) :
    (s.perform path value client now).sessions = s.sessions.erase path := by
  simp [perform]

/-- One coil that follows a breaker is set. -/
def follow (closed : Bool) (m : DataModel) (b : BreakerBinding) : DataModel :=
  m.modifyProfile b.profile fun p => p.setCoil b.coil closed

theorem coil_follow_self (closed : Bool) (m : DataModel) (b : BreakerBinding) :
    ((follow closed m b).profile b.profile).coils.get? b.coil = some closed := by
  rw [follow, m.profile_modifyProfile_self]
  exact SortedMap.get?_insert_self _ _ _

/-- A coil stays as it is set while others follow it into the same state, itself included. -/
theorem coil_follow {closed : Bool} {m : DataModel} {b : BreakerBinding} (c : BreakerBinding)
    (h : (m.profile b.profile).coils.get? b.coil = some closed) :
    ((follow closed m c).profile b.profile).coils.get? b.coil = some closed := by
  rcases m.profile_modifyProfile_cases c.profile (fun p => p.setCoil c.coil closed) b.profile with he | he
  · rw [follow, he]
    by_cases hc : b.coil = c.coil
    · rw [hc]; exact SortedMap.get?_insert_self _ _ _
    · exact (SortedMap.get?_insert_of_ne _ _ hc).trans h
  · rw [follow, he]; exact h

/-- A coil that follows a breaker follows it past all other ones. -/
theorem coil_foldl_follow {closed : Bool} {b : BreakerBinding} (l : List BreakerBinding) (m : DataModel)
    (h : b ∈ l ∨ (m.profile b.profile).coils.get? b.coil = some closed) :
    ((l.foldl (follow closed) m).profile b.profile).coils.get? b.coil = some closed := by
  induction l generalizing m with
  | nil => exact h.resolve_left (by simp)
  | cons c l ih =>
    apply ih
    rcases h with h | h
    · rcases List.mem_cons.1 h with rfl | h
      · exact Or.inr (coil_follow_self closed m b)
      · exact Or.inl h
    · exact Or.inr (coil_follow c h)

/-- The coils that follow a breaker all have the state they are set to, also where several of them are one
coil. -/
theorem coil_setCoils {closed : Bool} {b : BreakerBinding} (hb : b ∈ s.bindings) (hp : b.path = path) :
    ((s.setCoils path closed).model.profile b.profile).coils.get? b.coil = some closed :=
  coil_foldl_follow _ _ (Or.inl (List.mem_filter.2 ⟨hb, by simp [hp]⟩))

theorem select_eq (client : String) :
    s.select path client now =
      ((s.sessions.select s.model s.interlock path client now).1,
        { s with sessions := (s.sessions.select s.model s.interlock path client now).2 }) := rfl

/-- A client may operate an object with a value. -/
def Permits (client : String) : Prop :=
  s.sessions.Permits s.model s.interlock path value client now

/-- **How an operation ends.** It is refused, or it is permitted and performed. -/
theorem operate_cases (client : String) :
    (∃ refusal sessions, s.operate path value client now = (.error refusal, { s with sessions }) ∧
        s.sessions.Dropped path now sessions ∧ ¬ s.Permits path value now client) ∨
      (s.Permits path value now client ∧
        s.operate path value client now = (.ok (), s.perform path value client now)) := by
  rcases s.sessions.authorize_cases s.model s.interlock path value client now with
    ⟨refusal, sessions, h, hd, hn⟩ | ⟨hp, h⟩
  · exact Or.inl ⟨refusal, sessions, by simp only [operate, h], hd, hn⟩
  · exact Or.inr ⟨hp, by simp only [operate, h]⟩

variable {s path value now} in
/-- A session that is there after an operation was there before, and the operation has not used it up. -/
theorem get?_operate {client other : String} {session : Session}
    (h : (s.operate path value client now).2.sessions.get? other = some session) :
    s.sessions.get? other = some session ∧
      (other = path → ∃ refusal, (s.operate path value client now).1 = .error refusal) := by
  rcases s.operate_cases path value now client with ⟨refusal, sessions, hs, hd, -⟩ | ⟨-, hs⟩
  · rw [hs] at h ⊢
    exact ⟨hd.get? h, fun _ => ⟨refusal, rfl⟩⟩
  · rw [hs, sessions_perform, SortedMap.get?_erase_eq_some] at h
    exact ⟨h.2, fun hp => absurd hp h.1⟩

variable {s path value now} in
/-- An operation succeeds exactly when it is permitted. -/
theorem operate_ok_iff {client : String} :
    (s.operate path value client now).1 = .ok () ↔ s.Permits path value now client := by
  rcases s.operate_cases path value now client with ⟨refusal, sessions, h, -, hn⟩ | ⟨hp, h⟩
  · simp [h, hn]
  · simp [h, hp]

end Substation
end Switchyard
