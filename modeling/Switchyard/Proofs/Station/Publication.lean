import Mathlib.Algebra.GroupWithZero.Nat
import Switchyard.Proofs.Station.Goose
import Switchyard.Proofs.Station.History
import Switchyard.Proofs.Station.Operation

/-!
# What a substation publishes

Between two registrations of a path, the frames of its publisher are numbered by
its bursts. A burst is a write that changes an attribute of the dataset while the
publisher is enabled, a new configuration or a new dataset; an operation writes up
to two attributes (`Event.bursts`). A frame either repeats the one before it, with
the next sequence number, or it starts anew at sequence number 0, with the status
number moved on once for each burst since (`consecutive_frames`).

* `publisher_origin`: what an event can do to a publisher.
* `publisher_run`: what a stretch of a history without a registration does to it.
-/

namespace Switchyard.Substation

open Goose

/-- Writes attributes one after the other. -/
def writeAll (s : Substation) (now : Millis) (writes : List (String × Scalar)) : Substation :=
  writes.foldl (fun s w => s.writeAttribute w.1 w.2 now) s

/-- How often the publisher of a path bursts when attributes are written: a write counts if it changes
the attribute and the publisher takes note of it. -/
def burstsOfWrites (ref : String) (now : Millis) : Substation → List (String × Scalar) → ℕ
  | _, [] => 0
  | s, (path, value) :: writes =>
    (if s.model.changes path value && (s.publishers.get? ref).any (·.hears path) then 1 else 0) +
      burstsOfWrites ref now (s.writeAttribute path value now) writes

/-- What an operation writes: the status value, and the time of an object that has one. -/
def operationWrites (s : Substation) (path : String) (value : Scalar) (now : Millis) : List (String × Scalar) :=
  let status := Path.member path "stVal"
  let time := Path.member path "t"
  if ((s.writeAttribute status value now).model.value? time).isSome then [(status, value), (time, .ofMillis now)]
  else [(status, value)]

theorem publishers_perform (s : Substation) (path : String) (value : Scalar) (client : String) (now : Millis) :
    (s.perform path value client now).publishers =
      (s.writeAll now (s.operationWrites path value now)).publishers := by
  have hfollow : ∀ s : Substation, (s.followPosition path value).publishers = s.publishers := by
    intro s
    unfold followPosition
    split
    · split <;> rfl
    · rfl
  simp only [perform, hfollow, stamp, operationWrites]
  split <;> rfl

namespace Event

/-- The attributes an event has written, in order. -/
def writes (e : Event) : List (String × Scalar) :=
  match e.action, e.answer with
  | .write path value, _ => [(path, value)]
  | .operate path value _, .control (.ok ()) => e.before.operationWrites path value e.time
  | _, _ => []

/-- **How often the publisher of a path has burst in an event.** -/
def bursts (e : Event) (ref : String) : ℕ :=
  match e.action with
  | .configurePublisher r _ | .setDataset r _ => if r = ref then 1 else 0
  | _ => burstsOfWrites ref e.time e.before e.writes

/-- An event registers a publisher under a path, be it for the first time. -/
def Registers (e : Event) (ref : String) : Prop := ∃ config dataset, e.action = .addPublisher ref config dataset

end Event

variable {ref : String} {now : Millis} {p p' : Publisher}

theorem publisher_writeAttribute {s : Substation} {path : String} {value : Scalar}
    (h : (s.writeAttribute path value now).publishers.get? ref = some p') :
    ∃ p, s.publishers.get? ref = some p ∧ Publisher.Advanced
      (if s.model.changes path value && (s.publishers.get? ref).any (·.hears path) then 1 else 0) p p' := by
  simp only [writeAttribute] at h
  by_cases hc : s.model.changes path value = true
  · rw [if_pos hc, Publishers.observe, SortedMap.get?_mapValues] at h
    obtain ⟨p, hp, rfl⟩ := Option.map_eq_some_iff.1 h
    refine ⟨p, hp, ?_⟩
    simp only [hc, hp, Option.any_some, Bool.true_and]
    exact Publisher.advanced_observe p path value now
  · rw [if_neg hc] at h
    simp only [hc, Bool.false_and]
    exact ⟨p', h, .refl p'⟩

theorem publisher_writeAll {writes : List (String × Scalar)} {s : Substation}
    (h : (s.writeAll now writes).publishers.get? ref = some p') :
    ∃ p, s.publishers.get? ref = some p ∧ Publisher.Advanced (burstsOfWrites ref now s writes) p p' := by
  induction writes generalizing s with
  | nil => exact ⟨p', h, .refl p'⟩
  | cons w writes ih =>
    obtain ⟨q, hq, hadv⟩ := ih h
    obtain ⟨p, hp, hone⟩ := publisher_writeAttribute hq
    refine ⟨p, hp, ?_⟩
    rw [burstsOfWrites, Nat.add_comm]
    exact hone.trans hadv

/-- Frames are sent by each publisher on its own. -/
theorem get?_transmit (s : Substation) (now : Millis) (ref : String) :
    (s.transmit now).2.publishers.get? ref = (s.publishers.get? ref).map fun p => (p.tick now).2 :=
  SortedMap.get?_mapValues _ _ _

theorem get?_transmit_of_due {s : Substation} (hp : s.publishers.get? ref = some p) (hdue : p.due now = true) :
    (s.transmit now).2.publishers.get? ref = some (p.sent now) := by
  rw [get?_transmit, hp, Option.map_some, Publisher.tick, if_pos hdue]

/-- What an event can do to a publisher, its registration apart. -/
inductive Touched (e : Event) (p p' : Publisher) (n : ℕ) : Prop
  /-- It bursts so many times and sends nothing. -/
  | silent (h : Publisher.Advanced n p p')
  /-- It sends a frame and does not burst. -/
  | sent (ha : e.action = .transmit) (hdue : p.due e.time = true) (hp : p' = p.sent e.time) (hn : n = 0)

/-- **Where a publisher comes from.** One that is there after an event, which is not its registration, was
there before, and the event has made it burst as often as it says or send a frame. -/
theorem publisher_origin (e : Event) (h : e.after.publishers.get? ref = some p') (hreg : ¬ e.Registers ref) :
    ∃ p, e.before.publishers.get? ref = some p ∧ Touched e p p' (e.bursts ref) := by
  obtain ⟨s, now, action⟩ := e
  -- Most actions leave the publisher alone, and the writes of an operation are treated like any writes.
  have hsame (hs : s.publishers.get? ref = some p') :
      ∃ p, s.publishers.get? ref = some p ∧ Touched ⟨s, now, action⟩ p p' 0 := ⟨p', hs, .silent (.refl p')⟩
  have hwrites {writes : List (String × Scalar)} (hs : (s.writeAll now writes).publishers.get? ref = some p') :
      ∃ p, s.publishers.get? ref = some p ∧ Touched ⟨s, now, action⟩ p p' (burstsOfWrites ref now s writes) := by
    obtain ⟨p, hp, hadv⟩ := publisher_writeAll hs
    exact ⟨p, hp, .silent hadv⟩
  simp only [Event.after, act] at h
  cases action with
  | write path value => exact hwrites (show (s.writeAll now [(path, value)]).publishers.get? ref = some p' from h)
  | operate path value client =>
    rcases s.operate_cases path value now client with ⟨refusal, sessions, hs, -⟩ | ⟨-, hs⟩
    · simp only [hs] at h
      have hb : Event.bursts ⟨s, now, .operate path value client⟩ ref = 0 := by
        simp [Event.bursts, Event.writes, Event.answer, act, hs, burstsOfWrites]
      rw [hb]; exact hsame h
    · simp only [hs] at h
      have hb : Event.bursts ⟨s, now, .operate path value client⟩ ref =
          burstsOfWrites ref now s (s.operationWrites path value now) := by
        simp [Event.bursts, Event.writes, Event.answer, act, hs]
      rw [hb]; exact hwrites ((publishers_perform s path value client now).symm ▸ h)
  | addPublisher r config dataset =>
    by_cases hr : ref = r
    · subst hr; exact absurd ⟨config, dataset, rfl⟩ hreg
    · exact hsame ((SortedMap.get?_insert_of_ne _ _ hr).symm.trans h)
  | removePublisher r => exact hsame (SortedMap.get?_erase_eq_some.1 h).2
  | enablePublisher r enabled =>
    rcases SortedMap.get?_modify_eq_some h with ⟨rfl, p, hp, rfl⟩ | ⟨-, hs⟩
    · exact ⟨p, hp, .silent (.of_eq rfl rfl rfl rfl rfl rfl)⟩
    · exact hsame hs
  | configurePublisher r config | setDataset r dataset =>
    rcases SortedMap.get?_modify_eq_some h with ⟨rfl, p, hp, rfl⟩ | ⟨hr, hs⟩
    · simp only [Event.bursts, if_true]
      exact ⟨p, hp, .silent (Publisher.advanced_burst now rfl rfl)⟩
    · simp only [Event.bursts, if_neg (Ne.symm hr)]
      exact hsame hs
  | transmit =>
    obtain ⟨p, hp, htick⟩ := Option.map_eq_some_iff.1 ((s.get?_transmit now ref).symm.trans h)
    refine ⟨p, hp, ?_⟩
    unfold Publisher.tick at htick
    split at htick
    · rename_i hdue
      exact .sent rfl hdue htick.symm rfl
    · obtain rfl : p = p' := htick
      exact .silent (.refl p)
  | _ => exact hsame h

theorem Touched.followed {e : Event} {n : ℕ} (h : Touched e p p' n) : Publisher.Followed n p p' := by
  cases h with
  | silent h => exact h.toFollowed
  | sent ha hdue hp hn => rw [hp, hn]; exact Publisher.followed_sent p e.time

/-- Publishers are kept under the paths they announce. -/
theorem ref_of_get? {past : List Event} (h : History past) (hp : (present past).publishers.get? ref = some p) :
    p.ref = ref := by
  refine h.invariant (P := fun s => ∀ ref p, s.publishers.get? ref = some p → p.ref = ref) ?_ ?_ ref p hp
  · intro ref p hp; cases hp
  · intro s now action ih ref p' hp'
    by_cases hreg : (⟨s, now, action⟩ : Event).Registers ref
    · obtain ⟨config, dataset, ha⟩ := hreg
      obtain rfl : action = .addPublisher ref config dataset := ha
      obtain rfl := Option.some.inj ((SortedMap.get?_insert_self _ _ _).symm.trans hp')
      rfl
    · obtain ⟨p, hp, htouched⟩ := publisher_origin ⟨s, now, action⟩ hp' hreg
      exact htouched.followed.ref.trans (ih ref p hp)

/-- A frame is sent by a publisher that is due. -/
theorem exists_of_mem_frames {e : Event} {f : Frame} (h : f ∈ e.frames) :
    e.action = .transmit ∧
      ∃ ref p, e.before.publishers.get? ref = some p ∧ p.due e.time = true ∧ f = p.frame e.time := by
  obtain ⟨s, now, action⟩ := e
  cases action with
  | transmit =>
    refine ⟨rfl, ?_⟩
    obtain ⟨p, hp, htick⟩ := List.mem_filterMap.1 (show f ∈ (s.transmit now).1 from h)
    obtain ⟨ref, hget⟩ := SortedMap.exists_get?_of_mem_values hp
    refine ⟨ref, p, hget, ?_⟩
    unfold Publisher.tick at htick
    split at htick
    · rename_i hdue; exact ⟨hdue, (Option.some.inj htick).symm⟩
    · cases htick
  | _ => cases h

/-- A publisher that is due sends its frame. -/
theorem frame_mem_frames {e : Event} (ha : e.action = .transmit) (hp : e.before.publishers.get? ref = some p)
    (hdue : p.due e.time = true) : p.frame e.time ∈ e.frames := by
  obtain ⟨s, now, action⟩ := e
  obtain rfl : action = .transmit := ha
  show p.frame now ∈ (s.transmit now).1
  refine List.mem_filterMap.2 ⟨p, List.mem_map.2 ⟨(ref, p), SortedMap.mem_of_get? hp, rfl⟩, ?_⟩
  rw [Publisher.tick, if_pos hdue]

/-- **A stretch of a history without a registration.** A publisher that is there after it was there before
it, and the bursts of its events add up. Without frames, they are all that has happened. -/
theorem publisher_run {between older : List Event} (h : History (between ++ older))
    (hreg : ∀ x ∈ between, ¬ x.Registers ref)
    (hp' : (present (between ++ older)).publishers.get? ref = some p') :
    ∃ p, (present older).publishers.get? ref = some p ∧
      Publisher.Followed (between.map (·.bursts ref)).sum p p' ∧
      ((∀ x ∈ between, ∀ g ∈ x.frames, g.ref ≠ ref) →
        Publisher.Advanced (between.map (·.bursts ref)).sum p p') := by
  induction between generalizing p' with
  | nil => exact ⟨p', hp', .refl p', fun _ => .refl p'⟩
  | cons x between ih =>
    obtain ⟨q, hq, htouched⟩ := publisher_origin x hp' (hreg x (by simp))
    rw [h.before_eq] at hq
    obtain ⟨p, hp, hfollowed, hadvanced⟩ := ih h.tail (fun y hy => hreg y (by simp [hy])) hq
    simp only [List.map_cons, List.sum_cons]
    refine ⟨p, hp, hfollowed.trans htouched.followed, fun hquiet => ?_⟩
    have hadv := hadvanced fun y hy => hquiet y (by simp [hy])
    cases htouched with
    | silent hone => exact hadv.trans hone
    | sent ha hdue _ _ =>
      -- the frame would be one of those that there are not
      rw [← h.before_eq] at hq
      refine absurd ?_ (hquiet x (by simp) _ (frame_mem_frames ha hq hdue))
      exact ref_of_get? h.tail (h.before_eq ▸ hq)

/-- A frame comes from the publisher of its path, which has sent it. -/
theorem sender {e : Event} {past : List Event} (h : History (e :: past)) {f : Frame} (hf : f ∈ e.frames) :
    ∃ p, (present past).publishers.get? f.ref = some p ∧ f = p.frame e.time ∧
      (present (e :: past)).publishers.get? f.ref = some (p.sent e.time) := by
  obtain ⟨ha, ref, p, hp, hdue, rfl⟩ := exists_of_mem_frames hf
  rw [h.before_eq] at hp
  obtain rfl : p.ref = ref := ref_of_get? h.tail hp
  refine ⟨p, hp, rfl, ?_⟩
  have hafter : present (e :: past) = (e.before.transmit e.time).2 := by
    obtain ⟨s, now, action⟩ := e
    obtain rfl : action = .transmit := ha
    rfl
  rw [hafter, h.before_eq]
  exact get?_transmit_of_due hp hdue

/-- **The numbers of frames.** Take two frames of one publisher, with no registration of its path and `n`
bursts between them. If they are consecutive, then without a burst the second one repeats the first one
under the next sequence number, and with bursts it starts anew at sequence number 0, with the status number
moved on `n` times. And whatever lies between them, one status number within one round of the status numbers
means one configuration and one state of the data. -/
theorem consecutive_frames {past between : List Event} {e e' : Event} {f f' : Frame}
    (h : History (e' :: between ++ e :: past)) (hf : f ∈ e.frames) (hf' : f' ∈ e'.frames) (href : f'.ref = f.ref)
    (hreg : ∀ x ∈ between, ¬ x.Registers f.ref) :
    let n := (between.map (·.bursts f.ref)).sum
    ((∀ x ∈ between, ∀ g ∈ x.frames, g.ref ≠ f.ref) →
      (n = 0 → f'.stNum = f.stNum ∧ f'.sqNum.toNat = (f.sqNum.toNat + 1) % 2 ^ 32 ∧ f.Agrees f') ∧
      (0 < n → f'.sqNum = 0 ∧ f'.stNum = Publisher.nextStatus^[n] f.stNum)) ∧
    (n < 2 ^ 32 - 1 → f'.stNum = f.stNum → f.Agrees f') := by
  intro n
  have holder : History (e :: past) := h.tail.of_append
  obtain ⟨p, -, hfp, hsent⟩ := sender holder hf
  obtain ⟨p', hp', hfp', -⟩ := sender h hf'
  rw [href] at hp'
  -- the publisher that has sent the older frame is the one with which the stretch between them begins
  obtain ⟨q, hq, hfollowed, hadvanced⟩ := publisher_run h.tail hreg hp'
  obtain rfl : p.sent e.time = q := Option.some.inj (hsent.symm.trans hq)
  have hwhole : Publisher.Followed n p p' := (Publisher.followed_sent p e.time).trans hfollowed
  have hagrees (hn : n = 0) : f.Agrees f' := by
    rw [hn] at hwhole
    rw [hfp, hfp']
    exact hwhole.agrees e.time e'.time
  have hst : f.stNum = p.stNum := by rw [hfp]; rfl
  have hst' : f'.stNum = p'.stNum := by rw [hfp']; rfl
  have hsq : f.sqNum = p.sqNum := by rw [hfp]; rfl
  have hsq' : f'.sqNum = p'.sqNum := by rw [hfp']; rfl
  refine ⟨fun hquiet => ⟨fun hn => ⟨?_, ?_, hagrees hn⟩, fun hn => ⟨?_, ?_⟩⟩, fun hn hsame => hagrees ?_⟩
  · rw [hst', hst, hwhole.status, hn, Function.iterate_zero, id]
  · have hnext : p'.sqNum = p.sqNum + 1 := (hadvanced hquiet).counted hn
    rw [hsq', hsq, hnext, UInt32.toNat_add, UInt32.toNat_one]
  · rw [hsq', (hadvanced hquiet).restarted hn]
  · rw [hst', hst, hwhole.status]
  · rw [hst', hst, hwhole.status] at hsame
    exact Publisher.eq_zero_of_iterate_nextStatus hn hsame

/-- A publisher repeats nothing across a change of the breaker that it watches. -/
theorem frames_around_change :
    let past := historyOf
      [(0, .addPublisher "IED1LD0/LLN0.gcb01" ⟨1, 1, 10, 1000, "DS"⟩ ["IED1LD0/XCBR1.Pos.stVal"])]
    let e : Event := ⟨present past, 100, .transmit⟩
    let x : Event := ⟨present (e :: past), 150, .write "IED1LD0/XCBR1.Pos.stVal" (.int 2)⟩
    let e' : Event := ⟨present (x :: e :: past), 160, .transmit⟩
    let f : Frame := ⟨"IED1LD0/LLN0.gcb01", 1, 1, 0, "DS", 1, 2000, 100, [⟨"IED1LD0/XCBR1.Pos.stVal", .null⟩]⟩
    let f' : Frame := ⟨"IED1LD0/LLN0.gcb01", 1, 2, 0, "DS", 1, 20, 160, [⟨"IED1LD0/XCBR1.Pos.stVal", .int 2⟩]⟩
    History ([e', x] ++ e :: past) ∧ e.frames = [f] ∧ e'.frames = [f'] ∧ x.bursts f.ref = 1 ∧
      (f'.sqNum = 0 ∧ f'.stNum = Publisher.nextStatus^[1] f.stNum) := by
  intro past e x e' f f'
  have h : History ([e', x] ++ e :: past) := (((history_historyOf _).next _ _).next _ _).next _ _
  have hf : e.frames = [f] := rfl
  have hf' : e'.frames = [f'] := rfl
  obtain ⟨p, hp, hon, hset⟩ : ∃ p, (present (e :: past)).publishers.get? "IED1LD0/LLN0.gcb01" = some p ∧
      p.enabled = true ∧ p.dataset = ["IED1LD0/XCBR1.Pos.stVal"] := ⟨_, rfl, rfl, rfl⟩
  have hchange : (present (e :: past)).model.changes "IED1LD0/XCBR1.Pos.stVal" (.int 2) = true := rfl
  have hx : x.bursts f.ref = 1 := by
    simp [f, x, Event.bursts, Event.writes, burstsOfWrites, hchange, hp, Publisher.hears, hon, hset]
  -- The write between the frames registers nothing and sends nothing.
  have hreg : ∀ y ∈ [x], ¬ y.Registers f.ref := by
    rintro y hy ⟨_, _, ha⟩
    obtain rfl := List.mem_singleton.1 hy
    cases ha
  have hquiet : ∀ y ∈ [x], ∀ g ∈ y.frames, g.ref ≠ f.ref := by
    rintro y hy g hg
    obtain rfl := List.mem_singleton.1 hy
    cases hg
  have hmem : f ∈ e.frames := by rw [hf]; exact List.mem_singleton_self f
  have hmem' : f' ∈ e'.frames := by rw [hf']; exact List.mem_singleton_self f'
  have hsum : ([x].map (·.bursts f.ref)).sum = 1 := by rw [List.map_singleton, hx]; rfl
  obtain ⟨-, hnew⟩ := (consecutive_frames h hmem hmem' rfl hreg).1 hquiet
  rw [hsum] at hnew
  exact ⟨h, hf, hf', hx, hnew Nat.one_pos⟩

end Switchyard.Substation
