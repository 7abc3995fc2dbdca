import Switchyard.Proofs.Station.Freshness

/-!
# The first frame after a change

A change of a member of its dataset makes an enabled publisher ready to send: the next
frame starts the sequence anew, the interval is the shortest one, and it is due
(`Publisher.Ready`). Whatever else happens leaves the publisher ready: more changes, new
configurations and new datasets make it ready again, disabling only holds the frame back,
and nothing but the frame itself uses the readiness up. So the first time that frames are
sent while the publisher is there and enabled, its frame opens the burst
(`burst_guaranteed`).

* `ready_of_changes`: the change.
* `ready_after`, `ready_run`: what happens between the change and the frame.
-/

namespace Switchyard

namespace Goose.Publisher

variable {p : Publisher} {t now : Millis} {path : String}

/-- **A publisher is ready** at a time: its next frame is the first one of a burst, and it is due by then. -/
structure Ready (t : Millis) (p : Publisher) : Prop where
  restarted : p.sqNum = 0
  hastened : p.interval = p.config.least
  due : p.nextTx ≤ t

theorem ready_burst (p : Publisher) (h : now ≤ t) : (p.burst now).Ready t := ⟨rfl, rfl, h⟩

/-- A publisher that takes note of a change is ready, whatever it was before. -/
theorem ready_observe_of_hears (value : Scalar) (hhears : p.hears path = true) (h : now ≤ t) :
    (p.observe path value now).Ready t := by
  rcases p.observe_cases path value now with ⟨-, stored, -, hp⟩ | ⟨hnot, -⟩
  · rw [hp]
    exact ready_burst _ h
  · rw [hhears] at hnot
    cases hnot

theorem Ready.observe (hready : p.Ready t) (path : String) (value : Scalar) (h : now ≤ t) :
    (p.observe path value now).Ready t := by
  rcases p.observe_cases path value now with ⟨hhears, -⟩ | ⟨-, hp⟩
  · exact ready_observe_of_hears value hhears h
  · rw [hp]
    exact hready

/-- **The frame of a publisher that is ready** opens the burst: it is the first one, it announces twice the shortest
interval, and it leaves the publisher with that interval. -/
theorem Ready.frame (hready : p.Ready t) (now : Millis) :
    (p.frame now).sqNum = 0 ∧ (p.frame now).timeAllowedToLive = Millis.double p.config.least ∧
      (p.sent now).interval = p.config.least :=
  ⟨hready.restarted, congrArg Millis.double hready.hastened, if_pos hready.restarted⟩

end Goose.Publisher

namespace Substation

open Goose

variable {ref path : String} {now t : Millis} {p p' : Publisher}

theorem ready_writeAttribute {s : Substation} {value : Scalar} (h : now ≤ t)
    (hready : ∀ p, s.publishers.get? ref = some p → p.Ready t)
    (hp' : (s.writeAttribute path value now).publishers.get? ref = some p') : p'.Ready t := by
  rw [get?_writeAttribute] at hp'
  obtain ⟨p, hp, rfl⟩ := Option.map_eq_some_iff.1 hp'
  split
  · exact (hready p hp).observe path value h
  · exact hready p hp

theorem ready_writeAll {writes : List (String × Scalar)} {s : Substation} (h : now ≤ t)
    (hready : ∀ p, s.publishers.get? ref = some p → p.Ready t)
    (hp' : (s.writeAll now writes).publishers.get? ref = some p') : p'.Ready t := by
  induction writes generalizing s with
  | nil => exact hready p' hp'
  | cons w writes ih => exact ih (fun q hq => ready_writeAttribute h hready hq) hp'

/-- A publisher that takes note of one of several writes is ready after all of them. -/
theorem ready_writeAll_of_heard {writes : List (String × Scalar)} {s : Substation} {value : Scalar} (h : now ≤ t)
    (hn : (writes.map Prod.fst).Nodup) (hp : s.publishers.get? ref = some p) (hin : (path, value) ∈ writes)
    (hc : s.model.changes path value = true) (hhears : p.hears path = true)
    (hp' : (s.writeAll now writes).publishers.get? ref = some p') : p'.Ready t := by
  induction writes generalizing s p with
  | nil => cases hin
  | cons w writes ih =>
    obtain ⟨hnot, hn⟩ := List.nodup_cons.1 hn
    have hq := s.get?_writeAttribute w.1 w.2 now ref
    rw [hp, Option.map_some] at hq
    rcases List.mem_cons.1 hin with rfl | hin
    · rw [if_pos hc] at hq
      refine ready_writeAll (s := s.writeAttribute path value now) h (fun q hq' => ?_) hp'
      obtain rfl := Option.some.inj (hq.symm.trans hq')
      exact Publisher.ready_observe_of_hears value hhears h
    · -- the write comes later; until then the publisher still hears of the path
      have hne : path ≠ w.1 := fun he => hnot (he ▸ List.mem_map_of_mem hin)
      refine ih hn hq hin ?_ ?_ hp'
      · rwa [s.changes_writeAttribute_of_ne w.2 value now hne]
      · split
        · rwa [Publisher.hears_observe]
        · exact hhears

/-- An event that writes does nothing else to the publishers. -/
theorem publishers_of_writes {e : Event} (h : e.writes ≠ []) :
    e.after.publishers = (e.before.writeAll e.time e.writes).publishers := by
  obtain ⟨s, now, action⟩ := e
  cases action with
  | write path value => rfl
  | operate path value client =>
    rcases s.operate_cases path value now client with ⟨refusal, sessions, hs, -⟩ | ⟨-, hs⟩
    · refine absurd ?_ h
      simp only [Event.writes, Event.answer, act, hs, Prod.map]
    · simp only [Event.after, Event.writes, Event.answer, act, hs, Prod.map]
      exact s.publishers_perform path value client now
  | _ => exact absurd rfl h

/-- **A change makes a publisher ready** if it is enabled and has the attribute in its dataset. -/
theorem ready_of_changes {e : Event} (h : e.time ≤ t) (hchange : e.Changes path)
    (hp : e.before.publishers.get? ref = some p) (hhears : p.hears path = true)
    (hp' : e.after.publishers.get? ref = some p') : p'.Ready t := by
  obtain ⟨value, hin, hc⟩ := hchange
  rw [publishers_of_writes (List.ne_nil_of_mem hin)] at hp'
  exact ready_writeAll_of_heard h (nodup_writes e) hp hin hc hhears hp'

/-- The publisher of a path has no part in an event that sends frames: it is not there, or it is disabled. -/
def Event.PassesOver (e : Event) (ref : String) : Prop :=
  e.action = .transmit → ∀ p, e.before.publishers.get? ref = some p → p.enabled = false

/-- **A publisher stays ready** in all that happens to it, unless it is registered anew or sends its frame. -/
theorem ready_after {e : Event} (h : e.time ≤ t) (hreg : ¬ e.Registers ref) (hover : e.PassesOver ref)
    (hready : ∀ p, e.before.publishers.get? ref = some p → p.Ready t)
    (hp' : e.after.publishers.get? ref = some p') : p'.Ready t := by
  obtain ⟨s, now, action⟩ := e
  simp only [Event.after, act] at hp'
  -- A change starts a new burst, and everything else leaves the present one under way.
  cases action with
  | write path value => exact ready_writeAttribute h hready hp'
  | operate path value client =>
    rcases s.operate_cases path value now client with ⟨refusal, sessions, hs, -⟩ | ⟨-, hs⟩
    · simp only [hs] at hp'
      exact hready p' hp'
    · simp only [hs] at hp'
      exact ready_writeAll h hready ((s.publishers_perform path value client now).symm ▸ hp')
  | addPublisher r config dataset =>
    have hr : ref ≠ r := fun hr => hreg ⟨config, dataset, hr ▸ rfl⟩
    exact hready p' ((SortedMap.get?_insert_of_ne _ _ hr).symm.trans hp')
  | removePublisher r => exact hready p' (SortedMap.get?_erase_eq_some.1 hp').2
  | enablePublisher r enabled =>
    rcases SortedMap.get?_modify_eq_some hp' with ⟨rfl, p, hp, rfl⟩ | ⟨-, hs⟩
    · exact ⟨(hready p hp).restarted, (hready p hp).hastened, (hready p hp).due⟩
    · exact hready p' hs
  | configurePublisher r config | setDataset r dataset =>
    rcases SortedMap.get?_modify_eq_some hp' with ⟨rfl, p, hp, rfl⟩ | ⟨-, hs⟩
    · exact Publisher.ready_burst _ h
    · exact hready p' hs
  | transmit =>
    obtain ⟨p, hp, rfl⟩ := Option.map_eq_some_iff.1 ((s.get?_transmit now ref).symm.trans hp')
    -- The publisher is passed over, so nothing is sent and the burst is still to come.
    have hidle : p.tick now = (none, p) := by
      rw [Publisher.tick, Publisher.due, hover rfl p hp]
      rfl
    rw [hidle]
    exact hready p hp
  | _ => exact hready p' hp'

/-- **From the change to the frame**: the publisher stays ready, for a time that none of the events goes beyond. -/
theorem ready_run {past between : List Event} {e : Event} (h : History (between ++ e :: past))
    (htimes : ∀ y ∈ e :: between, y.time ≤ t) (hchange : e.Changes path)
    (hp : e.before.publishers.get? ref = some p) (hhears : p.hears path = true)
    (hreg : ∀ y ∈ between, ¬ y.Registers ref) (hover : ∀ y ∈ between, y.PassesOver ref)
    (hp' : (present (between ++ e :: past)).publishers.get? ref = some p') : p'.Ready t := by
  induction between generalizing p' with
  | nil => exact ready_of_changes (htimes e List.mem_cons_self) hchange hp hhears hp'
  | cons y between ih =>
    obtain ⟨htime, hytime, htimes⟩ : e.time ≤ t ∧ y.time ≤ t ∧ ∀ z ∈ between, z.time ≤ t := by
      simpa only [List.forall_mem_cons] using htimes
    obtain ⟨hyreg, hreg⟩ := List.forall_mem_cons.1 hreg
    obtain ⟨hyover, hover⟩ := List.forall_mem_cons.1 hover
    refine ready_after hytime hyreg hyover (fun q hq => ?_) hp'
    rw [h.before_eq] at hq
    exact ih h.tail (List.forall_mem_cons.2 ⟨htime, htimes⟩) hreg hover hq

/-- **A change is answered by a burst.** Let a write or an operation change an attribute in the dataset of an enabled
publisher, and let anything happen after it that does not register the publisher anew. The first time that frames
are sent while the publisher is there and enabled, at whatever time as long as no event between is later, it sends
exactly one frame. This is the first one of a burst: it has the sequence number 0 and is good for twice the shortest
interval in force, and it leaves the publisher with the shortest interval. -/
theorem burst_guaranteed {past between : List Event} {e x : Event} (h : History (x :: between ++ e :: past))
    (hchange : e.Changes path) (hp : e.before.publishers.get? ref = some p) (hhears : p.hears path = true)
    (htimes : ∀ y ∈ e :: between, y.time ≤ x.time) (hreg : ∀ y ∈ between, ¬ y.Registers ref)
    (hover : ∀ y ∈ between, y.PassesOver ref) (ha : x.action = .transmit)
    (hp' : x.before.publishers.get? ref = some p') (hon : p'.enabled = true) :
    ∃ f ∈ x.frames, f.ref = ref ∧ (∀ g ∈ x.frames, g.ref = ref → g = f) ∧ f.sqNum = 0 ∧
      f.timeAllowedToLive = Millis.double p'.config.least ∧
      ∃ p'', x.after.publishers.get? ref = some p'' ∧ p''.config = p'.config ∧ p''.interval = p'.config.least := by
  have hpresent : (present (between ++ e :: past)).publishers.get? ref = some p' := h.before_eq ▸ hp'
  have hready : p'.Ready x.time := ready_run h.tail htimes hchange hp hhears hreg hover hpresent
  have hdue : p'.due x.time = true := by
    rw [Publisher.due, hon, Bool.true_and]
    exact decide_eq_true hready.due
  have hframe : p'.frame x.time ∈ x.frames := frame_mem_frames ha hp' hdue
  have href : (p'.frame x.time).ref = ref := ref_of_get? h.tail hpresent
  obtain ⟨hfirst, hlife, hinterval⟩ := hready.frame x.time
  refine ⟨p'.frame x.time, hframe, href, fun g hg hgref => ?_, hfirst, hlife, p'.sent x.time, ?_, rfl, hinterval⟩
  · obtain ⟨q, hq, rfl, -⟩ := sender h hg
    rw [hgref] at hq
    obtain rfl := Option.some.inj (hpresent.symm.trans hq)
    rfl
  · have hafter : x.after = (x.before.transmit x.time).2 := by
      obtain ⟨s, now, action⟩ := x
      obtain rfl : action = .transmit := ha
      rfl
    rw [hafter]
    exact get?_transmit_of_due hp' hdue

/-- A breaker is operated. Before its publisher gets to send, the publisher has been given a longer shortest interval,
has been disabled while frames were sent, and has been enabled again; its frame goes by the interval in force. -/
theorem burst_guaranteed_breaker :
    let past := historyOf
      [(0, .addPublisher "LD0/LLN0.gcb01" ⟨1, 1, 10, 1000, "DS"⟩ ["LD0/XCBR1.Pos.stVal"]),
        (0, .write "LD0/XCBR1.Pos.ctlModel" (.text "direct-with-normal-security"))]
    let e : Event := ⟨present past, 150, .operate "LD0/XCBR1.Pos" (.int 2) "ui"⟩
    let y₁ : Event := ⟨present (e :: past), 160, .configurePublisher "LD0/LLN0.gcb01" ⟨1, 2, 25, 1000, "DS"⟩⟩
    let y₂ : Event := ⟨present (y₁ :: e :: past), 170, .enablePublisher "LD0/LLN0.gcb01" false⟩
    let y₃ : Event := ⟨present (y₂ :: y₁ :: e :: past), 180, .transmit⟩
    let y₄ : Event := ⟨present (y₃ :: y₂ :: y₁ :: e :: past), 180, .enablePublisher "LD0/LLN0.gcb01" true⟩
    let x : Event := ⟨present (y₄ :: y₃ :: y₂ :: y₁ :: e :: past), 180, .transmit⟩
    History (x :: [y₄, y₃, y₂, y₁] ++ e :: past) ∧ e.Changes "LD0/XCBR1.Pos.stVal" ∧
      (∀ y ∈ [y₄, y₃, y₂, y₁], y.PassesOver "LD0/LLN0.gcb01") ∧
      ∃ f ∈ x.frames, f.ref = "LD0/LLN0.gcb01" ∧ f.sqNum = 0 ∧ f.timeAllowedToLive = 50 := by
  intro past e y₁ y₂ y₃ y₄ x
  have h : History (x :: [y₄, y₃, y₂, y₁] ++ e :: past) :=
    ((((((history_historyOf _).next _ _).next _ _).next _ _).next _ _).next _ _).next _ _
  have hchange : e.Changes "LD0/XCBR1.Pos.stVal" := ⟨.int 2, by decide, by decide⟩
  obtain ⟨p, hp, hhears⟩ : ∃ p, e.before.publishers.get? "LD0/LLN0.gcb01" = some p ∧
      p.hears "LD0/XCBR1.Pos.stVal" = true := ⟨_, rfl, by decide⟩
  have hforce : (x.before.publishers.get? "LD0/LLN0.gcb01").map (fun p => (p.enabled, Millis.double p.config.least)) =
      some (true, 50) := by decide
  obtain ⟨p', hp', hboth⟩ := Option.map_eq_some_iff.1 hforce
  obtain ⟨hon, hleast⟩ := Prod.mk.inj hboth
  have hbetween {P : Event → Prop} (h₄ : P y₄) (h₃ : P y₃) (h₂ : P y₂) (h₁ : P y₁) : ∀ y ∈ [y₄, y₃, y₂, y₁], P y := by
    simp only [List.forall_mem_cons]
    exact ⟨h₄, h₃, h₂, h₁, nofun⟩
  have hreg : ∀ y ∈ [y₄, y₃, y₂, y₁], ¬ y.Registers "LD0/LLN0.gcb01" :=
    hbetween (fun ⟨_, _, h⟩ => nomatch h) (fun ⟨_, _, h⟩ => nomatch h) (fun ⟨_, _, h⟩ => nomatch h)
      (fun ⟨_, _, h⟩ => nomatch h)
  have hoff : y₃.PassesOver "LD0/LLN0.gcb01" := by
    intro _ q hq
    have hall : (y₃.before.publishers.get? "LD0/LLN0.gcb01").all (fun p => !p.enabled) = true := by decide
    rw [hq] at hall
    simpa using hall
  have hover : ∀ y ∈ [y₄, y₃, y₂, y₁], y.PassesOver "LD0/LLN0.gcb01" := hbetween nofun hoff nofun nofun
  have htimes : ∀ y ∈ [e, y₄, y₃, y₂, y₁], y.time ≤ x.time :=
    List.forall_mem_cons.2 ⟨by decide, hbetween (by decide) (by decide) (by decide) (by decide)⟩
  obtain ⟨f, hf, href, -, hfirst, hlife, -⟩ := burst_guaranteed h hchange hp hhears htimes hreg hover rfl hp' hon
  exact ⟨h, hchange, hover, f, hf, href, hfirst, hlife.trans hleast⟩

end Substation
end Switchyard
