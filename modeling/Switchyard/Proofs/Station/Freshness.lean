import Switchyard.Proofs.Station.Shown

/-!
# How fresh published data are

A publisher does not look attributes up when it sends a frame. It shows what it has
taken in: its whole dataset when it is registered or given a new dataset, and one
attribute when a write changes that attribute while the publisher is enabled
(`Event.Refreshes`). So what it shows for a path is the value that the data model held
right after the last such event (`last_refresh`). A change while it is disabled passes
it by (`Event.Misses`).

* `attributes_after`, `members_after`: what an event does is what it writes.
* `cache_coherent`: a publisher that has been enabled ever since it read its dataset shows current values.
* `frame_data`: what the frames of any publisher carry.
-/

namespace Switchyard.Substation

open Goose

variable {ref path : String} {p p' : Publisher}

namespace Event

/-- Attributes change in an event by writes only, be it of a client, of an operation or of a program. -/
def WritesOnly (e : Event) : Prop :=
  ∀ model, e.action = .replaceModel model → model.attributes = e.before.model.attributes

/-- An event writes a value to an attribute that counts as a change. -/
def Changes (e : Event) (path : String) : Prop :=
  ∃ value, (path, value) ∈ e.writes ∧ e.before.model.changes path value = true

/-- An event has a publisher read its whole dataset. -/
inductive Snapshots (e : Event) (ref : String) : Prop
  | registered (h : e.Registers ref)
  | assigned (dataset : List String) (ha : e.action = .setDataset ref dataset)

/-- **What brings the value of an attribute to a publisher.** -/
inductive Refreshes (e : Event) (ref path : String) : Prop
  | read (h : e.Snapshots ref)
  | heard (h : e.Changes path) {p : Publisher} (hp : e.before.publishers.get? ref = some p)
      (hhears : p.hears path = true)

/-- **A change that a publisher does not hear of**: the attribute is in its dataset, and it is disabled. -/
structure Misses (e : Event) (ref path : String) : Prop where
  changes : e.Changes path
  disabled : ∃ p, e.before.publishers.get? ref = some p ∧ p.enabled = false ∧ path ∈ p.dataset

end Event

theorem nodup_writes (e : Event) : (e.writes.map Prod.fst).Nodup := by
  unfold Event.writes
  split
  · simp
  · rename_i path value client _ _
    simp only [operationWrites]
    split
    · have hne : Path.member path "stVal" ≠ Path.member path "t" := fun h =>
        absurd (Path.member_inj (by decide) (by decide) h).2 (by decide)
      simp [hne]
    · simp
  · exact List.nodup_nil

/-- **What an event does to the attributes is what it writes.** -/
theorem attributes_after (e : Event) (h : e.WritesOnly) :
    e.after.model.attributes = (e.before.writeAll e.time e.writes).model.attributes := by
  obtain ⟨s, now, action⟩ := e
  cases action with
  | operate path value client =>
    rcases s.operate_cases path value now client with ⟨refusal, sessions, hs, -⟩ | ⟨-, hs⟩
    · simp only [Event.after, Event.writes, Event.answer, act, hs, Prod.map]
      rfl
    · simp only [Event.after, Event.writes, Event.answer, act, hs, Prod.map]
      exact s.attributes_perform path value client now
  | serveModbus unit request => exact Modbus.attributes_handle s.model unit request
  | replaceModel model => exact h model rfl
  | _ => rfl

/-- An event that is no change of an attribute keeps its value, or puts one in place that passes for it. -/
theorem same_after (e : Event) (h : e.WritesOnly) (hkept : ¬ e.Changes path) :
    (e.before.model.value path).Same (e.after.model.value path) := by
  have hsame : (e.before.model.value path).Same ((e.before.writeAll e.time e.writes).model.value path) :=
    same_writeAll e.before (nodup_writes e) fun value hin hc => hkept ⟨value, hin, hc⟩
  unfold DataModel.value DataModel.value? at hsame ⊢
  rw [attributes_after e h]
  exact hsame

/-- **What an event does to the members of a publisher is what its writes do**, snapshots apart. -/
theorem members_after (e : Event) (h : e.after.publishers.get? ref = some p') (hread : ¬ e.Snapshots ref) :
    ∃ q, (e.before.writeAll e.time e.writes).publishers.get? ref = some q ∧ p'.members = q.members := by
  obtain ⟨s, now, action⟩ := e
  have hsame (hs : s.publishers.get? ref = some p') :
      ∃ q, s.publishers.get? ref = some q ∧ p'.members = q.members := ⟨p', hs, rfl⟩
  simp only [Event.after, act] at h
  -- Members change by writes only, unless they are read anew from the model.
  cases action with
  | write path value => exact ⟨p', h, rfl⟩
  | operate path value client =>
    rcases s.operate_cases path value now client with ⟨refusal, sessions, hs, -⟩ | ⟨-, hs⟩
    · simp only [hs] at h
      simp only [Event.writes, Event.answer, act, hs, Prod.map]
      exact hsame h
    · simp only [hs] at h
      simp only [Event.writes, Event.answer, act, hs, Prod.map]
      exact ⟨p', (publishers_perform s path value client now).symm ▸ h, rfl⟩
  | addPublisher r config dataset =>
    by_cases hr : ref = r
    · subst hr; exact absurd (.registered ⟨config, dataset, rfl⟩) hread
    · exact hsame ((SortedMap.get?_insert_of_ne _ _ hr).symm.trans h)
  | removePublisher r => exact hsame (SortedMap.get?_erase_eq_some.1 h).2
  | setDataset r dataset =>
    rcases SortedMap.get?_modify_eq_some h with ⟨rfl, -⟩ | ⟨-, hs⟩
    · exact absurd (.assigned dataset rfl) hread
    · exact hsame hs
  | enablePublisher r _ | configurePublisher r _ =>
    rcases SortedMap.get?_modify_eq_some h with ⟨rfl, p, hp, rfl⟩ | ⟨-, hs⟩
    · exact ⟨p, hp, rfl⟩
    · exact hsame hs
  | transmit =>
    obtain ⟨p, hp, rfl⟩ := Option.map_eq_some_iff.1 ((s.get?_transmit now ref).symm.trans h)
    refine ⟨p, hp, ?_⟩
    unfold Publisher.tick
    split <;> rfl
  | _ => exact hsame h

/-- A publisher that has read its dataset shows the values that are there. -/
theorem shown_of_snapshots {e : Event} (h : e.Snapshots ref) (hp' : e.after.publishers.get? ref = some p')
    (hpath : path ∈ p'.dataset) : shown? path p'.members = some (e.after.model.value path) := by
  obtain ⟨s, now, action⟩ := e
  have hread {dataset : List String} (hm : p'.members = membersOf s.model dataset) :
      shown? path p'.members = some (s.model.value path) := by
    have hdataset : p'.dataset = dataset := by
      simp [Publisher.dataset, hm, membersOf, Function.comp_def]
    rw [hm]
    exact shown?_membersOf s.model (hdataset ▸ hpath)
  cases h with
  | registered h =>
    obtain ⟨config, dataset, ha⟩ := h
    obtain rfl : action = .addPublisher ref config dataset := ha
    obtain rfl := Option.some.inj ((SortedMap.get?_insert_self _ _ _).symm.trans hp')
    exact hread rfl
  | assigned dataset ha =>
    obtain rfl : action = .setDataset ref dataset := ha
    obtain ⟨p, -, rfl⟩ := Option.map_eq_some_iff.1 ((SortedMap.get?_modify_self _ _ _).symm.trans hp')
    exact hread rfl

/-- **After an event that refreshes an attribute, a publisher shows what the data model holds.** -/
theorem shown_of_refreshes {e : Event} (h : e.Refreshes ref path) (hp' : e.after.publishers.get? ref = some p')
    (hpath : path ∈ p'.dataset) : shown? path p'.members = some (e.after.model.value path) := by
  by_cases hread : e.Snapshots ref
  · exact shown_of_snapshots hread hp' hpath
  cases h with
  | read h => exact absurd h hread
  | heard hchange hp hhears =>
    obtain ⟨value, hin, hc⟩ := hchange
    obtain ⟨q, hq, hm⟩ := members_after e hp' hread
    have hwrites : e.WritesOnly := by
      -- an event that writes is no replacement of the model
      intro model ha
      simp [Event.writes, ha] at hin
    have hvalue : e.after.model.value path = value := by
      have hin' : (e.before.writeAll e.time e.writes).model.value? path = some value :=
        value?_writeAll e.before (nodup_writes e) hin
      unfold DataModel.value DataModel.value? at hin' ⊢
      rw [attributes_after e hwrites, hin']
      rfl
    rw [hm, hvalue]
    exact shown_writeAll_of_heard (nodup_writes e) hp hq hin hc hhears

/-- **After any other event it shows what it has shown.** -/
theorem shown_of_not_refreshes {e : Event} (h : ¬ e.Refreshes ref path)
    (hp' : e.after.publishers.get? ref = some p') (hpath : path ∈ p'.dataset) :
    ∃ p, e.before.publishers.get? ref = some p ∧ path ∈ p.dataset ∧
      shown? path p'.members = shown? path p.members := by
  obtain ⟨q, hq, hm⟩ := members_after e hp' fun hread => h (.read hread)
  obtain ⟨p, hp, hd⟩ := publisher_before_writeAll hq
  have hdataset : p'.dataset = p.dataset := by rw [← hd, Publisher.dataset, hm]; rfl
  refine ⟨p, hp, hdataset ▸ hpath, ?_⟩
  rw [hm]
  exact shown_writeAll_of_not_heard (nodup_writes e) hp hq fun value hin hc hhears =>
    h (.heard ⟨value, hin, hc⟩ hp hhears)

/-- **The stretch of a history since the value of an attribute last came to a publisher**: the event that
brought it, and the later ones. The publisher has been there for all of these, with the attribute in its
dataset, and none of them has brought the value anew. -/
structure Since (ref path : String) (past newer : List Event) (z : Event) : Prop where
  split : ∃ older, past = newer ++ z :: older
  refreshed : z.Refreshes ref path
  kept : ∀ y ∈ newer, ¬ y.Refreshes ref path
  watched : ∀ y ∈ newer, ∃ q, y.before.publishers.get? ref = some q ∧ path ∈ q.dataset

variable {past newer : List Event} {z : Event}

/-- **What a publisher shows for an attribute** is the value that the data model held when it last came to the
publisher. -/
theorem last_refresh (h : History past) (hp : (present past).publishers.get? ref = some p)
    (hpath : path ∈ p.dataset) :
    ∃ newer z, Since ref path past newer z ∧ shown? path p.members = some (z.after.model.value path) := by
  induction past generalizing p with
  | nil => cases hp
  | cons e past ih =>
    by_cases hr : e.Refreshes ref path
    · refine ⟨[], e, ⟨⟨past, rfl⟩, hr, ?_, ?_⟩, shown_of_refreshes hr hp hpath⟩
      · simp
      · simp
    · obtain ⟨q, hq, hqpath, hshown⟩ := shown_of_not_refreshes hr hp hpath
      obtain ⟨newer, z, ⟨⟨older, hpast⟩, hz, hkept, hwatched⟩, hvalue⟩ := ih h.tail (h.before_eq ▸ hq) hqpath
      refine ⟨e :: newer, z, ⟨⟨older, by rw [hpast]; rfl⟩, hz, ?_, ?_⟩, hshown.trans hvalue⟩
      · exact List.forall_mem_cons.2 ⟨hr, hkept⟩
      · exact List.forall_mem_cons.2 ⟨⟨q, hq, hqpath⟩, hwatched⟩

/-- Where an attribute is written without a change, its value passes for the one before. -/
theorem same_run {newer older : List Event} (h : History (newer ++ older)) (hwrites : ∀ y ∈ newer, y.WritesOnly)
    (hkept : ∀ y ∈ newer, ¬ y.Changes path) :
    ((present older).model.value path).Same ((present (newer ++ older)).model.value path) := by
  induction newer with
  | nil => exact .refl _
  | cons e newer ih =>
    obtain ⟨hwrite, hwrites⟩ := List.forall_mem_cons.1 hwrites
    obtain ⟨hkeep, hkept⟩ := List.forall_mem_cons.1 hkept
    have hstep := same_after e hwrite hkeep
    rw [h.before_eq] at hstep
    exact (ih h.tail hwrites hkept).trans hstep

/-- A change since the value last came to a publisher has passed it by. -/
theorem Since.misses (h : Since ref path past newer z) {y : Event} (hy : y ∈ newer) (hc : y.Changes path) :
    y.Misses ref path := by
  obtain ⟨q, hq, hpath⟩ := h.watched y hy
  refine ⟨hc, q, hq, ?_, hpath⟩
  by_contra hon
  have hhears : q.hears path = true := by
    have htrue : q.enabled = true := by simpa using hon
    rw [Publisher.hears, htrue]
    simpa using hpath
  exact h.kept y hy (.heard hc hq hhears)

/-- **What last came to a publisher is current** unless a change has passed the publisher by since. -/
theorem Since.same (h : Since ref path past newer z) (hpast : History past)
    (hwrites : ∀ y ∈ newer, y.WritesOnly) (hheard : ∀ y ∈ newer, ¬ y.Misses ref path) :
    (z.after.model.value path).Same ((present past).model.value path) := by
  obtain ⟨older, rfl⟩ := h.split
  exact same_run hpast hwrites fun y hy hc => hheard y hy (h.misses hy hc)

/-- What comes after the last event that brought a value comes after every such event. -/
theorem Since.mem_between {between older : List Event} {e : Event} (h : Since ref path (between ++ e :: older) newer z)
    (he : e.Refreshes ref path) {y : Event} (hy : y ∈ newer) : y ∈ between := by
  obtain ⟨past, hsplit⟩ := h.split
  rcases List.append_eq_append_iff.1 hsplit with ⟨l, hnewer, hl⟩ | ⟨l, hbetween, -⟩
  · -- the event would be one of the newer ones, or the last one itself
    cases l with
    | nil => rw [hnewer, List.append_nil] at hy; exact hy
    | cons e' l =>
      obtain rfl : e = e' := (List.cons.inj hl).1
      exact absurd he (h.kept e (by rw [hnewer]; simp))
  · rw [hbetween]
    exact List.mem_append_left _ hy

/-- **Members mirror a data model**: at the first position of every path they show the value of the model, or one
that passes for it. -/
def Mirrors (members : List Member) (m : DataModel) : Prop :=
  ∀ path ∈ members.map Member.path, ∃ v, shown? path members = some v ∧ v.Same (m.value path)

/-- In a dataset without repetitions every member does. -/
theorem Mirrors.member {members : List Member} {m : DataModel} (h : Mirrors members m)
    (hn : (members.map Member.path).Nodup) {member : Member} (hm : member ∈ members) :
    member.value.Same (m.value member.path) := by
  obtain ⟨v, hv, hsame⟩ := h member.path (List.mem_map_of_mem hm)
  obtain rfl := Option.some.inj ((shown?_of_nodup hn hm).symm.trans hv)
  exact hsame

/-- A publisher that has been enabled ever since it read its dataset mirrors the data model. -/
theorem mirrors_of_enabled {between older : List Event} {e : Event} (h : History (between ++ e :: older))
    (he : e.Snapshots ref) (hwrites : ∀ y ∈ between, y.WritesOnly)
    (hon : ∀ y ∈ between, ∀ q, y.before.publishers.get? ref = some q → q.enabled = true)
    (hp : (present (between ++ e :: older)).publishers.get? ref = some p) :
    Mirrors p.members (present (between ++ e :: older)).model := by
  intro path hpath
  obtain ⟨newer, z, hsince, hshown⟩ := last_refresh h hp hpath
  have hbetween {y : Event} (hy : y ∈ newer) : y ∈ between := hsince.mem_between (.read he) hy
  refine ⟨_, hshown, hsince.same h (fun y hy => hwrites y (hbetween hy)) fun y hy hmiss => ?_⟩
  obtain ⟨q, hq, hoff, -⟩ := hmiss.disabled
  rw [hon y (hbetween hy) q hq] at hoff
  cases hoff

/-- **Publishers are coherent with the data model.** Let a publisher have been enabled ever since it was last
registered or given a dataset, and let attributes have changed by writes only. Then it mirrors the data model, and
so does every frame that it sends next. In a dataset without repetitions every member of the frame is current. -/
theorem cache_coherent {between older : List Event} {e : Event} (h : History (between ++ e :: older))
    (he : e.Snapshots ref) (hwrites : ∀ y ∈ between, y.WritesOnly)
    (hon : ∀ y ∈ between, ∀ q, y.before.publishers.get? ref = some q → q.enabled = true)
    (hp : (present (between ++ e :: older)).publishers.get? ref = some p) :
    Mirrors p.members (present (between ++ e :: older)).model ∧
      ∀ x : Event, History (x :: between ++ e :: older) → ∀ f ∈ x.frames, f.ref = ref →
        Mirrors f.members x.before.model ∧
        ((f.members.map Member.path).Nodup →
          ∀ member ∈ f.members, member.value.Same (x.before.model.value member.path)) := by
  have hmirrors := mirrors_of_enabled h he hwrites hon hp
  refine ⟨hmirrors, fun x hx f hf href => ?_⟩
  obtain ⟨q, hq, hframe, -⟩ := sender hx hf
  obtain rfl : p = q := Option.some.inj (hp.symm.trans (href ▸ hq))
  have hmembers : f.members = p.members := by rw [hframe]; rfl
  rw [hmembers, hx.before_eq]
  exact ⟨hmirrors, fun hn member hm => hmirrors.member hn hm⟩

/-- The position of a breaker is written twice, the second time as a real number: the frame carries the integer,
which passes for it. -/
theorem coherent_rewrite :
    let e : Event := ⟨blank, 0, .addPublisher "LD0/LLN0.gcb01" ⟨1, 1, 10, 1000, "DS"⟩ ["LD0/XCBR1.Pos.stVal"]⟩
    let y : Event := ⟨present [e], 10, .write "LD0/XCBR1.Pos.stVal" (.int 2)⟩
    let y' : Event := ⟨present [y, e], 20, .write "LD0/XCBR1.Pos.stVal" (.real 2)⟩
    let x : Event := ⟨present [y', y, e], 30, .transmit⟩
    let f : Frame := ⟨"LD0/LLN0.gcb01", 1, 2, 0, "DS", 1, 20, 30, [⟨"LD0/XCBR1.Pos.stVal", .int 2⟩]⟩
    History [x, y', y, e] ∧ x.frames = [f] ∧ x.before.model.value "LD0/XCBR1.Pos.stVal" = .real 2 ∧
      ∀ member ∈ f.members, member.value.Same (x.before.model.value member.path) := by
  intro e y y' x f
  have h : History ([y', y] ++ [e]) := ((History.start.next _ _).next _ _).next _ _
  have hx : History (x :: [y', y] ++ [e]) := h.next _ _
  have hframes : x.frames = [f] := by decide +kernel
  obtain ⟨p, hp⟩ : ∃ p, (present ([y', y] ++ [e])).publishers.get? "LD0/LLN0.gcb01" = some p :=
    Option.isSome_iff_exists.1 (by decide +kernel)
  have hwrites : ∀ z ∈ [y', y], z.WritesOnly := by
    intro z hz model ha
    simp only [List.mem_cons, List.not_mem_nil, or_false] at hz
    rcases hz with rfl | rfl <;> cases ha
  have hon : ∀ z ∈ [y', y], ∀ q, z.before.publishers.get? "LD0/LLN0.gcb01" = some q → q.enabled = true := by
    intro z hz q hq
    simp only [List.mem_cons, List.not_mem_nil, or_false] at hz
    have hall : (z.before.publishers.get? "LD0/LLN0.gcb01").all (·.enabled) = true := by
      rcases hz with rfl | rfl <;> decide +kernel
    rw [hq] at hall
    exact hall
  -- Two and the real number two are the same value, so the second write changes nothing.
  have hcoherent := cache_coherent h (.registered ⟨_, _, rfl⟩) hwrites hon hp
  have hmem : f ∈ x.frames := by rw [hframes]; exact List.mem_singleton_self f
  exact ⟨hx, hframes, by decide +kernel, (hcoherent.2 x hx f hmem rfl).2 (by decide)⟩

/-- **What a frame carries.** For every path of its dataset it carries, at the first position, the value that the
data model held when it last came to the publisher: when the publisher read its dataset, or when the attribute
changed while the publisher was enabled. So where attributes change by writes only, this is the present value, or
passes for it, unless the attribute has changed since then while the publisher was disabled. -/
theorem frame_data {x : Event} {f : Frame} (h : History (x :: past)) (hf : f ∈ x.frames)
    (hpath : path ∈ f.members.map Member.path) :
    ∃ newer z, Since f.ref path past newer z ∧ shown? path f.members = some (z.after.model.value path) ∧
      ((∀ y ∈ newer, y.WritesOnly) → (∀ y ∈ newer, ¬ y.Misses f.ref path) →
        (z.after.model.value path).Same (x.before.model.value path)) := by
  obtain ⟨p, hp, hframe, -⟩ := sender h hf
  have hmembers : f.members = p.members := by rw [hframe]; rfl
  rw [hmembers] at hpath ⊢
  obtain ⟨newer, z, hsince, hshown⟩ := last_refresh h.tail hp hpath
  refine ⟨newer, z, hsince, hshown, fun hwrites hheard => ?_⟩
  rw [h.before_eq]
  exact hsince.same h.tail hwrites hheard

/-- A switch opens while the publisher is disabled, and an indication, which the dataset lists twice, changes after
the publisher has been enabled again. -/
def missedOpening : List (Millis × Action) :=
  [(20, .write "LD0/GGIO1.Ind1.stVal" (.int 1)), (15, .enablePublisher "LD0/LLN0.gcb01" true),
    (10, .write "LD0/XSWI1.Pos.stVal" (.int 1)), (5, .enablePublisher "LD0/LLN0.gcb01" false),
    (0, .addPublisher "LD0/LLN0.gcb01" ⟨1, 1, 10, 1000, "DS"⟩
      ["LD0/XSWI1.Pos.stVal", "LD0/GGIO1.Ind1.stVal", "LD0/GGIO1.Ind1.stVal"]),
    (0, .write "LD0/XSWI1.Pos.stVal" (.int 2))]

/-- Of the indication no change has been missed, so the frame shows its present value. The switch is shown as it was
when it last came to the publisher. -/
theorem frame_data_missedOpening :
    let x : Event := ⟨present (historyOf missedOpening), 20, .transmit⟩
    ∃ f ∈ x.frames,
      (∃ v, shown? "LD0/GGIO1.Ind1.stVal" f.members = some v ∧
        v.Same (x.before.model.value "LD0/GGIO1.Ind1.stVal")) ∧
      ∃ newer z, Since f.ref "LD0/XSWI1.Pos.stVal" (historyOf missedOpening) newer z ∧
        shown? "LD0/XSWI1.Pos.stVal" f.members = some (z.after.model.value "LD0/XSWI1.Pos.stVal") := by
  intro x
  have hx : History (x :: historyOf missedOpening) := (history_historyOf _).next _ _
  obtain ⟨f, hf, href, hpath, hpath'⟩ : ∃ f ∈ x.frames, f.ref = "LD0/LLN0.gcb01" ∧
      "LD0/GGIO1.Ind1.stVal" ∈ f.members.map Member.path ∧ "LD0/XSWI1.Pos.stVal" ∈ f.members.map Member.path := by
    refine ⟨_, List.mem_cons_self, rfl, ?_, ?_⟩ <;> decide
  have hwrites : ∀ y ∈ historyOf missedOpening, y.WritesOnly := by
    intro y hy model ha
    simp only [missedOpening, historyOf, List.mem_cons, List.not_mem_nil, or_false] at hy
    rcases hy with rfl | rfl | rfl | rfl | rfl | rfl <;> cases ha
  have hheard : ∀ y ∈ historyOf missedOpening, ¬ y.Misses f.ref "LD0/GGIO1.Ind1.stVal" := by
    rw [href]
    rintro y hy ⟨⟨value, hin, -⟩, q, hq, hoff, -⟩
    simp only [missedOpening, historyOf, List.mem_cons, List.not_mem_nil, or_false] at hy
    rcases hy with rfl | rfl | rfl | rfl | rfl | rfl
    · -- the only write of the indication, when the publisher is enabled again
      obtain rfl := Option.some.inj hq
      cases hoff
    all_goals simp [Event.writes] at hin
  obtain ⟨newer, z, hsince, hshown, hsame⟩ := frame_data hx hf hpath
  obtain ⟨newer', z', hsince', hshown', -⟩ := frame_data hx hf hpath'
  obtain ⟨older, hpast⟩ := hsince.split
  have hpresent {y : Event} (hy : y ∈ newer) : y ∈ historyOf missedOpening := by
    rw [hpast]
    exact List.mem_append_left _ hy
  refine ⟨f, hf, ⟨_, hshown, hsame ?_ ?_⟩, newer', z', hsince', hshown'⟩
  · exact fun y hy => hwrites y (hpresent hy)
  · exact fun y hy => hheard y (hpresent hy)

/-- **An enabled publisher may send stale data.** The frame still shows the switch closed, and it shows the
indication as it is at its first position only. -/
theorem stale_frame :
    let x : Event := ⟨present (historyOf missedOpening), 20, .transmit⟩
    let f : Frame := ⟨"LD0/LLN0.gcb01", 1, 2, 0, "DS", 1, 20, 20,
      [⟨"LD0/XSWI1.Pos.stVal", .int 2⟩, ⟨"LD0/GGIO1.Ind1.stVal", .int 1⟩, ⟨"LD0/GGIO1.Ind1.stVal", .null⟩]⟩
    History (x :: historyOf missedOpening) ∧ x.frames = [f] ∧
      x.before.model.value "LD0/XSWI1.Pos.stVal" = .int 1 ∧ ¬ (Scalar.int 2).Same (.int 1) ∧
      x.before.model.value "LD0/GGIO1.Ind1.stVal" = .int 1 ∧ ¬ Scalar.null.Same (.int 1) := by
  intro x f
  have hswitch : ¬ (Scalar.int 2).Same (.int 1) := by
    rintro (h | h)
    · cases h
    · revert h; decide +kernel
  have hindication : ¬ Scalar.null.Same (.int 1) := by
    rintro (h | h)
    · cases h
    · revert h; decide
  exact ⟨(history_historyOf _).next _ _, rfl, rfl, hswitch, rfl, hindication⟩

end Switchyard.Substation
