import Switchyard.Proofs.Station.Interval
import Switchyard.Proofs.Station.Shown

/-!
# The schedule of publishers

What holds of publishers after any calls at any times, with any configurations: the
interval between frames lies within its bounds, no status number is 0, and what a frame
announces as its lifetime covers the time until the next one is due
(`publishers_keep_schedule`).

A publisher keeps each path of its dataset together with the value last seen there. A
`Sheet` keeps paths and values as two lists side by side, and stores a value at the
position of its path. Nothing but the calls keeps such lists in step, and a value whose
position lies behind the end of the values cannot be stored; but the two lists of a
publisher are in step after any calls, and no value is lost (`follow?_eq`).

* `Call`, `Publishers.follow`: what can be done to publishers, and where it leads.
* `Publisher.Timed`, `inOrder_after`: the bounds, and that every call keeps them.
* `Publisher.nextTx_sent_le`: one frame.
* `exists_calls`: the publishers of a substation are led by such calls.
-/

namespace Switchyard

/-- Times add up to the last one that there is. -/
theorem Millis.toNat_plus (a b : Millis) : (Millis.plus a b).toNat = min (a.toNat + b.toNat) (2 ^ 64 - 1) := by
  have ha := a.toNat_lt
  have hb := b.toNat_lt
  have hsum : (a + b).toNat = (a.toNat + b.toNat) % 2 ^ 64 := UInt64.toNat_add a b
  unfold plus
  split
  · rename_i h
    have hwraps := UInt64.lt_iff_toNat_lt.1 h
    have hlast : (UInt64.ofNat (UInt64.size - 1)).toNat = 2 ^ 64 - 1 := rfl
    omega
  · rename_i h
    have hfits := mt UInt64.lt_iff_toNat_lt.2 h
    omega

namespace Goose

/-- What can be done to publishers. Whatever reads a dataset may meet any data model, and any attribute may be
reported as changed to any value. -/
inductive Call where
  | register (ref : String) (config : Config) (dataset : List String) (model : DataModel)
  | unregister (ref : String)
  | enable (ref : String) (enabled : Bool)
  | change (path : String) (value : Scalar)
  | configure (ref : String) (config : Config)
  | setDataset (ref : String) (dataset : List String) (model : DataModel)
  | tick

/-- The publishers after a call at a time. -/
def Publishers.after (ps : Publishers) (now : Millis) : Call → Publishers
  | .register ref config dataset model => ps.insert ref (.register ref config dataset model now)
  | .unregister ref => ps.erase ref
  | .enable ref enabled => ps.modify ref fun p => { p with enabled }
  | .change path value => ps.observe path value now
  | .configure ref config => ps.modify ref fun p => p.setConfig config now
  | .setDataset ref dataset model => ps.modify ref fun p => p.setDataset dataset model now
  | .tick => (ps.tick now).2

/-- The publishers after calls, in order, each at its time. -/
def Publishers.follow (ps : Publishers) : List (Millis × Call) → Publishers
  | [] => ps
  | (now, call) :: calls => (ps.after now call).follow calls

/-- Calls in two parts are followed one part after the other. -/
theorem Publishers.follow_append (ps : Publishers) (first later : List (Millis × Call)) :
    ps.follow (first ++ later) = (ps.follow first).follow later := by
  induction first generalizing ps with
  | nil => rfl
  | cons c first ih => exact ih _

variable {ps : Publishers} {ref : String} {p : Publisher} {now : Millis}

namespace Publisher

/-- The interval lies within its bounds, and the status number is not 0. -/
structure Timed (p : Publisher) : Prop where
  least_le : p.config.least ≤ p.interval
  le_most : p.interval ≤ p.config.most
  status : 1 ≤ p.stNum

/-- The number of a status is never zero, not even when it starts anew. -/
theorem one_le_nextStatus (n : UInt32) : 1 ≤ nextStatus n := by
  rw [UInt32.le_iff_toNat_le, toNat_nextStatus, UInt32.toNat_one]
  exact Nat.le_max_right _ _

/-- A publisher is registered with its interval in bounds. -/
theorem timed_register (ref : String) (config : Config) (dataset : List String) (m : DataModel) (now : Millis) :
    (register ref config dataset m now).Timed :=
  ⟨UInt64.le_iff_toNat_le.2 config.least_le_most, UInt64.le_refl _, UInt32.le_refl 1⟩

/-- A burst restores the bounds, whatever the configuration has become. -/
theorem timed_burst (p : Publisher) (now : Millis) : (p.burst now).Timed :=
  ⟨UInt64.le_refl _, UInt64.le_iff_toNat_le.2 p.config.least_le_most, one_le_nextStatus p.stNum⟩

/-- A change leaves the interval in its bounds: the least one is among them. -/
theorem Timed.observe (h : p.Timed) (path : String) (value : Scalar) (now : Millis) :
    (p.observe path value now).Timed := by
  rcases p.observe_cases path value now with ⟨-, stored, -, hp⟩ | ⟨-, hp⟩
  · rw [hp]
    exact timed_burst _ now
  · rw [hp]
    exact h

/-- The interval after a frame lies within the bounds, and below the lifetime that the frame announces. -/
theorem nextInterval_bounds (h : p.Timed) :
    p.config.least ≤ p.nextInterval ∧ p.nextInterval ≤ p.config.most ∧
      p.nextInterval ≤ Millis.double p.interval := by
  have hleast := UInt64.le_iff_toNat_le.1 h.least_le
  have hmost := UInt64.le_iff_toNat_le.1 h.le_most
  have hbounds := p.config.least_le_most
  have hdouble := Millis.toNat_double p.interval
  have hlt := p.config.most.toNat_lt
  simp only [UInt64.le_iff_toNat_le]
  by_cases hsq : p.sqNum = 0
  · have hnext : p.nextInterval = p.config.least := if_pos hsq
    rw [hnext]
    omega
  · have hnext := toNat_nextInterval hsq
    omega

/-- A transmission leaves the interval in its bounds, as it is doubled up to the greatest one only. -/
theorem Timed.sent (h : p.Timed) (now : Millis) : (p.sent now).Timed :=
  ⟨(nextInterval_bounds h).1, (nextInterval_bounds h).2.1, h.status⟩

/-- **One frame**: the next one is due within the lifetime that this one announces. -/
theorem nextTx_sent_le (h : p.Timed) (now : Millis) :
    (p.sent now).nextTx ≤ Millis.plus now (p.frame now).timeAllowedToLive ∧
      (p.sent now).nextTx.toNat - now.toNat ≤ (p.frame now).timeAllowedToLive.toNat := by
  have hnext : (p.sent now).nextTx.toNat = _ := Millis.toNat_plus now p.nextInterval
  have hlife : (p.frame now).timeAllowedToLive = Millis.double p.interval := rfl
  have hle := UInt64.le_iff_toNat_le.1 (nextInterval_bounds h).2.2
  rw [UInt64.le_iff_toNat_le, hnext, hlife, Millis.toNat_plus]
  omega

end Publisher

/-- Publishers are kept under the paths they announce, and within their bounds. -/
def Publishers.InOrder (ps : Publishers) : Prop := ∀ ref p, ps.get? ref = some p → p.ref = ref ∧ p.Timed

/-- A publisher that stays in bounds leaves all of them in order. -/
theorem Publishers.InOrder.modify (h : ps.InOrder) {f : Publisher → Publisher}
    (hf : ∀ p, p.Timed → (f p).ref = p.ref ∧ (f p).Timed) : InOrder (ps.modify ref f) := by
  intro other p hp
  rcases SortedMap.get?_modify_eq_some hp with ⟨rfl, old, hold, rfl⟩ | ⟨-, hsame⟩
  · obtain ⟨href, htimed⟩ := h _ old hold
    exact ⟨(hf old htimed).1.trans href, (hf old htimed).2⟩
  · exact h other p hsame

theorem Publishers.InOrder.mapValues (h : ps.InOrder) {f : Publisher → Publisher}
    (hf : ∀ p, p.Timed → (f p).ref = p.ref ∧ (f p).Timed) : InOrder (ps.mapValues fun _ p => f p) := by
  intro other p hp
  rw [SortedMap.get?_mapValues] at hp
  obtain ⟨old, hold, rfl⟩ := Option.map_eq_some_iff.1 hp
  obtain ⟨href, htimed⟩ := h _ old hold
  exact ⟨(hf old htimed).1.trans href, (hf old htimed).2⟩

theorem Publisher.ref_observe (p : Publisher) (path : String) (value : Scalar) (now : Millis) :
    (p.observe path value now).ref = p.ref := by
  rcases p.observe_cases path value now with ⟨-, stored, -, hp⟩ | ⟨-, hp⟩
  · rw [hp]
    rfl
  · rw [hp]

/-- **Every call keeps publishers in order.** -/
theorem inOrder_after (h : ps.InOrder) (now : Millis) (call : Call) : (ps.after now call).InOrder := by
  cases call with
  | register ref config dataset model =>
    intro other p hp
    by_cases ho : other = ref
    · subst ho
      obtain rfl := Option.some.inj ((SortedMap.get?_insert_self _ _ _).symm.trans hp)
      exact ⟨rfl, Publisher.timed_register ..⟩
    · exact h other p ((SortedMap.get?_insert_of_ne _ _ ho).symm.trans hp)
  | unregister ref => exact fun other p hp => h other p (SortedMap.get?_erase_eq_some.1 hp).2
  | enable ref enabled => exact h.modify fun p hp => ⟨rfl, hp.least_le, hp.le_most, hp.status⟩
  | change path value => exact h.mapValues fun p hp => ⟨p.ref_observe path value now, hp.observe path value now⟩
  | configure ref config => exact h.modify fun p _ => ⟨rfl, Publisher.timed_burst _ now⟩
  | setDataset ref dataset model => exact h.modify fun p _ => ⟨rfl, Publisher.timed_burst _ now⟩
  | tick =>
    refine h.mapValues fun p hp => ?_
    unfold Publisher.tick
    split
    · exact ⟨rfl, hp.sent now⟩
    · exact ⟨rfl, hp⟩

/-- Publishers stay in order through all calls. -/
theorem inOrder_follow (h : ps.InOrder) (calls : List (Millis × Call)) : (ps.follow calls).InOrder := by
  induction calls generalizing ps with
  | nil => exact h
  | cons c calls ih => exact ih (inOrder_after h c.1 c.2)

/-- A frame comes from the publisher of its path, which has sent it. -/
theorem sent_of_mem_tick (h : ps.InOrder) {f : Frame} (hf : f ∈ (ps.tick now).1) :
    ∃ p : Publisher, p.Timed ∧ f = p.frame now ∧ (ps.tick now).2.get? f.ref = some (p.sent now) := by
  obtain ⟨p, hp, htick⟩ := List.mem_filterMap.1 hf
  obtain ⟨ref, hget⟩ := SortedMap.exists_get?_of_mem_values hp
  obtain ⟨rfl, htimed⟩ := h ref p hget
  by_cases hdue : p.due now = true
  · have htick' : p.tick now = (some (p.frame now), p.sent now) := if_pos hdue
    rw [htick'] at htick
    obtain rfl := Option.some.inj htick
    refine ⟨p, htimed, rfl, ?_⟩
    have hafter : (ps.tick now).2.get? p.ref = (ps.get? p.ref).map fun p => (p.tick now).2 :=
      SortedMap.get?_mapValues _ _ _
    rw [hget, Option.map_some, htick'] at hafter
    exact hafter
  · rw [Publisher.tick, if_neg hdue] at htick
    cases htick

/-- The paths of a dataset and the values last seen there, as two lists side by side. -/
structure Sheet where
  enabled : Bool
  dataset : List String
  cache : List Scalar
  deriving DecidableEq

namespace Sheet

/-- Reads all values of a dataset. -/
def read (enabled : Bool) (dataset : List String) (m : DataModel) : Sheet := ⟨enabled, dataset, dataset.map m.value⟩

/-- Stores a value at the first position of its path; nothing comes of it if the values end before that position. -/
def store? (s : Sheet) (path : String) (value : Scalar) : Option Sheet :=
  match s.dataset.idxOf? path with
  | none => some s
  | some i => if i < s.cache.length then some { s with cache := s.cache.set i value } else none

/-- The sheet kept under a path after a call; nothing if a value cannot be stored. -/
def after? (ref : String) (sheet : Option Sheet) : Call → Option (Option Sheet)
  | .register r _ dataset model => some (if r = ref then some (read true dataset model) else sheet)
  | .unregister r => some (if r = ref then none else sheet)
  | .enable r enabled => some (if r = ref then sheet.map fun s => { s with enabled } else sheet)
  | .change path value =>
    match sheet with
    | none => some none
    | some s => if s.enabled then (s.store? path value).map some else some s
  | .setDataset r dataset model => some (if r = ref then sheet.map fun s => read s.enabled dataset model else sheet)
  | .configure _ _ | .tick => some sheet

/-- The sheet kept under a path after calls. -/
def follow? (ref : String) (sheet : Option Sheet) : List (Millis × Call) → Option (Option Sheet)
  | [] => some sheet
  | (_, call) :: calls => (after? ref sheet call).bind fun sheet => follow? ref sheet calls

end Sheet

/-- What a publisher has on its sheet. -/
def Publisher.sheet (p : Publisher) : Sheet := ⟨p.enabled, p.dataset, p.members.map Member.value⟩

theorem Publisher.length_cache_sheet (p : Publisher) : p.sheet.cache.length = p.sheet.dataset.length := by
  simp [sheet, dataset]

/-- A value is stored in the first member with its path. -/
theorem storeIn_eq (path : String) (value : Scalar) (members : List Member) :
    storeIn path value members =
      ((members.map Member.path).idxOf? path).map fun i => members.set i ⟨path, value⟩ := by
  induction members with
  | nil => rfl
  | cons first members ih =>
    by_cases h : first.path = path
    · simp [storeIn, h, List.idxOf?_cons]
    · have hb : (first.path == path) = false := by simpa using h
      simp only [storeIn, if_neg h, ih, List.map_cons, List.idxOf?_cons, hb]
      cases (members.map Member.path).idxOf? path <;> rfl

/-- **A publisher stores on its sheet what it takes note of**: it always can. -/
theorem store?_sheet (p : Publisher) (path : String) (value : Scalar) (now : Millis) :
    (if p.sheet.enabled then p.sheet.store? path value else some p.sheet) = some (p.observe path value now).sheet := by
  by_cases he : p.enabled = true
  swap
  · have hsame : p.observe path value now = p := if_neg he
    rw [hsame]
    exact if_neg he
  have hstore := storeIn_eq path value p.members
  rw [show p.sheet.enabled = true from he, if_pos rfl]
  cases hi : (p.members.map Member.path).idxOf? path with
  | none =>
    have hsheet : p.sheet.store? path value = some p.sheet := by
      simp only [Sheet.store?, Publisher.sheet, Publisher.dataset, hi]
    have hsame : p.observe path value now = p := by
      simp only [Publisher.observe, he, if_true, hstore, hi, Option.map_none]
    rw [hsheet, hsame]
  | some i =>
    -- a position in the dataset is one in the cache
    have hlt : i < (p.members.map Member.value).length := by
      obtain ⟨hlt, -⟩ := List.idxOf?_eq_some_iff.1 hi
      simpa using hlt
    have hobserved : p.observe path value now = { p with members := p.members.set i ⟨path, value⟩ }.burst now := by
      simp only [Publisher.observe, he, if_true, hstore, hi, Option.map_some]
    have hdataset : (p.members.set i ⟨path, value⟩).map Member.path = p.members.map Member.path := by
      rw [hi] at hstore
      exact map_path_storeIn hstore
    have hsheet : p.sheet.store? path value =
        some ⟨p.enabled, p.members.map Member.path, (p.members.map Member.value).set i value⟩ := by
      simp only [Sheet.store?, Publisher.sheet, Publisher.dataset, hi]
      exact if_pos hlt
    rw [hsheet, hobserved]
    simp only [Publisher.sheet, Publisher.dataset, Publisher.burst, hdataset, List.map_set]

/-- A new dataset is read from the model. -/
theorem sheet_setDataset (p : Publisher) (dataset : List String) (m : DataModel) (now : Millis) :
    (p.setDataset dataset m now).sheet = .read p.enabled dataset m := by
  simp [Publisher.sheet, Publisher.dataset, Publisher.setDataset, Publisher.burst, Sheet.read, membersOf,
    Function.comp_def]

theorem sheet_register (config : Config) (dataset : List String) (m : DataModel) :
    (Publisher.register ref config dataset m now).sheet = .read true dataset m := by
  simp [Publisher.sheet, Publisher.dataset, Publisher.register, Sheet.read, membersOf, Function.comp_def]

/-- A tick changes neither the dataset nor the cache. -/
theorem sheet_tick (p : Publisher) (now : Millis) : (p.tick now).2.sheet = p.sheet := by
  unfold Publisher.tick
  split <;> rfl

/-- **One call**: what it does to a sheet is what it does to the publisher, and no value is lost. -/
theorem after?_eq (ps : Publishers) (ref : String) (now : Millis) (call : Call) :
    Sheet.after? ref ((ps.get? ref).map Publisher.sheet) call =
      some (((ps.after now call).get? ref).map Publisher.sheet) := by
  cases call with
  | register r config dataset model =>
    by_cases hr : r = ref
    · subst hr
      simp only [Sheet.after?, if_true, Publishers.after, SortedMap.get?_insert_self, Option.map_some, sheet_register]
    · simp only [Sheet.after?, if_neg hr, Publishers.after, SortedMap.get?_insert_of_ne _ _ (Ne.symm hr)]
  | unregister r =>
    by_cases hr : r = ref
    · subst hr
      simp only [Sheet.after?, if_true, Publishers.after, SortedMap.get?_erase_self, Option.map_none]
    · simp only [Sheet.after?, if_neg hr, Publishers.after, SortedMap.get?_erase_of_ne _ (Ne.symm hr)]
  | enable r enabled =>
    by_cases hr : r = ref
    · subst hr
      simp only [Sheet.after?, if_true, Publishers.after, SortedMap.get?_modify_self, Option.map_map]
      rfl
    · simp only [Sheet.after?, if_neg hr, Publishers.after, SortedMap.get?_modify_of_ne _ _ (Ne.symm hr)]
  | change path value =>
    have hafter : (ps.after now (.change path value)).get? ref =
        (ps.get? ref).map fun p => p.observe path value now := SortedMap.get?_mapValues _ _ _
    rw [hafter]
    cases ps.get? ref with
    | none => rfl
    | some p =>
      have hstore := store?_sheet p path value now
      simp only [Sheet.after?, Option.map_some]
      by_cases he : p.sheet.enabled = true
      · rw [if_pos he] at hstore ⊢
        rw [hstore, Option.map_some]
      · rw [if_neg he] at hstore ⊢
        rw [hstore]
  | configure r config =>
    -- a configuration is not on the sheet
    by_cases hr : r = ref
    · subst hr
      simp only [Sheet.after?, Publishers.after, SortedMap.get?_modify_self, Option.map_map]
      rfl
    · simp only [Sheet.after?, Publishers.after, SortedMap.get?_modify_of_ne _ _ (Ne.symm hr)]
  | setDataset r dataset model =>
    by_cases hr : r = ref
    · subst hr
      simp only [Sheet.after?, if_true, Publishers.after, SortedMap.get?_modify_self, Option.map_map, Function.comp_def,
        sheet_setDataset]
      rfl
    · simp only [Sheet.after?, if_neg hr, Publishers.after, SortedMap.get?_modify_of_ne _ _ (Ne.symm hr)]
  | tick =>
    have hafter : (ps.after now .tick).get? ref = (ps.get? ref).map fun p => (p.tick now).2 :=
      SortedMap.get?_mapValues _ _ _
    simp only [Sheet.after?, hafter, Option.map_map, Function.comp_def, sheet_tick]

/-- **The sheets of a run** are those of the publishers: paths and values stay in step. -/
theorem follow?_eq (ps : Publishers) (ref : String) (calls : List (Millis × Call)) :
    Sheet.follow? ref ((ps.get? ref).map Publisher.sheet) calls =
      some (((ps.follow calls).get? ref).map Publisher.sheet) := by
  induction calls generalizing ps with
  | nil => rfl
  | cons c calls ih =>
    obtain ⟨now, call⟩ := c
    rw [Sheet.follow?, after?_eq ps ref now call]
    exact ih _

end Goose

namespace Substation

open Goose

theorem calls_writeAll (s : Substation) (now : Millis) (writes : List (String × Scalar)) :
    ∃ calls, (s.writeAll now writes).publishers = s.publishers.follow calls := by
  induction writes generalizing s with
  | nil => exact ⟨[], rfl⟩
  | cons w writes ih =>
    obtain ⟨calls, hcalls⟩ := ih (s.writeAttribute w.1 w.2 now)
    by_cases hchanges : s.model.changes w.1 w.2 = true
    · refine ⟨(now, .change w.1 w.2) :: calls, hcalls.trans ?_⟩
      simp only [writeAttribute, if_pos hchanges]
      rfl
    · refine ⟨calls, hcalls.trans ?_⟩
      simp only [writeAttribute, if_neg hchanges]

/-- **All that an action of a substation does to its publishers** is done by calls of them. -/
theorem calls_act (s : Substation) (now : Millis) (action : Action) :
    ∃ calls, (s.act now action).2.publishers = s.publishers.follow calls := by
  cases action with
  | write path value => exact s.calls_writeAll now [(path, value)]
  | operate path value client =>
    rcases s.operate_cases path value now client with ⟨refusal, sessions, hs, -⟩ | ⟨-, hs⟩
    · exact ⟨[], by simp only [act, hs]; rfl⟩
    · obtain ⟨calls, hcalls⟩ := s.calls_writeAll now (s.operationWrites path value now)
      rw [← publishers_perform s path value client now] at hcalls
      exact ⟨calls, by simp only [act, hs]; exact hcalls⟩
  | addPublisher ref config dataset => exact ⟨[(now, .register ref config dataset s.model)], rfl⟩
  | removePublisher ref => exact ⟨[(now, .unregister ref)], rfl⟩
  | enablePublisher ref enabled => exact ⟨[(now, .enable ref enabled)], rfl⟩
  | configurePublisher ref config => exact ⟨[(now, .configure ref config)], rfl⟩
  | setDataset ref dataset => exact ⟨[(now, .setDataset ref dataset s.model)], rfl⟩
  | transmit => exact ⟨[(now, .tick)], rfl⟩
  | _ => exact ⟨[], rfl⟩

/-- **The publishers of a substation** have come to be by such calls, whatever has happened to it. -/
theorem exists_calls {past : List Event} (h : History past) :
    ∃ calls, (present past).publishers = Publishers.follow ∅ calls := by
  refine h.invariant (P := fun s => ∃ calls, s.publishers = Publishers.follow ∅ calls) ⟨[], rfl⟩ ?_
  rintro s now action ⟨first, hfirst⟩
  obtain ⟨later, hlater⟩ := s.calls_act now action
  exact ⟨first ++ later, by rw [hlater, hfirst, Publishers.follow_append]⟩

end Substation

namespace Goose

/-- **Publishers keep to their schedule.** After any calls at any times, with any configurations, the interval of
every publisher lies between the shortest and the longest one in force, and its status number is not 0. Its dataset
and the values seen there, kept as two lists side by side, are equally long, and no value has been lost on the way
because its position was missing. When frames are sent, the next one of the same publisher is due within the lifetime
that its frame announces. And the publishers of a substation, whatever happens to it, come to be by such calls. -/
theorem publishers_keep_schedule :
    (∀ calls : List (Millis × Call), let ps := Publishers.follow ∅ calls
      (∀ ref p, ps.get? ref = some p →
        p.config.least ≤ p.interval ∧ p.interval ≤ p.config.most ∧ 1 ≤ p.stNum) ∧
      (∀ ref, ∃ sheet, Sheet.follow? ref none calls = some sheet ∧ sheet = (ps.get? ref).map Publisher.sheet ∧
        ∀ s, sheet = some s → s.cache.length = s.dataset.length) ∧
      ∀ now, ∀ f ∈ (ps.tick now).1, ∃ p', (ps.tick now).2.get? f.ref = some p' ∧ f.timestamp = now ∧
        p'.nextTx ≤ Millis.plus now f.timeAllowedToLive ∧
        p'.nextTx.toNat - now.toNat ≤ f.timeAllowedToLive.toNat) ∧
    ∀ past, Substation.History past → ∃ calls, (Substation.present past).publishers = Publishers.follow ∅ calls := by
  refine ⟨fun calls => ?_, fun past h => Substation.exists_calls h⟩
  have hempty : Publishers.InOrder ∅ := nofun
  have horder := inOrder_follow hempty calls
  refine ⟨fun ref p hp => ?_, fun ref => ?_, fun now f hf => ?_⟩
  · obtain ⟨-, htimed⟩ := horder ref p hp
    exact ⟨htimed.least_le, htimed.le_most, htimed.status⟩
  · refine ⟨_, follow?_eq ∅ ref calls, rfl, fun s hs => ?_⟩
    obtain ⟨p, -, rfl⟩ := Option.map_eq_some_iff.1 hs
    exact p.length_cache_sheet
  · obtain ⟨p, htimed, rfl, hafter⟩ := sent_of_mem_tick horder hf
    exact ⟨p.sent now, hafter, rfl, Publisher.nextTx_sent_le htimed now⟩

/-- A publisher that may wait almost for ever, with its bounds the wrong way around for a while: its dataset is
replaced by one that names a path twice, it is told of a change there, and it goes on until the end of all times. -/
def patient : List (Millis × Call) :=
  [(0, .register "LD0/LLN0.gcb01" ⟨1, 1, 10, 0, "DS"⟩ [] .blank),
    (5, .configure "LD0/LLN0.gcb01" ⟨1, 2, 9223372036854775808, 18446744073709551615, "DS"⟩),
    (6, .setDataset "LD0/LLN0.gcb01" ["LD0/XCBR1.Pos.stVal", "LD0/XCBR1.Pos.stVal"] .blank),
    (7, .tick), (8, .change "LD0/XCBR1.Pos.stVal" (.int 2)), (8, .tick)]

theorem patient_keeps_schedule :
    let f : Frame := ⟨"LD0/LLN0.gcb01", 1, 4, 1, "DS", 2, 18446744073709551615, 18446744073709551615,
      [⟨"LD0/XCBR1.Pos.stVal", .int 2⟩, ⟨"LD0/XCBR1.Pos.stVal", .null⟩]⟩
    let ps := Publishers.follow ∅ patient
    f ∈ (ps.tick 18446744073709551615).1 ∧
      Sheet.follow? "LD0/LLN0.gcb01" none patient = some (some ⟨true,
        ["LD0/XCBR1.Pos.stVal", "LD0/XCBR1.Pos.stVal"], [.int 2, .null]⟩) ∧
      ∃ p p', ps.get? f.ref = some p ∧ p.config.least ≤ p.interval ∧
        (ps.tick 18446744073709551615).2.get? f.ref = some p' ∧
        p'.nextTx ≤ Millis.plus 18446744073709551615 f.timeAllowedToLive := by
  intro f ps
  have hf : f ∈ (ps.tick 18446744073709551615).1 := by decide
  obtain ⟨p, hp⟩ : ∃ p, ps.get? f.ref = some p := Option.isSome_iff_exists.1 (by decide)
  obtain ⟨hbounds, -, hframes⟩ := publishers_keep_schedule.1 patient
  obtain ⟨p', hp', -, hnext, -⟩ := hframes 18446744073709551615 f hf
  exact ⟨hf, by decide, p, p', hp, (hbounds _ p hp).1, hp', hnext⟩

end Goose
end Switchyard
