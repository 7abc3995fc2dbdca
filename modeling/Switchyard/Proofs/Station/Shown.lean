import Switchyard.Proofs.Scalar
import Switchyard.Proofs.Station.Exclusion
import Switchyard.Proofs.Station.Publication

/-!
# What publishers show

A dataset may list a path more than once. A publisher that takes note of an attribute
stores its value at the first position of the path, so what it shows for the path is
what stands there (`shown?`).

* `Publisher.observe_cases`: what taking note of an attribute does to a publisher.
* `value?_writeAll`, `same_writeAll`: what writes do to the attributes.
* `shown_writeAll_of_heard`, `shown_writeAll_of_not_heard`: what writes do to what a
  publisher shows.
-/

namespace Switchyard

namespace Goose

/-- The value shown for a path: the one at its first position. -/
def shown? (path : String) (members : List Member) : Option Scalar :=
  (members.find? fun member => member.path == path).map Member.value

theorem shown?_cons (path : String) (member : Member) (members : List Member) :
    shown? path (member :: members) = if member.path = path then some member.value else shown? path members := by
  unfold shown?
  by_cases h : member.path = path <;> simp [h]

theorem shown?_append (path : String) (members more : List Member) :
    shown? path (members ++ more) = (shown? path members).or (shown? path more) := by
  unfold shown?
  rw [List.find?_append]
  cases members.find? fun member => member.path == path <;> rfl

theorem shown?_membersOf (m : DataModel) {path : String} {dataset : List String} (h : path ∈ dataset) :
    shown? path (membersOf m dataset) = some (m.value path) := by
  induction dataset with
  | nil => cases h
  | cons other dataset ih =>
    show shown? path (⟨other, m.value other⟩ :: membersOf m dataset) = _
    rw [shown?_cons]
    by_cases ho : other = path
    · rw [if_pos ho, ho]
    · rw [if_neg ho]
      exact ih ((List.mem_cons.1 h).resolve_left (Ne.symm ho))

/-- **Where a value is stored**: in the place of the first member with the path. -/
theorem split_of_storeIn {path : String} {value : Scalar} {members stored : List Member}
    (h : storeIn path value members = some stored) :
    ∃ before member rest, members = before ++ member :: rest ∧ shown? path before = none ∧ member.path = path ∧
      stored = before ++ ⟨path, value⟩ :: rest := by
  induction members generalizing stored with
  | nil => cases h
  | cons first members ih =>
    simp only [storeIn] at h
    by_cases hfirst : first.path = path
    · rw [if_pos hfirst] at h
      exact ⟨[], first, members, rfl, rfl, hfirst, (Option.some.inj h).symm⟩
    · rw [if_neg hfirst] at h
      obtain ⟨stored', hstored', rfl⟩ := Option.map_eq_some_iff.1 h
      obtain ⟨before, member, rest, rfl, hnone, hm, rfl⟩ := ih hstored'
      refine ⟨first :: before, member, rest, rfl, ?_, hm, rfl⟩
      rw [shown?_cons, if_neg hfirst, hnone]

/-- What is stored is shown. -/
theorem shown?_storeIn_self {path : String} {value : Scalar} {members stored : List Member}
    (h : storeIn path value members = some stored) : shown? path stored = some value := by
  obtain ⟨before, member, rest, -, hnone, -, rfl⟩ := split_of_storeIn h
  rw [shown?_append, hnone, shown?_cons, if_pos rfl, Option.none_or]

/-- A stored value changes nothing that is shown for other paths. -/
theorem shown?_storeIn_of_ne {path other : String} {value : Scalar} {members stored : List Member}
    (h : storeIn path value members = some stored) (hne : other ≠ path) :
    shown? other stored = shown? other members := by
  obtain ⟨before, member, rest, rfl, -, hm, rfl⟩ := split_of_storeIn h
  have hmember : member.path ≠ other := fun ho => hne (ho.symm.trans hm)
  rw [shown?_append, shown?_append, shown?_cons, shown?_cons, if_neg (Ne.symm hne), if_neg hmember]

/-- The dataset stays. -/
theorem map_path_storeIn {path : String} {value : Scalar} {members stored : List Member}
    (h : storeIn path value members = some stored) : stored.map Member.path = members.map Member.path := by
  obtain ⟨before, member, rest, rfl, -, hm, rfl⟩ := split_of_storeIn h
  simp [hm]

/-- In a dataset without repetitions every position is the first one of its path. -/
theorem shown?_of_nodup {members : List Member} (hn : (members.map Member.path).Nodup) {member : Member}
    (h : member ∈ members) : shown? member.path members = some member.value := by
  induction members with
  | nil => cases h
  | cons first members ih =>
    obtain ⟨hfirst, hn⟩ := List.nodup_cons.1 hn
    rw [shown?_cons]
    rcases List.mem_cons.1 h with rfl | h
    · exact if_pos rfl
    · have hne : first.path ≠ member.path := fun he => hfirst (he ▸ List.mem_map_of_mem h)
      rw [if_neg hne]
      exact ih hn h

namespace Publisher

variable {p : Publisher} {path other : String}

/-- **What taking note of an attribute does to the members.** -/
theorem observe_cases (p : Publisher) (path : String) (value : Scalar) (now : Millis) :
    (p.hears path = true ∧ ∃ stored, storeIn path value p.members = some stored ∧
        p.observe path value now = { p with members := stored }.burst now) ∨
      (p.hears path = false ∧ p.observe path value now = p) := by
  have hsome := storeIn_isSome path value p.members
  unfold observe hears dataset
  rw [← hsome]
  by_cases he : p.enabled = true
  · cases h : storeIn path value p.members with
    | none => exact Or.inr ⟨by simp, by simp⟩
    | some stored => exact Or.inl ⟨by simp [he], stored, rfl, by simp [he]⟩
  · exact Or.inr ⟨by simp [he], by simp [he]⟩

theorem shown?_observe_self (value : Scalar) (now : Millis) (h : p.hears path = true) :
    shown? path (p.observe path value now).members = some value := by
  rcases p.observe_cases path value now with ⟨-, stored, hstored, hp⟩ | ⟨hnot, -⟩
  · rw [hp]; exact shown?_storeIn_self hstored
  · rw [h] at hnot; cases hnot

theorem shown?_observe_of_ne (value : Scalar) (now : Millis) (h : other ≠ path) :
    shown? other (p.observe path value now).members = shown? other p.members := by
  rcases p.observe_cases path value now with ⟨-, stored, hstored, hp⟩ | ⟨-, hp⟩
  · rw [hp]; exact shown?_storeIn_of_ne hstored h
  · rw [hp]

theorem observe_of_not_hears (value : Scalar) (now : Millis) (h : ¬ p.hears path = true) :
    p.observe path value now = p := by
  rcases p.observe_cases path value now with ⟨hhears, -⟩ | ⟨-, hp⟩
  · exact absurd hhears h
  · exact hp

theorem hears_observe (p : Publisher) (path : String) (value : Scalar) (now : Millis) (other : String) :
    (p.observe path value now).hears other = p.hears other := by
  rcases p.observe_cases path value now with ⟨-, stored, hstored, hp⟩ | ⟨-, hp⟩
  · simp only [hp, hears, dataset, burst, map_path_storeIn hstored]
  · rw [hp]

theorem dataset_observe (p : Publisher) (path : String) (value : Scalar) (now : Millis) :
    (p.observe path value now).dataset = p.dataset := by
  rcases p.observe_cases path value now with ⟨-, stored, hstored, hp⟩ | ⟨-, hp⟩
  · rw [hp]; exact map_path_storeIn hstored
  · rw [hp]

end Publisher
end Goose

namespace Substation

open Goose

variable {ref path : String} {now : Millis} {p p' : Publisher}

theorem get?_writeAttribute (s : Substation) (path : String) (value : Scalar) (now : Millis) (ref : String) :
    (s.writeAttribute path value now).publishers.get? ref =
      (s.publishers.get? ref).map fun p => if s.model.changes path value then p.observe path value now else p := by
  simp only [writeAttribute]
  by_cases hc : s.model.changes path value = true
  · simp only [if_pos hc, Publishers.observe, SortedMap.get?_mapValues]
  · simp [if_neg hc]

/-- A write keeps what another write would change. -/
theorem changes_writeAttribute_of_ne (s : Substation) {path other : String} (value value' : Scalar) (now : Millis)
    (h : other ≠ path) :
    (s.writeAttribute path value now).model.changes other value' = s.model.changes other value' := by
  unfold DataModel.changes
  rw [show (s.writeAttribute path value now).model.value? other = s.model.value? other from
    s.model.value?_write_of_ne value h]

/-- What is not written stays. -/
theorem value?_writeAll_of_notMem {writes : List (String × Scalar)} (s : Substation)
    (h : path ∉ writes.map Prod.fst) : (s.writeAll now writes).model.value? path = s.model.value? path := by
  induction writes generalizing s with
  | nil => rfl
  | cons w writes ih =>
    obtain ⟨hne, hnot⟩ := not_or.1 (mt List.mem_cons.2 h)
    exact (ih _ hnot).trans (s.model.value?_write_of_ne w.2 hne)

/-- What is written once is there. -/
theorem value?_writeAll {writes : List (String × Scalar)} (s : Substation) (hn : (writes.map Prod.fst).Nodup)
    {value : Scalar} (h : (path, value) ∈ writes) : (s.writeAll now writes).model.value? path = some value := by
  induction writes generalizing s with
  | nil => cases h
  | cons w writes ih =>
    obtain ⟨hnot, hn⟩ := List.nodup_cons.1 hn
    rcases List.mem_cons.1 h with rfl | h
    · exact (value?_writeAll_of_notMem _ hnot).trans (SortedMap.get?_insert_self _ _ _)
    · exact ih _ hn h

/-- A publisher among writes: which one it was before them, and that it still has its dataset. -/
theorem publisher_before_writeAll {writes : List (String × Scalar)} {s : Substation}
    (h : (s.writeAll now writes).publishers.get? ref = some p') :
    ∃ p, s.publishers.get? ref = some p ∧ p'.dataset = p.dataset := by
  induction writes generalizing s with
  | nil => exact ⟨p', h, rfl⟩
  | cons w writes ih =>
    obtain ⟨q, hq, hd⟩ := ih h
    rw [get?_writeAttribute] at hq
    obtain ⟨p, hp, rfl⟩ := Option.map_eq_some_iff.1 hq
    refine ⟨p, hp, hd.trans ?_⟩
    split
    · exact p.dataset_observe w.1 w.2 now
    · rfl

/-- A publisher that takes note of no write of an attribute shows what it has shown. -/
theorem shown_writeAll_of_not_heard {writes : List (String × Scalar)} {s : Substation}
    (hn : (writes.map Prod.fst).Nodup) (hp : s.publishers.get? ref = some p)
    (hp' : (s.writeAll now writes).publishers.get? ref = some p')
    (hquiet : ∀ value, (path, value) ∈ writes → s.model.changes path value = true → ¬ p.hears path = true) :
    shown? path p'.members = shown? path p.members := by
  induction writes generalizing s p with
  | nil =>
    obtain rfl : p = p' := Option.some.inj (hp.symm.trans hp')
    rfl
  | cons w writes ih =>
    obtain ⟨written, value⟩ := w
    obtain ⟨hnot, hrest⟩ := List.nodup_cons.1 hn
    have hq := s.get?_writeAttribute written value now ref
    rw [hp, Option.map_some] at hq
    by_cases hw : path = written
    · -- the write is not heard, and the attribute is not written again
      subst hw
      have hkept : (if s.model.changes path value then p.observe path value now else p) = p := by
        split
        · rename_i hc
          exact p.observe_of_not_hears value now (hquiet value List.mem_cons_self hc)
        · rfl
      rw [hkept] at hq
      exact ih hrest hq hp' fun value' hin => absurd (List.mem_map_of_mem hin) hnot
    · rw [ih hrest hq hp' fun value' hin hc => ?_]
      · split
        · exact Publisher.shown?_observe_of_ne value now hw
        · rfl
      · rw [s.changes_writeAttribute_of_ne value value' now hw] at hc
        have hhears := hquiet value' (List.mem_cons_of_mem _ hin) hc
        split
        · rwa [Publisher.hears_observe]
        · exact hhears

/-- A publisher that takes note of a write shows what is written. -/
theorem shown_writeAll_of_heard {writes : List (String × Scalar)} {s : Substation} {value : Scalar}
    (hn : (writes.map Prod.fst).Nodup) (hp : s.publishers.get? ref = some p)
    (hp' : (s.writeAll now writes).publishers.get? ref = some p') (hin : (path, value) ∈ writes)
    (hc : s.model.changes path value = true) (hhears : p.hears path = true) :
    shown? path p'.members = some value := by
  induction writes generalizing s p with
  | nil => cases hin
  | cons w writes ih =>
    obtain ⟨hnot, hrest⟩ := List.nodup_cons.1 hn
    have hq := s.get?_writeAttribute w.1 w.2 now ref
    rw [hp, Option.map_some] at hq
    rcases List.mem_cons.1 hin with rfl | hin
    · rw [if_pos hc] at hq
      rw [shown_writeAll_of_not_heard hrest hq hp' fun value' hin => absurd (List.mem_map_of_mem hin) hnot]
      exact Publisher.shown?_observe_self value now hhears
    · have hne : path ≠ w.1 := fun h => hnot (h ▸ List.mem_map_of_mem hin)
      refine ih hrest hq hp' hin ?_ ?_
      · rwa [s.changes_writeAttribute_of_ne w.2 value now hne]
      · split
        · rwa [Publisher.hears_observe]
        · exact hhears

/-- A write that does not count as a change puts a value in place that passes for the old one. -/
theorem same_writeAll {writes : List (String × Scalar)} (s : Substation) (hn : (writes.map Prod.fst).Nodup)
    (hquiet : ∀ value, (path, value) ∈ writes → ¬ s.model.changes path value = true) :
    (s.model.value path).Same ((s.writeAll now writes).model.value path) := by
  unfold DataModel.value
  by_cases hmem : path ∈ writes.map Prod.fst
  · obtain ⟨⟨written, value⟩, hin, rfl⟩ := List.mem_map.1 hmem
    have hkept := hquiet value hin
    rw [value?_writeAll s hn hin]
    unfold DataModel.changes at hkept
    cases hold : s.model.value? written with
    | none => simp [hold] at hkept
    | some old => exact Or.inr (by simpa [hold] using hkept)
  · rw [value?_writeAll_of_notMem s hmem]
    exact .refl _

theorem attributes_perform (s : Substation) (path : String) (value : Scalar) (client : String) (now : Millis) :
    (s.perform path value client now).model.attributes =
      (s.writeAll now (s.operationWrites path value now)).model.attributes := by
  have hfollow : ∀ s : Substation, (s.followPosition path value).model.attributes = s.model.attributes := by
    intro s
    unfold followPosition
    split
    · split
      · exact s.attributes_setCoils path _
      · rfl
    · rfl
  simp only [perform, hfollow, stamp, operationWrites]
  split <;> rfl

end Substation
end Switchyard
