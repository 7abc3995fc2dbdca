import Switchyard.Proofs.Mms.Values

/-!
# Acceptances of associations

An association is accepted with the bytes of its request, in which three tags are
replaced: that of the session unit, which is the first byte, that of the association
and that of the initiate request (`acceptance_retags`). The searches for the last two
run over bytes some of which have been replaced already. These stand before the place
where a search begins, so it finds what it would find in the request
(`acceptConnect_eq`).

* `StartsAt`, `FirstFrom`: where values start, said without a search.
* `InitiateAt`: which of the values that could be the initiate request is taken for it.
-/

namespace Switchyard.Mms

/-- A value with a tag starts at a place, and it ends within the bytes. -/
def StartsAt (bytes : Bytes) (tag : UInt8) (i : ℕ) : Prop :=
  ∃ content rest, Fronts tag content rest (bytes.drop i)

/-- **The first place** from a start on at which a value with a tag starts. -/
structure FirstFrom (bytes : Bytes) (tag : UInt8) (start i : ℕ) : Prop where
  start_le : start ≤ i
  here : StartsAt bytes tag i
  first : ∀ k, start ≤ k → k < i → ¬ StartsAt bytes tag k

/-- **The initiate request behind an association tag**: the first one behind the first user information, if there is
one, and otherwise the first one behind the association tag. -/
inductive InitiateAt (bytes : Bytes) (association : ℕ) : ℕ → Prop
  | informed {info j} (hinfo : FirstFrom bytes 0xBE (association + 1) info)
      (hj : FirstFrom bytes 0xA8 (info + 1) j) : InitiateAt bytes association j
  | uninformed {j}
      (hnone : ∀ info, FirstFrom bytes 0xBE (association + 1) info → ∀ k, info < k → ¬ StartsAt bytes 0xA8 k)
      (hj : FirstFrom bytes 0xA8 (association + 1) j) : InitiateAt bytes association j

/-- **An acceptance** of an association request, whose association tag and initiate request start at these places. -/
structure Accepts (connect accept : Bytes) (i j : ℕ) : Prop where
  association : FirstFrom connect 0x60 1 i
  initiate : InitiateAt connect i j
  initiateFits : StartsAt connect 0xA8 j
  inOrder : 0 < i ∧ i < j
  length : accept.length = connect.length
  sessionTag : accept[0]? = some 0x0E
  associationTag : connect[i]? = some 0x60 ∧ accept[i]? = some 0x61
  initiateTag : connect[j]? = some 0xA8 ∧ accept[j]? = some 0xA9
  /-- All other bytes are those of the request. -/
  others : ∀ k, k ≠ 0 → k ≠ i → k ≠ j → accept[k]? = connect[k]?

variable {bytes connect accept : Bytes} {tag b : UInt8} {start association i j k : ℕ}

theorem StartsAt.getElem? (h : StartsAt bytes tag i) : bytes[i]? = some tag := by
  obtain ⟨content, rest, form, -, hdrop⟩ := h
  have hhead := List.head?_drop (l := bytes) (i := i)
  rw [hdrop] at hhead
  exact hhead.symm

theorem StartsAt.lt_length (h : StartsAt bytes tag i) : i < bytes.length :=
  (List.getElem?_eq_some_iff.1 h.getElem?).1

/-- A value starts where its tag is and a reader reads a value. -/
theorem startsAt_iff : StartsAt bytes tag i ↔ bytes[i]? = some tag ∧ (takeTlv (bytes.drop i)).isSome = true := by
  constructor
  · intro h
    obtain ⟨content, rest, hfronts⟩ := id h
    have htake : takeTlv (bytes.drop i) = some ⟨tag, content, rest⟩ := takeTlv_eq_some_iff.2 hfronts
    exact ⟨h.getElem?, by rw [htake]; rfl⟩
  · rintro ⟨htag, hsome⟩
    obtain ⟨t, ht⟩ := Option.isSome_iff_exists.1 hsome
    have hfronts := takeTlv_eq_some_iff.1 ht
    -- the tag that is read is the byte at the place
    have hhere : StartsAt bytes t.tag i := ⟨t.content, t.rest, hfronts⟩
    obtain rfl : t.tag = tag := Option.some.inj (hhere.getElem?.symm.trans htag)
    exact hhere

/-- What starts behind a place does not depend on the byte at that place. -/
theorem startsAt_set (h : k < i) : StartsAt (bytes.set k b) tag i ↔ StartsAt bytes tag i := by
  unfold StartsAt
  rw [List.drop_set_of_lt h]

theorem indexOfTag_eq_some_iff : indexOfTag bytes tag start = some i ↔ FirstFrom bytes tag start i := by
  have hfound (k : ℕ) : (bytes[k]? == some tag && (takeTlv (bytes.drop k)).isSome) = true ↔ StartsAt bytes tag k := by
    rw [Bool.and_eq_true, beq_iff_eq, startsAt_iff]
  unfold indexOfTag
  rw [List.find?_range'_eq_some, hfound, List.mem_range'_1]
  simp only [Bool.not_eq_true', ← Bool.not_eq_true, hfound]
  constructor
  · rintro ⟨hhere, ⟨hstart, -⟩, hfirst⟩
    exact ⟨hstart, hhere, hfirst⟩
  · intro h
    have hlt := h.here.lt_length
    have hstart := h.start_le
    exact ⟨h.here, ⟨hstart, by omega⟩, h.first⟩

theorem indexOfTag_eq_none_iff :
    indexOfTag bytes tag start = none ↔ ∀ i, start ≤ i → ¬ StartsAt bytes tag i := by
  constructor
  · intro hnone i hstart hhere
    -- a value from the start on makes the search succeed
    unfold indexOfTag at hnone
    rw [List.find?_eq_none] at hnone
    have hlt := hhere.lt_length
    refine hnone i (List.mem_range'_1.2 ⟨hstart, by omega⟩) ?_
    rw [Bool.and_eq_true, beq_iff_eq]
    exact startsAt_iff.1 hhere
  · intro h
    rw [Option.eq_none_iff_forall_ne_some]
    intro i hsome
    have hfirst := indexOfTag_eq_some_iff.1 hsome
    exact h i hfirst.start_le hfirst.here

/-- **A search does not see what stands before it.** -/
theorem indexOfTag_set (h : k < start) : indexOfTag (bytes.set k b) tag start = indexOfTag bytes tag start := by
  refine Option.ext fun i => ?_
  rw [indexOfTag_eq_some_iff, indexOfTag_eq_some_iff]
  have hsame (i : ℕ) (hi : start ≤ i) : StartsAt (bytes.set k b) tag i ↔ StartsAt bytes tag i :=
    startsAt_set (by omega)
  constructor
  · intro hfirst
    exact ⟨hfirst.start_le, (hsame i hfirst.start_le).1 hfirst.here,
      fun m hm hlt hstarts => hfirst.first m hm hlt ((hsame m hm).2 hstarts)⟩
  · intro hfirst
    exact ⟨hfirst.start_le, (hsame i hfirst.start_le).2 hfirst.here,
      fun m hm hlt hstarts => hfirst.first m hm hlt ((hsame m hm).1 hstarts)⟩

theorem findInitiate_set (h : k ≤ association) :
    findInitiate (bytes.set k b) association = findInitiate bytes association := by
  have hlater (tag : UInt8) {start : ℕ} (hstart : association < start) :
      indexOfTag (bytes.set k b) tag start = indexOfTag bytes tag start := indexOfTag_set (by omega)
  unfold findInitiate
  rw [hlater 0xBE (by omega), hlater 0xA8 (by omega)]
  cases hinfo : indexOfTag bytes 0xBE (association + 1) with
  | none => rfl
  | some info =>
    have hle := (indexOfTag_eq_some_iff.1 hinfo).start_le
    simp only [Option.bind_some]
    rw [hlater 0xA8 (by omega)]

theorem findInitiate_eq_some_iff : findInitiate bytes association = some j ↔ InitiateAt bytes association j := by
  unfold findInitiate
  rw [Option.or_eq_some_iff, Option.bind_eq_some_iff, Option.bind_eq_none_iff]
  simp only [indexOfTag_eq_some_iff, indexOfTag_eq_none_iff]
  constructor
  · rintro (⟨info, hinfo, hj⟩ | ⟨hnone, hj⟩)
    · exact .informed hinfo hj
    · exact .uninformed (fun info hinfo k hk => hnone info hinfo k hk) hj
  · intro h
    cases h with
    | informed hinfo hj => exact .inl ⟨_, hinfo, hj⟩
    | uninformed hnone hj => exact .inr ⟨fun info hinfo k hk => hnone info hinfo k hk, hj⟩

/-- No initiate request is found only where there is none behind the association tag. -/
theorem findInitiate_eq_none_iff :
    findInitiate bytes association = none ↔ ∀ j, association < j → ¬ StartsAt bytes 0xA8 j := by
  unfold findInitiate
  rw [Option.or_eq_none_iff, indexOfTag_eq_none_iff]
  constructor
  · rintro ⟨-, hnone⟩ j hj
    exact hnone j hj
  · intro h
    refine ⟨?_, fun j hj => h j hj⟩
    rw [Option.bind_eq_none_iff]
    intro info hinfo
    -- behind the user information is behind the association tag
    have hle := (indexOfTag_eq_some_iff.1 hinfo).start_le
    exact indexOfTag_eq_none_iff.2 fun j hj => h j (by omega)

/-- The initiate request stands behind the association tag. -/
theorem InitiateAt.fits (h : InitiateAt bytes association j) : association < j ∧ StartsAt bytes 0xA8 j := by
  cases h with
  | informed hinfo hj =>
    have hinfoLe := hinfo.start_le
    have hle := hj.start_le
    exact ⟨by omega, hj.here⟩
  | uninformed _ hj => exact ⟨hj.start_le, hj.here⟩

/-- **Both searches could be made in the request itself.** -/
theorem acceptConnect_eq (hne : connect ≠ []) :
    acceptConnect connect = (indexOfTag connect 0x60 1).bind fun i =>
      (findInitiate connect i).map fun j => ((connect.set 0 0x0E).set i 0x61).set j 0xA9 := by
  unfold acceptConnect
  rw [if_neg (by simpa using hne)]
  simp only [Option.bind_eq_bind, indexOfTag_set Nat.zero_lt_one]
  refine Option.bind_congr fun i hi => ?_
  rw [findInitiate_set (Nat.le_refl i), findInitiate_set (Nat.zero_le i), Option.map_eq_bind]
  rfl

/-- What is put in the place of the request is an acceptance. -/
theorem accepts_set (hne : connect ≠ []) (hi : FirstFrom connect 0x60 1 i) (hj : InitiateAt connect i j) :
    Accepts connect (((connect.set 0 0x0E).set i 0x61).set j 0xA9) i j := by
  have hpos : 0 < i := hi.start_le
  obtain ⟨hij, hfits⟩ := hj.fits
  have hilt := hi.here.lt_length
  have hjlt := hfits.lt_length
  refine ⟨hi, hj, hfits, ⟨hpos, hij⟩, ?_, ?_, ⟨hi.here.getElem?, ?_⟩, ⟨hfits.getElem?, ?_⟩, fun k h₀ h₁ h₂ => ?_⟩
  · simp only [List.length_set]
  · rw [List.getElem?_set_ne (by omega), List.getElem?_set_ne (by omega),
      List.getElem?_set_self (List.length_pos_iff.2 hne)]
  · rw [List.getElem?_set_ne (by omega), List.getElem?_set_self (by rwa [List.length_set])]
  · rw [List.getElem?_set_self (by rwa [List.length_set, List.length_set])]
  · rw [List.getElem?_set_ne h₂.symm, List.getElem?_set_ne h₁.symm, List.getElem?_set_ne h₀.symm]

/-- There is one acceptance for given places. -/
theorem Accepts.unique {other : Bytes} (h : Accepts connect accept i j) (h' : Accepts connect other i j) :
    accept = other := by
  refine List.ext_getElem? fun k => ?_
  by_cases h₀ : k = 0
  · rw [h₀, h.sessionTag, h'.sessionTag]
  by_cases h₁ : k = i
  · rw [h₁, h.associationTag.2, h'.associationTag.2]
  by_cases h₂ : k = j
  · rw [h₂, h.initiateTag.2, h'.initiateTag.2]
  · rw [h.others k h₀ h₁ h₂, h'.others k h₀ h₁ h₂]

theorem Accepts.ne_nil (h : Accepts connect accept i j) : connect ≠ [] := by
  rintro rfl
  have hlt := h.initiateFits.lt_length
  exact Nat.not_lt_zero j hlt

/-- **An acceptance replaces tags, and nothing else.** What accepts an association request has its length and its
bytes, but for the first one, which is `0E`, and for two more: the first association tag behind the start of the
request becomes `61`, and the tag of an initiate request behind it becomes `A9`. Both are tags of values that end
within the request. There is no acceptance exactly if the request is empty, has no such association tag, or has no
such initiate request behind the first one. -/
theorem acceptance_retags (connect : Bytes) :
    (∀ accept, acceptConnect connect = some accept ↔ ∃ i j, Accepts connect accept i j) ∧
      (acceptConnect connect = none ↔
        connect = [] ∨ (∀ i, 0 < i → ¬ StartsAt connect 0x60 i) ∨
          ∃ i, FirstFrom connect 0x60 1 i ∧ ∀ j, i < j → ¬ StartsAt connect 0xA8 j) := by
  by_cases hne : connect = []
  · subst hne
    refine ⟨fun accept => iff_of_false ?_ ?_, iff_of_true rfl (.inl rfl)⟩
    · intro h
      cases h
    · rintro ⟨i, j, h⟩
      exact h.ne_nil rfl
  rw [acceptConnect_eq hne]
  refine ⟨fun accept => ?_, ?_⟩
  · simp only [Option.bind_eq_some_iff, Option.map_eq_some_iff, indexOfTag_eq_some_iff, findInitiate_eq_some_iff]
    constructor
    · rintro ⟨i, hi, j, hj, rfl⟩
      exact ⟨i, j, accepts_set hne hi hj⟩
    · rintro ⟨i, j, h⟩
      exact ⟨i, h.association, j, h.initiate, (accepts_set hne h.association h.initiate).unique h⟩
  · simp only [Option.bind_eq_none_iff, Option.map_eq_none_iff, indexOfTag_eq_some_iff, findInitiate_eq_none_iff]
    constructor
    · intro hnone
      cases hi : indexOfTag connect 0x60 1 with
      | none => exact .inr (.inl fun i hpos => indexOfTag_eq_none_iff.1 hi i hpos)
      | some i =>
        have hfirst := indexOfTag_eq_some_iff.1 hi
        exact .inr (.inr ⟨i, hfirst, hnone i hfirst⟩)
    · rintro (hempty | hnone | ⟨i, hi, hnone⟩) i' hi'
      · exact absurd hempty hne
      · exact absurd hi'.here (hnone i' hi'.start_le)
      · -- there is one first association tag
        have hsame := (indexOfTag_eq_some_iff.2 hi).symm.trans (indexOfTag_eq_some_iff.2 hi')
        rw [← Option.some.inj hsame]
        exact hnone

/-- User information that comes behind a value which looks like an initiate request. -/
example :
    acceptConnect [0x0D, 0x0E, 0x60, 0x0C, 0xA8, 0x03, 0x02, 1, 1, 0xBE, 0x05, 0x28, 0x03, 0xA8, 1, 0] =
      some [0x0E, 0x0E, 0x61, 0x0C, 0xA8, 0x03, 0x02, 1, 1, 0xBE, 0x05, 0x28, 0x03, 0xA9, 1, 0] := by
  decide

end Switchyard.Mms
