import Switchyard.Proofs.Station.Places
import Switchyard.Proofs.Station.Shown

/-!
# Writes that commute

What is stored in a substation are points, each in the place where its profile is kept, and attributes. A write to one
of them leaves the others as they are (`Puts.datum?_of_ne`). Writes to two of them at one time can be made in either
order (`Puts.comm`): the publishers that take note of both attributes burst twice in either order, and show both.

* `Datum`, `Substation.datum?`: what is stored, and its value.
* `Substation.Puts`: a write.
-/

namespace Switchyard

namespace Goose

variable {path other : String}

theorem storeIn_cons_self {member : Member} (value : Scalar) (members : List Member) (h : member.path = path) :
    storeIn path value (member :: members) = some (⟨path, value⟩ :: members) := if_pos h

theorem storeIn_cons_of_ne {member : Member} (value : Scalar) (members : List Member) (h : member.path ≠ path) :
    storeIn path value (member :: members) = (storeIn path value members).map (member :: ·) := if_neg h

/-- Values for two paths are stored in either order. -/
theorem storeIn_comm (value value' : Scalar) (h : path ≠ other) (members : List Member) :
    (storeIn path value members).bind (storeIn other value') =
      (storeIn other value' members).bind (storeIn path value) := by
  induction members with
  | nil => rfl
  | cons member members ih =>
    by_cases hpath : member.path = path
    · have hother : member.path ≠ other := fun ho => h (hpath.symm.trans ho)
      rw [storeIn_cons_self _ _ hpath, storeIn_cons_of_ne _ _ hother, Option.bind_some, storeIn_cons_of_ne _ _ h]
      cases storeIn other value' members with
      | none => rfl
      | some stored => exact (storeIn_cons_self _ _ hpath).symm
    · by_cases hother : member.path = other
      · rw [storeIn_cons_self _ _ hother, storeIn_cons_of_ne _ _ hpath, Option.bind_some,
          storeIn_cons_of_ne _ _ (Ne.symm h)]
        cases storeIn path value members with
        | none => rfl
        | some stored => exact storeIn_cons_self _ _ hother
      · -- both values are stored further on
        have hlater (first : Option (List Member)) (q : String) (w : Scalar) (hq : member.path ≠ q) :
            (first.map (member :: ·)).bind (storeIn q w) = (first.bind (storeIn q w)).map (member :: ·) := by
          cases first with
          | none => rfl
          | some stored => exact storeIn_cons_of_ne _ _ hq
        rw [storeIn_cons_of_ne _ _ hpath, storeIn_cons_of_ne _ _ hother, hlater _ _ _ hother, hlater _ _ _ hpath, ih]

theorem Publisher.observe_of_hears {p : Publisher} (value : Scalar) (now : Millis) (h : p.hears path = true) :
    ∃ stored, storeIn path value p.members = some stored ∧
      p.observe path value now = { p with members := stored }.burst now := by
  rcases p.observe_cases path value now with ⟨-, hstored⟩ | ⟨hnot, -⟩
  · exact hstored
  · rw [h] at hnot
    cases hnot

/-- **A publisher takes note of two attributes in either order.** -/
theorem Publisher.observe_comm (p : Publisher) (value value' : Scalar) (now : Millis) (h : path ≠ other) :
    (p.observe path value now).observe other value' now = (p.observe other value' now).observe path value now := by
  by_cases hpath : p.hears path = true
  · by_cases hother : p.hears other = true
    · obtain ⟨first, hfirst, hp⟩ := observe_of_hears value now hpath
      obtain ⟨first', hfirst', hp'⟩ := observe_of_hears value' now hother
      obtain ⟨both, hboth, hq⟩ := observe_of_hears value' now ((p.hears_observe path value now other).trans hother)
      obtain ⟨both', hboth', hq'⟩ := observe_of_hears value now ((p.hears_observe other value' now path).trans hpath)
      rw [hp] at hboth
      rw [hp'] at hboth'
      have hcomm := storeIn_comm value value' h p.members
      rw [hfirst, hfirst', Option.bind_some, Option.bind_some] at hcomm
      obtain rfl : both = both' := Option.some.inj (hboth.symm.trans (hcomm.trans hboth'))
      -- the publisher bursts twice in either order
      rw [hq, hq', hp, hp']
      rfl
    · rw [observe_of_not_hears value' now hother]
      refine observe_of_not_hears value' now ?_
      rwa [hears_observe]
  · rw [observe_of_not_hears value now hpath, observe_of_not_hears value now]
    rwa [hears_observe]

end Goose

/-- What a substation stores: a point, in the place where its profile is kept, or an attribute. -/
inductive Datum where
  | point (place : Option String) (table : Table) (a : UInt16)
  | attr (path : String)
  deriving DecidableEq

namespace DataModel.Stores

variable {m n m' n' : DataModel} {place : Option String} {table : Table} {a : UInt16} {value : Scalar}

/-- No profile moves when a point is stored. -/
theorem place_eq (h : m.Stores place table a value n) (id : String) : n.place id = m.place id := by
  have hheading := h.headings (some id)
  unfold heading? at hheading
  unfold DataModel.place
  cases hn : n.profileAt? (some id) <;> cases hm : m.profileAt? (some id) <;> simp_all

/-- A point and an attribute are stored in either order. -/
theorem write (h : m.Stores place table a value n) (path : String) (v : Scalar) :
    (m.write path v).Stores place table a value (n.write path v) where
  stored := h.stored
  others := h.others
  headings := h.headings
  attributes := congrArg (SortedMap.insert · path v) h.attributes

/-- Two points are stored in either order. -/
theorem comm {place' : Option String} {table' : Table} {a' : UInt16} {value' : Scalar} {both both' : DataModel}
    (h : m.Stores place table a value n) (hboth : n.Stores place' table' a' value' both)
    (h' : m.Stores place' table' a' value' n') (hboth' : n'.Stores place table a value both')
    (hne : ¬ (place' = place ∧ table' = table ∧ a' = a)) : both = both' := by
  refine ext_points (fun here => ?_) (fun here t b => ?_) ?_
  · rw [hboth.headings, h.headings, hboth'.headings, h'.headings]
  · by_cases hfirst : here = place ∧ t = table ∧ b = a
    · obtain ⟨rfl, rfl, rfl⟩ := hfirst
      rw [hboth.others _ _ _ (fun heq => hne ⟨heq.1.symm, heq.2.1.symm, heq.2.2.symm⟩), h.stored, hboth'.stored]
    · by_cases hsecond : here = place' ∧ t = table' ∧ b = a'
      · obtain ⟨rfl, rfl, rfl⟩ := hsecond
        rw [hboth.stored, hboth'.others _ _ _ hfirst, h'.stored]
      · rw [hboth.others _ _ _ hsecond, h.others _ _ _ hfirst, hboth'.others _ _ _ hfirst, h'.others _ _ _ hsecond]
  · rw [hboth.attributes, h.attributes, hboth'.attributes, h'.attributes]

end DataModel.Stores

namespace Substation

variable {now : Millis} {s t t' u u' : Substation} {d d' : Datum} {value value' : Scalar}

/-- The value of what is stored. -/
def datum? (s : Substation) : Datum → Option Scalar
  | .point place table a => s.model.point? place table a
  | .attr path => s.model.value? path

/-- **A value is stored at a time.** A point changes nothing but the data model, and an attribute is written so that
publishers see it. -/
def Puts (now : Millis) (d : Datum) (value : Scalar) (s t : Substation) : Prop :=
  match d with
  | .point place table a => ∃ model, s.model.Stores place table a value model ∧ t = { s with model }
  | .attr path => t = s.writeAttribute path value now

/-- Two attributes are written in either order. -/
theorem writeAttribute_comm (s : Substation) {path other : String} (value value' : Scalar) (now : Millis)
    (h : path ≠ other) :
    (s.writeAttribute path value now).writeAttribute other value' now =
      (s.writeAttribute other value' now).writeAttribute path value now := by
  have hpublishers : ((s.writeAttribute path value now).writeAttribute other value' now).publishers =
      ((s.writeAttribute other value' now).writeAttribute path value now).publishers := by
    refine SortedMap.ext_get? fun ref => ?_
    rw [get?_writeAttribute, get?_writeAttribute, get?_writeAttribute, get?_writeAttribute,
      changes_writeAttribute_of_ne _ _ _ _ (Ne.symm h), changes_writeAttribute_of_ne _ _ _ _ h, Option.map_map,
      Option.map_map]
    refine congrFun (congrArg Option.map (funext fun p => ?_)) _
    have hobserve := p.observe_comm value value' now h
    simp only [Function.comp_apply]
    split <;> split <;> simp_all
  have hmodel : ((s.writeAttribute path value now).writeAttribute other value' now).model =
      ((s.writeAttribute other value' now).writeAttribute path value now).model :=
    congrArg (fun attributes => { s.model with attributes }) (SortedMap.insert_comm s.model.attributes value value' h)
  -- a write changes these two and nothing else
  exact congrArg₂ (fun model publishers => { s with model, publishers }) hmodel hpublishers

namespace Puts

/-- **A write leaves all else as it is.** -/
theorem datum?_of_ne (h : Puts now d value s t) (hne : d' ≠ d) : t.datum? d' = s.datum? d' := by
  cases d with
  | point place table a =>
    obtain ⟨model, hstores, rfl⟩ := h
    cases d' with
    | point place' table' a' => exact hstores.others _ _ _ fun ⟨hplace, htable, ha⟩ => hne (by rw [hplace, htable, ha])
    | attr path => exact congrArg (SortedMap.get? · path) hstores.attributes
  | attr path =>
    obtain rfl : t = s.writeAttribute path value now := h
    cases d' with
    | point place' table' a' => rfl
    | attr other => exact SortedMap.get?_insert_of_ne _ _ fun heq => hne (by rw [heq])

/-- No profile moves when something is stored. -/
theorem place_eq (h : Puts now d value s t) (id : String) : t.model.place id = s.model.place id := by
  cases d with
  | point place table a =>
    obtain ⟨model, hstores, rfl⟩ := h
    exact hstores.place_eq id
  | attr path =>
    obtain rfl : t = s.writeAttribute path value now := h
    rfl

/-- A point and an attribute are stored in either order. -/
theorem comm_attr {place : Option String} {table : Table} {a : UInt16} {path : String}
    (h : Puts now (.point place table a) value s t) (hboth : Puts now (.point place table a) value t' u)
    (ht' : t' = s.writeAttribute path value' now) : u = t.writeAttribute path value' now := by
  obtain ⟨model, hstores, rfl⟩ := h
  obtain ⟨both, hstores', rfl⟩ := hboth
  subst ht'
  obtain rfl : both = model.write path value' := hstores'.unique (hstores.write path value')
  -- whether the attribute changes does not depend on the points
  have hchanges : model.changes path value' = s.model.changes path value' := by
    rw [DataModel.changes, DataModel.value?, hstores.attributes]
    rfl
  simp only [writeAttribute, hchanges]

/-- **Two writes commute.** -/
theorem comm (h : Puts now d value s t) (hboth : Puts now d' value' t u) (h' : Puts now d' value' s t')
    (hboth' : Puts now d value t' u') (hne : d' ≠ d) : u = u' := by
  cases d with
  | point place table a =>
    cases d' with
    | point place' table' a' =>
      obtain ⟨model, hstores, rfl⟩ := h
      obtain ⟨both, hstoresBoth, rfl⟩ := hboth
      obtain ⟨model', hstores', rfl⟩ := h'
      obtain ⟨both', hstoresBoth', rfl⟩ := hboth'
      rw [hstores.comm hstoresBoth hstores' hstoresBoth' fun ⟨hplace, htable, ha⟩ => hne (by rw [hplace, htable, ha])]
    | attr path => exact hboth.trans (comm_attr h hboth' h').symm
  | attr path =>
    cases d' with
    | point place' table' a' => exact (comm_attr h' hboth h).trans hboth'.symm
    | attr other =>
      obtain rfl : t = s.writeAttribute path value now := h
      obtain rfl : t' = s.writeAttribute other value' now := h'
      exact hboth.trans ((s.writeAttribute_comm value value' now fun heq => hne (by rw [heq])).trans hboth'.symm)

end Puts
end Substation
end Switchyard
