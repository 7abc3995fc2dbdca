import Switchyard.Station.DataModel

/-!
# Where profiles and points are

Ids without a profile of their own all lead to the default one, so a point is told from
another one by the place where its profile is kept, and not by the id
(`DataModel.place`). A data model is what can be looked up in its places
(`DataModel.ext_points`), so a change of one point can be told in full by lookups
(`DataModel.Stores`).

The profiles of a data model bear the ids under which they are kept, however the data
model has come about (`DataModel.keyed_of_arises`).

* `DataModel.profileAt?_modifyProfile`: a change of a profile is a change in one place.
* `DataModel.stores_modifyProfile`: a change of one point.
-/

namespace Switchyard

theorem Scalar.ofWord_injective : Function.Injective Scalar.ofWord := by
  intro v w h
  have hbits : v.toUInt64 = w.toUInt64 := congrArg Int64.toUInt64 (Scalar.int.inj h)
  exact UInt16.toUInt64_inj.1 hbits

namespace Profile

variable {p q : Profile} {table : Table} {a : UInt16} {value : Scalar}

theorem point?_setCoil_of_ne (p : Profile) {coil : UInt16} (closed : Bool) {table : Table} {a : UInt16}
    (h : ¬ (table = .coil ∧ coil = a)) : (p.setCoil coil closed).point? table a = p.point? table a := by
  cases table with
  | coil =>
    have hne : a ≠ coil := fun ha => h ⟨rfl, ha.symm⟩
    have hbit : (p.setCoil coil closed).bit? .coil a = p.bit? .coil a := SortedMap.get?_insert_of_ne _ _ hne
    simp only [point?, hbit, Table.isBit, if_true]
  | _ => rfl

theorem point?_setHolding_of_ne (p : Profile) {register : UInt16} (w : UInt16) {table : Table} {a : UInt16}
    (h : ¬ (table = .holdingRegister ∧ register = a)) :
    (p.setHolding register w).point? table a = p.point? table a := by
  cases table with
  | holdingRegister =>
    have hne : a ≠ register := fun ha => h ⟨rfl, ha.symm⟩
    have hword : (p.setHolding register w).register? .holdingRegister a = p.register? .holdingRegister a :=
      SortedMap.get?_insert_of_ne _ _ hne
    simp only [point?, hword, Table.isBit, Bool.false_eq_true, if_false]
  | _ => rfl

/-- **One point of a profile has a value, and all else is as it was.** -/
structure Stores (p : Profile) (table : Table) (a : UInt16) (value : Scalar) (q : Profile) : Prop where
  heading : (q.id, q.unit) = (p.id, p.unit)
  stored : q.point? table a = some value
  others : ∀ table' a', ¬ (table' = table ∧ a' = a) → q.point? table' a' = p.point? table' a'

theorem stores_setCoil (p : Profile) (a : UInt16) (b : Bool) : p.Stores .coil a (.bool b) (p.setCoil a b) where
  heading := rfl
  stored := congrArg (Option.map Scalar.bool) (SortedMap.get?_insert_self p.coils a b)
  others _ _ hne := p.point?_setCoil_of_ne b fun h => hne ⟨h.1, h.2.symm⟩

theorem stores_setHolding (p : Profile) (a w : UInt16) :
    p.Stores .holdingRegister a (.ofWord w) (p.setHolding a w) where
  heading := rfl
  stored := congrArg (Option.map Scalar.ofWord) (SortedMap.get?_insert_self p.holdingRegisters a w)
  others _ _ hne := p.point?_setHolding_of_ne w fun h => hne ⟨h.1, h.2.symm⟩

/-- **A profile is its heading and its points.** -/
theorem ext_points (hheading : (p.id, p.unit) = (q.id, q.unit))
    (hpoints : ∀ table a, p.point? table a = q.point? table a) :
    p = q := by
  have hbool : Function.Injective Scalar.bool := fun _ _ => Scalar.bool.inj
  obtain ⟨hid, hunit⟩ := Prod.mk.inj hheading
  have hcoils : p.coils = q.coils :=
    SortedMap.ext_get? fun a => Option.map_injective hbool (hpoints .coil a)
  have hinputs : p.discreteInputs = q.discreteInputs :=
    SortedMap.ext_get? fun a => Option.map_injective hbool (hpoints .discreteInput a)
  have hholding : p.holdingRegisters = q.holdingRegisters :=
    SortedMap.ext_get? fun a => Option.map_injective Scalar.ofWord_injective (hpoints .holdingRegister a)
  have hregisters : p.inputRegisters = q.inputRegisters :=
    SortedMap.ext_get? fun a => Option.map_injective Scalar.ofWord_injective (hpoints .inputRegister a)
  cases p
  cases q
  simp_all

end Profile

namespace DataModel

variable (m : DataModel) (id : String)

/-- The profile in a place: under its id, or in the place of the default profile, which is `none`. -/
def profileAt? : Option String → Option Profile
  | none => some m.fallback
  | some id => m.profiles.get? id

/-- The place where an id leads. -/
def place : Option String := (m.profileAt? (some id)).map fun _ => id

/-- An id leads to the profile in its place. -/
theorem profileAt?_place : m.profileAt? (m.place id) = some (m.profile id) := by
  unfold place profile
  cases h : m.profiles.get? id <;> simp [profileAt?, h]

/-- The point at an address of a table of the profile in a place. -/
def point? (place : Option String) (table : Table) (a : UInt16) : Option Scalar :=
  (m.profileAt? place).bind fun p => p.point? table a

/-- What the profile in a place is called and addressed by. -/
def heading? (place : Option String) : Option (String × Option UInt8) :=
  (m.profileAt? place).map fun p => (p.id, p.unit)

/-- An id leads to the points in its place. -/
theorem point?_place (table : Table) (a : UInt16) : m.point? (m.place id) table a = (m.profile id).point? table a := by
  rw [point?, profileAt?_place, Option.bind_some]

/-- A change of a profile is made in the place where the id leads, and in no other. -/
theorem profileAt?_modifyProfile (f : Profile → Profile) (place : Option String) :
    (m.modifyProfile id f).profileAt? place =
      if place = m.place id then (m.profileAt? place).map f else m.profileAt? place := by
  unfold modifyProfile DataModel.place
  cases h : m.profiles.get? id with
  | none =>
    -- the id has no profile, so the default one changes
    cases place <;> simp [profileAt?, h]
  | some p =>
    cases place with
    | none => simp [profileAt?, h]
    | some other =>
      by_cases ho : other = id
      · subst ho
        simp [profileAt?, h, SortedMap.get?_insert_self]
      · simp [profileAt?, h, ho, SortedMap.get?_insert_of_ne _ _ ho]

/-- No profile moves when one is changed. -/
theorem place_modifyProfile (f : Profile → Profile) (other : String) :
    (m.modifyProfile id f).place other = m.place other := by
  rw [place, profileAt?_modifyProfile]
  split
  · rw [Option.map_map]
    rfl
  · rfl

theorem attributes_modifyProfile (f : Profile → Profile) : (m.modifyProfile id f).attributes = m.attributes := by
  unfold modifyProfile
  split <;> rfl

end DataModel

namespace DataModel

variable {m n n' : DataModel} {place : Option String} {table : Table} {a : UInt16} {value : Scalar}

/-- **A data model is what its places hold**, and its attributes. -/
theorem ext_points (hheadings : ∀ place, m.heading? place = n.heading? place)
    (hpoints : ∀ place table a, m.point? place table a = n.point? place table a)
    (hattributes : m.attributes = n.attributes) : m = n := by
  have hprofiles (place : Option String) : m.profileAt? place = n.profileAt? place := by
    have hheading := hheadings place
    have hpoint := hpoints place
    simp only [heading?, point?] at hheading hpoint
    cases hm : m.profileAt? place with
    | none => cases hn : n.profileAt? place <;> simp_all
    | some p =>
      cases hn : n.profileAt? place with
      | none => simp_all
      | some q =>
        simp only [hm, hn, Option.map_some, Option.some.injEq, Option.bind_some] at hheading hpoint
        rw [Profile.ext_points hheading hpoint]
  have hfallback : m.fallback = n.fallback := Option.some.inj (hprofiles none)
  have hnamed : m.profiles = n.profiles := SortedMap.ext_get? fun id => hprofiles (some id)
  cases m
  cases n
  simp_all

/-- **One point in one place has a value, and all else is as it was**: the other points in all tables and places, the
profiles with their ids and units, and the attributes. -/
structure Stores (m : DataModel) (place : Option String) (table : Table) (a : UInt16) (value : Scalar)
    (n : DataModel) : Prop where
  stored : n.point? place table a = some value
  others : ∀ place' table' a', ¬ (place' = place ∧ table' = table ∧ a' = a) →
    n.point? place' table' a' = m.point? place' table' a'
  headings : ∀ place', n.heading? place' = m.heading? place'
  attributes : n.attributes = m.attributes

/-- A change of one point leads to one data model only. -/
theorem Stores.unique (h : m.Stores place table a value n) (h' : m.Stores place table a value n') : n = n' := by
  refine ext_points (fun place' => ?_) (fun place' table' a' => ?_) (h.attributes.trans h'.attributes.symm)
  · rw [h.headings, h'.headings]
  · by_cases hsame : place' = place ∧ table' = table ∧ a' = a
    · obtain ⟨rfl, rfl, rfl⟩ := hsame
      rw [h.stored, h'.stored]
    · rw [h.others _ _ _ hsame, h'.others _ _ _ hsame]

/-- A point of a profile is changed in the place where the id leads. -/
theorem stores_modifyProfile (m : DataModel) (id : String) {f : Profile → Profile}
    (h : ∀ p : Profile, p.Stores table a value (f p)) : m.Stores (m.place id) table a value (m.modifyProfile id f) where
  stored := by
    rw [point?, profileAt?_modifyProfile, if_pos rfl, profileAt?_place]
    exact (h _).stored
  others place' table' a' hne := by
    rw [point?, profileAt?_modifyProfile]
    split
    · rename_i hplace
      rw [point?]
      cases m.profileAt? place' with
      | none => rfl
      | some p => exact (h p).others table' a' fun hsame => hne ⟨hplace, hsame⟩
    · rfl
  headings place' := by
    rw [heading?, profileAt?_modifyProfile]
    split
    · rw [Option.map_map, heading?]
      exact congrFun (congrArg Option.map (funext fun p => (h p).heading)) _
    · rfl
  attributes := m.attributes_modifyProfile id f

/-- **The data models that come about**: by adding, removing and changing profiles and attributes, from one that
has neither. A change of a profile leaves it its id. -/
inductive Arises : DataModel → Prop
  | blank : Arises .blank
  | insertProfile {m : DataModel} (h : Arises m) (p : Profile) : Arises (m.insertProfile p)
  | removeProfile {m : DataModel} (h : Arises m) (id : String) : Arises (m.removeProfile id)
  | modifyProfile {m : DataModel} (h : Arises m) (id : String) {f : Profile → Profile} (hf : ∀ p, (f p).id = p.id) :
      Arises (m.modifyProfile id f)
  | setAttributes {m : DataModel} (h : Arises m) (attributes : SortedMap String Scalar) : Arises { m with attributes }

/-- **Profiles are kept under their ids**, and the default one apart from the others. -/
structure Keyed (m : DataModel) : Prop where
  fallback : m.fallback.id = defaultProfileId
  profiles : ∀ id p, m.profiles.get? id = some p → p.id = id
  unshadowed : m.profiles.get? defaultProfileId = none

theorem keyed_of_arises (h : m.Arises) : m.Keyed := by
  induction h with
  | blank => exact ⟨rfl, fun _ _ hp => (nomatch hp), rfl⟩
  | @insertProfile m _ p ih =>
    rw [insertProfile]
    split
    · rename_i hid
      exact ⟨hid, ih.profiles, ih.unshadowed⟩
    · rename_i hid
      refine ⟨ih.fallback, fun id q hq => ?_, ?_⟩
      · by_cases hkey : id = p.id
        · subst hkey
          obtain rfl := Option.some.inj ((SortedMap.get?_insert_self _ _ _).symm.trans hq)
          rfl
        · exact ih.profiles id q ((SortedMap.get?_insert_of_ne _ _ hkey).symm.trans hq)
      · exact (SortedMap.get?_insert_of_ne _ _ (Ne.symm hid)).trans ih.unshadowed
  | @removeProfile m _ id ih =>
    refine ⟨ih.fallback, fun other p hp => ih.profiles other p (SortedMap.get?_erase_eq_some.1 hp).2, ?_⟩
    cases hdefault : (m.removeProfile id).profiles.get? defaultProfileId with
    | none => rfl
    | some p => exact (SortedMap.get?_erase_eq_some.1 hdefault).2.symm.trans ih.unshadowed
  | @modifyProfile m _ id f hf ih =>
    unfold modifyProfile
    split
    · rename_i p hp
      refine ⟨ih.fallback, fun other q hq => ?_, ?_⟩
      · by_cases hkey : other = id
        · subst hkey
          obtain rfl := Option.some.inj ((SortedMap.get?_insert_self _ _ _).symm.trans hq)
          exact (hf p).trans (ih.profiles other p hp)
        · exact ih.profiles other q ((SortedMap.get?_insert_of_ne _ _ hkey).symm.trans hq)
      · have hne : defaultProfileId ≠ id := by
          rintro rfl
          rw [ih.unshadowed] at hp
          cases hp
        exact (SortedMap.get?_insert_of_ne _ _ hne).trans ih.unshadowed
    · exact ⟨(hf _).trans ih.fallback, ih.profiles, ih.unshadowed⟩
  | setAttributes _ attributes ih => exact ⟨ih.fallback, ih.profiles, ih.unshadowed⟩

end DataModel
end Switchyard
