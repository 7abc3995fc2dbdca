import Mathlib.Data.String.Basic
import Switchyard.Modbus.Service
import Switchyard.Proofs.Station.Places

/-!
# What requests read and change

The tables of a profile are maps from the numbers below 65536 to points, and a request
is served on them as on such maps (`served_as_map`): a read gets the values of so many
numbers in a row, all of them or none; a write changes the one point that it names; and
what does not exist is neither read nor written. No number is ever computed that is not
an address. The profile is the first one that has the unit id of the request.

* `Serves`: what the maps say about a request.
* `serves_execute`, `Serves.unique`: requests are served so, and there is no other way.
* `DataModel.Addresses`, `DataModel.addresses_iff`: the place that a unit id addresses.
-/

namespace Switchyard

namespace DataModel

variable {m : DataModel} {unit : UInt8} {place place' : Option String}

/-- **The place that a unit id addresses.** It is that of the default profile if this has the unit id, else that of
the first profile that has it, in the order of their ids, and again that of the default profile if none has it. -/
inductive Addresses (m : DataModel) (unit : UInt8) : Option String → Prop
  | fallback (h : m.fallback.unit = some unit) : Addresses m unit none
  | profile {id : String} {p : Profile} (hfallback : m.fallback.unit ≠ some unit) (hp : m.profiles.get? id = some p)
      (hunit : p.unit = some unit)
      (hfirst : ∀ other q, m.profiles.get? other = some q → q.unit = some unit → id ≤ other) :
      Addresses m unit (some id)
  | nobody (hfallback : m.fallback.unit ≠ some unit)
      (hnone : ∀ id p, m.profiles.get? id = some p → p.unit ≠ some unit) : Addresses m unit none

theorem Addresses.unique (h : m.Addresses unit place) (h' : m.Addresses unit place') : place = place' := by
  cases h with
  | fallback h =>
    cases h' with
    | fallback | nobody => rfl
    | profile hfallback => exact absurd h hfallback
  | profile hfallback hp hunit hfirst =>
    cases h' with
    | fallback h => exact absurd h hfallback
    | profile _ hp' hunit' hfirst' =>
      rw [le_antisymm (hfirst _ _ hp' hunit') (hfirst' _ _ hp hunit)]
    | nobody _ hnone => exact absurd hunit (hnone _ _ hp)
  | nobody hfallback hnone =>
    cases h' with
    | fallback | nobody => rfl
    | profile _ hp hunit => exact absurd hunit (hnone _ _ hp)

/-- An entry of a map that passes a test, after entries that do not, has the smallest key of all that pass. -/
theorem key_le_of_first {α : Type} (test : α → Bool) {entries before after : List (String × α)}
    (h : SortedMap.Ascending entries) {key : String} {value : α} (hsplit : entries = before ++ (key, value) :: after)
    (hbefore : ∀ e ∈ before, test e.2 = false) {other : String} {found : α} (hmem : (other, found) ∈ entries)
    (hfound : test found = true) : key ≤ other := by
  subst hsplit
  rcases List.mem_append.1 hmem with hmem | hmem
  · exact absurd hfound (by simp [hbefore _ hmem])
  rcases List.mem_cons.1 hmem with heq | hmem
  · exact (congrArg Prod.fst heq).ge
  · have hlater := (List.pairwise_cons.1 (List.pairwise_append.1 h).2.1).1 _ hmem
    exact (compare_lt_iff_lt.1 hlater).le

/-- **A unit id leads where it addresses**, in a data model whose profiles bear the ids they are kept under. -/
theorem addresses_profileOfUnit (h : m.Keyed) (unit : UInt8) : m.Addresses unit (m.place (m.profileOfUnit unit)) := by
  have hdefault : m.place defaultProfileId = none := by
    rw [DataModel.place, profileAt?, h.unshadowed]
    rfl
  unfold profileOfUnit
  rw [allProfiles, List.find?_cons]
  -- The profile of the substation itself is asked first, and then the others in the order of their keys.
  by_cases hfallback : m.fallback.unit = some unit
  · simp only [hfallback, beq_self_eq_true]
    rw [h.fallback, hdefault]
    exact .fallback hfallback
  have htest : (m.fallback.unit == some unit) = false := by simpa using hfallback
  simp only [htest, SortedMap.values, List.find?_map, Function.comp_def]
  cases hfind : m.profiles.entries.find? fun e => e.2.unit == some unit with
  | none =>
    simp only [Option.map_none]
    rw [hdefault]
    refine .nobody hfallback fun id p hp hunit => ?_
    have hnot := List.find?_eq_none.1 hfind _ (SortedMap.mem_of_get? hp)
    exact hnot (by simpa using hunit)
  | some e =>
    obtain ⟨id, p⟩ := e
    obtain ⟨hunit, before, after, hsplit, hbefore⟩ := List.find?_eq_some_iff_append.1 hfind
    have hp : m.profiles.get? id = some p := SortedMap.get?_of_mem (by rw [hsplit]; simp)
    have hplace : m.place p.id = some id := by
      rw [h.profiles id p hp, DataModel.place, profileAt?, hp]
      rfl
    simp only [Option.map_some]
    rw [hplace]
    refine .profile hfallback hp (by simpa using hunit) fun other q hq hunit' => ?_
    exact key_le_of_first (fun p => p.unit == some unit) m.profiles.ascending hsplit
      (fun e he => by simpa using hbefore e he) (SortedMap.mem_of_get? hq) (by simpa using hunit')

/-- **The place that a unit id addresses** is the one where its profile is looked for. -/
theorem addresses_iff (h : m.Keyed) : m.Addresses unit place ↔ m.place (m.profileOfUnit unit) = place :=
  ⟨(addresses_profileOfUnit h unit).unique, fun heq => heq ▸ addresses_profileOfUnit h unit⟩

/-- The point at a number in a table: no number from 65536 on is an address. -/
def cell? (m : DataModel) (place : Option String) (table : Table) (n : ℕ) : Option Scalar :=
  if n < 65536 then m.point? place table n.toUInt16 else none

end DataModel

namespace Modbus

variable {m m' m'' : DataModel} {place : Option String} {r : Request} {response response' : Response} {id : String}
  {p : Profile} {f : Function} {table : Table} {start quantity : UInt16}

/-- **How a request is served on the tables of a place**, taken as maps from numbers to points. -/
inductive Serves (m : DataModel) (place : Option String) : Request → Response → DataModel → Prop
  /-- All bits from a number on are there, and their values are read in this order. -/
  | bits {f : Function} {table : Table} {start quantity : UInt16} {values : List Bool}
      (htable : f.table? = some table) (hbit : table.isBit = true) (hall : values.length = quantity.toNat)
      (hstored : ∀ i (hi : i < values.length), m.cell? place table (start.toNat + i) = some (.bool values[i])) :
      Serves m place (.read f start quantity) (.bits f values) m
  /-- All registers from a number on are there, and their words are read in this order. -/
  | registers {f : Function} {table : Table} {start quantity : UInt16} {values : List UInt16}
      (htable : f.table? = some table) (hbit : table.isBit = false) (hall : values.length = quantity.toNat)
      (hstored : ∀ i (hi : i < values.length), m.cell? place table (start.toNat + i) = some (.ofWord values[i])) :
      Serves m place (.read f start quantity) (.registers f values) m
  /-- One of the points is not there. -/
  | missing {f : Function} {table : Table} {start quantity : UInt16} {i : ℕ} (htable : f.table? = some table)
      (hi : i < quantity.toNat) (hnone : m.cell? place table (start.toNat + i) = none) :
      Serves m place (.read f start quantity) (.exception f.code .illegalAddress) m
  /-- The function reads no table. -/
  | noTable {f : Function} (start quantity : UInt16) (htable : f.table? = none) :
      Serves m place (.read f start quantity) (.exception f.code .illegalFunction) m
  | coilWritten {a : UInt16} {b : Bool} {m' : DataModel} (hthere : (m.point? place .coil a).isSome)
      (hstores : m.Stores place .coil a (.bool b) m') : Serves m place (.writeCoil a b) (.coilWritten a b) m'
  | noCoil {a : UInt16} (b : Bool) (hnone : m.point? place .coil a = none) :
      Serves m place (.writeCoil a b) (.exception Function.writeCoil.code .illegalAddress) m
  | registerWritten {a w : UInt16} {m' : DataModel} (hthere : (m.point? place .holdingRegister a).isSome)
      (hstores : m.Stores place .holdingRegister a (.ofWord w) m') :
      Serves m place (.writeRegister a w) (.registerWritten a w) m'
  | noRegister {a : UInt16} (w : UInt16) (hnone : m.point? place .holdingRegister a = none) :
      Serves m place (.writeRegister a w) (.exception Function.writeRegister.code .illegalAddress) m

/-- Values that are read one by one are those that are stored. -/
theorem values_unique {α : Type} {wrap : α → Scalar} (hwrap : Function.Injective wrap) {cell : ℕ → Option Scalar}
    {values values' : List α} {n : ℕ} (hlength : values.length = n) (hlength' : values'.length = n)
    (h : ∀ i (hi : i < values.length), cell i = some (wrap values[i]))
    (h' : ∀ i (hi : i < values'.length), cell i = some (wrap values'[i])) : values = values' := by
  refine List.ext_getElem (hlength.trans hlength'.symm) fun i hi hi' => ?_
  exact hwrap (Option.some.inj ((h i hi).symm.trans (h' i hi')))

/-- **The maps leave no choice**: neither about the response nor about the data model afterwards. -/
theorem Serves.unique (h : Serves m place r response m') (h' : Serves m place r response' m'') :
    response = response' ∧ m' = m'' := by
  -- The table of the request decides between bits and registers, and one point that is missing between a value and
  -- an exception.
  cases h with
  | bits htable hbit hall hstored =>
    cases h' with
    | bits htable' _ hall' hstored' =>
      obtain rfl := Option.some.inj (htable.symm.trans htable')
      have hbool : Function.Injective Scalar.bool := fun _ _ => Scalar.bool.inj
      rw [values_unique hbool hall hall' hstored hstored']
      exact ⟨rfl, rfl⟩
    | registers htable' hbit' =>
      obtain rfl := Option.some.inj (htable.symm.trans htable')
      exact absurd (hbit.symm.trans hbit') (by decide)
    | missing htable' hi hnone =>
      obtain rfl := Option.some.inj (htable.symm.trans htable')
      rw [hstored _ (hall ▸ hi)] at hnone
      cases hnone
    | noTable _ _ htable' => exact absurd (htable.symm.trans htable') (by simp)
  | registers htable hbit hall hstored =>
    cases h' with
    | bits htable' hbit' =>
      obtain rfl := Option.some.inj (htable.symm.trans htable')
      exact absurd (hbit.symm.trans hbit') (by decide)
    | registers htable' _ hall' hstored' =>
      obtain rfl := Option.some.inj (htable.symm.trans htable')
      rw [values_unique Scalar.ofWord_injective hall hall' hstored hstored']
      exact ⟨rfl, rfl⟩
    | missing htable' hi hnone =>
      obtain rfl := Option.some.inj (htable.symm.trans htable')
      rw [hstored _ (hall ▸ hi)] at hnone
      cases hnone
    | noTable _ _ htable' => exact absurd (htable.symm.trans htable') (by simp)
  -- All points were there in the other answer, so none can be missing here.
  | missing htable hi hnone =>
    cases h' with
    | bits htable' _ hall' hstored' | registers htable' _ hall' hstored' =>
      obtain rfl := Option.some.inj (htable.symm.trans htable')
      rw [hstored' _ (hall' ▸ hi)] at hnone
      cases hnone
    | missing => exact ⟨rfl, rfl⟩
    | noTable _ _ htable' => exact absurd (htable.symm.trans htable') (by simp)
  | noTable _ _ htable =>
    cases h' with
    | bits htable' | registers htable' | missing htable' => exact absurd (htable.symm.trans htable') (by simp)
    | noTable => exact ⟨rfl, rfl⟩
  | coilWritten hthere hstores =>
    cases h' with
    | coilWritten _ hstores' => exact ⟨rfl, hstores.unique hstores'⟩
    | noCoil _ hnone => simp [hnone] at hthere
  | noCoil _ hnone =>
    cases h' with
    | coilWritten hthere => simp [hnone] at hthere
    | noCoil => exact ⟨rfl, rfl⟩
  | registerWritten hthere hstores =>
    cases h' with
    | registerWritten _ hstores' => exact ⟨rfl, hstores.unique hstores'⟩
    | noRegister _ hnone => simp [hnone] at hthere
  | noRegister _ hnone =>
    cases h' with
    | registerWritten hthere => simp [hnone] at hthere
    | noRegister => exact ⟨rfl, rfl⟩

/-- **The addresses of a read** that stays in the range are the numbers from its start on. -/
theorem toNat_addresses (h : start.toNat + quantity.toNat ≤ 65536) :
    (addresses start quantity.toNat).map UInt16.toNat = List.range' start.toNat quantity.toNat := by
  rw [addresses, List.map_map, List.range'_eq_map_range]
  refine List.map_congr_left fun i hi => ?_
  have hi := List.mem_range.1 hi
  rw [Function.comp_apply, UInt16.toNat_add, UInt16.toNat_ofNat']
  omega

/-- Reading the points of a list of addresses one by one. -/
theorem mapM_cases {α : Type} (look : UInt16 → Option α) (l : List UInt16) :
    (∃ values, l.mapM look = some values ∧ values.length = l.length ∧
        ∀ i (hi : i < values.length) (hl : i < l.length), look l[i] = some values[i]) ∨
      (l.mapM look = none ∧ ∃ i, ∃ hi : i < l.length, look l[i] = none) := by
  induction l with
  | nil => exact .inl ⟨[], rfl, rfl, fun i hi => absurd hi (Nat.not_lt_zero i)⟩
  | cons a l ih =>
    rw [List.mapM_cons]
    cases ha : look a with
    | none => exact .inr ⟨rfl, 0, Nat.succ_pos _, ha⟩
    | some v =>
      rcases ih with ⟨values, hvalues, hlength, hall⟩ | ⟨hnone, i, hi, hmissing⟩
      · rw [hvalues]
        refine .inl ⟨v :: values, rfl, by simp [hlength], fun i hi hl => ?_⟩
        cases i with
        | zero => exact ha
        | succ i => exact hall i (Nat.lt_of_succ_lt_succ hi) (Nat.lt_of_succ_lt_succ hl)
      · rw [hnone]
        exact .inr ⟨rfl, i + 1, Nat.succ_lt_succ hi, hmissing⟩

/-- The cell at an offset is the point at the address there. -/
theorem cell?_getElem (hplace : m.profileAt? place = some p) (hrange : start.toNat + quantity.toNat ≤ 65536) {i : ℕ}
    (hi : i < (addresses start quantity.toNat).length) :
    m.cell? place table (start.toNat + i) = p.point? table (addresses start quantity.toNat)[i] := by
  have hnumber : (addresses start quantity.toNat)[i].toNat = start.toNat + i := by
    have hmap := congrArg (·[i]?) (toNat_addresses hrange)
    have hlength : i < quantity.toNat := by simpa [addresses] using hi
    simpa [hi, hlength] using hmap
  have haddress : (start.toNat + i).toUInt16 = (addresses start quantity.toNat)[i] := by
    rw [← hnumber]
    exact UInt16.ofNat_toNat
  rw [DataModel.cell?, if_pos (hnumber ▸ UInt16.toNat_lt _), haddress, DataModel.point?, hplace, Option.bind_some]

/-- **A read is served as on a map.** -/
theorem serves_readFrom (hplace : m.profileAt? place = some p) (htable : f.table? = some table)
    (start quantity : UInt16) :
    Serves m place (.read f start quantity)
      ((readFrom p f table start quantity).getD (illegalAddress (.read f start quantity))) m := by
  have hcount : (addresses start quantity.toNat).length = quantity.toNat := by simp [addresses]
  unfold readFrom
  split
  · -- the first number that is no address is one of those that are read
    rename_i hbeyond
    have hstart := start.toNat_lt
    refine .missing htable (i := 65536 - start.toNat) (by omega) ?_
    rw [DataModel.cell?, if_neg (by omega)]
  · rename_i hrange
    have hrange : start.toNat + quantity.toNat ≤ 65536 := not_lt.1 hrange
    split
    · rename_i hbit
      rcases mapM_cases (p.bit? table) (addresses start quantity.toNat) with
        ⟨values, hvalues, hlength, hall⟩ | ⟨hnone, i, hi, hmissing⟩
      · rw [hvalues]
        refine .bits htable hbit (hlength.trans hcount) fun i hi => ?_
        rw [cell?_getElem hplace hrange (hlength ▸ hi), Profile.point?, if_pos hbit, hall i hi (hlength ▸ hi)]
        rfl
      · rw [hnone]
        refine .missing htable (hcount ▸ hi) ?_
        rw [cell?_getElem hplace hrange hi, Profile.point?, if_pos hbit, hmissing]
        rfl
    · rename_i hbit
      rcases mapM_cases (p.register? table) (addresses start quantity.toNat) with
        ⟨values, hvalues, hlength, hall⟩ | ⟨hnone, i, hi, hmissing⟩
      · rw [hvalues]
        refine .registers htable (Bool.eq_false_iff.2 hbit) (hlength.trans hcount) fun i hi => ?_
        rw [cell?_getElem hplace hrange (hlength ▸ hi), Profile.point?, if_neg hbit, hall i hi (hlength ▸ hi)]
        rfl
      · rw [hnone]
        refine .missing htable (hcount ▸ hi) ?_
        rw [cell?_getElem hplace hrange hi, Profile.point?, if_neg hbit, hmissing]
        rfl

/-- **A request is served as on a map**, in the place where the id leads. -/
theorem serves_execute (m : DataModel) (id : String) (r : Request) :
    Serves m (m.place id) r (execute m id r).1 (execute m id r).2 := by
  have hplace := m.profileAt?_place id
  unfold execute
  -- A read goes by the table of its function. A write needs the point to be there before.
  cases r with
  | read f start quantity =>
    dsimp only
    cases htable : f.table? with
    | none => exact .noTable start quantity htable
    | some table => exact serves_readFrom hplace htable start quantity
  | writeCoil a b =>
    have hpoint : m.point? (m.place id) .coil a = ((m.profile id).coils.get? a).map .bool := m.point?_place id .coil a
    dsimp only
    split
    · rename_i hthere
      refine .coilWritten ?_ (m.stores_modifyProfile id fun p => p.stores_setCoil a b)
      rwa [hpoint, Option.isSome_map]
    · rename_i hthere
      refine .noCoil b ?_
      rw [hpoint, Option.map_eq_none_iff]
      exact Option.not_isSome_iff_eq_none.1 hthere
  | writeRegister a w =>
    have hpoint : m.point? (m.place id) .holdingRegister a = ((m.profile id).holdingRegisters.get? a).map .ofWord :=
      m.point?_place id .holdingRegister a
    dsimp only
    split
    · rename_i hthere
      refine .registerWritten ?_ (m.stores_modifyProfile id fun p => p.stores_setHolding a w)
      rwa [hpoint, Option.isSome_map]
    · rename_i hthere
      refine .noRegister w ?_
      rw [hpoint, Option.map_eq_none_iff]
      exact Option.not_isSome_iff_eq_none.1 hthere

/-- What the maps say about a request is what is done, and nothing else. -/
theorem execute_eq_iff : execute m id r = (response, m') ↔ Serves m (m.place id) r response m' := by
  constructor
  · intro h
    have hserves := serves_execute m id r
    rwa [h] at hserves
  · intro h
    obtain ⟨hresponse, hmodel⟩ := (serves_execute m id r).unique h
    exact Prod.ext hresponse hmodel

/-- **Requests are served as on maps.** The response to a request for a profile, and the data model afterwards, are
those that the maps of its place say; the addresses of a read that stays in the range are the numbers from its start
on, and none is computed for a read that does not; and a request for a unit id is served in the place that this
addresses. -/
theorem served_as_map (m : DataModel) :
    (∀ id r response m', execute m id r = (response, m') ↔ Serves m (m.place id) r response m') ∧
    (∀ (p : Profile) (f : Function) (table : Table) (start quantity : UInt16),
      start.toNat + quantity.toNat < 2 ^ 32 ∧
      (start.toNat + quantity.toNat ≤ 65536 →
        (addresses start quantity.toNat).map UInt16.toNat = List.range' start.toNat quantity.toNat) ∧
      (65536 < start.toNat + quantity.toNat → readFrom p f table start quantity = none)) ∧
    (m.Arises → ∀ unit r response m',
      handle m unit r = (response, m') ↔ ∃ place, m.Addresses unit place ∧ Serves m place r response m') := by
  refine ⟨fun id r response m' => execute_eq_iff, fun p f table start quantity => ⟨?_, toNat_addresses, ?_⟩, ?_⟩
  · have hstart := start.toNat_lt
    have hquantity := quantity.toNat_lt
    omega
  · intro hbeyond
    rw [readFrom, if_pos hbeyond]
  · intro harises unit r response m'
    rw [handle, execute_eq_iff]
    constructor
    · exact fun h => ⟨_, DataModel.addresses_profileOfUnit (DataModel.keyed_of_arises harises) unit, h⟩
    · rintro ⟨place, haddresses, h⟩
      rwa [(DataModel.addresses_iff (DataModel.keyed_of_arises harises)).1 haddresses]

/-- Of two profiles with one unit id the one with the smaller id is read, up to the last address and not beyond. -/
theorem served_as_map_relays :
    let relay (id : String) (w : UInt16) : Profile := { (Profile.blank id).setHolding 65535 w with unit := some 1 }
    let m := (DataModel.blank.insertProfile (relay "relay2" 7)).insertProfile (relay "relay1" 50)
    m.Arises ∧
      (∃ place, m.Addresses 1 place ∧
        Serves m place (.read .readHoldingRegisters 65535 1) (.registers .readHoldingRegisters [50]) m) ∧
      (∃ place, m.Addresses 1 place ∧
        Serves m place (.read .readHoldingRegisters 65535 2) (.exception 3 .illegalAddress) m) := by
  intro relay m
  have harises : m.Arises := (DataModel.Arises.blank.insertProfile _).insertProfile _
  refine ⟨harises, ((served_as_map m).2.2 harises 1 _ _ _).1 ?_, ((served_as_map m).2.2 harises 1 _ _ _).1 ?_⟩ <;>
    decide +kernel

end Modbus
end Switchyard
