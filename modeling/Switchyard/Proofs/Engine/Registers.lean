import Switchyard.Engine.Turn
import Switchyard.Proofs.Channel.Detour
import Switchyard.Proofs.Modbus.Access
import Switchyard.Proofs.Script.Failure

/-!
# One register space

Programs and Modbus clients reach the holding registers of a profile on different ways. A program names its profile by
an id and gives address and value as integers, and it reads an input register where there is no holding register. A
client is led to a profile by a unit id, and its requests hold words. Both end at one register (`registers_shared`):
what a program writes, and so adds if it was not there, is read modulo `2 ^ 16` on both ways, and so is what a client
writes.

* `ReadAs`: what a register is read as on all ways.
* `Registered`: one register has a word, and all else is as it was.
-/

namespace Switchyard.Engine

open Script Modbus

/-- **A register is read as a number** by all who are led to the profile in a place: by programs, whatever the
expression for the address is, and by Modbus. -/
structure ReadAs (s : Substation) (place : Option String) (a : UInt16) (n : ℤ) : Prop where
  program {id : String} (hid : s.model.place id = place) {now : Millis} {scope : Scope} {args : List Expr}
    {before : Surroundings} {logs : List LogEntry} {address : Int64} (haddress : address.toInt = a.toNat)
    (hargs : (evaluateAll (reach id now) scope args).run before = (.ok [.int address], ⟨s, logs⟩)) :
    ∃ v : Int64, v.toInt = n ∧
      (evaluate (reach id now) scope (.device .readRegister args)).run before = (.ok (.int v), ⟨s, logs⟩)
  modbus {id : String} (hid : s.model.place id = place) :
    ∃ w : UInt16, w.toNat = n ∧
      execute s.model id (.read .readHoldingRegisters a 1) = (.registers .readHoldingRegisters [w], s.model)

/-- **One register of a substation has a word**, and all else is as it was: the other points of all profiles, the
attributes, the publishers, and what else there is. -/
structure Registered (s : Substation) (place : Option String) (a w : UInt16) (s' : Substation) : Prop where
  model : s.model.Stores place .holdingRegister a (.ofWord w) s'.model
  rest : s' = { s with model := s'.model }

variable {s s' : Substation} {id : String} {place : Option String} {a w : UInt16} {address value : Int64}

theorem addressOperand_int (func : DeviceOp) (h : address.toInt = a.toNat) :
    addressOperand func (.int address) = .ok a := by
  have hlt := a.toNat_lt
  have ha : a.toNat.toUInt16 = a := UInt16.ofNat_toNat
  simp only [addressOperand, h]
  rw [if_pos (by omega), Int.toNat_natCast, ha]

/-- An integer is an address, or it is out of the range of addresses. -/
theorem exists_address (h : 0 ≤ address.toInt ∧ address.toInt ≤ 65535) : ∃ a : UInt16, address.toInt = a.toNat :=
  ⟨UInt16.ofNat address.toInt.toNat, by rw [UInt16.toNat_ofNat']; omega⟩

theorem addressOperand_int_of_not (func : DeviceOp) (h : ¬ (0 ≤ address.toInt ∧ address.toInt ≤ 65535)) :
    addressOperand func (.int address) = fault (.invalidAddress func (.int address)) := if_neg h

/-- The word of an integer: negative ones are stored as their two's complement. -/
theorem exists_word (func : DeviceOp) (h : -32768 ≤ value.toInt ∧ value.toInt ≤ 65535) :
    ∃ w : UInt16, (w.toNat : ℤ) = value.toInt % 65536 ∧ wordOperand func (.int value) = .ok w := by
  refine ⟨(value.toInt % 65536).toNat.toUInt16, ?_, if_pos h⟩
  rw [Nat.toUInt16, UInt16.toNat_ofNat']
  omega

theorem wordOperand_int_of_not (func : DeviceOp) (h : ¬ (-32768 ≤ value.toInt ∧ value.toInt ≤ 65535)) :
    wordOperand func (.int value) = fault (.wordOverflow func value) := if_neg h

/-- A holding register is read on all ways, before any input register. -/
theorem readAs_of_point (h : s.model.point? place .holdingRegister a = some (.ofWord w)) :
    ReadAs s place a w.toNat where
  program {id} hid {now scope args before logs address} haddress hargs := by
    have hword : (s.model.profile id).holdingRegisters.get? a = some w := by
      rw [← hid, DataModel.point?_place] at h
      exact Option.map_injective Scalar.ofWord_injective h
    have hread : (reach id now).readRegister a ⟨s, logs⟩ = (w, ⟨s, logs⟩) := by
      simp only [reach, hword, Option.some_or, Option.getD_some]
    refine ⟨_, Scalar.toInt_word w, ?_⟩
    rw [evaluate, run_bind, hargs]
    simp only [performOp, List.headD_cons, addressOperand_int .readRegister haddress]
    show (Except.ok (Scalar.ofWord ((reach id now).readRegister a ⟨s, logs⟩).1), _) = _
    rw [hread]
    rfl
  modbus {id} hid := by
    refine ⟨w, rfl, ?_⟩
    rw [execute_eq_iff]
    refine .registers rfl rfl rfl fun i hi => ?_
    obtain rfl : i = 0 := by simpa using hi
    have hlt := a.toNat_lt
    rw [hid, DataModel.cell?, if_pos (by omega)]
    simpa using h

section Write

variable {now : Millis} {scope : Scope} {line : UInt32} {args : List Expr} {after : List Stmt} {before : Surroundings}
  {logs : List LogEntry}

theorem run_writeRegister
    (hargs : (evaluateAll (reach id now) scope args).run before = (.ok [.int address, .int value], ⟨s, logs⟩)) :
    (runStmt (reach id now) scope (.call line .writeRegister args) after).run before =
      match addressOperand .writeRegister (.int address), wordOperand .writeRegister (.int value) with
      | .ok a, .ok w => (.ok (scope, [after]),
        ⟨{ s with model := s.model.modifyProfile id fun p => p.setHolding a w }, logs⟩)
      | .ok _, .error err => (.error err, ⟨s, logs⟩)
      | .error err, _ => (.error err, ⟨s, logs⟩) := by
  have hlift {γ : Type} (r : Except RuntimeError γ) (u : Surroundings) :
      (liftM r : Run Surroundings γ).run u = (r, u) := rfl
  rw [runStmt, run_bind, hargs]
  simp only [performOp, List.headD_cons, List.tail_cons, run_bind, hlift]
  cases addressOperand .writeRegister (.int address) with
  | error err => rfl
  | ok a =>
    cases wordOperand .writeRegister (.int value) with
    | error err => rfl
    | ok w => rfl

end Write

theorem registered_setHolding (s : Substation) (id : String) (a w : UInt16) :
    Registered s (s.model.place id) a w { s with model := s.model.modifyProfile id fun p => p.setHolding a w } :=
  ⟨s.model.stores_modifyProfile id fun p => p.stores_setHolding a w, rfl⟩

/-- A request to write a register that is accepted changes this register. -/
theorem execute_of_registerWritten {m : DataModel}
    (h : (execute m id (.writeRegister a w)).1 = .registerWritten a w) :
    (execute m id (.writeRegister a w)).2 = m.modifyProfile id fun p => p.setHolding a w := by
  simp only [execute] at h ⊢
  split at h
  · rename_i hthere
    rw [if_pos hthere]
  · cases h

/-- **Programs and Modbus share one register space.** A program on the profile of any id, of which the default profile
may stand in its place, writes an integer to an integer address. If the address is one of a point and the integer fits
in a word, signed or not, then one register has this word, all else is as it was, and on all ways that lead to the
profile the register is read as the integer modulo `2 ^ 16`. Otherwise the statement fails and changes nothing. A word
that a Modbus client has written is read on all ways, too. -/
theorem registers_shared (id : String) :
    (∀ (s : Substation) (now : Millis) (scope : Scope) (line : UInt32) (args : List Expr) (after : List Stmt)
      (before : Surroundings) (logs : List LogEntry) (address value : Int64),
        (evaluateAll (reach id now) scope args).run before = (.ok [.int address, .int value], ⟨s, logs⟩) →
        let written := (runStmt (reach id now) scope (.call line .writeRegister args) after).run before
        let fits := (0 ≤ address.toInt ∧ address.toInt ≤ 65535) ∧ -32768 ≤ value.toInt ∧ value.toInt ≤ 65535
        (fits → ∃ a w s', address.toInt = a.toNat ∧ (w.toNat : ℤ) = value.toInt % 65536 ∧
          written = (.ok (scope, [after]), ⟨s', logs⟩) ∧ Registered s (s.model.place id) a w s' ∧
          (∀ other, s'.model.place other = s.model.place other) ∧
          ReadAs s' (s.model.place id) a (value.toInt % 65536)) ∧
        (¬ fits → ∃ err, written = (.error err, ⟨s, logs⟩))) ∧
    ∀ (s : Substation) (other : String) (a w : UInt16), s.model.place other = s.model.place id →
      let written := execute s.model other (.writeRegister a w)
      written.1 = .registerWritten a w → (∀ other, written.2.place other = s.model.place other) ∧
        ReadAs { s with model := written.2 } (s.model.place id) a w.toNat := by
  refine ⟨fun s now scope line args after before logs address value hargs => ⟨fun hfits => ?_, fun hfits => ?_⟩,
    fun s other a w hplace hwritten => ?_⟩
  · obtain ⟨a, ha⟩ := exists_address hfits.1
    obtain ⟨w, hw, hword⟩ := exists_word .writeRegister hfits.2
    have hregistered := registered_setHolding s id a w
    refine ⟨a, w, _, ha, hw, ?_, hregistered, s.model.place_modifyProfile id _, ?_⟩
    · rw [run_writeRegister hargs, addressOperand_int _ ha, hword]
    · rw [← hw]
      exact readAs_of_point hregistered.model.stored
  · rw [run_writeRegister hargs]
    -- The address is looked at before the value, and either of them may be out of range.
    by_cases haddress : 0 ≤ address.toInt ∧ address.toInt ≤ 65535
    · obtain ⟨a, ha⟩ := exists_address haddress
      rw [addressOperand_int _ ha, wordOperand_int_of_not _ fun hvalue => hfits ⟨haddress, hvalue⟩]
      exact ⟨_, rfl⟩
    · rw [addressOperand_int_of_not _ haddress]
      exact ⟨_, rfl⟩
  · simp only [execute_of_registerWritten hwritten]
    refine ⟨s.model.place_modifyProfile other _, ?_⟩
    rw [← hplace]
    exact readAs_of_point (registered_setHolding s other a w).model.stored

/-- A program on a profile that does not exist writes -1 to the register 5 of the default profile, where there is an
input register already, and a Modbus client writes to it then. -/
theorem registers_shared_negative :
    let s : Substation := { Substation.blank with
      model := DataModel.blank.modifyProfile "default" fun p => p.setInput 5 7 }
    let args : List Expr := [.literal (.int 5), .unary .neg (.literal (.int 1))]
    (evaluateAll (reach "IED1" 0) ⟨[], none⟩ args).run ⟨s, []⟩ = (.ok [.int 5, .int (-1)], ⟨s, []⟩) ∧
      ∃ s', (runStmt (reach "IED1" 0) ⟨[], none⟩ (.call 1 .writeRegister args) []).run ⟨s, []⟩ =
          (.ok (⟨[], none⟩, [[]]), ⟨s', []⟩) ∧
        ReadAs s' none 5 65535 ∧
        (execute s'.model "default" (.writeRegister 5 9)).1 = .registerWritten 5 9 ∧
        ReadAs { s' with model := (execute s'.model "default" (.writeRegister 5 9)).2 } none 5 9 := by
  intro s args
  have hargs : (evaluateAll (reach "IED1" 0) ⟨[], none⟩ args).run ⟨s, []⟩ = (.ok [.int 5, .int (-1)], ⟨s, []⟩) := rfl
  obtain ⟨hprogram, hclient⟩ := registers_shared "IED1"
  obtain ⟨a, w, s', ha, -, hwritten, hregistered, hplaces, hread⟩ :=
    (hprogram s 0 ⟨[], none⟩ 1 args [] ⟨s, []⟩ [] 5 (-1) hargs).1 (by decide)
  have hfive : (5 : Int64).toInt = 5 := by decide
  obtain rfl : a = 5 := UInt16.toNat_inj.1 (show a.toNat = 5 by omega)
  have hplace (other : String) : s'.model.place other = none := hplaces other
  -- The register that the program has written is there for the client.
  have hthere : (execute s'.model "default" (.writeRegister 5 9)).1 = .registerWritten 5 9 := by
    have hregister : (s'.model.point? (s'.model.place "default") .holdingRegister 5).isSome := by
      rw [hplace]
      exact Option.isSome_iff_exists.2 ⟨_, hregistered.model.stored⟩
    have hstores := s'.model.stores_modifyProfile "default" fun p => p.stores_setHolding 5 9
    exact congrArg Prod.fst (execute_eq_iff.2 (.registerWritten hregister hstores))
  have hlast := (hclient s' "default" 5 9 ((hplace _).trans (hplace _).symm) hthere).2
  rw [hplace] at hlast
  exact ⟨hargs, s', hwritten, hread, hthere, hlast⟩

end Switchyard.Engine
