import Switchyard.Proofs.Modbus.Reply

/-!
# How requests are written

A request is written in five bytes: the code of its function, its address and one
operand. Each request has one such form, and a PDU is accepted exactly if it is the
form of a valid request (`decode_exact`). What else arrives is refused: as an illegal
function if it does not even have the form of a request, as an illegal value if only
the operand is wrong.

* `Request.Valid`: the requests that may be made.
* `decodeOperands_eq_ok_iff`: which operands are accepted, and as what.
* `decode_cases`: a PDU has the form of a request, or it is refused at once.
-/

namespace Switchyard

namespace Bytes

/-- Two bytes are those of the word that they make. -/
theorem ofWord_word (high low : UInt8) : ofWord (word high low) = [high, low] := by
  have hhigh := high.toNat_lt
  have hlow := low.toNat_lt
  have hword : (word high low).toNat = 256 * high.toNat + low.toNat := by
    rw [word, UInt16.toNat_ofNat']
    omega
  have hfirst : UInt8.ofNat ((word high low).toNat / 256) = high := by
    apply UInt8.toNat_inj.1
    rw [hword, UInt8.toNat_ofNat']
    omega
  have hsecond : UInt8.ofNat (word high low).toNat = low := by
    apply UInt8.toNat_inj.1
    rw [hword, UInt8.toNat_ofNat']
    omega
  rw [ofWord, hfirst, hsecond]

theorem ofWord_inj {v w : UInt16} (h : ofWord v = ofWord w) : v = w := by
  have hwords := congrArg words h
  simp only [ofWord, words, word_ofWord, List.cons.injEq, and_true] at hwords
  exact hwords

end Bytes

namespace Modbus

/-- **The requests that may be made**: reads of 1 to 2000 bits or of 1 to 125 registers, and all writes. -/
def Request.Valid : Request → Prop
  | .read .readCoils _ quantity | .read .readDiscreteInputs _ quantity => 1 ≤ quantity ∧ quantity ≤ 2000
  | .read .readHoldingRegisters _ quantity | .read .readInputRegisters _ quantity => 1 ≤ quantity ∧ quantity ≤ 125
  | .read .writeCoil _ _ | .read .writeRegister _ _ => False
  | .writeCoil _ _ | .writeRegister _ _ => True

instance : DecidablePred Request.Valid := fun r =>
  match r with
  | .read .readCoils _ quantity | .read .readDiscreteInputs _ quantity =>
    inferInstanceAs (Decidable (1 ≤ quantity ∧ quantity ≤ 2000))
  | .read .readHoldingRegisters _ quantity | .read .readInputRegisters _ quantity =>
    inferInstanceAs (Decidable (1 ≤ quantity ∧ quantity ≤ 125))
  | .read .writeCoil _ _ | .read .writeRegister _ _ => isFalse id
  | .writeCoil _ _ | .writeRegister _ _ => isTrue trivial

variable {function : Function} {address operand quantity max : UInt16} {r : Request}

theorem decodeRead_eq_ok_iff :
    decodeRead function address quantity max = .ok r ↔
      (1 ≤ quantity ∧ quantity ≤ max) ∧ r = .read function address quantity := by
  have hin : ¬ (quantity = 0 ∨ max < quantity) ↔ 1 ≤ quantity ∧ quantity ≤ max := by
    simp only [not_or, ← UInt16.toNat_inj, UInt16.lt_iff_toNat_lt, UInt16.le_iff_toNat_le, UInt16.toNat_zero,
      UInt16.toNat_one]
    omega
  unfold decodeRead
  split
  · rename_i hout
    exact ⟨nofun, fun h => absurd hout (hin.2 h.1)⟩
  · rename_i hout
    exact ⟨fun h => ⟨hin.1 hout, (Except.ok.inj h).symm⟩, fun h => congrArg _ h.2.symm⟩

theorem coilOfWord?_eq_some_iff {value : Bool} : coilOfWord? operand = some value ↔ coilWord value = operand := by
  unfold coilOfWord? coilWord
  constructor
  · intro h
    split at h
    · rename_i hon
      cases h
      exact hon.symm
    · split at h <;> cases h
      rename_i hoff
      exact hoff.symm
  · rintro rfl
    cases value <;> rfl

/-- **Which operands are accepted**: those of the valid requests of the function. -/
theorem decodeOperands_eq_ok_iff :
    decodeOperands function address operand = .ok r ↔
      r.Valid ∧ r.function = function ∧ r.address = address ∧ r.operand = operand := by
  constructor
  · intro h
    cases function with
    | readCoils | readDiscreteInputs | readHoldingRegisters | readInputRegisters =>
      obtain ⟨hin, rfl⟩ := decodeRead_eq_ok_iff.1 h
      exact ⟨hin, rfl, rfl, rfl⟩
    | writeCoil =>
      simp only [decodeOperands] at h
      -- A coil takes two words only, and all others are refused.
      cases hvalue : coilOfWord? operand with
      | none =>
        rw [hvalue] at h
        cases h
      | some value =>
        rw [hvalue] at h
        cases h
        exact ⟨trivial, rfl, rfl, coilOfWord?_eq_some_iff.1 hvalue⟩
    | writeRegister =>
      cases h
      exact ⟨trivial, rfl, rfl, rfl⟩
  · rintro ⟨hvalid, rfl, rfl, rfl⟩
    cases r with
    | read function address quantity =>
      cases function with
      | readCoils | readDiscreteInputs | readHoldingRegisters | readInputRegisters =>
        exact decodeRead_eq_ok_iff.2 ⟨hvalid, rfl⟩
      | writeCoil | writeRegister => exact absurd hvalid id
    | writeCoil address value =>
      simp only [Request.function, Request.operand, Request.address, decodeOperands,
        coilOfWord?_eq_some_iff.2 (rfl : coilWord value = coilWord value)]
    | writeRegister address value => rfl

/-- What is wrong with operands is a value. -/
theorem exception_of_decodeOperands {e : DecodeError} (h : decodeOperands function address operand = .error e) :
    e.exception = .illegalValue := by
  cases function with
  | readCoils | readDiscreteInputs =>
    rcases decodeRead_cases _ address operand bitLimit with ⟨hok, -⟩ | herr
    · exact nomatch hok.symm.trans h
    · cases herr.symm.trans h
      rfl
  | readHoldingRegisters | readInputRegisters =>
    rcases decodeRead_cases _ address operand registerLimit with ⟨hok, -⟩ | herr
    · exact nomatch hok.symm.trans h
    · cases herr.symm.trans h
      rfl
  | writeCoil =>
    simp only [decodeOperands] at h
    split at h <;> cases h
    rfl
  | writeRegister => cases h

/-- A PDU without the form of a request: its function is none of those that are served, or its length is not that
of a function with two words. -/
def Unreadable (pdu : Bytes) : Prop := (∀ f : Function, pdu.head? ≠ some f.code) ∨ pdu.length ≠ 5

/-- The five bytes of a function and two words. -/
def written (function : Function) (address operand : UInt16) : Bytes :=
  function.code :: (Bytes.ofWord address ++ Bytes.ofWord operand)

theorem decode_written (function : Function) (address operand : UInt16) :
    Request.decode (written function address operand) = decodeOperands function address operand := by
  simp only [written, Bytes.ofWord, List.cons_append, List.nil_append, Request.decode, Function.ofCode?_code,
    Bytes.word_ofWord]

theorem Function.code_inj {f g : Function} (h : f.code = g.code) : f = g := by
  have hcode := congrArg ofCode? h
  rwa [ofCode?_code, ofCode?_code, Option.some.injEq] at hcode

/-- Function, address and operand can be told from the bytes. -/
theorem written_inj {f g : Function} {a b v w : UInt16} : written f a v = written g b w ↔ f = g ∧ a = b ∧ v = w := by
  refine ⟨fun h => ?_, fun ⟨hf, ha, hv⟩ => by rw [hf, ha, hv]⟩
  obtain ⟨hcode, hwords⟩ := List.cons.inj h
  obtain ⟨haddress, hoperand⟩ := List.append_inj hwords rfl
  exact ⟨Function.code_inj hcode, Bytes.ofWord_inj haddress, Bytes.ofWord_inj hoperand⟩

/-- **A PDU has the form of a request, or it is refused at once.** -/
theorem decode_cases (pdu : Bytes) :
    (∃ function address operand, pdu = written function address operand) ∨
      Unreadable pdu ∧ ∃ e, Request.decode pdu = .error e ∧ e.exception = .illegalFunction := by
  match pdu with
  | [] => exact .inr ⟨.inl nofun, _, rfl, rfl⟩
  | code :: body =>
    cases hcode : Function.ofCode? code with
    | none =>
      have hserved : ∀ f : Function, (code :: body).head? ≠ some f.code := by
        intro f hf
        rw [Option.some.inj hf, Function.ofCode?_code] at hcode
        cases hcode
      exact .inr ⟨.inl hserved, ⟨code, .unsupported⟩, by simp only [Request.decode, hcode], rfl⟩
    | some function =>
      obtain rfl := Function.eq_code_of_ofCode? hcode
      by_cases hlength : body.length = 4
      · obtain ⟨a, b, c, d, rfl⟩ : ∃ a b c d, body = [a, b, c, d] := by
          match body, hlength with
          | [a, b, c, d], _ => exact ⟨a, b, c, d, rfl⟩
        refine .inl ⟨function, Bytes.word a b, Bytes.word c d, ?_⟩
        rw [written, Bytes.ofWord_word, Bytes.ofWord_word]
        rfl
      · refine .inr ⟨.inr fun h => hlength (Nat.succ.inj h), ⟨function.code, .malformed⟩, ?_, rfl⟩
        simp only [Request.decode, hcode]
        split
        · exact absurd rfl hlength
        · rfl

/-- A request is written as its function, its address and its operand. -/
theorem encode_eq_written (r : Request) : r.encode = written r.function r.address r.operand := rfl

theorem not_unreadable_written (function : Function) (address operand : UInt16) :
    ¬ Unreadable (written function address operand) := by
  rintro (h | h)
  · exact h function rfl
  · exact h rfl

/-- **What is accepted, and what is refused for which reason.** A PDU is decoded to a request exactly if the request
is valid and the PDU is its written form. Any other PDU is an error: an illegal function if its function is not
served or its length is not that of a request, and an illegal value otherwise. -/
theorem decode_exact (pdu : Bytes) :
    (∀ r, Request.decode pdu = .ok r ↔ r.Valid ∧ pdu = r.encode) ∧
      ((∀ r : Request, r.Valid → pdu ≠ r.encode) → ∃ e, Request.decode pdu = .error e ∧
        (Unreadable pdu → e.exception = .illegalFunction) ∧ (¬ Unreadable pdu → e.exception = .illegalValue)) := by
  rcases decode_cases pdu with ⟨function, address, operand, rfl⟩ | ⟨hunreadable, e, hdecode, hexception⟩
  · have hiff (r : Request) : Request.decode (written function address operand) = .ok r ↔
        r.Valid ∧ written function address operand = r.encode := by
      rw [decode_written, decodeOperands_eq_ok_iff, encode_eq_written, written_inj]
      simp only [eq_comm]
    refine ⟨hiff, fun hnone => ?_⟩
    cases hdecode : Request.decode (written function address operand) with
    | ok r =>
      obtain ⟨hvalid, hform⟩ := (hiff r).1 hdecode
      exact absurd hform (hnone r hvalid)
    | error e =>
      rw [decode_written] at hdecode
      exact ⟨e, rfl, fun hunreadable => absurd hunreadable (not_unreadable_written _ _ _),
        fun _ => exception_of_decodeOperands hdecode⟩
  · refine ⟨fun r => ?_, fun _ => ⟨e, hdecode, fun _ => hexception, fun hnot => absurd hunreadable hnot⟩⟩
    rw [hdecode]
    refine ⟨nofun, ?_⟩
    rintro ⟨-, hform⟩
    rw [hform] at hunreadable
    exact absurd hunreadable (not_unreadable_written _ _ _)

/-- A read of 125 registers is accepted, and one of 126 is not: no valid request is written in this way. -/
theorem decode_exact_limit :
    (Request.read .readInputRegisters 0x9C41 125).Valid ∧
      Request.decode [4, 0x9C, 0x41, 0, 125] = .ok (.read .readInputRegisters 0x9C41 125) ∧
      (∀ r : Request, r.Valid → [4, 0x9C, 0x41, 0, 126] ≠ r.encode) ∧
      ∃ e, Request.decode [4, 0x9C, 0x41, 0, 126] = .error e ∧ e.exception = .illegalValue := by
  have hvalid : (Request.read .readInputRegisters 0x9C41 125).Valid := by decide
  have hnone : ∀ r : Request, r.Valid → [4, 0x9C, 0x41, 0, 126] ≠ r.encode := by
    intro r hr hform
    have hdecode := ((decode_exact [4, 0x9C, 0x41, 0, 126]).1 r).2 ⟨hr, hform⟩
    cases hdecode
  have hreadable : ¬ Unreadable [4, 0x9C, 0x41, 0, 126] := not_unreadable_written .readInputRegisters 0x9C41 126
  obtain ⟨e, hdecode, -, hvalue⟩ := (decode_exact [4, 0x9C, 0x41, 0, 126]).2 hnone
  exact ⟨hvalid, ((decode_exact [4, 0x9C, 0x41, 0, 125]).1 _).2 ⟨hvalid, rfl⟩, hnone, e, hdecode, hvalue hreadable⟩

end Modbus
end Switchyard
