import Switchyard.Modbus.Frame
import Switchyard.Modbus.Service
import Switchyard.Proofs.Modbus.Packing

/-!
# Replies

Every PDU gets a reply: a request is served, and anything else is refused. The
limits on what a request may ask for and the rules of service fit the reply
format: no reply is longer than a PDU may be, and a client that knows what it
asked for reads in the reply exactly what the data model has answered
(`reply_carries_response`).

* `decoded_decode`: what can be asked for.
* `answers_handle`: what can be answered to it.
* `decode_encode_of_answers`: such an answer can be written and read.
-/

namespace Switchyard.Modbus

theorem Function.eq_code_of_ofCode? {code : UInt8} {f : Function} (h : ofCode? code = some f) : code = f.code := by
  simp only [ofCode?] at h
  repeat' split at h
  all_goals first | (obtain rfl := Option.some.inj h; assumption) | cases h

/-- The codes of functions leave the high bit to exceptions. -/
theorem Function.code_and_high (f : Function) : f.code &&& 0x80 = 0 := by cases f <;> rfl

theorem Function.code_and_low (f : Function) : f.code &&& 0x7F = f.code := by cases f <;> rfl

/-- An exception keeps the low seven bits of the function. -/
theorem or_high_and_low (code : UInt8) : (code ||| 0x80) &&& 0x7F = code &&& 0x7F := by
  apply UInt8.toBitVec_inj.1
  have hbits : 128#8 &&& 127#8 = 0#8 := rfl
  simp only [UInt8.toBitVec_and, UInt8.toBitVec_or, UInt8.toBitVec_ofNat, BitVec.and_or_distrib_right]
  rw [hbits, BitVec.or_zero]

/-- The most points of a table that one request may read. -/
def limit (table : Table) : UInt16 := if table.isBit then bitLimit else registerLimit

/-- **The requests that are admitted**: a read of a table, within the limit on its points, or a write. -/
inductive Request.Admitted : Request → Prop
  | read {function : Function} {table : Table} (address : UInt16) {quantity : UInt16}
      (htable : function.table? = some table) (hle : quantity ≤ limit table) :
      Admitted (.read function address quantity)
  | writeCoil (address : UInt16) (value : Bool) : Admitted (.writeCoil address value)
  | writeRegister (address value : UInt16) : Admitted (.writeRegister address value)

/-- What is read of a table that a function reads is within the limit of that table. -/
theorem Request.Admitted.le_limit {function : Function} {table : Table} {address quantity : UInt16}
    (h : Admitted (.read function address quantity)) (htable : function.table? = some table) :
    quantity ≤ limit table := by
  cases h with
  | read _ htable' hle =>
    obtain rfl := Option.some.inj (htable.symm.trans htable')
    exact hle

/-- **How a PDU is decoded**: what it asks for is admitted, or it has a fault, which is told with its first
byte. -/
def Decoded (code : UInt8) (result : Except DecodeError Request) : Prop :=
  (∃ r, result = .ok r ∧ r.Admitted ∧ r.function.code = code) ∨ ∃ fault, result = .error ⟨code, fault⟩

theorem decodeRead_cases (function : Function) (address quantity max : UInt16) :
    (decodeRead function address quantity max = .ok (.read function address quantity) ∧ quantity ≤ max) ∨
      decodeRead function address quantity max = .error ⟨function.code, .quantity⟩ := by
  unfold decodeRead
  split
  · exact Or.inr rfl
  · rename_i hin
    exact Or.inl ⟨rfl, UInt16.not_lt.1 fun hlt => hin (Or.inr hlt)⟩

theorem decoded_decodeOperands (function : Function) (address operand : UInt16) :
    Decoded function.code (decodeOperands function address operand) := by
  cases function with
  | readCoils | readDiscreteInputs =>
    rcases decodeRead_cases _ address operand bitLimit with ⟨h, hle⟩ | h
    · exact Or.inl ⟨_, h, .read address rfl hle, rfl⟩
    · exact Or.inr ⟨_, h⟩
  | readHoldingRegisters | readInputRegisters =>
    rcases decodeRead_cases _ address operand registerLimit with ⟨h, hle⟩ | h
    · exact Or.inl ⟨_, h, .read address rfl hle, rfl⟩
    · exact Or.inr ⟨_, h⟩
  | writeCoil =>
    simp only [decodeOperands]
    split
    · exact Or.inl ⟨_, rfl, .writeCoil _ _, rfl⟩
    · exact Or.inr ⟨_, rfl⟩
  | writeRegister => exact Or.inl ⟨_, rfl, .writeRegister _ _, rfl⟩

theorem decoded_decode (pdu : Bytes) : Decoded (pdu.headD 0) (Request.decode pdu) := by
  unfold Request.decode
  split
  · exact Or.inr ⟨_, rfl⟩
  split
  · exact Or.inr ⟨_, rfl⟩
  rename_i code body function hcode
  obtain rfl := Function.eq_code_of_ofCode? hcode
  split
  · exact decoded_decodeOperands function _ _
  · exact Or.inr ⟨_, rfl⟩

theorem admitted_of_decode {pdu : Bytes} {r : Request} (h : Request.decode pdu = .ok r) : r.Admitted := by
  rcases decoded_decode pdu with ⟨r', hdecode, hadmitted, -⟩ | ⟨fault, hdecode⟩
  · obtain rfl := Except.ok.inj (h.symm.trans hdecode)
    exact hadmitted
  · rw [hdecode] at h
    cases h

/-- **The answers to a request**: all points of a read, the point that was written, or a refusal. -/
inductive Answers : Request → Response → Prop
  | bits {function : Function} {table : Table} (address : UInt16) {quantity : UInt16} {values : List Bool}
      (htable : function.table? = some table) (hbit : table.isBit = true) (hall : values.length = quantity.toNat) :
      Answers (.read function address quantity) (.bits function values)
  | registers {function : Function} {table : Table} (address : UInt16) {quantity : UInt16} {values : List UInt16}
      (htable : function.table? = some table) (hbit : table.isBit = false) (hall : values.length = quantity.toNat) :
      Answers (.read function address quantity) (.registers function values)
  | coilWritten (address : UInt16) (value : Bool) : Answers (.writeCoil address value) (.coilWritten address value)
  | registerWritten (address value : UInt16) :
      Answers (.writeRegister address value) (.registerWritten address value)
  | refused (r : Request) (code : ExceptionCode) : Answers r (.exception r.function.code code)

theorem length_of_mapM_eq_some {α β : Type} {f : α → Option β} {l : List α} {values : List β}
    (h : l.mapM f = some values) : values.length = l.length := by
  induction l generalizing values with
  | nil => cases h; rfl
  | cons a l ih =>
    rw [List.mapM_cons] at h
    obtain ⟨b, -, h⟩ := Option.bind_eq_some_iff.1 h
    obtain ⟨bs, hbs, h⟩ := Option.bind_eq_some_iff.1 h
    obtain rfl := Option.some.inj h
    simp [ih hbs]

theorem answers_readFrom {p : Profile} {function : Function} {table : Table} {start quantity : UInt16}
    {response : Response} (htable : function.table? = some table)
    (h : readFrom p function table start quantity = some response) :
    Answers (.read function start quantity) response := by
  have hcount : (addresses start quantity.toNat).length = quantity.toNat := by simp [addresses]
  simp only [readFrom] at h
  split at h
  · cases h
  split at h
  · rename_i hbit
    obtain ⟨values, hvalues, rfl⟩ := Option.map_eq_some_iff.1 h
    exact .bits start htable hbit ((length_of_mapM_eq_some hvalues).trans hcount)
  · rename_i hbit
    obtain ⟨values, hvalues, rfl⟩ := Option.map_eq_some_iff.1 h
    exact .registers start htable (by simpa using hbit) ((length_of_mapM_eq_some hvalues).trans hcount)

/-- **What the data model answers.** -/
theorem answers_handle (m : DataModel) (unit : UInt8) (r : Request) : Answers r (handle m unit r).1 := by
  unfold handle execute
  cases r with
  | read function address quantity =>
    cases htable : function.table? with
    | none => simp only [htable]; exact .refused (.read function address quantity) .illegalFunction
    | some table =>
      simp only [htable]
      cases hread : readFrom (m.profile (m.profileOfUnit unit)) function table address quantity with
      | none => exact .refused (.read function address quantity) .illegalAddress
      | some response => exact answers_readFrom htable hread
  | writeCoil address value =>
    simp only
    split
    · exact .coilWritten address value
    · exact .refused (.writeCoil address value) .illegalAddress
  | writeRegister address value =>
    simp only
    split
    · exact .registerWritten address value
    · exact .refused (.writeRegister address value) .illegalAddress

/-- The quantity of a read. The reader of an answer to it has to know it. -/
def Request.AsksFor (r : Request) (quantity : UInt16) : Prop :=
  ∀ function address count, r = .read function address count → quantity = count

variable {f : Function} {table : Table} {quantity : UInt16}

theorem decode_encode_exception (f : Function) (code : ExceptionCode) (quantity : UInt16) :
    Response.decode (Response.exception f.code code).encode quantity = .ok (.exception f.code code) := by
  have hhigh : (f.code ||| 0x80) &&& 0x80 ≠ 0 := by cases f <;> decide
  have hlow : (f.code ||| 0x80) &&& 0x7F = f.code := by rw [or_high_and_low, f.code_and_low]
  simp only [Response.encode, Response.codeByte, Response.body, Response.decode, List.head?_cons, Option.bind_some,
    ExceptionCode.ofCode?_code, if_pos hhigh, hlow]

/-- A response that is no exception is read as the body of its function. -/
theorem decode_encode_of_decodeBody {response : Response} (hcode : response.codeByte = f.code)
    (hbody : decodeBody f quantity response.body = some response) :
    Response.decode response.encode quantity = .ok response := by
  have hhigh : ¬ f.code &&& 0x80 ≠ 0 := not_not.2 f.code_and_high
  simp only [Response.encode, Response.decode, hcode, if_neg hhigh, Function.ofCode?_code, hbody]

/-- Up to the limit, the bytes of bits can be counted in one byte. -/
theorem decodeBody_bits {values : List Bool} (htable : f.table? = some table) (hbit : table.isBit = true)
    (hall : values.length = quantity.toNat) (hle : quantity ≤ bitLimit) :
    decodeBody f quantity (counted (bytesOfBits values)) = some (.bits f values) := by
  have hle : quantity.toNat ≤ 2000 := UInt16.le_iff_toNat_le.1 hle
  have hbytes := length_bytesOfBits values
  have hcount : (bytesOfBits values).length = (bytesOfBits values).length.toUInt8.toNat := by
    rw [Nat.toUInt8, UInt8.toNat_ofNat']
    omega
  have hroom : quantity.toNat ≤ (bytesOfBits values).length * 8 := by omega
  have hvalues : bitsOfBytes (bytesOfBits values) quantity.toNat = values := by
    rw [← hall]
    exact bitsOfBytes_bytesOfBits values
  cases f with
  | readCoils | readDiscreteInputs =>
    simp only [decodeBody, counted]
    rw [if_pos ⟨hcount, hroom⟩, hvalues]
  | readHoldingRegisters | readInputRegisters => cases htable; cases hbit
  | writeCoil | writeRegister => cases htable

/-- Up to the limit, the bytes of words can be counted in one byte. -/
theorem decodeBody_registers {values : List UInt16} (htable : f.table? = some table) (hbit : table.isBit = false)
    (hall : values.length = quantity.toNat) (hle : quantity ≤ registerLimit) :
    decodeBody f quantity (counted (values.flatMap Bytes.ofWord)) = some (.registers f values) := by
  have hle : quantity.toNat ≤ 125 := UInt16.le_iff_toNat_le.1 hle
  have hbytes := Bytes.length_flatMap_ofWord values
  have hcount : (values.flatMap Bytes.ofWord).length = (values.flatMap Bytes.ofWord).length.toUInt8.toNat := by
    rw [Nat.toUInt8, UInt8.toNat_ofNat']
    omega
  have heven : (values.flatMap Bytes.ofWord).length.toUInt8 % 2 = 0 := by
    apply UInt8.toNat_inj.1
    rw [UInt8.toNat_mod, ← hcount, hbytes]
    exact Nat.mul_mod_right 2 values.length
  cases f with
  | readHoldingRegisters | readInputRegisters =>
    simp only [decodeBody, counted]
    rw [if_pos ⟨hcount, heven⟩, Bytes.words_flatMap_ofWord]
  | readCoils | readDiscreteInputs => cases htable; cases hbit
  | writeCoil | writeRegister => cases htable

variable {r : Request} {response : Response}

/-- **An answer is read as it was written**, by a reader who knows how many points were asked for. -/
theorem decode_encode_of_answers (hr : r.Admitted) (h : Answers r response) (hq : r.AsksFor quantity) :
    Response.decode response.encode quantity = .ok response := by
  cases h with
  | bits address htable hbit hall =>
    obtain rfl := hq _ _ _ rfl
    have hle := hr.le_limit htable
    rw [limit, if_pos hbit] at hle
    exact decode_encode_of_decodeBody rfl (decodeBody_bits htable hbit hall hle)
  | registers address htable hbit hall =>
    obtain rfl := hq _ _ _ rfl
    have hle := hr.le_limit htable
    rw [limit, hbit, if_neg Bool.false_ne_true] at hle
    exact decode_encode_of_decodeBody rfl (decodeBody_registers htable hbit hall hle)
  | coilWritten address value =>
    have hvalue : decide (coilWord value = 0xFF00) = value := by cases value <;> rfl
    refine decode_encode_of_decodeBody (f := .writeCoil) rfl ?_
    simp only [Response.body, Bytes.ofWord, List.cons_append, List.nil_append, decodeBody, Bytes.word_ofWord, hvalue]
  | registerWritten address value =>
    refine decode_encode_of_decodeBody (f := .writeRegister) rfl ?_
    simp only [Response.body, Bytes.ofWord, List.cons_append, List.nil_append, decodeBody, Bytes.word_ofWord]
  | refused r code => exact decode_encode_exception r.function code quantity

theorem length_encode_of_answers (hr : r.Admitted) (h : Answers r response) :
    response.encode.length ≤ maxPduLength := by
  simp only [Response.encode, List.length_cons, maxPduLength]
  cases h with
  | bits address htable hbit hall =>
    have hle := hr.le_limit htable
    rw [limit, if_pos hbit] at hle
    have hle : _ ≤ 2000 := UInt16.le_iff_toNat_le.1 hle
    simp only [Response.body, counted, List.length_cons, length_bytesOfBits, hall]
    omega
  | registers address htable hbit hall =>
    have hle := hr.le_limit htable
    rw [limit, hbit, if_neg Bool.false_ne_true] at hle
    have hle : _ ≤ 125 := UInt16.le_iff_toNat_le.1 hle
    simp only [Response.body, counted, List.length_cons, Bytes.length_flatMap_ofWord, hall]
    omega
  | coilWritten | registerWritten | refused => simp [Response.body, Bytes.ofWord]

theorem codeByte_of_answers (h : Answers r response) : response.codeByte &&& 0x7F = r.function.code := by
  cases h with
  | bits | registers => exact Function.code_and_low _
  | coilWritten | registerWritten => exact Function.code_and_low _
  | refused r code => rw [Response.codeByte, or_high_and_low, Function.code_and_low]

/-- The reply PDU to a PDU. -/
def reply (m : DataModel) (unit : UInt8) (pdu : Bytes) : Bytes :=
  match Request.decode pdu with
  | .ok r => (handle m unit r).1.encode
  | .error e => e.response.encode

/-- **Every PDU gets a reply that says what the data model has answered.** The reply is no longer than a
PDU may be, and it repeats the function of the PDU in the low seven bits of its first byte. If the PDU
holds a request, then whoever reads the reply, and knows how many points the request asks for, reads
exactly the response of the data model. -/
theorem reply_carries_response (m : DataModel) (unit : UInt8) (pdu : Bytes) :
    (reply m unit pdu).length ≤ maxPduLength ∧
      (∃ code body, reply m unit pdu = code :: body ∧ code &&& 0x7F = pdu.headD 0 &&& 0x7F) ∧
      ∀ r, Request.decode pdu = .ok r → ∀ quantity, r.AsksFor quantity →
        Response.decode (reply m unit pdu) quantity = .ok (handle m unit r).1 := by
  unfold reply
  rcases decoded_decode pdu with ⟨r, hdecode, hadmitted, hcode⟩ | ⟨fault, hdecode⟩
  · have hanswers := answers_handle m unit r
    rw [hdecode]
    refine ⟨length_encode_of_answers hadmitted hanswers, ⟨_, _, rfl, ?_⟩, ?_⟩
    · rw [codeByte_of_answers hanswers, ← hcode, Function.code_and_low]
    · intro r' hr' quantity hq
      obtain rfl := Except.ok.inj hr'
      exact decode_encode_of_answers hadmitted hanswers hq
  · rw [hdecode]
    refine ⟨?_, ⟨_, _, rfl, or_high_and_low _⟩, ?_⟩
    · simp [DecodeError.response, Response.encode, Response.body, maxPduLength]
    · intro r hr
      cases hr

/-- Nine coils take two bytes, and the last seven bits of these are not read. -/
theorem reply_of_nine_coils :
    let values := [true, false, true, true, false, false, false, false, true]
    let coils := (addresses 0 9).zip values
    let m := DataModel.blank.modifyProfile defaultProfileId fun p => coils.foldl (fun p c => p.setCoil c.1 c.2) p
    Request.decode [1, 0, 0, 0, 9] = .ok (.read .readCoils 0 9) ∧
      Response.decode (reply m 1 [1, 0, 0, 0, 9]) 9 = .ok (.bits .readCoils values) := by
  intro values coils m
  have hq : (Request.read .readCoils 0 9).AsksFor 9 := by
    rintro _ _ _ h
    obtain ⟨-, -, rfl⟩ := Request.read.inj h
    rfl
  have hdecode : Request.decode [1, 0, 0, 0, 9] = .ok (.read .readCoils 0 9) := rfl
  exact ⟨hdecode, (reply_carries_response m 1 [1, 0, 0, 0, 9]).2.2 _ hdecode 9 hq⟩

end Switchyard.Modbus
