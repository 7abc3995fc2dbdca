import Switchyard.Channel.Command
import Switchyard.Proofs.Modbus.Reply

/-!
# The detour over the control channel

A request that has been decoded can be carried out on the spot, or it can go over
the control channel: as a command to the owner of the data, whose answer is then
read as the response to the request. The detour makes no difference
(`detour_transparent`): the client gets the same response, and the data model ends
in the same state.

* `request?_ofRequest`: the command stands for the request.
* `response_ofResponse`: the answer stands for the response.
-/

namespace Switchyard

namespace Scalar

theorem toInt_word (w : UInt16) : w.toUInt64.toInt64.toInt = w.toNat := by
  have hlt := w.toNat_lt
  have hword : w.toUInt64.toInt64.toBitVec.toNat = w.toNat := UInt16.toNat_toUInt64 w
  rw [← Int64.toInt_toBitVec, BitVec.toInt_eq_toNat_of_lt (by omega), hword]

/-- **A word comes through as a scalar.** -/
theorem toRegister_ofWord (w : UInt16) : (ofWord w).toRegister = .ok w := by
  have hlt := w.toNat_lt
  have hword : w.toNat.toUInt16 = w := UInt16.ofNat_toNat
  simp only [ofWord, toRegister, wordOfInt, toInt_word]
  rw [if_pos (by omega), Int.toNat_natCast, hword]

theorem mapM_toRegister_map_ofWord (ws : List UInt16) : (ws.map ofWord).mapM toRegister = .ok ws := by
  induction ws with
  | nil => rfl
  | cons w ws ih => rw [List.map_cons, List.mapM_cons, toRegister_ofWord, ih]; rfl

theorem map_holds_map_bool (bs : List Bool) : (bs.map bool).map holds = bs := by
  rw [List.map_map]
  exact List.map_id bs

end Scalar

namespace Channel

open Modbus

variable {r : Request} {response : Response}

/-- **A command stands for the request that it was made from**, if that is admitted. -/
theorem request?_ofRequest (hr : r.Admitted) (id : UInt16) (endpoint : String) (unit : UInt8) :
    (Command.ofRequest id endpoint unit r).request? = some r := by
  cases hr with
  | @read function table address quantity htable hle =>
    simp only [Command.request?, Command.ofRequest, Request.function, Function.ofCode?_code]
    cases function with
    | readCoils | readDiscreteInputs | readHoldingRegisters | readInputRegisters => rfl
    | writeCoil | writeRegister => cases htable
  | writeCoil address value => rfl
  | writeRegister address value =>
    simp only [Command.request?, Command.ofRequest, Request.function, Function.ofCode?_code]
    simp [Scalar.toRegister_ofWord, Except.toOption, Request.address]

/-! A read is answered by as many values as it has asked for. -/

theorem readResponse_bits {f : Function} {table : Table} {quantity : UInt16} {values : List Bool}
    (htable : f.table? = some table) (hbit : table.isBit = true) (hall : values.length = quantity.toNat) :
    readResponse r f quantity (values.map .bool) = .bits f values := by
  have hlen : ¬ (values.map Scalar.bool).length ≠ quantity.toNat := by simp [hall]
  rw [readResponse, if_neg hlen, htable]
  simp only [hbit, if_true, Scalar.map_holds_map_bool]

theorem readResponse_registers {f : Function} {table : Table} {quantity : UInt16} {values : List UInt16}
    (htable : f.table? = some table) (hbit : table.isBit = false) (hall : values.length = quantity.toNat) :
    readResponse r f quantity (values.map .ofWord) = .registers f values := by
  have hlen : ¬ (values.map Scalar.ofWord).length ≠ quantity.toNat := by simp [hall]
  rw [readResponse, if_neg hlen, htable]
  simp only [hbit, Bool.false_eq_true, if_false, Scalar.mapM_toRegister_map_ofWord]

/-- **An answer stands for the response that it was made from**, if that answers the request. -/
theorem response_ofResponse (h : Answers r response) (id : UInt16) (function : UInt8) :
    (Answer.ofResponse id function response).response r = response := by
  cases h with
  | bits address htable hbit hall => exact readResponse_bits htable hbit hall
  | registers address htable hbit hall => exact readResponse_registers htable hbit hall
  | coilWritten | registerWritten => rfl
  | refused r code =>
    simp only [Answer.ofResponse, Answer.response, ExceptionCode.ofCode?_code, Option.getD_some]

/-- **The detour makes no difference.** A request that a PDU can hold, sent as a command and read back from
its answer, gets the response that the data model gives to the request itself, and leaves the data model as
the request itself does. -/
theorem detour_transparent {pdu : Bytes} (h : Request.decode pdu = .ok r) (m : DataModel) (id : UInt16)
    (endpoint : String) (unit : UInt8) :
    let result := (Command.ofRequest id endpoint unit r).execute m
    result.1.response r = (Modbus.handle m unit r).1 ∧ result.2 = (Modbus.handle m unit r).2 := by
  intro result
  have hresult : result =
      (.ofResponse id r.function.code (Modbus.handle m unit r).1, (Modbus.handle m unit r).2) := by
    simp only [result, Command.execute, request?_ofRequest (admitted_of_decode h)]
    rfl
  rw [hresult]
  exact ⟨response_ofResponse (answers_handle m unit r) id _, rfl⟩

/-- A register that exists is written by way of the channel, and one that does not is refused. -/
theorem detour_of_write :
    let m := DataModel.blank.modifyProfile defaultProfileId fun p => p.setHolding 7 0
    let result := (Command.ofRequest 1 "127.0.0.1:502" 9 (.writeRegister 7 0xFFFF)).execute m
    let refused := (Command.ofRequest 2 "127.0.0.1:502" 9 (.writeRegister 8 0xFFFF)).execute m
    Request.decode [6, 0, 7, 0xFF, 0xFF] = .ok (.writeRegister 7 0xFFFF) ∧
      result.1.response (.writeRegister 7 0xFFFF) = .registerWritten 7 0xFFFF ∧
      (result.2.profile defaultProfileId).holdingRegisters.get? 7 = some 0xFFFF ∧
      Request.decode [6, 0, 8, 0xFF, 0xFF] = .ok (.writeRegister 8 0xFFFF) ∧
      refused.1.response (.writeRegister 8 0xFFFF) = .exception 6 .illegalAddress ∧ refused.2 = m := by
  intro m result refused
  have hwrite : Request.decode [6, 0, 7, 0xFF, 0xFF] = .ok (.writeRegister 7 0xFFFF) := rfl
  have hrefused : Request.decode [6, 0, 8, 0xFF, 0xFF] = .ok (.writeRegister 8 0xFFFF) := rfl
  obtain ⟨hresponse, hmodel⟩ := detour_transparent hwrite m 1 "127.0.0.1:502" 9
  obtain ⟨hresponse', hmodel'⟩ := detour_transparent hrefused m 2 "127.0.0.1:502" 9
  exact ⟨hwrite, hresponse, by rw [hmodel]; rfl, hrefused, hresponse', hmodel'⟩

end Channel
end Switchyard
