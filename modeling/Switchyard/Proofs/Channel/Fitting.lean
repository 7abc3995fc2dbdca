import Mathlib.Data.List.Forall2
import Switchyard.Proofs.Channel.Detour

/-!
# Answers that fit, and answers that do not

The relay takes nothing on trust that the other side of the channel answers. An answer
that fits the request becomes the response it stands for: all points of a read, or the
point that was written. Any other answer becomes an exception, with the code that it
reports if that is a known one and as a failure of the device otherwise. Either way
the client gets a reply to its own function that is no longer than a PDU may be and
that it can read (`fitting_reply`).

* `Answer.Fits`, `Answer.Carries`: which answers fit, and what is taken over from them.
* `response_cases`: an answer fits and is taken over, or it is refused.
-/

namespace Switchyard.Channel

open Modbus

variable {r : Request} {a : Answer} {response : Response}

namespace Answer

/-- The values of an answer. -/
def given (a : Answer) : List Scalar := a.values.getD []

/-- **An answer fits a request.** It reports no exception, and to a read it gives one value for each point; for
registers, these have to be words. -/
structure Fits (a : Answer) (r : Request) : Prop where
  served : a.exception = none
  complete : ∀ function address quantity, r = .read function address quantity → a.given.length = quantity.toNat
  words : ∀ function address quantity table, r = .read function address quantity → function.table? = some table →
    table.isBit = false → ∀ v ∈ a.given, ∃ w, v.toRegister = .ok w

/-- **The response takes over what an answer gives**: the truth of each value or its word, one for each point that
was asked for. A write is echoed. -/
inductive Carries (a : Answer) : Request → Response → Prop
  | bits {function : Function} {table : Table} (address : UInt16) {quantity : UInt16}
      (htable : function.table? = some table) (hbit : table.isBit = true) (hall : a.given.length = quantity.toNat) :
      Carries a (.read function address quantity) (.bits function (a.given.map Scalar.holds))
  | registers {function : Function} {table : Table} (address : UInt16) {quantity : UInt16} {words : List UInt16}
      (htable : function.table? = some table) (hbit : table.isBit = false) (hall : words.length = quantity.toNat)
      (hwords : List.Forall₂ (fun v w => v.toRegister = .ok w) a.given words) :
      Carries a (.read function address quantity) (.registers function words)
  | coilWritten (address : UInt16) (value : Bool) : Carries a (.writeCoil address value) (.coilWritten address value)
  | registerWritten (address value : UInt16) :
      Carries a (.writeRegister address value) (.registerWritten address value)

/-- The exception that an answer comes to when it does not fit: the one that it reports, if there is such a code,
and a failure of the device otherwise. -/
def refusal (a : Answer) : ExceptionCode := (a.exception.bind ExceptionCode.ofCode?).getD .deviceFailure

/-- What is taken over answers the request. -/
theorem Carries.answers (h : a.Carries r response) : Answers r response := by
  cases h with
  | bits address htable hbit hall => exact .bits address htable hbit (by rw [List.length_map, hall])
  | registers address htable hbit hall _ => exact .registers address htable hbit hall
  | coilWritten address value => exact .coilWritten address value
  | registerWritten address value => exact .registerWritten address value

/-- What is taken over is no exception. -/
theorem Carries.codeByte (h : a.Carries r response) : response.codeByte = r.function.code := by
  cases h <;> rfl

end Answer

/-- Values are read as words one by one, and all of them have to be words. -/
theorem mapM_toRegister_cases (values : List Scalar) :
    (∃ words, values.mapM Scalar.toRegister = .ok words ∧
        List.Forall₂ (fun v w => v.toRegister = .ok w) values words ∧ ∀ v ∈ values, ∃ w, v.toRegister = .ok w) ∨
      ∃ err, values.mapM Scalar.toRegister = .error err ∧ ∃ v ∈ values, ∀ w, v.toRegister ≠ .ok w := by
  induction values with
  | nil => exact .inl ⟨[], rfl, .nil, nofun⟩
  | cons v values ih =>
    rw [List.mapM_cons]
    cases hv : v.toRegister with
    | error err => exact .inr ⟨err, rfl, v, List.mem_cons_self, by simp [hv]⟩
    | ok w =>
      rcases ih with ⟨words, hwords, hall, hmem⟩ | ⟨err, herr, v', hv', hbad⟩
      · rw [hwords]
        exact .inl ⟨w :: words, rfl, .cons hv hall, List.forall_mem_cons.2 ⟨⟨w, hv⟩, hmem⟩⟩
      · rw [herr]
        exact .inr ⟨err, rfl, v', List.mem_cons_of_mem _ hv', hbad⟩

/-- A read of a table is answered by values that fit, or it fails. -/
theorem readResponse_cases {function : Function} {table : Table} (address quantity : UInt16)
    (hserved : a.exception = none) (htable : function.table? = some table) (hr : r = .read function address quantity) :
    (a.Fits r ∧ a.Carries r (readResponse r function quantity a.given)) ∨
      (¬ a.Fits r ∧ readResponse r function quantity a.given = failure r) := by
  unfold readResponse
  by_cases hall : a.given.length = quantity.toNat
  swap
  · rw [if_pos hall]
    exact .inr ⟨fun hfits => hall (hfits.complete _ _ _ hr), rfl⟩
  rw [if_neg (not_not.2 hall), htable]
  subst hr
  -- the request names its function and its quantity, so it is enough to look at these
  have hfits (hwords : table.isBit = false → ∀ v ∈ a.given, ∃ w, v.toRegister = .ok w) :
      a.Fits (.read function address quantity) := by
    refine ⟨hserved, fun f start count heq => ?_, fun f start count table' heq htable' hbit' => ?_⟩
    · obtain ⟨-, -, rfl⟩ := Request.read.inj heq
      exact hall
    · obtain ⟨rfl, -, -⟩ := Request.read.inj heq
      obtain rfl := Option.some.inj (htable.symm.trans htable')
      exact hwords hbit'
  cases hbit : table.isBit with
  | true =>
    simp only [hbit, if_true]
    exact .inl ⟨hfits fun hbit' => absurd (hbit.symm.trans hbit') (by decide), .bits address htable hbit hall⟩
  | false =>
    simp only [hbit, Bool.false_eq_true, if_false]
    rcases mapM_toRegister_cases a.given with ⟨words, hmap, hwords, hmem⟩ | ⟨err, hmap, v, hv, hbad⟩
    · rw [hmap]
      exact .inl ⟨hfits fun _ => hmem, .registers address htable hbit (hwords.length_eq.symm.trans hall) hwords⟩
    · rw [hmap]
      refine .inr ⟨fun hfits => ?_, rfl⟩
      obtain ⟨w, hw⟩ := hfits.words _ _ _ _ rfl htable hbit v hv
      exact hbad w hw

/-- **An answer fits and is taken over, or it is refused.** -/
theorem response_cases (hr : r.Admitted) (a : Answer) :
    (a.Fits r ∧ a.Carries r (a.response r)) ∨
      (¬ a.Fits r ∧ a.response r = .exception r.function.code a.refusal) := by
  cases hexception : a.exception with
  | some code =>
    refine .inr ⟨fun hfits => ?_, ?_⟩
    · rw [hfits.served] at hexception
      cases hexception
    · simp only [Answer.response, hexception, Answer.refusal, Option.bind_some]
  | none =>
    have hrefusal : a.refusal = .deviceFailure := by rw [Answer.refusal, hexception]; rfl
    rw [hrefusal]
    cases hr with
    | read address htable _ =>
      simp only [Answer.response, hexception]
      exact readResponse_cases address _ hexception htable rfl
    | writeCoil address value =>
      simp only [Answer.response, hexception]
      exact .inl ⟨⟨hexception, by simp, by simp⟩, .coilWritten address value⟩
    | writeRegister address value =>
      simp only [Answer.response, hexception]
      exact .inl ⟨⟨hexception, by simp, by simp⟩, .registerWritten address value⟩

/-- **Whatever is answered, the client gets a reply that fits.** To a request that a PDU can hold, an answer that
fits becomes the response with what it gives, under the function of the request. Any other answer becomes an
exception of that function, with one of the four codes. The reply is no longer than a PDU may be, and whoever knows
how many points the request asks for reads exactly the response in it. -/
theorem fitting_reply {pdu : Bytes} (h : Request.decode pdu = .ok r) (a : Answer) :
    let response := a.response r
    ((a.Fits r ∧ a.Carries r response ∧ response.codeByte = r.function.code) ∨
      (¬ a.Fits r ∧ response = .exception r.function.code a.refusal ∧
        response.codeByte = r.function.code ||| 0x80)) ∧
      r.function.code &&& 0x80 = 0 ∧
      1 ≤ a.refusal.code ∧ a.refusal.code ≤ 4 ∧
      response.encode = response.codeByte :: response.body ∧
      response.encode.length ≤ maxPduLength ∧
      ∀ quantity, r.AsksFor quantity → Response.decode response.encode quantity = .ok response := by
  intro response
  have hr := admitted_of_decode h
  have hcode : 1 ≤ a.refusal.code ∧ a.refusal.code ≤ 4 := by cases a.refusal <;> decide
  have hcases := response_cases hr a
  have hanswers : Answers r response := by
    rcases hcases with ⟨-, hcarries⟩ | ⟨-, hrefused⟩
    · exact hcarries.answers
    · simp only [response, hrefused]
      exact .refused r a.refusal
  refine ⟨?_, r.function.code_and_high, hcode.1, hcode.2, rfl, length_encode_of_answers hr hanswers,
    fun quantity hq => decode_encode_of_answers hr hanswers hq⟩
  rcases hcases with ⟨hfits, hcarries⟩ | ⟨hmisfits, hrefused⟩
  · exact .inl ⟨hfits, hcarries, hcarries.codeByte⟩
  · exact .inr ⟨hmisfits, hrefused, congrArg Response.codeByte hrefused⟩

/-- Two registers are asked for. A real number without its fraction and a truth value are words, and a text is not. -/
theorem fitting_reply_pair :
    let pdu : Bytes := [3, 0, 0, 0, 2]
    let r : Request := .read .readHoldingRegisters 0 2
    let words : Answer := ⟨1, 3, some [.real 2.5, .bool true], none⟩
    let mixed : Answer := ⟨1, 3, some [.int 50, .text "on"], none⟩
    Request.decode pdu = .ok r ∧
      words.response r = .registers .readHoldingRegisters [2, 1] ∧
      Response.decode (words.response r).encode 2 = .ok (.registers .readHoldingRegisters [2, 1]) ∧
      mixed.response r = .exception 3 .deviceFailure ∧ ¬ mixed.Fits r ∧
      Response.decode (mixed.response r).encode 2 = .ok (.exception 3 .deviceFailure) := by
  intro pdu r words mixed
  have hdecode : Request.decode pdu = .ok r := rfl
  have hq : r.AsksFor 2 := by
    rintro _ _ _ h
    obtain ⟨-, -, rfl⟩ := Request.read.inj h
    rfl
  have hwords : words.response r = .registers .readHoldingRegisters [2, 1] := by decide +kernel
  have hmixed : mixed.response r = .exception 3 .deviceFailure := by decide +kernel
  obtain ⟨-, -, -, -, -, -, hread⟩ := fitting_reply hdecode words
  obtain ⟨hcases, -, -, -, -, -, hread'⟩ := fitting_reply hdecode mixed
  refine ⟨hdecode, hwords, hwords ▸ hread 2 hq, hmixed, ?_, hmixed ▸ hread' 2 hq⟩
  rcases hcases with ⟨-, -, hcode⟩ | ⟨hmisfits, -⟩
  · rw [hmixed] at hcode
    exact absurd hcode (by decide)
  · exact hmisfits

end Switchyard.Channel
