import Switchyard.Proofs.Mms.Values

/-!
# Confirmed requests and their replies

A confirmed request is answered with its own invoke id, and the answer comes in the
way in which the request came: bare, or as session data. A client that takes the
answer apart finds the name of the first logical device and whether there are more,
if it asked for names, and a rejection otherwise (`reply_correlates`). Up to seven
values stand inside each other, of any length that a packet has room for; each is
read back because it is written in a form that is read (`readTagged_tlv`).

* `IsRequest`, `Carrier.Carries`: requests, and how they are carried, in any form that lengths have.
* `Reply.ofMessage`, `Carrier.unwrap`: what a client reads.
-/

namespace Switchyard.Mms

/-- **A confirmed request**: in its content stand the invoke id and, behind it, the tag of a service. -/
def IsRequest (message invokeId : Bytes) (service : UInt8) : Prop :=
  ∃ content rest more, Fronts 0xA0 content rest message ∧ Fronts 0x02 invokeId (service :: more) content

/-- Presentation data, fully encoded, with a message for context 3. -/
def InContext (data message : Bytes) : Prop :=
  ∃ encoded values wrapped rest₁ rest₂ rest₃, Fronts 0x61 encoded rest₁ data ∧ Fronts 0x30 values rest₂ encoded ∧
    Fronts 0x02 [3] wrapped values ∧ Fronts 0xA0 message rest₃ wrapped

/-- How a message is carried. -/
inductive Carrier where
  | bare
  | session
  deriving DecidableEq

/-- **A payload carries a message**: it is the message, or a session data unit with the message inside. -/
def Carrier.Carries : Carrier → Bytes → Bytes → Prop
  | bare, payload, message => payload = message
  | session, payload, message => ∃ data, payload = sessionData ++ data ∧ InContext data message

/-- **A packet holds a payload as data**: behind four bytes of header stands the header of a data unit, which says how
long it is, and behind this the payload. -/
def HoldsData (p payload : Bytes) : Prop :=
  ∃ header length code parameters, header.length = packetHeaderLength ∧ length.toNat = parameters.length + 1 ∧
    code &&& 0xF0 = (0xF0 : UInt8) ∧ p = header ++ (length :: code :: (parameters ++ payload))

/-- What a reply to a confirmed request says. -/
inductive Reply where
  | names (invokeId name : Bytes) (moreFollows : Bool)
  | rejected (invokeId : Bytes)
  deriving DecidableEq

/-- The content of a value that takes up all of the bytes. -/
def readWhole (tag : UInt8) (bytes : Bytes) : Option Bytes := do
  let t ← readTagged tag bytes
  if t.rest = [] then some t.content else none

/-- A confirmed response that lists names. -/
def readNames (message : Bytes) : Option Reply := do
  let response ← readWhole 0xA1 message
  let invoke ← readTagged 0x02 response
  let service ← readWhole 0xA1 invoke.rest
  let list ← readTagged 0xA0 service
  let name ← readWhole 0x1A list.content
  let more ← readWhole 0x81 list.rest
  match more with
  | [b] => some (.names invoke.content name (b ≠ 0))
  | _ => none

/-- A rejection of a confirmed request whose service is not known. -/
def readRejection (message : Bytes) : Option Reply := do
  let rejection ← readWhole 0xA4 message
  let invoke ← readTagged 0x80 rejection
  let reason ← readWhole 0x81 invoke.rest
  if reason = [1] then some (.rejected invoke.content) else none

/-- What a client reads in the message of a reply. -/
def Reply.ofMessage (message : Bytes) : Option Reply := (readNames message).or (readRejection message)

/-- The message that a payload carries in this way. -/
def Carrier.unwrap : Carrier → Bytes → Option Bytes
  | bare, payload => some payload
  | session, payload => if sessionData <+: payload then outOfPresentation (payload.drop sessionData.length) else none

/-- The name that is reported for the logical devices. -/
def Domains.reported (domains : Domains) : Bytes := (domains.first.getD standInDomain).toUTF8.toList

/-- The reply that a request calls for. -/
def Reply.due (invokeId : Bytes) (service : UInt8) (domains : Domains) : Reply :=
  if service = 0xA1 then .names invokeId domains.reported (decide (1 < domains.count)) else .rejected invokeId

/-- The message of this reply. -/
def replyMessage (invokeId : Bytes) (service : UInt8) (domains : Domains) : Bytes :=
  if service = 0xA1 then nameListResponse invokeId domains else reject invokeId

/-- A message as the payload that carries it. -/
def Carrier.wrap : Carrier → Bytes → Bytes
  | bare, message => message
  | session, message => inPresentation message

variable {p payload message invokeId data content bytes : Bytes} {tag service : UInt8} {domains : Domains}

theorem Fronts.readTagged {rest : Bytes} (h : Fronts tag content rest bytes) :
    readTagged tag bytes = some ⟨tag, content, rest⟩ := readTagged_eq_some_iff.2 ⟨rfl, h⟩

theorem Fronts.head?_eq {rest : Bytes} (h : Fronts tag content rest bytes) : bytes.head? = some tag := by
  obtain ⟨form, -, rfl⟩ := h
  rfl

theorem IsRequest.confirmed (h : IsRequest message invokeId service) :
    confirmedRequest message = some (invokeId, service) := by
  obtain ⟨content, rest, more, hmessage, hcontent⟩ := h
  simp only [confirmedRequest, hmessage.readTagged, hcontent.readTagged, Option.bind_eq_bind, Option.bind_some,
    List.head?_cons]
  rfl

theorem IsRequest.head? (h : IsRequest message invokeId service) : message.head? = some 0xA0 := by
  obtain ⟨content, rest, more, hmessage, -⟩ := h
  exact hmessage.head?_eq

/-- A request is answered with the reply that it calls for. -/
theorem reply_of_isRequest (h : IsRequest message invokeId service) (domains : Domains) :
    (respondMessage message domains).reply = some (replyMessage invokeId service domains) := by
  simp only [respondMessage, h.head?, h.confirmed, replyMessage]
  split <;> rfl

theorem InContext.outOfPresentation (h : InContext data message) : outOfPresentation data = some message := by
  obtain ⟨encoded, values, wrapped, rest₁, rest₂, rest₃, h₁, h₂, h₃, h₄⟩ := h
  simp only [Mms.outOfPresentation, h₁.readTagged, h₂.readTagged, h₃.readTagged, h₄.readTagged, Option.bind_eq_bind,
    Option.bind_some]
  rfl

/-- **A request is answered in the way in which it came.** -/
theorem reply_of_carries {carrier : Carrier} (hcarried : carrier.Carries payload message)
    (hrequest : IsRequest message invokeId service) (domains : Domains) :
    (answerData payload domains).reply =
      some (dataPacket (carrier.wrap (replyMessage invokeId service domains))) := by
  have hreply := reply_of_isRequest hrequest domains
  cases carrier with
  | bare =>
    obtain rfl : payload = message := hcarried
    have hhead := hrequest.head?
    -- a request is no session data: it starts with a tag of its own
    have hplain : sessionData.isPrefixOf payload = false := by
      cases payload with
      | nil => rfl
      | cons first more =>
        obtain rfl := Option.some.inj hhead
        rfl
    simp only [answerData, hhead, hplain, Bool.false_eq_true, if_false, hreply]
    rfl
  | session =>
    obtain ⟨data, rfl, hcontext⟩ := hcarried
    have hhead : (sessionData ++ data).head? = some 0x01 := rfl
    have hsession : sessionData.isPrefixOf (sessionData ++ data) = true :=
      List.isPrefixOf_iff_prefix.2 (List.prefix_append _ _)
    simp only [answerData, hhead, hsession, if_true, List.drop_left, hcontext.outOfPresentation, hreply]
    rfl

theorem answer_of_holdsData (hp : HoldsData p payload) (domains : Domains) :
    answer p domains = answerData payload domains := by
  obtain ⟨header, length, code, parameters, hheader, hlength, hcode, rfl⟩ := hp
  have hunit : (header ++ (length :: code :: (parameters ++ payload))).drop packetHeaderLength =
      length :: code :: (parameters ++ payload) := by
    rw [← hheader, List.drop_left]
  have hdata : (length :: code :: (parameters ++ payload)).drop (1 + length.toNat) = payload := by
    rw [hlength, Nat.add_comm 1, List.drop_succ_cons, List.drop_succ_cons, List.drop_left]
  have hne : ¬ code &&& 0xF0 = (0xE0 : UInt8) := by
    rw [hcode]
    decide
  simp only [answer, hunit, if_neg hne, if_pos hcode, hdata]

/-- A value at the end of the bytes is read back. -/
theorem readWhole_tlv (hcontent : content.length < 2 ^ 16) : readWhole tag (tlv tag content) = some content := by
  simp only [readWhole, readTagged_tlv_last hcontent, Option.bind_eq_bind, Option.bind_some, if_true]

theorem readWhole_tlv_of_ne {other : UInt8} (h : tag ≠ other) (content : Bytes) :
    readWhole other (tlv tag content) = none := by
  have hnone : readTagged other (tlv tag content) = none := by
    rw [Option.eq_none_iff_forall_ne_some]
    intro t ht
    obtain ⟨-, form, -, hbytes⟩ := readTagged_eq_some_iff.1 ht
    exact h (List.cons.inj hbytes).1
  simp only [readWhole, hnone, Option.bind_eq_bind, Option.bind_none]

/-- **A list of names is read back**, if its length fits in a word: all that stands in it is shorter. -/
theorem readNames_nameListResponse (hfits : (nameListResponse invokeId domains).length < 2 ^ 16) :
    readNames (nameListResponse invokeId domains) =
      some (.names invokeId domains.reported (decide (1 < domains.count))) := by
  let more : UInt8 := if 1 < domains.count then 0xFF else 0x00
  let list : Bytes := tlv 0x1A domains.reported
  let names : Bytes := tlv 0xA0 list ++ tlv 0x81 [more]
  let body : Bytes := tlv 0x02 invokeId ++ tlv 0xA1 names
  have hresponse : nameListResponse invokeId domains = tlv 0xA1 body := rfl
  rw [hresponse] at hfits ⊢
  have hbody := length_lt_tlv 0xA1 body
  have hinvoke := length_lt_tlv 0x02 invokeId
  have hnames := length_lt_tlv 0xA1 names
  have hlist := length_lt_tlv 0xA0 list
  have hname : domains.reported.length < list.length := length_lt_tlv 0x1A domains.reported
  have hbodyParts : body.length = (tlv 0x02 invokeId).length + (tlv 0xA1 names).length := List.length_append
  have hnamesParts : names.length = (tlv 0xA0 list).length + (tlv 0x81 [more]).length := List.length_append
  have hmore : (more ≠ 0) = (1 < domains.count) := by
    by_cases hcount : 1 < domains.count
    · simp [more, hcount]
    · simp [more, hcount]
  have h₁ : readWhole 0xA1 (tlv 0xA1 body) = some body := readWhole_tlv (by omega)
  have h₂ : readTagged 0x02 body = some ⟨0x02, invokeId, tlv 0xA1 names⟩ := readTagged_tlv (by omega) _
  have h₃ : readWhole 0xA1 (tlv 0xA1 names) = some names := readWhole_tlv (by omega)
  have h₄ : readTagged 0xA0 names = some ⟨0xA0, list, tlv 0x81 [more]⟩ := readTagged_tlv (by omega) _
  have h₅ : readWhole 0x1A list = some domains.reported := readWhole_tlv (by omega)
  have h₆ : readWhole 0x81 (tlv 0x81 [more]) = some [more] := readWhole_tlv (by simp)
  simp only [readNames, h₁, h₂, h₃, h₄, h₅, h₆, hmore, Option.bind_eq_bind, Option.bind_some]

/-- **A rejection is read back**, if its length fits in a word. -/
theorem readRejection_reject (hfits : (reject invokeId).length < 2 ^ 16) :
    readRejection (reject invokeId) = some (.rejected invokeId) := by
  let body : Bytes := tlv 0x80 invokeId ++ tlv 0x81 [1]
  have hreject : reject invokeId = tlv 0xA4 body := rfl
  rw [hreject] at hfits ⊢
  have hbody := length_lt_tlv 0xA4 body
  have hinvoke := length_lt_tlv 0x80 invokeId
  have hparts : body.length = (tlv 0x80 invokeId).length + (tlv 0x81 [1]).length := List.length_append
  have h₁ : readWhole 0xA4 (tlv 0xA4 body) = some body := readWhole_tlv (by omega)
  have h₂ : readTagged 0x80 body = some ⟨0x80, invokeId, tlv 0x81 [1]⟩ := readTagged_tlv (by omega) _
  have h₃ : readWhole 0x81 (tlv 0x81 [1]) = some [1] := readWhole_tlv (by decide)
  simp only [readRejection, h₁, h₂, h₃, Option.bind_eq_bind, Option.bind_some, if_true]

/-- The reply that a request calls for is read in its message. -/
theorem ofMessage_replyMessage (hfits : (replyMessage invokeId service domains).length < 2 ^ 16) :
    Reply.ofMessage (replyMessage invokeId service domains) = some (Reply.due invokeId service domains) := by
  unfold replyMessage at hfits ⊢
  unfold Reply.ofMessage Reply.due
  split
  · rename_i hnames
    rw [if_pos hnames] at hfits
    rw [readNames_nameListResponse hfits, Option.some_or]
  · rename_i hother
    rw [if_neg hother] at hfits
    -- a rejection is no response
    have hnone : readNames (reject invokeId) = none := by
      have h : readWhole 0xA1 (reject invokeId) = none := readWhole_tlv_of_ne (by decide) _
      simp only [readNames, h, Option.bind_eq_bind, Option.bind_none]
    rw [hnone, Option.none_or, readRejection_reject hfits]

/-- **A message in presentation data is taken out of them again**, if their length fits in a word. -/
theorem outOfPresentation_inPresentation (hfits : (inPresentation message).length < 2 ^ 16) :
    outOfPresentation ((inPresentation message).drop sessionData.length) = some message := by
  let values : Bytes := tlv 0x02 [3] ++ tlv 0xA0 message
  have hdata : inPresentation message = sessionData ++ tlv 0x61 (tlv 0x30 values) := rfl
  rw [hdata, List.length_append] at hfits
  rw [hdata, List.drop_left]
  have hencoded := length_lt_tlv 0x61 (tlv 0x30 values)
  have hvalues := length_lt_tlv 0x30 values
  have hmessage := length_lt_tlv 0xA0 message
  have hparts : values.length = (tlv 0x02 [3]).length + (tlv 0xA0 message).length := List.length_append
  have h₁ : readTagged 0x61 (tlv 0x61 (tlv 0x30 values)) = some ⟨0x61, tlv 0x30 values, []⟩ :=
    readTagged_tlv_last (by omega)
  have h₂ : readTagged 0x30 (tlv 0x30 values) = some ⟨0x30, values, []⟩ := readTagged_tlv_last (by omega)
  have h₃ : readTagged 0x02 values = some ⟨0x02, [3], tlv 0xA0 message⟩ := readTagged_tlv (by decide) _
  have h₄ : readTagged 0xA0 (tlv 0xA0 message) = some ⟨0xA0, message, []⟩ := readTagged_tlv_last (by omega)
  simp only [outOfPresentation, h₁, h₂, h₃, h₄, Option.bind_eq_bind, Option.bind_some]
  rfl

theorem unwrap_wrap {carrier : Carrier} (hfits : (carrier.wrap message).length < 2 ^ 16) :
    carrier.unwrap (carrier.wrap message) = some message := by
  cases carrier with
  | bare => rfl
  | session =>
    have hprefix : sessionData <+: inPresentation message := List.prefix_append _ _
    show (if sessionData <+: inPresentation message then _ else none) = some message
    rw [if_pos hprefix]
    exact outOfPresentation_inPresentation hfits

theorem length_le_wrap (carrier : Carrier) (message : Bytes) : message.length ≤ (carrier.wrap message).length := by
  cases carrier with
  | bare => exact Nat.le_refl _
  | session =>
    have h₁ := length_lt_tlv 0x61 (tlv 0x30 ([0x02, 0x01, 3] ++ tlv 0xA0 message))
    have h₂ := length_lt_tlv 0x30 ([0x02, 0x01, 3] ++ tlv 0xA0 message)
    have h₃ := length_lt_tlv 0xA0 message
    simp only [Carrier.wrap, inPresentation, List.length_append] at h₁ h₂ ⊢
    omega

/-- **Replies go with their requests.** A packet with a confirmed request, of any invoke id and any service, bare or
inside session data, is answered with one packet. If its length fits in a word, a client finds the packet on the
stream, and the reply is carried in the way of the request. It says, with the bytes of the invoke id, the name of the
first logical device and whether there are more, if the request asks for names, and that it is rejected otherwise. -/
theorem reply_correlates {carrier : Carrier} (hp : HoldsData p payload) (hcarried : carrier.Carries payload message)
    (hrequest : IsRequest message invokeId service) (domains : Domains) :
    ∃ content, (answer p domains).reply = some (dataPacket content) ∧
      ((dataPacket content).length < 2 ^ 16 →
        nextPacket (dataPacket content) = .ok (some (dataPacket content, [])) ∧
          (carrier.unwrap content).bind Reply.ofMessage =
            some (if service = 0xA1 then
                .names invokeId (domains.first.getD standInDomain).toUTF8.toList (decide (1 < domains.count))
              else .rejected invokeId)) := by
  refine ⟨carrier.wrap (replyMessage invokeId service domains), ?_, fun hfits => ?_⟩
  · rw [answer_of_holdsData hp, reply_of_carries hcarried hrequest]
  · refine ⟨(nextPacket_dataPacket_iff _).2 hfits, ?_⟩
    rw [length_dataPacket] at hfits
    have hle := length_le_wrap carrier (replyMessage invokeId service domains)
    rw [unwrap_wrap (by omega), Option.bind_some, ofMessage_replyMessage (by omega)]
    rfl

/-- A request for names in session data, with a length in a longer form than it needs, and how it is answered. -/
theorem reply_correlates_names :
    let message : Bytes := [0xA0, 0x81, 0x05, 0x02, 0x01, 0x2A, 0xA1, 0x00]
    let payload : Bytes := [0x01, 0x00, 0x01, 0x00, 0x61, 0x0F, 0x30, 0x0D, 0x02, 0x01, 0x03, 0xA0, 0x08] ++ message
    let p : Bytes := [0x03, 0x00, 0x00, 0x1C, 0x02, 0xF0, 0x80] ++ payload
    HoldsData p payload ∧ Carrier.session.Carries payload message ∧ IsRequest message [0x2A] 0xA1 ∧
      ∃ content, (answer p ⟨some "IED1LD0", 2⟩).reply = some (dataPacket content) ∧
        (Carrier.session.unwrap content).bind Reply.ofMessage =
          some (.names [0x2A] "IED1LD0".toUTF8.toList true) := by
  intro message payload p
  have hp : HoldsData p payload := ⟨[0x03, 0x00, 0x00, 0x1C], 2, 0xF0, [0x80], rfl, rfl, rfl, rfl⟩
  have hcarried : Carrier.session.Carries payload message := by
    refine ⟨payload.drop 4, rfl, [0x30, 0x0D, 0x02, 0x01, 0x03, 0xA0, 0x08] ++ message,
      [0x02, 0x01, 0x03, 0xA0, 0x08] ++ message, [0xA0, 0x08] ++ message, [], [], [], ?_, ?_, ?_, ?_⟩
    · exact ⟨[0x0F], .short (by decide), rfl⟩
    · exact ⟨[0x0D], .short (by decide), rfl⟩
    · exact ⟨[0x01], .short (by decide), rfl⟩
    · exact ⟨[0x08], .short (by decide), rfl⟩
  have hrequest : IsRequest message [0x2A] 0xA1 :=
    ⟨[0x02, 0x01, 0x2A, 0xA1, 0x00], [], [0x00], ⟨[0x81, 0x05], .byte 5, rfl⟩, ⟨[0x01], .short (by decide), rfl⟩⟩
  refine ⟨hp, hcarried, hrequest, ?_⟩
  obtain ⟨content, hreply, hread⟩ := reply_correlates hp hcarried hrequest ⟨some "IED1LD0", 2⟩
  refine ⟨content, hreply, ?_⟩
  have hanswer : (answer p ⟨some "IED1LD0", 2⟩).reply = some (dataPacket (Carrier.session.wrap
      (replyMessage [0x2A] 0xA1 ⟨some "IED1LD0", 2⟩))) := by decide +kernel
  have hlength : (dataPacket content).length < 2 ^ 16 := by
    rw [← Option.some.inj (hanswer.symm.trans hreply)]
    decide +kernel
  exact (hread hlength).2.trans rfl

end Switchyard.Mms
