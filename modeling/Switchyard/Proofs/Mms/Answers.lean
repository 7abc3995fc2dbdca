import Mathlib.Algebra.GroupWithZero.Nat
import Mathlib.Tactic.Common
import Switchyard.Mms.Exchange

/-!
# Answers as packets

An answer is put together without a look at its size, and the length in its header
counts modulo `2 ^ 16`. So a client finds an answer on the stream as one packet
exactly if it is shorter than that (`answer_packet_iff`). What a packet makes its
answer repeat, an association request or an invoke id, is part of the packet, and
all else in an answer is short. So an answer is not much longer than its packet,
and only packets close to the limit get answers that break the stream
(`repeated_connect_breaks`).

* `nextPacket_packet_iff`: when a packet is found as it was sent.
* `tlvSize`: how long tagged values are, written and read.
* `reply_data`, `reply_message`: what answers are made of, and how long they get.
-/

namespace Switchyard.Mms

variable {p r : Bytes} {domains : Domains}

theorem length_packet (unit : Bytes) : (packet unit).length = packetHeaderLength + unit.length := by
  simp only [packet, Bytes.ofWord, packetHeaderLength, List.length_append, List.length_cons, List.length_nil]

theorem length_dataPacket (payload : Bytes) : (dataPacket payload).length = payload.length + 7 := by
  rw [dataPacket, length_packet, List.length_append, packetHeaderLength, List.length_cons, List.length_cons,
    List.length_cons, List.length_nil]
  omega

/-- **A packet is found as it was sent exactly if its length fits in a word.** -/
theorem nextPacket_packet_iff {unit : Bytes} (hunit : 2 ≤ unit.length) :
    nextPacket (packet unit) = .ok (some (packet unit, [])) ↔ (packet unit).length < 2 ^ 16 := by
  have hlen := length_packet unit
  have hword : (UInt16.ofNat (packetHeaderLength + unit.length)).toNat = (packet unit).length % 2 ^ 16 := by
    rw [hlen, UInt16.toNat_ofNat']
  have hnext : nextPacket (packet unit) =
      if (packet unit).length % 2 ^ 16 < packetHeaderLength + 2 then
        .error (.length (UInt16.ofNat (packetHeaderLength + unit.length)))
      else if (packet unit).length < (packet unit).length % 2 ^ 16 then .ok none
      else .ok (some ((packet unit).take ((packet unit).length % 2 ^ 16),
        (packet unit).drop ((packet unit).length % 2 ^ 16))) := by
    rw [← hword]
    simp only [packet, Bytes.ofWord, List.cons_append, List.nil_append, nextPacket, Bytes.word_ofWord, ne_eq,
      not_true_eq_false, if_false]
    rfl
  rw [packetHeaderLength] at hlen hnext
  rw [hnext]
  constructor
  · intro h
    split at h
    · cases h
    split at h
    · cases h
    -- nothing is left over, so the length in the header is all of the length
    have hpair := Prod.ext_iff.1 (Option.some.inj (Except.ok.inj h))
    have hrest := List.drop_eq_nil_iff.1 hpair.2
    omega
  · intro hfits
    rw [Nat.mod_eq_of_lt hfits, if_neg (by omega), if_neg (Nat.lt_irrefl _), List.take_length, List.drop_length]

theorem nextPacket_dataPacket_iff (payload : Bytes) :
    nextPacket (dataPacket payload) = .ok (some (dataPacket payload, [])) ↔
      (dataPacket payload).length < 2 ^ 16 :=
  nextPacket_packet_iff (by simp)

/-- The length of a tagged value with `n` bytes of content. -/
def tlvSize (n : ℕ) : ℕ := n + if n < 128 then 2 else if n < 256 then 3 else 4

theorem length_tlv (tag : UInt8) (content : Bytes) : (tlv tag content).length = tlvSize content.length := by
  simp only [tlv, lengthBytes, tlvSize, List.length_cons, List.length_append]
  split_ifs <;> simp only [List.length_cons, List.length_nil] <;> omega

theorem tlvSize_le (n : ℕ) : tlvSize n ≤ n + 4 := by
  unfold tlvSize
  split_ifs <;> omega

theorem tlvSize_mono {m n : ℕ} (h : m ≤ n) : tlvSize m ≤ tlvSize n := by
  unfold tlvSize
  split_ifs <;> omega

/-- A longer content takes at most two more bytes for its length. -/
theorem tlvSize_le_of_le {m n k : ℕ} (h : m ≤ n + k) : tlvSize m ≤ tlvSize n + k + 2 := by
  unfold tlvSize
  split_ifs <;> omega

/-- A length that was read takes at least the bytes in which it would be written. -/
theorem tlvSize_le_of_readLength {body rest : Bytes} {n : ℕ} (h : readLength body = some (n, rest)) :
    tlvSize n + rest.length ≤ n + 1 + body.length := by
  cases body with
  | nil => cases h
  | cons first body =>
    simp only [readLength] at h
    split at h
    · rename_i hshort
      obtain ⟨rfl, rfl⟩ := Prod.mk.inj (Option.some.inj h)
      have hlt : first.toNat < 128 := UInt8.lt_iff_toNat_lt.1 hshort
      rw [tlvSize, if_pos hlt, List.length_cons]
      omega
    split at h
    · split at h
      · rename_i k more
        obtain ⟨rfl, rfl⟩ := Prod.mk.inj (Option.some.inj h)
        have hlt := k.toNat_lt
        simp only [tlvSize, List.length_cons]
        split_ifs <;> omega
      · cases h
    split at h
    · split at h
      · rename_i high low more
        obtain ⟨rfl, rfl⟩ := Prod.mk.inj (Option.some.inj h)
        have hle := tlvSize_le (Bytes.word high low).toNat
        simp only [List.length_cons]
        omega
      · cases h
    · cases h

/-- **A tagged value that was read is at least as long as it would be written.** -/
theorem tlvSize_le_of_takeTlv {bytes : Bytes} {t : Tlv} (h : takeTlv bytes = some t) :
    tlvSize t.content.length + t.rest.length ≤ bytes.length := by
  cases bytes with
  | nil => cases h
  | cons tag body =>
    simp only [takeTlv] at h
    cases hread : readLength body with
    | none => rw [hread] at h; cases h
    | some found =>
      obtain ⟨n, rest⟩ := found
      rw [hread] at h
      simp only at h
      split at h
      · rename_i hn
        obtain rfl := Option.some.inj h
        have hsize := tlvSize_le_of_readLength hread
        rw [List.length_take, Nat.min_eq_left hn, List.length_drop, List.length_cons]
        omega
      · cases h

theorem tlvSize_le_of_readTagged {bytes : Bytes} {tag : UInt8} {t : Tlv} (h : readTagged tag bytes = some t) :
    tlvSize t.content.length + t.rest.length ≤ bytes.length :=
  tlvSize_le_of_takeTlv (Option.filter_eq_some_iff.1 h).1

theorem length_toList (bytes : ByteArray) : bytes.toList.length = bytes.size := by
  have hloop (i : ℕ) (r : List UInt8) :
      (ByteArray.toList.loop bytes i r).length = (bytes.size - i) + r.length := by
    induction i, r using ByteArray.toList.loop.induct bytes with
    | case1 i r hi ih =>
      rw [ByteArray.toList.loop, if_pos hi, ih, List.length_cons]
      omega
    | case2 i r hi =>
      rw [ByteArray.toList.loop, if_neg hi, List.length_reverse]
      omega
  rw [ByteArray.toList, hloop]
  rfl

/-- The length of a message as session data. -/
theorem length_inPresentation (message : Bytes) :
    (inPresentation message).length = tlvSize (tlvSize (3 + tlvSize message.length)) + 4 := by
  simp only [inPresentation, sessionData, List.length_append, List.length_cons, List.length_nil, length_tlv,
    Nat.zero_add, Nat.reduceAdd]
  omega

/-- A message in presentation data is shorter than these data. -/
theorem tlvSize_le_of_outOfPresentation {data message : Bytes} (h : outOfPresentation data = some message) :
    tlvSize (tlvSize (3 + tlvSize message.length)) ≤ data.length := by
  simp only [outOfPresentation, Option.bind_eq_bind, Option.bind_eq_some_iff] at h
  obtain ⟨encoded, hencoded, values, hvalues, context, hcontext, h⟩ := h
  split at h
  · cases h
  rename_i hid
  rw [ne_eq, Decidable.not_not] at hid
  obtain ⟨wrapped, hwrapped, hmessage⟩ := Option.bind_eq_some_iff.1 h
  obtain rfl := Option.some.inj hmessage
  have h₁ := tlvSize_le_of_readTagged hencoded
  have h₂ := tlvSize_le_of_readTagged hvalues
  have h₃ := tlvSize_le_of_readTagged hcontext
  have h₄ := tlvSize_le_of_readTagged hwrapped
  rw [hid] at h₃
  have hinner : 3 + tlvSize wrapped.content.length ≤ values.content.length := by
    have hthree : tlvSize [(3 : UInt8)].length = 3 := rfl
    omega
  have houter : tlvSize (3 + tlvSize wrapped.content.length) ≤ encoded.content.length :=
    Nat.le_trans (tlvSize_mono hinner) (by omega)
  exact Nat.le_trans (tlvSize_mono houter) (by omega)

/-- A confirmed request holds its invoke id and one byte more. -/
theorem tlvSize_le_of_confirmedRequest {message invokeId : Bytes} {service : UInt8}
    (h : confirmedRequest message = some (invokeId, service)) :
    tlvSize (tlvSize invokeId.length + 1) ≤ message.length := by
  simp only [confirmedRequest, Option.bind_eq_bind, Option.bind_eq_some_iff] at h
  obtain ⟨request, hrequest, invoke, hinvoke, first, hfirst, h⟩ := h
  obtain ⟨rfl, -⟩ := Prod.mk.inj (Option.some.inj h)
  have h₁ := tlvSize_le_of_readTagged hrequest
  have h₂ := tlvSize_le_of_readTagged hinvoke
  have hmore : 1 ≤ invoke.rest.length := by
    cases hrest : invoke.rest with
    | nil => rw [hrest] at hfirst; cases hfirst
    | cons b more => simp
  have hwhole : tlvSize (tlvSize invoke.content.length + 1) ≤ tlvSize request.content.length := tlvSize_mono (by omega)
  omega

theorem length_reject (invokeId : Bytes) : (reject invokeId).length = tlvSize (tlvSize invokeId.length + 3) := by
  rw [reject, length_tlv, List.length_append, length_tlv]
  rfl

/-- An answer with a short name takes at most 269 bytes beside the invoke id. -/
theorem length_nameListResponse_le (invokeId : Bytes) (hname : ∀ name ∈ domains.first, name.utf8ByteSize ≤ 255) :
    (nameListResponse invokeId domains).length ≤ tlvSize (tlvSize invokeId.length + 269) := by
  have hbytes : (domains.first.getD standInDomain).toUTF8.toList.length ≤ 255 := by
    rw [length_toList]
    cases hfirst : domains.first with
    | none => decide
    | some name => exact hname name hfirst
  rw [nameListResponse]
  simp only [length_tlv, List.length_append, List.length_cons, List.length_nil, Nat.zero_add, Nat.reduceAdd]
  apply tlvSize_mono
  have hnames : tlvSize (tlvSize (domains.first.getD standInDomain).toUTF8.toList.length) ≤ 262 :=
    tlvSize_mono (tlvSize_mono hbytes)
  have hlist := tlvSize_le (tlvSize (tlvSize (domains.first.getD standInDomain).toUTF8.toList.length) + 3)
  omega

/-- **An answer to a message** is at most 270 bytes longer than the message. -/
theorem reply_message {message : Bytes} (hname : ∀ name ∈ domains.first, name.utf8ByteSize ≤ 255)
    (h : (respondMessage message domains).reply = some r) : r.length ≤ message.length + 270 := by
  have hconfirmed {invokeId : Bytes} {service : UInt8} (hreq : confirmedRequest message = some (invokeId, service)) :
      tlvSize (tlvSize invokeId.length + 269) ≤ message.length + 270 := by
    have hsize := tlvSize_le_of_confirmedRequest hreq
    have hmore : tlvSize (tlvSize invokeId.length + 269) ≤ tlvSize (tlvSize invokeId.length + 1) + 268 + 2 :=
      tlvSize_le_of_le (by omega)
    omega
  unfold respondMessage at h
  split at h
  · obtain rfl := Option.some.inj h
    rw [show initiateResponse.length = 40 from rfl]
    omega
  · obtain rfl := Option.some.inj h
    rw [show ([0x8C, 0x00] : Bytes).length = 2 from rfl]
    omega
  · split at h
    · rename_i invokeId service hreq
      split at h
      · obtain rfl := Option.some.inj h
        exact Nat.le_trans (length_nameListResponse_le invokeId hname) (hconfirmed hreq)
      · obtain rfl := Option.some.inj h
        rw [length_reject]
        exact Nat.le_trans (tlvSize_mono (by omega)) (hconfirmed hreq)
    · cases h
  · cases h

theorem length_acceptConnect {connect accept : Bytes} (h : acceptConnect connect = some accept) :
    accept.length = connect.length := by
  simp only [acceptConnect, Option.bind_eq_bind] at h
  split at h
  · cases h
  obtain ⟨-, -, h⟩ := Option.bind_eq_some_iff.1 h
  obtain ⟨association, -, h⟩ := Option.bind_eq_some_iff.1 h
  obtain ⟨initiate, -, h⟩ := Option.bind_eq_some_iff.1 h
  obtain rfl := Option.some.inj h
  simp only [List.length_set]

/-- **An answer to a data unit** is a data unit, of at most 276 bytes more. -/
theorem reply_data {payload : Bytes} (hname : ∀ name ∈ domains.first, name.utf8ByteSize ≤ 255)
    (h : (answerData payload domains).reply = some r) :
    payload ≠ [] ∧ ∃ content, r = dataPacket content ∧ content.length ≤ payload.length + 276 := by
  unfold answerData at h
  cases payload with
  | nil => cases h
  | cons first more =>
    refine ⟨by simp, ?_⟩
    simp only [List.head?_cons] at h
    split at h
    · rename_i hnone; cases hnone
    · obtain rfl := Option.some.inj h
      exact ⟨initiateResponse, rfl, by rw [show initiateResponse.length = 40 from rfl]; omega⟩
    · obtain ⟨accept, haccept, rfl⟩ := Option.map_eq_some_iff.1 h
      exact ⟨accept, rfl, by rw [length_acceptConnect haccept]; omega⟩
    · split at h
      · rename_i hsession
        split at h
        · rename_i message hmessage
          obtain ⟨reply, hreply, rfl⟩ := Option.map_eq_some_iff.1 h
          refine ⟨_, rfl, ?_⟩
          have hlen := reply_message hname hreply
          have hdata := tlvSize_le_of_outOfPresentation hmessage
          have hprefix := (List.isPrefixOf_iff_prefix.1 hsession).length_le
          rw [List.length_drop] at hdata
          rw [length_inPresentation]
          -- each of the three headers around the message grows by two bytes at most
          have hgrow : tlvSize (tlvSize (3 + tlvSize reply.length)) ≤
              tlvSize (tlvSize (3 + tlvSize message.length)) + 276 :=
            tlvSize_le_of_le (tlvSize_le_of_le (by have := tlvSize_le_of_le hlen; omega))
          rw [show sessionData.length = 4 from rfl] at hdata hprefix
          omega
        · cases h
      · obtain ⟨reply, hreply, rfl⟩ := Option.map_eq_some_iff.1 h
        have hlen := reply_message hname hreply
        exact ⟨reply, rfl, by omega⟩

/-- **When an answer is a packet.** Where the name of the first logical device takes no more than 255 bytes, a packet
is answered by bytes in which a client finds one packet, with nothing left over, exactly if they are fewer than
`2 ^ 16`. They are at most 278 bytes more than the packet. -/
theorem answer_packet_iff (hname : ∀ name ∈ domains.first, name.utf8ByteSize ≤ 255)
    (h : (answer p domains).reply = some r) :
    (nextPacket r = .ok (some (r, [])) ↔ r.length < 2 ^ 16) ∧ r.length ≤ p.length + 278 := by
  unfold answer at h
  split at h
  · rename_i length code rest hunit
    have hp : p.length = packetHeaderLength + (rest.length + 2) := by
      have hdrop := congrArg List.length hunit
      rw [List.length_drop, List.length_cons, List.length_cons] at hdrop
      omega
    split at h
    · obtain ⟨confirm, hconfirm, rfl⟩ := Option.map_eq_some_iff.1 h
      unfold connectionConfirm at hconfirm
      split at hconfirm
      · obtain rfl := Option.some.inj hconfirm
        refine ⟨nextPacket_packet_iff (by simp), ?_⟩
        rw [length_packet, hp]
        simp only [List.length_cons, List.length_nil]
        omega
      · cases hconfirm
    · split at h
      · obtain ⟨hne, content, rfl, hlen⟩ := reply_data hname h
        refine ⟨nextPacket_dataPacket_iff content, ?_⟩
        have hpos := List.length_pos_iff.2 hne
        rw [List.length_drop, List.length_cons, List.length_cons] at hlen hpos
        rw [length_dataPacket, hp, packetHeaderLength]
        omega
      · cases h
  · cases h

/-- A request that is rejected in session data, as it came. -/
theorem rejection_is_packet :
    let domains : Domains := ⟨some "IED1LD0", 1⟩
    let p : Bytes := [3, 0, 0, 32, 2, 0xF0, 0x80, 1, 0, 1, 0, 0x61, 0x13, 0x30, 0x11, 2, 1, 3, 0xA0, 12,
      0xA0, 0x0A, 2, 1, 5, 0xA4, 5, 0xA0, 3, 0x80, 1, 9]
    let r : Bytes := [3, 0, 0, 28, 2, 0xF0, 0x80, 1, 0, 1, 0, 0x61, 0x0F, 0x30, 0x0D, 2, 1, 3, 0xA0, 8,
      0xA4, 6, 0x80, 1, 5, 0x81, 1, 1]
    (∀ name ∈ domains.first, name.utf8ByteSize ≤ 255) ∧ (answer p domains).reply = some r ∧
      (nextPacket r = .ok (some (r, [])) ↔ r.length < 2 ^ 16) ∧ r.length ≤ p.length + 278 := by
  intro domains p r
  have hname : ∀ name ∈ domains.first, name.utf8ByteSize ≤ 255 := by
    intro name hmem
    obtain rfl := Option.some.inj hmem
    decide
  have hr : (answer p domains).reply = some r := rfl
  exact ⟨hname, hr, answer_packet_iff hname hr⟩

/-- Where a value with a tag is the next thing, it is found. -/
theorem indexOfTag_eq_self {bytes : Bytes} {tag : UInt8} {start : ℕ} (hlt : start < bytes.length)
    (htag : bytes[start]? = some tag) (hvalue : (takeTlv (bytes.drop start)).isSome = true) :
    indexOfTag bytes tag start = some start := by
  obtain ⟨n, hn⟩ : ∃ n, bytes.length - start = n + 1 := ⟨bytes.length - start - 1, by omega⟩
  rw [indexOfTag, hn, List.range'_succ, List.find?_cons_of_pos (by simp [htag, hvalue])]

/-- Where another byte is the next thing, the search goes on behind it. -/
theorem indexOfTag_of_ne {bytes : Bytes} {tag : UInt8} {start : ℕ} (htag : bytes[start]? ≠ some tag) :
    indexOfTag bytes tag start = indexOfTag bytes tag (start + 1) := by
  rcases Nat.lt_or_ge start bytes.length with hlt | hge
  · obtain ⟨n, hn⟩ : ∃ n, bytes.length - start = n + 1 := ⟨bytes.length - start - 1, by omega⟩
    have hn' : bytes.length - (start + 1) = n := by omega
    rw [indexOfTag, hn, List.range'_succ, List.find?_cons_of_neg (by simp [htag]), indexOfTag, hn']
  · rw [indexOfTag, indexOfTag, Nat.sub_eq_zero_of_le hge, Nat.sub_eq_zero_of_le (Nat.le_succ_of_le hge)]
    rfl

/-- An association request whose parts are empty, with anything behind them, and its acceptance. -/
theorem acceptConnect_of_empty (fill : Bytes) :
    acceptConnect (0x0D :: 0x60 :: 0 :: 0xBE :: 0 :: 0xA8 :: 0 :: fill) =
      some (0x0E :: 0x61 :: 0 :: 0xBE :: 0 :: 0xA9 :: 0 :: fill) := by
  have hassociation : indexOfTag (0x0E :: 0x60 :: 0 :: 0xBE :: 0 :: 0xA8 :: 0 :: fill) 0x60 1 = some 1 :=
    indexOfTag_eq_self (by simp) rfl rfl
  have hinfo : indexOfTag (0x0E :: 0x61 :: 0 :: 0xBE :: 0 :: 0xA8 :: 0 :: fill) 0xBE 2 = some 3 :=
    (indexOfTag_of_ne (by simp)).trans (indexOfTag_eq_self (by simp) rfl rfl)
  have hinitiate : indexOfTag (0x0E :: 0x61 :: 0 :: 0xBE :: 0 :: 0xA8 :: 0 :: fill) 0xA8 4 = some 5 :=
    (indexOfTag_of_ne (by simp)).trans (indexOfTag_eq_self (by simp) rfl rfl)
  simp [acceptConnect, findInitiate, hassociation, hinfo, hinitiate]

/-- Whatever fills the packet behind such a request: the header of the unit is a byte shorter than that of the answer,
so the answer takes `2 ^ 16` bytes, and its header says 0. -/
theorem connect_breaks_of_length {fill : Bytes} (hfill : fill.length = 65522) :
    let p : Bytes := [3, 0, 0xFF, 0xFF, 1, 0xF0, 0x0D, 0x60, 0, 0xBE, 0, 0xA8, 0] ++ fill
    let r : Bytes := [3, 0, 0, 0, 2, 0xF0, 0x80, 0x0E, 0x61, 0, 0xBE, 0, 0xA9, 0] ++ fill
    nextPacket p = .ok (some (p, [])) ∧ (answer p ⟨none, 0⟩).reply = some r ∧ r.length = 2 ^ 16 ∧
      nextPacket r = .error (.length 0) := by
  intro p r
  have hp : p = packet ([1, 0xF0, 0x0D, 0x60, 0, 0xBE, 0, 0xA8, 0] ++ fill) := by
    rw [packet, List.length_append, hfill]
    rfl
  have hr : r = dataPacket ([0x0E, 0x61, 0, 0xBE, 0, 0xA9, 0] ++ fill) := by
    rw [dataPacket, packet, List.length_append, List.length_append, hfill]
    rfl
  refine ⟨?_, ?_, ?_, rfl⟩
  · rw [hp]
    refine (nextPacket_packet_iff (by simp)).2 ?_
    rw [length_packet, List.length_append, hfill]
    decide
  · have hanswer : (answer p ⟨none, 0⟩).reply =
        (acceptConnect (0x0D :: 0x60 :: 0 :: 0xBE :: 0 :: 0xA8 :: 0 :: fill)).map dataPacket := rfl
    rw [hanswer, acceptConnect_of_empty, hr]
    rfl
  · rw [hr, length_dataPacket, List.length_append, hfill]
    rfl

/-- **An association request that fills its packet breaks the stream**: its answer cannot be read. -/
theorem repeated_connect_breaks :
    let fill : Bytes := List.replicate 65522 0
    let p : Bytes := [3, 0, 0xFF, 0xFF, 1, 0xF0, 0x0D, 0x60, 0, 0xBE, 0, 0xA8, 0] ++ fill
    let r : Bytes := [3, 0, 0, 0, 2, 0xF0, 0x80, 0x0E, 0x61, 0, 0xBE, 0, 0xA9, 0] ++ fill
    nextPacket p = .ok (some (p, [])) ∧ (answer p ⟨none, 0⟩).reply = some r ∧ r.length = 2 ^ 16 ∧
      nextPacket r = .error (.length 0) :=
  connect_breaks_of_length List.length_replicate

end Switchyard.Mms
