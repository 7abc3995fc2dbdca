import Switchyard.Proofs.Mms.Answers

/-!
# Packets of a stream

A stream of packets comes in pieces of any size. The header at the front of a buffer
says all that is needed to take the first packet off, and it stays the same when more
bytes come in behind it. So whether a buffer starts with a packet, and with which one,
or is no stream of packets at all, is never taken back (`nextPacket_append`,
`nextPacket_append_error`), and what is read of a stream depends on its bytes alone
(`splitPackets_chunks`). No byte gets lost on the way, and transport units that fit
into packets, and no others, arrive as they were sent (`packets_of_chunks`).

* `announced`: the header of a buffer.
* `Split.receive`, `splitChunks`: a stream that comes in piece by piece.
-/

namespace Switchyard.Mms

/-- The next piece of a stream comes in. It is read together with what is left of the pieces before it; after
an error it is only kept. -/
def Split.receive (s : Split) (chunk : Bytes) : Split :=
  match s.error with
  | some _ => { s with rest := s.rest ++ chunk }
  | none =>
    let t := splitPackets (s.rest ++ chunk)
    { t with packets := s.packets ++ t.packets }

/-- What is read of a stream that comes in pieces. -/
def splitChunks (chunks : List Bytes) : Split := chunks.foldl Split.receive ⟨[], none, []⟩

variable {buffer p rest : Bytes} {e : PacketError}

/-- The version and the length that the header of a buffer announces, once it is complete. -/
def announced : Bytes → Option (UInt8 × UInt16)
  | version :: _ :: high :: low :: _ => some (version, Bytes.word high low)
  | _ => none

theorem announced_append {header : UInt8 × UInt16} (h : announced buffer = some header) (more : Bytes) :
    announced (buffer ++ more) = some header := by
  unfold announced at h
  split at h
  · cases h
    rfl
  · cases h

/-- **The header decides** what the front of a buffer is. -/
theorem nextPacket_eq (buffer : Bytes) : nextPacket buffer =
    match announced buffer with
    | none => .ok none
    | some (version, length) =>
      if version ≠ 3 then .error (.version version)
      else if length.toNat < packetHeaderLength + 2 then .error (.length length)
      else if buffer.length < length.toNat then .ok none
      else .ok (some (buffer.take length.toNat, buffer.drop length.toNat)) := by
  match buffer with
  | [] | [_] | [_, _] | [_, _, _] => rfl
  | _ :: _ :: _ :: _ :: _ => rfl

/-- **What a first packet takes**: this version, a length that leaves room for a unit, and all of its bytes. -/
theorem nextPacket_eq_some : nextPacket buffer = .ok (some (p, rest)) ↔
    ∃ length, announced buffer = some (3, length) ∧ packetHeaderLength + 2 ≤ length.toNat ∧
      p.length = length.toNat ∧ p ++ rest = buffer := by
  rw [nextPacket_eq]
  constructor
  · intro h
    split at h
    · cases h
    -- The checks in their order: the version, the length that is announced, and whether all of it is there.
    · rename_i version length hheader
      split at h
      · cases h
      rename_i hversion
      split at h
      · cases h
      rename_i hroom
      split at h
      · cases h
      rename_i hcomplete
      cases h
      have hversion : version = 3 := not_not.1 hversion
      refine ⟨length, by rw [hheader, hversion], Nat.le_of_not_lt hroom, ?_, List.take_append_drop _ _⟩
      rw [List.length_take]
      omega
  · rintro ⟨length, hheader, hroom, hp, rfl⟩
    have hcomplete : ¬ (p ++ rest).length < length.toNat := by
      rw [List.length_append]
      omega
    rw [hheader]
    simp only [ne_eq, not_true_eq_false, if_false, if_neg (Nat.not_lt.2 hroom), if_neg hcomplete]
    rw [← hp, List.take_left, List.drop_left]

/-- **What is wrong with a buffer**: its header, which is complete. -/
theorem nextPacket_eq_error : nextPacket buffer = .error e ↔
    ∃ version length, announced buffer = some (version, length) ∧
      ((version ≠ 3 ∧ e = .version version) ∨
        (version = 3 ∧ length.toNat < packetHeaderLength + 2 ∧ e = .length length)) := by
  rw [nextPacket_eq]
  cases announced buffer with
  | none => simp
  | some header =>
    obtain ⟨version, length⟩ := header
    simp only [Option.some.injEq, Prod.mk.injEq]
    by_cases hversion : version = 3
    · by_cases hroom : length.toNat < packetHeaderLength + 2
      · simp [hversion, hroom, eq_comm]
      · by_cases hcomplete : buffer.length < length.toNat
        · simp [hversion, hroom, hcomplete]
        · simp [hversion, hroom, hcomplete]
    · simp [hversion, eq_comm]

/-- A first packet stays the first one, whatever comes after it. -/
theorem nextPacket_append (hp : nextPacket buffer = .ok (some (p, rest))) (more : Bytes) :
    nextPacket (buffer ++ more) = .ok (some (p, rest ++ more)) := by
  obtain ⟨length, hheader, hroom, hlen, hbuffer⟩ := nextPacket_eq_some.1 hp
  refine nextPacket_eq_some.2 ⟨length, announced_append hheader more, hroom, hlen, ?_⟩
  rw [← List.append_assoc, hbuffer]

/-- An error stays that error, whatever comes after it. -/
theorem nextPacket_append_error (he : nextPacket buffer = .error e) (more : Bytes) :
    nextPacket (buffer ++ more) = .error e := by
  obtain ⟨version, length, hheader, hwrong⟩ := nextPacket_eq_error.1 he
  exact nextPacket_eq_error.2 ⟨version, length, announced_append hheader more, hwrong⟩

/-- A packet uses up its header at least. -/
theorem length_lt_of_nextPacket (hp : nextPacket buffer = .ok (some (p, rest))) : rest.length < buffer.length := by
  obtain ⟨length, -, hroom, hlen, rfl⟩ := nextPacket_eq_some.1 hp
  rw [packetHeaderLength] at hroom
  rw [List.length_append]
  omega

theorem splitPackets_of_error (he : nextPacket buffer = .error e) : splitPackets buffer = ⟨[], some e, buffer⟩ := by
  rw [splitPackets, he]

theorem splitPackets_of_incomplete (hn : nextPacket buffer = .ok none) : splitPackets buffer = ⟨[], none, buffer⟩ := by
  rw [splitPackets, hn]

theorem splitPackets_of_packet (hp : nextPacket buffer = .ok (some (p, rest))) : splitPackets buffer =
    ⟨p :: (splitPackets rest).packets, (splitPackets rest).error, (splitPackets rest).rest⟩ := by
  rw [splitPackets, hp]
  simp only [if_pos (length_lt_of_nextPacket hp)]

/-- **A stream that is cut once.** -/
theorem splitPackets_append (front more : Bytes) :
    (splitPackets front).receive more = splitPackets (front ++ more) := by
  -- by induction on the packets of the first piece
  induction front using splitPackets.induct with
  | case1 front e he =>
    rw [splitPackets_of_error he, splitPackets_of_error (nextPacket_append_error he more)]
    rfl
  | case2 front hn =>
    rw [splitPackets_of_incomplete hn]
    rfl
  | case3 front p rest hp _ ih =>
    rw [splitPackets_of_packet hp, splitPackets_of_packet (nextPacket_append hp more), ← ih]
    unfold Split.receive
    -- an error in the rest of the first piece is one of all of it
    cases (splitPackets rest).error with
    | some e => rfl
    | none => rfl
  | case4 front p rest hp hlong => exact absurd (length_lt_of_nextPacket hp) hlong

/-- **What is read of a stream does not depend on where it is cut.** -/
theorem splitPackets_chunks (chunks : List Bytes) : splitChunks chunks = splitPackets chunks.flatten := by
  -- what has come in so far, in one piece
  have hsofar : ∀ front : Bytes,
      chunks.foldl Split.receive (splitPackets front) = splitPackets (front ++ chunks.flatten) := by
    induction chunks with
    | nil =>
      intro front
      rw [List.flatten_nil, List.append_nil]
      rfl
    | cons chunk chunks ih =>
      intro front
      rw [List.foldl_cons, splitPackets_append, ih, List.flatten_cons, List.append_assoc]
  have hnothing : splitPackets [] = ⟨[], none, []⟩ := splitPackets_of_incomplete rfl
  have hall := hsofar []
  rwa [hnothing] at hall

/-- **No byte is lost or moved**: the packets and the bytes that are left make up the stream. -/
theorem flatten_splitPackets (buffer : Bytes) :
    (splitPackets buffer).packets.flatten ++ (splitPackets buffer).rest = buffer := by
  induction buffer using splitPackets.induct with
  | case1 buffer e he => rw [splitPackets_of_error he, List.flatten_nil, List.nil_append]
  | case2 buffer hn => rw [splitPackets_of_incomplete hn, List.flatten_nil, List.nil_append]
  | case3 buffer p rest hp _ ih =>
    obtain ⟨length, -, -, -, hbuffer⟩ := nextPacket_eq_some.1 hp
    rw [splitPackets_of_packet hp]
    calc (p :: (splitPackets rest).packets).flatten ++ (splitPackets rest).rest
        = p ++ ((splitPackets rest).packets.flatten ++ (splitPackets rest).rest) := by
          rw [List.flatten_cons, List.append_assoc]
      _ = p ++ rest := by rw [ih]
      _ = buffer := hbuffer
  | case4 buffer p rest hp hlong => exact absurd (length_lt_of_nextPacket hp) hlong

/-- The length of a packet is what its header announces, so it fits in a word. -/
theorem length_of_mem_splitPackets (hp : p ∈ (splitPackets buffer).packets) :
    packetHeaderLength + 2 ≤ p.length ∧ p.length < 2 ^ 16 := by
  induction buffer using splitPackets.induct with
  | case1 buffer e he =>
    rw [splitPackets_of_error he] at hp
    cases hp
  | case2 buffer hn =>
    rw [splitPackets_of_incomplete hn] at hp
    cases hp
  | case3 buffer first rest hfirst _ ih =>
    rw [splitPackets_of_packet hfirst] at hp
    rcases List.mem_cons.1 hp with rfl | hp
    · obtain ⟨length, -, hroom, hlen, -⟩ := nextPacket_eq_some.1 hfirst
      exact ⟨hlen ▸ hroom, hlen ▸ length.toNat_lt⟩
    · exact ih hp
  | case4 buffer first rest hfirst hlong => exact absurd (length_lt_of_nextPacket hfirst) hlong

/-- A unit that makes up a packet: it has a header of its own, and its length with that of the packet's header
fits in a word. -/
def Fits (unit : Bytes) : Prop := 2 ≤ unit.length ∧ unit.length ≤ 65531

theorem fits_iff {unit : Bytes} :
    Fits unit ↔ packetHeaderLength + 2 ≤ (packet unit).length ∧ (packet unit).length < 2 ^ 16 := by
  rw [Fits, length_packet, packetHeaderLength]
  omega

theorem nextPacket_packet {unit : Bytes} (hfits : Fits unit) (more : Bytes) :
    nextPacket (packet unit ++ more) = .ok (some (packet unit, more)) := by
  have halone := (nextPacket_packet_iff hfits.1).2 (fits_iff.1 hfits).2
  exact nextPacket_append halone more

/-- Units that fit are read as they were sent, one after the other. -/
theorem splitPackets_packets {units : List Bytes} (hfits : ∀ unit ∈ units, Fits unit) :
    splitPackets (units.flatMap packet) = ⟨units.map packet, none, []⟩ := by
  induction units with
  | nil => exact splitPackets_of_incomplete rfl
  | cons unit units ih =>
    obtain ⟨hunit, hunits⟩ := List.forall_mem_cons.1 hfits
    rw [List.flatMap_cons, splitPackets_of_packet (nextPacket_packet hunit _), ih hunits]
    rfl

/-- **Packets do not depend on how a stream is cut.** In whatever pieces a stream comes in, the packets that are
read, the error at which reading stops, if there is one, and the bytes that are left are those of the whole stream,
and together they are the stream. A stream of transport units, each in its packet, gives just these packets with
nothing left over, in any pieces, exactly if each of the units has from 2 to 65531 bytes. -/
theorem packets_of_chunks (chunks : List Bytes) :
    splitChunks chunks = splitPackets chunks.flatten ∧
      (splitChunks chunks).packets.flatten ++ (splitChunks chunks).rest = chunks.flatten ∧
      ∀ units : List Bytes, chunks.flatten = units.flatMap packet →
        (splitChunks chunks = ⟨units.map packet, none, []⟩ ↔
          ∀ unit ∈ units, 2 ≤ unit.length ∧ unit.length ≤ 65531) := by
  have hwhole := splitPackets_chunks chunks
  rw [hwhole]
  refine ⟨rfl, flatten_splitPackets _, ?_⟩
  intro units hsent
  rw [hsent]
  constructor
  · intro hread unit hunit
    have hmem : packet unit ∈ (splitPackets (units.flatMap packet)).packets := by
      rw [hread]
      exact List.mem_map_of_mem hunit
    exact fits_iff.2 (length_of_mem_splitPackets hmem)
  · intro hfits
    exact splitPackets_packets hfits

/-- Two packets, the first of which is cut within its header and the second one within its unit. -/
theorem packets_of_three_chunks :
    let first : Bytes := [2, 0xF0, 0x80]
    let second : Bytes := [1, 0xF0]
    let chunks : List Bytes := [[3, 0, 0], [7, 2, 0xF0, 0x80, 3, 0, 0, 6, 1], [0xF0]]
    chunks.flatten = [first, second].flatMap packet ∧
      (∀ unit ∈ [first, second], 2 ≤ unit.length ∧ unit.length ≤ 65531) ∧
      splitChunks chunks = ⟨[packet first, packet second], none, []⟩ := by
  intro first second chunks
  have hsent : chunks.flatten = [first, second].flatMap packet := by decide
  have hfits : ∀ unit ∈ [first, second], 2 ≤ unit.length ∧ unit.length ≤ 65531 := by decide
  exact ⟨hsent, hfits, ((packets_of_chunks chunks).2.2 [first, second] hsent).2 hfits⟩

end Switchyard.Mms
