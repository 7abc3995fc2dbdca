import Mathlib.Data.Nat.Notation
import Mathlib.Tactic.Common
import Switchyard.Modbus.Frame

/-!
# Framing of a stream

A stream comes in pieces, and the pieces have nothing to do with its frames. Every
decision on the front of a buffer is final: once there is a frame or an error, no
byte that comes later changes it (`takeFrame_append`, `takeFrame_append_error`). So
what is read of a stream depends on its bytes alone and not on where it was cut
(`splitFrames_chunks`), and frames that are sent one after the other arrive as they
were sent (`frames_of_chunks`).

* `Split.receive`: one more piece of a stream.
* `takeFrame_encode`: the first frame of a stream of frames.
-/

namespace Switchyard.Modbus

/-- The next piece of a stream comes in. It is read together with what is left of the pieces before it; after
an error it is only kept. -/
def Split.receive (s : Split) (chunk : Bytes) : Split :=
  match s.error with
  | some _ => { s with rest := s.rest ++ chunk }
  | none =>
    let t := splitFrames (s.rest ++ chunk)
    { t with frames := s.frames ++ t.frames }

/-- What is read of a stream that comes in pieces. -/
def splitChunks (chunks : List Bytes) : Split := chunks.foldl Split.receive ⟨[], none, []⟩

section Buffers

variable {buffer rest : Bytes} {frame : Frame} {h : Header} {e : FrameError}

theorem Header.decode?_append (hh : decode? buffer = some h) (more : Bytes) : decode? (buffer ++ more) = some h := by
  unfold decode? at hh
  split at hh
  · cases hh
    rfl
  · cases hh

/-- **What a first frame takes**: a header of this protocol, a PDU that is not too long, and all of its bytes. -/
theorem takeFrame_eq_some : takeFrame buffer = .ok (some (frame, rest)) ↔
    Header.decode? buffer = some frame.header ∧ frame.header.protocol = 0 ∧
      frame.header.pduLength ≤ maxPduLength ∧ headerLength + frame.header.pduLength ≤ buffer.length ∧
      frame.pdu = (buffer.drop headerLength).take frame.header.pduLength ∧
      rest = (buffer.drop headerLength).drop frame.header.pduLength := by
  obtain ⟨header, pdu⟩ := frame
  unfold takeFrame
  cases hh : Header.decode? buffer with
  | none => simp
  | some h =>
    simp only [Option.some.injEq]
    -- The checks in their order: the protocol, the length that is announced, and whether all of it is there.
    by_cases hp : h.protocol = 0
    swap
    · rw [if_pos hp]
      constructor
      · intro hok; cases hok
      · rintro ⟨rfl, hp', -⟩; exact absurd hp' hp
    by_cases hl : h.pduLength ≤ maxPduLength
    swap
    · rw [if_neg (by simp [hp]), if_pos (by omega)]
      constructor
      · intro hok; cases hok
      · rintro ⟨rfl, -, hl', -⟩; exact absurd hl' hl
    by_cases hb : headerLength + h.pduLength ≤ buffer.length
    swap
    · rw [if_neg (by simp [hp]), if_neg (by omega), if_pos (by omega)]
      constructor
      · intro hok; cases hok
      · rintro ⟨rfl, -, -, hb', -⟩; exact absurd hb' hb
    rw [if_neg (by simp [hp]), if_neg (by omega), if_neg (by omega)]
    constructor
    · intro hok
      cases hok
      exact ⟨rfl, hp, hl, hb, rfl, rfl⟩
    · rintro ⟨rfl, -, -, -, rfl, rfl⟩
      rfl

/-- **What is wrong with a buffer**: its header, which is complete. -/
theorem takeFrame_eq_error : takeFrame buffer = .error e ↔
    ∃ h, Header.decode? buffer = some h ∧
      ((h.protocol ≠ 0 ∧ e = .protocol h.protocol) ∨
        (h.protocol = 0 ∧ maxPduLength < h.pduLength ∧ e = .length h.length)) := by
  unfold takeFrame
  cases hh : Header.decode? buffer with
  | none => simp
  | some h =>
    simp only [Option.some.injEq, exists_eq_left']
    by_cases hp : h.protocol = 0
    · by_cases hl : maxPduLength < h.pduLength
      · simp [hp, hl, eq_comm]
      · by_cases hb : buffer.length < headerLength + h.pduLength
        · simp [hp, hl, hb]
        · simp [hp, hl, hb]
    · simp [hp, eq_comm]

/-- A first frame stays the first one, whatever comes after it. -/
theorem takeFrame_append (hf : takeFrame buffer = .ok (some (frame, rest))) (more : Bytes) :
    takeFrame (buffer ++ more) = .ok (some (frame, rest ++ more)) := by
  obtain ⟨hh, hp, hl, hb, hpdu, hrest⟩ := takeFrame_eq_some.1 hf
  have hdrop : (buffer ++ more).drop headerLength = buffer.drop headerLength ++ more :=
    List.drop_append_of_le_length (by omega)
  have hlen : frame.header.pduLength ≤ (buffer.drop headerLength).length := by
    rw [List.length_drop]
    omega
  refine takeFrame_eq_some.2 ⟨Header.decode?_append hh more, hp, hl, ?_, ?_, ?_⟩
  · rw [List.length_append]
    omega
  · rw [hdrop, List.take_append_of_le_length hlen, hpdu]
  · rw [hdrop, List.drop_append_of_le_length hlen, hrest]

/-- An error stays that error, whatever comes after it. -/
theorem takeFrame_append_error (he : takeFrame buffer = .error e) (more : Bytes) :
    takeFrame (buffer ++ more) = .error e := by
  obtain ⟨h, hh, hwrong⟩ := takeFrame_eq_error.1 he
  exact takeFrame_eq_error.2 ⟨h, Header.decode?_append hh more, hwrong⟩

/-- A frame uses up its header at least. -/
theorem length_lt_of_takeFrame (hf : takeFrame buffer = .ok (some (frame, rest))) : rest.length < buffer.length := by
  obtain ⟨-, -, -, hb, -, hrest⟩ := takeFrame_eq_some.1 hf
  rw [hrest, List.length_drop, List.length_drop]
  rw [headerLength] at hb ⊢
  omega

theorem splitFrames_of_error (he : takeFrame buffer = .error e) : splitFrames buffer = ⟨[], some e, buffer⟩ := by
  rw [splitFrames, he]

theorem splitFrames_of_incomplete (hn : takeFrame buffer = .ok none) : splitFrames buffer = ⟨[], none, buffer⟩ := by
  rw [splitFrames, hn]

theorem splitFrames_of_frame (hf : takeFrame buffer = .ok (some (frame, rest))) :
    splitFrames buffer = ⟨frame :: (splitFrames rest).frames, (splitFrames rest).error, (splitFrames rest).rest⟩ := by
  rw [splitFrames, hf]
  simp only [if_pos (length_lt_of_takeFrame hf)]

/-- **A stream that is cut once.** -/
theorem splitFrames_append (front more : Bytes) : (splitFrames front).receive more = splitFrames (front ++ more) := by
  -- by induction on the frames of the first piece
  induction front using splitFrames.induct with
  | case1 front e hf =>
    rw [splitFrames_of_error hf, splitFrames_of_error (takeFrame_append_error hf more)]
    rfl
  | case2 front hf =>
    rw [splitFrames_of_incomplete hf]
    rfl
  | case3 front frame rest hf _ ih =>
    rw [splitFrames_of_frame hf, splitFrames_of_frame (takeFrame_append hf more), ← ih]
    unfold Split.receive
    cases (splitFrames rest).error with
    | some e => rfl
    | none => rfl
  | case4 front frame rest hf hlong => exact absurd (length_lt_of_takeFrame hf) hlong

/-- **What is read of a stream does not depend on where it is cut.** -/
theorem splitFrames_chunks (chunks : List Bytes) : splitChunks chunks = splitFrames chunks.flatten := by
  -- what has come in so far, in one piece
  have hsofar (front : Bytes) :
      chunks.foldl Split.receive (splitFrames front) = splitFrames (front ++ chunks.flatten) := by
    induction chunks generalizing front with
    | nil => rw [List.flatten_nil, List.append_nil]; rfl
    | cons chunk chunks ih =>
      rw [List.foldl_cons, splitFrames_append, ih, List.flatten_cons, List.append_assoc]
  have hnothing : splitFrames [] = ⟨[], none, []⟩ := splitFrames_of_incomplete rfl
  have hall := hsofar []
  rwa [hnothing] at hall

end Buffers

/-- A PDU with its addressing, short enough for a frame. -/
structure Adu where
  transaction : UInt16
  unit : UInt8
  pdu : Bytes
  fits : pdu.length ≤ maxPduLength

namespace Adu

def encode (a : Adu) : Bytes := encodeFrame a.transaction a.unit a.pdu

/-- The frame in which it is sent. -/
def frame (a : Adu) : Frame := ⟨⟨a.transaction, 0, (a.pdu.length + 1).toUInt16, a.unit⟩, a.pdu⟩

theorem pduLength_frame (a : Adu) : a.frame.header.pduLength = a.pdu.length := by
  have hfits := a.fits
  rw [maxPduLength] at hfits
  have hword : (a.pdu.length + 1).toUInt16.toNat = a.pdu.length + 1 := by
    show (a.pdu.length + 1) % 2 ^ 16 = a.pdu.length + 1
    omega
  show (a.pdu.length + 1).toUInt16.toNat - 1 = a.pdu.length
  rw [hword, Nat.add_sub_cancel]

end Adu

theorem Header.length_encode (h : Header) : h.encode.length = headerLength := rfl

theorem Header.decode?_encode (h : Header) (more : Bytes) : decode? (h.encode ++ more) = some h := by
  obtain ⟨transaction, protocol, length, unit⟩ := h
  show some (⟨Bytes.word _ _, Bytes.word _ _, Bytes.word _ _, unit⟩ : Header) = _
  rw [Bytes.word_ofWord, Bytes.word_ofWord, Bytes.word_ofWord]

theorem takeFrame_encode (a : Adu) (more : Bytes) : takeFrame (a.encode ++ more) = .ok (some (a.frame, more)) := by
  have hbytes : a.encode ++ more = a.frame.header.encode ++ (a.pdu ++ more) := by
    rw [Adu.encode, encodeFrame, List.append_assoc]
    rfl
  have hbody : (a.encode ++ more).drop headerLength = a.pdu ++ more := by
    rw [hbytes, ← a.frame.header.length_encode, List.drop_left]
  refine takeFrame_eq_some.2 ⟨?_, rfl, ?_, ?_, ?_, ?_⟩
  · rw [hbytes, Header.decode?_encode]
  · rw [a.pduLength_frame]
    exact a.fits
  · rw [hbytes, a.pduLength_frame, List.length_append, List.length_append, Header.length_encode]
    omega
  · rw [hbody, a.pduLength_frame, List.take_left]
    rfl
  · rw [hbody, a.pduLength_frame, List.drop_left]

/-- Frames that are sent one after the other are what is read. -/
theorem splitFrames_encode (adus : List Adu) :
    splitFrames (adus.flatMap Adu.encode) = ⟨adus.map Adu.frame, none, []⟩ := by
  induction adus with
  | nil => exact splitFrames_of_incomplete rfl
  | cons a adus ih =>
    rw [List.flatMap_cons, splitFrames_of_frame (takeFrame_encode a _), ih]
    rfl

/-- **Framing does not depend on how a stream is cut.** In whatever pieces a stream comes in, the frames that
are read, the error at which reading stops, if there is one, and the bytes that are left are those of the whole
stream. And a stream of frames gives just these frames, in any pieces, with nothing left over. -/
theorem frames_of_chunks (chunks : List Bytes) :
    splitChunks chunks = splitFrames chunks.flatten ∧
      ∀ adus : List Adu, chunks.flatten = adus.flatMap Adu.encode →
        splitChunks chunks = ⟨adus.map Adu.frame, none, []⟩ := by
  refine ⟨splitFrames_chunks chunks, fun adus hsent => ?_⟩
  rw [splitFrames_chunks, hsent, splitFrames_encode]

/-- Two frames, the first of which is cut within its header and the second one within its PDU. -/
theorem frames_of_three_chunks :
    let first : Adu := ⟨1, 7, [3, 0, 0, 0, 2], by decide⟩
    let second : Adu := ⟨2, 7, [], by decide⟩
    let chunks : List Bytes := [[0, 1, 0], [0, 0, 6, 7, 3, 0, 0], [0, 2, 0, 2, 0, 0, 0, 1, 7]]
    chunks.flatten = [first, second].flatMap Adu.encode ∧
      splitChunks chunks = ⟨[first.frame, second.frame], none, []⟩ := by
  intro first second chunks
  have hsent : chunks.flatten = [first, second].flatMap Adu.encode := by decide
  exact ⟨hsent, (frames_of_chunks chunks).2 [first, second] hsent⟩

end Switchyard.Modbus
