import Mathlib.Data.Nat.Notation
import Mathlib.Tactic.Common
import Switchyard.Modbus.Pdu

/-!
# Packed data

What is packed into bytes comes out again: a word from its two bytes, and bits
from the bytes of eight that hold them, if the reader knows how many there were.

* `words_flatMap_ofWord`: words.
* `bitsOfByte_byteOfBits`: one byte of bits, the last places of which may be empty.
* `bitsOfBytes_bytesOfBits`: any number of bits.
* `length_bytesOfBits`, `length_flatMap_ofWord`: how many bytes that takes.
-/

namespace Switchyard

namespace Bytes

theorem words_flatMap_ofWord (ws : List UInt16) : words (ws.flatMap ofWord) = ws := by
  induction ws with
  | nil => rfl
  | cons w ws ih => rw [List.flatMap_cons, ofWord, List.cons_append, List.cons_append, List.nil_append, words,
      word_ofWord, ih]

theorem length_flatMap_ofWord (ws : List UInt16) : (ws.flatMap ofWord).length = 2 * ws.length := by
  induction ws with
  | nil => rfl
  | cons w ws ih => rw [List.flatMap_cons, List.length_append, ih, List.length_cons, ofWord]; simp; omega

end Bytes

namespace Modbus

theorem length_bitsOfByte (b : UInt8) : (bitsOfByte b).length = 8 := rfl

theorem foldl_zip_replicate_false (masks : List UInt8) (n : ℕ) (byte : UInt8) :
    ((List.replicate n false).zip masks).foldl
      (fun (byte : UInt8) (b : Bool × UInt8) => if b.1 then byte ||| b.2 else byte) byte = byte := by
  induction n generalizing masks with
  | zero => rfl
  | succ n ih =>
    cases masks with
    | nil => rfl
    | cons mask masks => exact ih masks

/-- Clear bits at the end of a byte make no difference to it. -/
theorem byteOfBits_append_replicate (bits : List Bool) (n : ℕ) :
    byteOfBits (bits ++ List.replicate n false) = byteOfBits bits := by
  -- bit by bit, whatever the places are that are left and the byte so far
  have hplaces (masks : List UInt8) (byte : UInt8) :
      ((bits ++ List.replicate n false).zip masks).foldl
        (fun (byte : UInt8) (b : Bool × UInt8) => if b.1 then byte ||| b.2 else byte) byte =
      (bits.zip masks).foldl
        (fun (byte : UInt8) (b : Bool × UInt8) => if b.1 then byte ||| b.2 else byte) byte := by
    induction bits generalizing masks byte with
    | nil => exact foldl_zip_replicate_false masks n byte
    | cons b bits ih =>
      cases masks with
      | nil => rfl
      | cons mask masks => exact ih masks _
  exact hplaces _ 0

theorem bitsOfByte_byteOfBits_eight : ∀ a b c d e f g h : Bool,
    bitsOfByte (byteOfBits [a, b, c, d, e, f, g, h]) = [a, b, c, d, e, f, g, h] := by
  decide

/-- **A byte gives back the bits in it.** -/
theorem bitsOfByte_byteOfBits {bits : List Bool} (h : bits.length ≤ 8) :
    (bitsOfByte (byteOfBits bits)).take bits.length = bits := by
  -- eight bits fill a byte; fewer ones count as filled up with clear bits
  have hfull (full : List Bool) (hlen : full.length = 8) : bitsOfByte (byteOfBits full) = full := by
    match full, hlen with
    | [a, b, c, d, e, f, g, h], _ => exact bitsOfByte_byteOfBits_eight a b c d e f g h
  rw [← byteOfBits_append_replicate bits (8 - bits.length), hfull _ (by simp; omega)]
  exact List.take_left

theorem bytesOfBits_cons (b : Bool) (bits : List Bool) :
    bytesOfBits (b :: bits) = byteOfBits ((b :: bits).take 8) :: bytesOfBits ((b :: bits).drop 8) := by
  rw [bytesOfBits]

theorem length_bytesOfBits (bits : List Bool) : (bytesOfBits bits).length = (bits.length + 7) / 8 := by
  induction bits using bytesOfBits.induct with
  | case1 => rw [bytesOfBits]; rfl
  | case2 b bits ih =>
    rw [bytesOfBits_cons, List.length_cons, ih, List.length_drop, List.length_cons]
    omega

/-- **Packed bits come out again**, without the bits that fill up the last byte. -/
theorem bitsOfBytes_bytesOfBits (bits : List Bool) : bitsOfBytes (bytesOfBits bits) bits.length = bits := by
  induction bits using bytesOfBits.induct with
  | case1 => rw [bytesOfBits]; rfl
  | case2 b bits ih =>
    have hlen : ((b :: bits).take 8).length = min 8 (b :: bits).length := List.length_take
    have hfirst : (bitsOfByte (byteOfBits ((b :: bits).take 8))).take (b :: bits).length = (b :: bits).take 8 := by
      have hle : ((b :: bits).take 8).length ≤ 8 := by omega
      have hbyte := bitsOfByte_byteOfBits hle
      -- a byte has no more than eight bits to take
      refine Eq.trans (List.take_eq_take_iff.2 ?_) hbyte
      rw [hlen, length_bitsOfByte]
      omega
    have hrest : bitsOfBytes (bytesOfBits ((b :: bits).drop 8)) ((b :: bits).length - 8) = (b :: bits).drop 8 := by
      rwa [List.length_drop] at ih
    calc bitsOfBytes (bytesOfBits (b :: bits)) (b :: bits).length
        = (bitsOfByte (byteOfBits ((b :: bits).take 8))).take (b :: bits).length ++
            bitsOfBytes (bytesOfBits ((b :: bits).drop 8)) ((b :: bits).length - 8) := by
          rw [bytesOfBits_cons, bitsOfBytes, List.flatMap_cons, List.take_append, length_bitsOfByte, bitsOfBytes]
      _ = b :: bits := by rw [hfirst, hrest, List.take_append_drop]

end Modbus
end Switchyard
