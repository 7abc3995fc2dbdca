import Switchyard.Bytes

/-!
# Tagged values

A tagged value is a tag of one byte, a length and the content. Lengths below 128 take one byte; longer
ones take a byte that counts the length bytes, and those bytes.
-/

namespace Switchyard.Mms

/-- The written form of a length; it counts modulo `2 ^ 16`. -/
def lengthBytes (n : Nat) : Bytes :=
  if n < 128 then [UInt8.ofNat n]
  else if n < 256 then [0x81, UInt8.ofNat n]
  else [0x82, UInt8.ofNat (n / 256), UInt8.ofNat n]

/-- A tag with content. -/
def tlv (tag : UInt8) (content : Bytes) : Bytes := tag :: (lengthBytes content.length ++ content)

/-- A tagged value at the front of some bytes. -/
structure Tlv where
  tag : UInt8
  content : Bytes
  rest : Bytes
  deriving DecidableEq, Repr

/-- The length at the front of some bytes, and what follows it. -/
def readLength : Bytes → Option (Nat × Bytes)
  | [] => none
  | first :: rest =>
    if first < 0x80 then some (first.toNat, rest)
    else if first = 0x81 then
      match rest with
      | n :: rest => some (n.toNat, rest)
      | [] => none
    else if first = 0x82 then
      match rest with
      | high :: low :: rest => some ((Bytes.word high low).toNat, rest)
      | _ => none
    else none

/-- The tagged value at the front of some bytes, if it is complete. -/
def takeTlv : Bytes → Option Tlv
  | [] => none
  | tag :: body =>
    match readLength body with
    | some (n, rest) => if n ≤ rest.length then some ⟨tag, rest.take n, rest.drop n⟩ else none
    | none => none

/-- Where a complete value with a given tag starts, at or after a position. -/
def indexOfTag (bytes : Bytes) (tag : UInt8) (start : Nat) : Option Nat :=
  (List.range' start (bytes.length - start)).find? fun i =>
    bytes[i]? == some tag && (takeTlv (bytes.drop i)).isSome

end Switchyard.Mms
