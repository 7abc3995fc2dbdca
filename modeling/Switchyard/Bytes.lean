/-!
# Bytes

Byte strings are lists of bytes. Words of 16 bits are written big-endian: the high byte first.
-/

namespace Switchyard

abbrev Bytes := List UInt8

namespace Bytes

/-- The two bytes of a word. -/
def ofWord (w : UInt16) : Bytes := [UInt8.ofNat (w.toNat / 256), UInt8.ofNat w.toNat]

/-- The word of two bytes. -/
def word (high low : UInt8) : UInt16 := UInt16.ofNat (256 * high.toNat + low.toNat)

theorem word_ofWord (w : UInt16) : word (UInt8.ofNat (w.toNat / 256)) (UInt8.ofNat w.toNat) = w := by
  have h := w.toNat_lt
  apply UInt16.toNat_inj.1
  simp only [word, UInt16.toNat_ofNat', UInt8.toNat_ofNat']
  omega

/-- The words of an even number of bytes. -/
def words : Bytes → List UInt16
  | high :: low :: rest => word high low :: words rest
  | _ => []

/-- The number that bytes stand for, the most significant one first. -/
def toNat (bs : Bytes) : Nat := bs.foldl (fun n b => 256 * n + b.toNat) 0

/-- Two lower-case hexadecimal digits a byte. -/
def hex (bs : Bytes) : String :=
  String.ofList (bs.flatMap fun b => [Nat.digitChar (b.toNat / 16), Nat.digitChar (b.toNat % 16)])

/-- The value of a hexadecimal digit, in either letter case. -/
def hexDigit? (c : Char) : Option Nat :=
  if c.isDigit then some (c.toNat - '0'.toNat)
  else if 'a' ≤ c ∧ c ≤ 'f' then some (c.toNat - 'a'.toNat + 10)
  else if 'A' ≤ c ∧ c ≤ 'F' then some (c.toNat - 'A'.toNat + 10)
  else none

/-- The bytes of pairs of hexadecimal digits. -/
def ofHexDigits? : List Char → Option Bytes
  | [] => some []
  | [_] => none
  | a :: b :: rest => do
    let high ← hexDigit? a
    let low ← hexDigit? b
    return UInt8.ofNat (16 * high + low) :: (← ofHexDigits? rest)

/-- The bytes of a text of hexadecimal digits. -/
def ofHex? (text : String) : Option Bytes := ofHexDigits? text.toList

end Bytes
end Switchyard
