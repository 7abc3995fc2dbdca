import Switchyard.Bytes
import Switchyard.Modbus.Function

/-!
# Requests and responses

A PDU is a function code with its operands. `Request.encode` and `Request.decode` are the two
directions for requests, `Response.encode` and `Response.decode` those for responses. Bits are packed
eight to a byte, the first one in the highest bit; words are big-endian.
-/

namespace Switchyard.Modbus

/-- The most bits one request may read. -/
def bitLimit : UInt16 := 2000

/-- The most registers one request may read. -/
def registerLimit : UInt16 := 125

inductive Request where
  | read (function : Function) (address quantity : UInt16)
  | writeCoil (address : UInt16) (value : Bool)
  | writeRegister (address : UInt16) (value : UInt16)
  deriving DecidableEq, Repr

def Request.function : Request → Function
  | read f _ _ => f
  | writeCoil _ _ => .writeCoil
  | writeRegister _ _ => .writeRegister

def Request.address : Request → UInt16
  | read _ a _ | writeCoil a _ | writeRegister a _ => a

inductive Response where
  | bits (function : Function) (values : List Bool)
  | registers (function : Function) (values : List UInt16)
  | coilWritten (address : UInt16) (value : Bool)
  | registerWritten (address : UInt16) (value : UInt16)
  /-- A refusal of the function with the given byte. -/
  | exception (function : UInt8) (code : ExceptionCode)
  deriving DecidableEq, Repr

/-- The first byte of a response: the function code, with the high bit set in exceptions. -/
def Response.codeByte : Response → UInt8
  | bits f _ | registers f _ => f.code
  | coilWritten _ _ => Function.writeCoil.code
  | registerWritten _ _ => Function.writeRegister.code
  | exception function _ => function ||| 0x80

/-- What is wrong with a PDU. -/
inductive Fault where
  | empty
  | unsupported
  | malformed
  | quantity
  | coilValue
  deriving DecidableEq, Repr

def Fault.reason : Fault → String
  | empty => "empty PDU"
  | unsupported => "unsupported function"
  | malformed => "malformed PDU"
  | quantity => "quantity out of range"
  | coilValue => "coil value must be 0xFF00 or 0x0000"

/-- The exception that answers a fault. -/
def Fault.exception : Fault → ExceptionCode
  | empty | unsupported | malformed => .illegalFunction
  | quantity | coilValue => .illegalValue

/-- A PDU that could not be decoded: its function byte, 0 if it has none, and what is wrong. -/
structure DecodeError where
  function : UInt8
  fault : Fault
  deriving DecidableEq, Repr

namespace DecodeError

def exception (e : DecodeError) : ExceptionCode := e.fault.exception

/-- The response that answers the error. -/
def response (e : DecodeError) : Response := .exception e.function e.exception

def message (e : DecodeError) : String :=
  s!"function 0x{Bytes.hex [e.function]}: {e.fault.reason} -> {e.exception.display}"

end DecodeError

/-- The word that switches a coil. -/
def coilWord (b : Bool) : UInt16 := if b then 0xFF00 else 0

/-- The coil value of a word, if it is one of the two. -/
def coilOfWord? (w : UInt16) : Option Bool :=
  if w = 0xFF00 then some true else if w = 0 then some false else none

/-- The eight bits of a byte, the highest first. -/
def bitsOfByte (b : UInt8) : List Bool :=
  [b &&& 0x80 != 0, b &&& 0x40 != 0, b &&& 0x20 != 0, b &&& 0x10 != 0,
   b &&& 0x08 != 0, b &&& 0x04 != 0, b &&& 0x02 != 0, b &&& 0x01 != 0]

/-- The byte of up to eight bits, the first in the highest place; missing ones count as clear. -/
def byteOfBits (bits : List Bool) : UInt8 :=
  (bits.zip [0x80, 0x40, 0x20, 0x10, 0x08, 0x04, 0x02, 0x01]).foldl
    (fun (byte : UInt8) (b : Bool × UInt8) => if b.1 then byte ||| b.2 else byte) 0

/-- Packs bits into bytes. -/
def bytesOfBits : List Bool → Bytes
  | [] => []
  | b :: bits => byteOfBits ((b :: bits).take 8) :: bytesOfBits ((b :: bits).drop 8)
  termination_by bits => bits.length
  decreasing_by simp only [List.length_drop, List.length_cons]; omega

/-- The first `count` bits of packed bytes. -/
def bitsOfBytes (data : Bytes) (count : Nat) : List Bool := (data.flatMap bitsOfByte).take count

/-- A request and the range of quantities it may ask for. -/
def decodeRead (function : Function) (address quantity max : UInt16) : Except DecodeError Request :=
  if quantity = 0 ∨ max < quantity then .error ⟨function.code, .quantity⟩
  else .ok (.read function address quantity)

/-- A request from its function and its two operand words. -/
def decodeOperands (function : Function) (address operand : UInt16) : Except DecodeError Request :=
  match function with
  | .readCoils | .readDiscreteInputs => decodeRead function address operand bitLimit
  | .readHoldingRegisters | .readInputRegisters => decodeRead function address operand registerLimit
  | .writeCoil =>
    match coilOfWord? operand with
    | some b => .ok (.writeCoil address b)
    | none => .error ⟨function.code, .coilValue⟩
  | .writeRegister => .ok (.writeRegister address operand)

def Request.decode (pdu : Bytes) : Except DecodeError Request :=
  match pdu with
  | [] => .error ⟨0, .empty⟩
  | code :: body =>
    match Function.ofCode? code with
    | none => .error ⟨code, .unsupported⟩
    | some function =>
      match body with
      | [a, b, c, d] => decodeOperands function (Bytes.word a b) (Bytes.word c d)
      | _ => .error ⟨code, .malformed⟩

/-- The second operand word of a request. -/
def Request.operand : Request → UInt16
  | read _ _ quantity => quantity
  | writeCoil _ value => coilWord value
  | writeRegister _ value => value

def Request.encode (r : Request) : Bytes :=
  r.function.code :: (Bytes.ofWord r.address ++ Bytes.ofWord r.operand)

/-- Data with its length in front; the length counts modulo 256. -/
def counted (data : Bytes) : Bytes := data.length.toUInt8 :: data

def Response.body : Response → Bytes
  | bits _ values => counted (bytesOfBits values)
  | registers _ values => counted (values.flatMap Bytes.ofWord)
  | coilWritten address value => Bytes.ofWord address ++ Bytes.ofWord (coilWord value)
  | registerWritten address value => Bytes.ofWord address ++ Bytes.ofWord value
  | exception _ code => [code.code]

def Response.encode (r : Response) : Bytes := r.codeByte :: r.body

/-- The body of a response to a function, if it is well formed. A bit response is cut to the
quantity asked for. -/
def decodeBody (function : Function) (quantity : UInt16) (body : Bytes) : Option Response :=
  match function with
  | .readCoils | .readDiscreteInputs =>
    match body with
    | [] => none
    | count :: data =>
      if data.length = count.toNat ∧ quantity.toNat ≤ data.length * 8 then
        some (.bits function (bitsOfBytes data quantity.toNat))
      else none
  | .readHoldingRegisters | .readInputRegisters =>
    match body with
    | [] => none
    | count :: data =>
      if data.length = count.toNat ∧ count % 2 = 0 then some (.registers function (Bytes.words data)) else none
  | .writeCoil =>
    match body with
    | [a, b, c, d] => some (.coilWritten (Bytes.word a b) (Bytes.word c d = 0xFF00))
    | _ => none
  | .writeRegister =>
    match body with
    | [a, b, c, d] => some (.registerWritten (Bytes.word a b) (Bytes.word c d))
    | _ => none

/-- The response of a PDU that answers a request for `quantity` points. -/
def Response.decode (pdu : Bytes) (quantity : UInt16) : Except DecodeError Response :=
  match pdu with
  | [] => .error ⟨0, .empty⟩
  | code :: body =>
    if code &&& 0x80 ≠ 0 then
      match body.head?.bind ExceptionCode.ofCode? with
      | some e => .ok (.exception (code &&& 0x7F) e)
      | none => .error ⟨code, .malformed⟩
    else
      match Function.ofCode? code with
      | none => .error ⟨code, .unsupported⟩
      | some function =>
        match decodeBody function quantity body with
        | some r => .ok r
        | none => .error ⟨code, .malformed⟩

end Switchyard.Modbus
