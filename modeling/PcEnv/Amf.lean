import PcEnv.Bytes
import PcEnv.OrderedMap

/-! `amf.cc` of the RTMP server: values in the Action Message Format. -/
namespace PcEnv
namespace Amf

open Bytes

def amf0Number : UInt8 := 0
def amf0Boolean : UInt8 := 1
def amf0String : UInt8 := 2
def amf0Object : UInt8 := 3
def amf0Null : UInt8 := 5
def amf0Undefined : UInt8 := 6
def amf0EcmaArray : UInt8 := 8
def amf0ObjectEnd : UInt8 := 9
def amf0SwitchAmf3 : UInt8 := 17

def amf3Undefined : UInt8 := 0
def amf3Null : UInt8 := 1
def amf3False : UInt8 := 2
def amf3True : UInt8 := 3
def amf3Integer : UInt8 := 4
def amf3Number : UInt8 := 5
def amf3String : UInt8 := 6
def amf3Array : UInt8 := 9
def amf3Object : UInt8 := 10

/-- How a call ends but by returning: it throws, or an `assert` or a `SIGPIPE` ends the process.
`fuel` stands for a call that has not ended when the fuel is used up. -/
inductive Exn
  | runtimeError (what : String)
  | abort
  | killed
  | fuel
  deriving DecidableEq, Repr

def notEnough : Exn := .runtimeError "Not enough data"

def hex (b : UInt8) : String :=
  String.ofList [Nat.digitChar (b.toNat/16),Nat.digitChar (b.toNat % 16)]

/-- A `double` is kept as its 64 bits. -/
inductive AMFValue
  | string (s : List UInt8)
  | number (n : UInt64)
  | integer (i : ℤ)
  | boolean (b : Bool)
  | object (o : List (List UInt8 × AMFValue))
  | ecmaArray (o : List (List UInt8 × AMFValue))
  | null
  | undefined

/-- `amf_object_t`, in the order of its keys. -/
abbrev AmfObject := List (List UInt8 × AMFValue)

structure Decoder where
  buf : List UInt8
  pos : ℕ
  version : ℕ
  deriving DecidableEq, Repr

namespace Decoder

def rest (dec : Decoder) : List UInt8 := dec.buf.drop dec.pos

def advance (dec : Decoder) (n : ℕ) : Decoder := { dec with pos := dec.pos+n }

end Decoder

def peek (dec : Decoder) : Except Exn UInt8 :=
  match dec.rest with
  | [] => .error notEnough
  | b::_ => .ok b

def getByte (dec : Decoder) : Except Exn (UInt8 × Decoder) := do
  let dec ←
    if dec.version = 0 then do
      let b ← peek dec
      if b = amf0SwitchAmf3 then .ok { dec with pos := dec.pos+1, version := 3 } else .ok dec
    else .ok dec
  let b ← peek dec
  .ok (b,dec.advance 1)

def getChars (n : ℕ) (dec : Decoder) : Except Exn (List UInt8 × Decoder) :=
  if dec.pos+n > dec.buf.length then .error notEnough
  else .ok (dec.rest.take n,dec.advance n)

def amf3Loop : ℕ → ℕ → Decoder → Except Exn (ℕ × Decoder)
  | 0, value, dec => .ok (value,dec)
  | n+1, value, dec => do
    let (b,dec) ← getByte dec
    if n = 0 then .ok (256*value+b.toNat,dec)
    else
      let value := 128*value+b.toNat % 128
      if b.toNat < 128 then .ok (value,dec) else amf3Loop n value dec

def loadAmf3Integer (dec : Decoder) : Except Exn (ℕ × Decoder) := amf3Loop 4 0 dec

/-- A string behind its length in two bytes. -/
def amfLoadKey (dec : Decoder) : Except Exn (List UInt8 × Decoder) :=
  if dec.pos+2 > dec.buf.length then .error notEnough
  else getChars (ofBe (dec.rest.take 2)) (dec.advance 2)

def amfLoadString (dec : Decoder) : Except Exn (List UInt8 × Decoder) := do
  let (type,dec) ← getByte dec
  if dec.version = 3 then
    if type ≠ amf3String then .error (.runtimeError "Expected a string")
    else do
      let (n,dec) ← loadAmf3Integer dec
      getChars (n/2) dec
  else if type ≠ amf0String then .error (.runtimeError "Expected a string")
  else amfLoadKey dec

def getDouble (dec : Decoder) : Except Exn (UInt64 × Decoder) :=
  if dec.pos+8 > dec.buf.length then .error notEnough
  else
    .ok (UInt64.ofNat (2^32*ofBe (dec.rest.take 4)+ofBe ((dec.rest.drop 4).take 4)),
      dec.advance 8)

def amfLoadNumber (dec : Decoder) : Except Exn (UInt64 × Decoder) := do
  let (type,dec) ← getByte dec
  if type ≠ amf0Number then .error (.runtimeError "Expected a string")
  else getDouble dec

def amfLoadBoolean (dec : Decoder) : Except Exn (Bool × Decoder) := do
  let (type,dec) ← getByte dec
  if type ≠ amf0Boolean then .error (.runtimeError "Expected a boolean")
  else do
    let (b,dec) ← getByte dec
    .ok (decide (b ≠ 0),dec)

def loadEntries (load : Decoder → Except Exn (AMFValue × Decoder)) :
    ℕ → AmfObject → Decoder → Except Exn (AmfObject × Decoder)
  | 0, _, _ => .error .fuel
  | fuel+1, object, dec => do
    let (key,dec) ← amfLoadKey dec
    if key = [] then .ok (object,dec)
    else do
      let (value,dec) ← load dec
      loadEntries load fuel (OrderedMap.insert key value object) dec

def loadMembers (load : Decoder → Except Exn (AMFValue × Decoder)) (fuel : ℕ) (dec : Decoder) :
    Except Exn (AmfObject × Decoder) := do
  let (object,dec) ← loadEntries load fuel [] dec
  let (type,dec) ← getByte dec
  if type ≠ amf0ObjectEnd then .error (.runtimeError "expected object end")
  else .ok (object,dec)

def loadObjectWith (load : Decoder → Except Exn (AMFValue × Decoder)) (fuel : ℕ) (dec : Decoder) :
    Except Exn (AmfObject × Decoder) := do
  let (type,dec) ← getByte dec
  if type ≠ amf0Object then .error (.runtimeError "Expected an object")
  else loadMembers load fuel dec

/-- The four bytes of a count are skipped. -/
def loadEcmaWith (load : Decoder → Except Exn (AMFValue × Decoder)) (fuel : ℕ) (dec : Decoder) :
    Except Exn (AmfObject × Decoder) := do
  let (type,dec) ← getByte dec
  if type ≠ amf0EcmaArray then .error (.runtimeError "Expected an ECMA array")
  else if dec.pos+4 > dec.buf.length then .error notEnough
  else loadMembers load fuel (dec.advance 4)

def amfLoad : ℕ → Decoder → Except Exn (AMFValue × Decoder)
  | 0, _ => .error .fuel
  | fuel+1, dec => do
    let type ← peek dec
    if dec.version = 3 then
      if type = amf3String then (amfLoadString dec).map (Prod.map .string id)
      else if type = amf3Number then (amfLoadNumber dec).map (Prod.map .number id)
      else if type = amf3Integer then
        (loadAmf3Integer dec).map (Prod.map (fun n : ℕ => .integer n) id)
      else if type = amf3False then .ok (.boolean false,dec.advance 1)
      else if type = amf3True then .ok (.boolean true,dec.advance 1)
      else if type = amf3Object then
        (loadObjectWith (amfLoad fuel) fuel dec).map (Prod.map .object id)
      else if type = amf3Array then
        (loadEcmaWith (amfLoad fuel) fuel dec).map (Prod.map .object id)
      else if type = amf3Null then .ok (.null,dec.advance 1)
      else if type = amf3Undefined then .ok (.undefined,dec.advance 1)
      else .error (.runtimeError ("Unsupported AMF3 type: "++hex type))
    else if type = amf0String then (amfLoadString dec).map (Prod.map .string id)
    else if type = amf0Number then (amfLoadNumber dec).map (Prod.map .number id)
    else if type = amf0Boolean then (amfLoadBoolean dec).map (Prod.map .boolean id)
    else if type = amf0Object then
      (loadObjectWith (amfLoad fuel) fuel dec).map (Prod.map .object id)
    else if type = amf0EcmaArray then
      (loadEcmaWith (amfLoad fuel) fuel dec).map (Prod.map .object id)
    else if type = amf0Null then .ok (.null,dec.advance 1)
    else if type = amf0Undefined then .ok (.undefined,dec.advance 1)
    else .error (.runtimeError ("Unsupported AMF0 type: "++hex type))

def amfLoadObject (fuel : ℕ) (dec : Decoder) : Except Exn (AmfObject × Decoder) :=
  loadObjectWith (amfLoad fuel) fuel dec

def amfLoadEcma (fuel : ℕ) (dec : Decoder) : Except Exn (AmfObject × Decoder) :=
  loadEcmaWith (amfLoad fuel) fuel dec

def amfWriteKey (s : List UInt8) : List UInt8 := toBe 2 s.length++s

def amfWriteString (s : List UInt8) : List UInt8 := amf0String::amfWriteKey s

def amfWriteNumber (n : UInt64) : List UInt8 :=
  amf0Number::(toBe 4 (n.toNat/2^32)++toBe 4 n.toNat)

def amfWriteBoolean (b : Bool) : List UInt8 := [amf0Boolean,if b then 1 else 0]

def amfWriteNull : List UInt8 := [amf0Null]

def doubleOf (i : ℤ) : UInt64 :=
  if i = 0 then 0
  else
    let e := Nat.log2 i.natAbs
    UInt64.ofNat ((if i < 0 then 2^63 else 0)+2^52*(1023+e)+(i.natAbs*2^(52-e)-2^52))

/-- `as_object` asserts that the type is `AMF_OBJECT`; no case writes an undefined value. -/
def amfWrite : AMFValue → Except Exn (List UInt8)
  | .string s => .ok (amfWriteString s)
  | .number n => .ok (amfWriteNumber n)
  | .integer i => .ok (amfWriteNumber (doubleOf i))
  | .boolean b => .ok (amfWriteBoolean b)
  | .object o => do
    let entries ← writeEntries o
    .ok (amf0Object::(entries++amfWriteKey []++[amf0ObjectEnd]))
  | .ecmaArray _ => .error .abort
  | .null => .ok amfWriteNull
  | .undefined => .ok []
where
  writeEntries : AmfObject → Except Exn (List UInt8)
    | [] => .ok []
    | (key,value)::o => do
      let w ← amfWrite value
      let ws ← writeEntries o
      .ok (amfWriteKey key++w++ws)

def amfWriteObject (o : AmfObject) : Except Exn (List UInt8) := amfWrite (.object o)

def amfWriteEcma (o : AmfObject) : Except Exn (List UInt8) := do
  let entries ← amfWrite.writeEntries o
  .ok (amf0EcmaArray::(toBe 4 0++entries++amfWriteKey []++[amf0ObjectEnd]))

end Amf
end PcEnv
