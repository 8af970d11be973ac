import PcEnv.Amf
import PcEnv.Incremental

/-! The chunk layer of the RTMP server: what `recv_from_client` makes of a connection's bytes and
what `rtmp_send` puts into its queue. -/
namespace PcEnv
namespace Rtmp

open Bytes Incremental
open Amf (Exn notEnough)

def defaultChunkLen : ℕ := 128

def msgSetChunk : UInt8 := 0x01
def msgBytesRead : UInt8 := 0x03
def msgUserControl : UInt8 := 0x04
def msgAudio : UInt8 := 0x08
def msgVideo : UInt8 := 0x09
def msgInvoke3 : UInt8 := 0x11
def msgNotify : UInt8 := 0x12
def msgInvoke : UInt8 := 0x14
def msgFlashVideo : UInt8 := 0x16

def controlId : UInt32 := 0
def streamId : UInt32 := 1337

abbrev Channel := Fin 64

def chanControl : Channel := 2
def chanResult : Channel := 3
def chanStream : Channel := 4

structure RTMPMessage where
  type : UInt8
  len : ℕ
  timestamp : UInt64
  endpoint : UInt32
  buf : List UInt8
  deriving DecidableEq, Repr

abbrev Messages := Channel → RTMPMessage

/-- `HEADER_LENGTH[flags >> 6]`. -/
def headerLen (flags : UInt8) : ℕ :=
  match flags.toNat/64 with
  | 0 => 12
  | 1 => 8
  | 2 => 4
  | _ => 1

def channel (flags : UInt8) : Channel := ⟨flags.toNat % 64,Nat.mod_lt _ (by decide)⟩

def loadLe32 (bytes : List UInt8) : UInt32 := UInt32.ofNat (ofBe bytes.reverse)

structure RTMPHeader where
  timestamp : ℕ
  msgLen : ℕ
  msgType : UInt8
  endpoint : UInt32

/-- Fields beyond the bytes are not looked at. -/
def RTMPHeader.ofBytes (bytes : List UInt8) : RTMPHeader where
  timestamp := ofBe ((bytes.drop 1).take 3)
  msgLen := ofBe ((bytes.drop 4).take 3)
  msgType := (bytes.drop 7).headD 0
  endpoint := loadLe32 ((bytes.drop 8).take 4)

/-- Length, type and endpoint are taken over before the bytes of the chunk are there. -/
def loadHeader (header : RTMPHeader) (hlen : ℕ) (msg : RTMPMessage) : Except Exn RTMPMessage :=
  if 8 ≤ hlen then
    if header.msgLen < msg.buf.length then .error (.runtimeError "invalid msg length")
    else
      .ok { msg with
        len := header.msgLen
        type := header.msgType
        endpoint := if 12 ≤ hlen then header.endpoint else msg.endpoint }
  else .ok msg

def loadTimestamp (header : RTMPHeader) (hlen : ℕ) (msg : RTMPMessage) : Except Exn UInt64 :=
  if 4 ≤ hlen then
    if header.timestamp = 0xffffff then .error (.runtimeError "ext timestamp not supported")
    else
      .ok (UInt64.ofNat header.timestamp+if hlen < 12 then msg.timestamp else 0)
  else .ok msg.timestamp

def headLen (buf : List UInt8) : ℕ := headerLen (buf.headD 0)

def header (buf : List UInt8) : RTMPHeader := .ofBytes (buf.take (headLen buf))

def readBody (chunkLen : ℕ) (msg : RTMPMessage) (buf : List UInt8) : Turn RTMPMessage Exn :=
  if msg.len = 0 then .fail msg (.runtimeError "message without a header")
  else
    let chunk := min (msg.len-msg.buf.length) chunkLen
    if buf.length < headLen buf+chunk then .more msg
    else
      match loadTimestamp (header buf) (headLen buf) msg with
      | .error e => .fail msg e
      | .ok ts =>
        .took { msg with timestamp := ts, buf := msg.buf++(buf.drop (headLen buf)).take chunk }
          (headLen buf+chunk)

def readChunk (chunkLen : ℕ) (msg : RTMPMessage) (buf : List UInt8) : Turn RTMPMessage Exn :=
  if buf.length < headLen buf then .more msg
  else
    match loadHeader (header buf) (headLen buf) msg with
    | .error e => .fail msg e
    | .ok msg => readBody chunkLen msg buf

section

variable {ρ : Type} (chunkLen : ρ → ℕ) (handle : Channel → RTMPMessage → ρ → Except Exn Unit × ρ)

/-- One round of the loop of `recv_from_client`, with `handle_message` as a parameter. -/
def recvTurn (s : Messages × ρ) (buf : List UInt8) : Turn (Messages × ρ) Exn :=
  if buf = [] then .more s
  else
    let i := channel (buf.headD 0)
    match readChunk (chunkLen s.2) (s.1 i) buf with
    | .more msg => .more (Function.update s.1 i msg,s.2)
    | .fail msg e => .fail (Function.update s.1 i msg,s.2) e
    | .took msg n =>
      if msg.buf.length = msg.len then
        match handle i msg s.2 with
        | (.ok _,r) => .took (Function.update s.1 i { msg with buf := [] },r) n
        | (.error e,r) => .fail (Function.update s.1 i msg,r) e
      else .took (Function.update s.1 i msg,s.2) n

end

/-- The flags of a chunk with the whole header, and of one without. -/
def firstFlags (i : Channel) : UInt8 := UInt8.ofNat i.val

def nextFlags (i : Channel) : UInt8 := UInt8.ofNat (i.val+192)

def headerBytes (type : UInt8) (endpoint : UInt32) (len : ℕ) (timestamp : UInt64) (i : Channel) :
    List UInt8 :=
  firstFlags i::(toBe 3 timestamp.toNat++toBe 3 len++[type]++(toBe 4 endpoint.toNat).reverse)

/-- The loop of `rtmp_send` on `send_queue` and `written_seq`. -/
def sendChunks (chunkLen : ℕ) (i : Channel) (buf : List UInt8) :
    ℕ → ℕ → List UInt8 × UInt32 → Except Exn (List UInt8 × UInt32)
  | 0, _, _ => .error .fuel
  | fuel+1, pos, (queue,seq) =>
    if pos < buf.length then
      let (queue,seq) := if pos ≠ 0 then (queue++[nextFlags i],seq+1) else (queue,seq)
      let chunk := min (buf.length-pos) chunkLen
      sendChunks chunkLen i buf fuel (pos+chunk)
        (queue++(buf.drop pos).take chunk,seq+UInt32.ofNat chunk)
    else .ok (queue,seq)

def sendChannel (endpoint : UInt32) (i : Channel) : Channel :=
  if endpoint = streamId then chanStream else i

/-- `rtmp_send` as far as its call of `try_to_send`. -/
def rtmpQueue (chunkLen : ℕ) (type : UInt8) (endpoint : UInt32) (buf : List UInt8)
    (timestamp : UInt64) (i : Channel) (q : List UInt8 × UInt32) :
    Except Exn (List UInt8 × UInt32) :=
  let i := sendChannel endpoint i
  sendChunks chunkLen i buf (buf.length+1) 0
    (q.1++headerBytes type endpoint buf.length timestamp i,q.2+12)

end Rtmp
end PcEnv
