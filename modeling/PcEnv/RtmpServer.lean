import PcEnv.Acts
import PcEnv.RtmpFrames
import PcEnv.Runs

/-! The RTMP server of `main.cc`: its clients, the messages it handles and what it sends. -/
namespace PcEnv
namespace Rtmp

open Bytes Amf
open Act (throw lift get modify each)

def flvKeyFrame : UInt8 := 0x01

def controlClearStream : ℕ := 0x00

def ascii (s : String) : List UInt8 := s.toList.map (fun c => UInt8.ofNat c.toNat)

def text (b : List UInt8) : String := String.ofList (b.map (fun b => Char.ofNat b.toNat))

def appName : List UInt8 := ascii "live"

/-- What happens to a client's stream: a frame is put into its queue, or `ready` is taken back. -/
inductive Sent
  | frame (chunkLen : ℕ) (i : Channel) (f : Frame)
  | reset
  deriving DecidableEq, Repr

/-- `id` is the address of a `Client`. `wire` and `log` are not in the program: what its socket has
taken so far, and what happened to its stream. -/
structure Client where
  id : ℕ
  playing : Bool
  ready : Bool
  messages : Messages
  buf : List UInt8
  sendQueue : List UInt8
  chunkLen : ℕ
  writtenSeq : UInt32
  readSeq : UInt32
  wire : List UInt8
  log : List Sent

/-- What `send` does: take up to `n` bytes, ask to come back, or fail. `broken` is `EPIPE`. -/
inductive SendAnswer
  | wrote (n : ℕ)
  | again
  | failed (why : String)
  | broken
  deriving DecidableEq, Repr

/-- `clients` has no entry for the listening socket. `answers` are those of the next calls of
`send`; after the last the sockets take nothing more. -/
structure Server where
  metadata : AmfObject
  publisher : Option ℕ
  clients : List Client
  answers : List SendAnswer

def updateClient (id : ℕ) (f : Client → Client) : List Client → List Client
  | [] => []
  | c::clients => if c.id = id then f c::clients else c::updateClient id f clients

namespace Server

def client? (s : Server) (id : ℕ) : Option Client := s.clients.find? (fun c => c.id = id)

def update (s : Server) (id : ℕ) (f : Client → Client) : Server :=
  { s with clients := updateClient id f s.clients }

end Server

abbrev Call (α : Type) := Act Server Exn α

/-- The call of `send` for at most 4096 bytes of the queue. Nothing ignores or handles `SIGPIPE`. -/
def tryToSend (id : ℕ) : Call Unit := fun s =>
  match s.client? id, s.answers with
  | some c, .wrote n::answers =>
    let n := min n (min c.sendQueue.length 4096)
    (.ok (),{ s with answers := answers }.update id fun c =>
      { c with sendQueue := c.sendQueue.drop n, wire := c.wire++c.sendQueue.take n })
  | some _, .again::answers => (.ok (),{ s with answers := answers })
  | some _, .failed why::answers =>
    (.error (.runtimeError ("unable to write to a client: "++why)),{ s with answers := answers })
  | some _, .broken::answers => (.error .killed,{ s with answers := answers })
  | _, _ => (.ok (),s)

def rtmpSend (id : ℕ) (type : UInt8) (endpoint : UInt32) (buf : List UInt8)
    (timestamp : UInt64) (channel : Channel) : Call Unit := do
  let s ← get
  match s.client? id with
  | none => pure ()
  | some c =>
    let (queue,seq) ← lift
      (rtmpQueue c.chunkLen type endpoint buf timestamp channel (c.sendQueue,c.writtenSeq))
    modify (fun s => s.update id fun c =>
      { c with
        sendQueue := queue
        writtenSeq := seq
        log := c.log++[.frame c.chunkLen (sendChannel endpoint channel)
          ⟨type,endpoint,timestamp,buf⟩] })
    tryToSend id

/-- `txid <= 0.0` on the bits of a double: a zero, or the sign and not a NaN. -/
def notPositive (txid : UInt64) : Bool :=
  txid = 0 ∨ (2^63 ≤ txid.toNat ∧ txid.toNat ≤ 2^63+0x7ff*2^52)

def sendReply (id : ℕ) (txid : UInt64) (reply status : AMFValue) : Call Unit :=
  if notPositive txid then pure ()
  else do
    let reply ← lift (amfWrite reply)
    let status ← lift (amfWrite status)
    rtmpSend id msgInvoke controlId
      (amfWriteString (ascii "_result")++amfWriteNumber txid++reply++status) 0 chanResult

def loadValue (dec : Decoder) : Call (AMFValue × Decoder) := lift (amfLoad (dec.rest.length+1) dec)

def loadString (dec : Decoder) : Call (List UInt8 × Decoder) := lift (amfLoadString dec)

def loadObject (dec : Decoder) : Call (AmfObject × Decoder) :=
  lift (amfLoadObject (dec.rest.length+1) dec)

def loadEcma (dec : Decoder) : Call (AmfObject × Decoder) :=
  lift (amfLoadEcma (dec.rest.length+1) dec)

/-- `as_string` asserts the type. -/
def asString : AMFValue → Call (List UInt8)
  | .string s => pure s
  | _ => throw .abort

def getValue (o : AmfObject) (key : String) : AMFValue := (OrderedMap.find (ascii key) o).getD .null

def object (entries : List (String × AMFValue)) : AmfObject :=
  entries.foldl (fun o p => OrderedMap.insert (ascii p.1) p.2 o) []

def str (s : String) : AMFValue := .string (ascii s)

def invoke (method : String) (status : AmfObject) : Call (List UInt8) := do
  let status ← lift (amfWriteObject status)
  pure (amfWriteString (ascii method)++amfWriteNumber (doubleOf 0)++amfWriteNull++status)

def onMetaData (metadata : AmfObject) : Call (List UInt8) := do
  let metadata ← lift (amfWriteEcma metadata)
  pure (amfWriteString (ascii "onMetaData")++metadata)

def handleConnect (id : ℕ) (txid : UInt64) (dec : Decoder) : Call Unit := do
  let (params,_) ← loadObject dec
  let app ← asString (getValue params "app")
  if app ≠ appName then throw (.runtimeError ("Unsupported application: "++text app))
  else
    let version := object [("fmsVer",str "FMS/4,5,1,484"),("capabilities",.number (doubleOf 255)),
      ("mode",.number (doubleOf 1))]
    let status := object [("level",str "status"),("code",str "NetConnection.Connect.Success"),
      ("description",str "Connection succeeded."),("objectEncoding",.number (doubleOf 3))]
    sendReply id txid (.object version) (.object status)

def handleFcpublish (id : ℕ) (txid : UInt64) (dec : Decoder) : Call Unit := do
  let s ← get
  if s.publisher ≠ none then throw (.runtimeError "Already have a publisher")
  else do
    modify (fun s => { s with publisher := some id })
    let (_,dec) ← loadValue dec
    let (path,_) ← loadString dec
    let buf ← invoke "onFCPublish"
      (object [("code",str "NetStream.Publish.Start"),("description",.string path)])
    rtmpSend id msgInvoke controlId buf 0 chanControl
    sendReply id txid .null .null

def handleCreatestream (id : ℕ) (txid : UInt64) : Call Unit :=
  sendReply id txid .null (.number (doubleOf streamId.toNat))

def handlePublish (id : ℕ) (txid : UInt64) (dec : Decoder) : Call Unit := do
  let (_,dec) ← loadValue dec
  let (path,_) ← loadString dec
  let buf ← invoke "onStatus"
    (object [("level",str "status"),("code",str "NetStream.Publish.Start"),
      ("description",str "Stream is now published."),("details",.string path)])
  rtmpSend id msgInvoke streamId buf 0 chanControl
  sendReply id txid .null .null

def startPlayback (id : ℕ) : Call Unit := do
  let reset ← invoke "onStatus"
    (object [("level",str "status"),("code",str "NetStream.Play.Reset"),
      ("description",str "Resetting and playing stream.")])
  rtmpSend id msgInvoke streamId reset 0 chanControl
  let start ← invoke "onStatus"
    (object [("level",str "status"),("code",str "NetStream.Play.Start"),
      ("description",str "Started playing.")])
  rtmpSend id msgInvoke streamId start 0 chanControl
  rtmpSend id msgNotify streamId
    (amfWriteString (ascii "|RtmpSampleAccess")++amfWriteBoolean true++amfWriteBoolean true) 0
    chanControl
  modify (fun s => s.update id fun c =>
    { c with playing := true, ready := false, log := c.log++[.reset] })
  let s ← get
  if s.publisher ≠ none then do
    let buf ← onMetaData s.metadata
    rtmpSend id msgNotify streamId buf 0 chanControl
  else pure ()

def handlePlay (id : ℕ) (txid : UInt64) (dec : Decoder) : Call Unit := do
  let (_,dec) ← loadValue dec
  let _ ← loadString dec
  startPlayback id
  sendReply id txid .null .null

def handlePlay2 (id : ℕ) (txid : UInt64) (dec : Decoder) : Call Unit := do
  let (_,dec) ← loadValue dec
  let (params,_) ← loadObject dec
  let _ ← asString (getValue params "streamName")
  startPlayback id
  sendReply id txid .null .null

def handlePause (id : ℕ) (txid : UInt64) (dec : Decoder) : Call Unit := do
  let (_,dec) ← loadValue dec
  let (paused,_) ← lift (amfLoadBoolean dec)
  if paused then do
    let buf ← invoke "onStatus"
      (object [("level",str "status"),("code",str "NetStream.Pause.Notify"),
        ("description",str "Pausing.")])
    rtmpSend id msgInvoke streamId buf 0 chanControl
    modify (fun s => s.update id fun c => { c with playing := false })
  else startPlayback id
  sendReply id txid .null .null

/-- The clients as they are when their turn comes. -/
def forClients (f : Client → Call Unit) : Call Unit := do
  let s ← get
  each (fun id => do
    let s ← get
    match s.client? id with
    | none => pure ()
    | some c => f c) (s.clients.map Client.id)

def handleSetdataframe (id : ℕ) (dec : Decoder) : Call Unit := do
  let s ← get
  if s.publisher ≠ some id then throw (.runtimeError "not a publisher")
  else do
    let (type,dec) ← loadString dec
    if type ≠ ascii "onMetaData" then throw (.runtimeError "can only set metadata")
    else do
      let (metadata,_) ← loadEcma dec
      modify (fun s => { s with metadata := metadata })
      let buf ← onMetaData metadata
      forClients fun c =>
        if c.playing then rtmpSend c.id msgNotify streamId buf 0 chanControl else pure ()

def handleInvoke (id : ℕ) (msg : RTMPMessage) (dec : Decoder) : Call Unit := do
  let (method,dec) ← loadString dec
  let (txid,dec) ← lift (amfLoadNumber dec)
  if msg.endpoint = controlId then
    if method = ascii "connect" then handleConnect id txid dec
    else if method = ascii "FCPublish" then handleFcpublish id txid dec
    else if method = ascii "createStream" then handleCreatestream id txid
    else pure ()
  else if msg.endpoint = streamId then
    if method = ascii "publish" then handlePublish id txid dec
    else if method = ascii "play" then handlePlay id txid dec
    else if method = ascii "play2" then handlePlay2 id txid dec
    else if method = ascii "pause" then handlePause id txid dec
    else pure ()
  else pure ()

def handleNotify (id : ℕ) (msg : RTMPMessage) (dec : Decoder) : Call Unit := do
  let (type,dec) ← loadString dec
  if msg.endpoint = streamId ∧ type = ascii "@setDataFrame" then handleSetdataframe id dec
  else pure ()

def handleAudio (id : ℕ) (msg : RTMPMessage) : Call Unit := do
  let s ← get
  if s.publisher ≠ some id then throw (.runtimeError "not a publisher")
  else forClients fun c =>
    if c.ready then rtmpSend c.id msgAudio streamId msg.buf msg.timestamp chanControl
    else pure ()

/-- The upper four bits of the first byte. -/
def isKeyFrame (buf : List UInt8) : Bool := (buf.headD 0).toNat/16 = flvKeyFrame.toNat

def clearStream : List UInt8 := toBe 2 controlClearStream++toBe 4 streamId.toNat

def relayVideo (msg : RTMPMessage) (c : Client) : Call Unit :=
  if c.playing then do
    let ready ←
      if isKeyFrame msg.buf ∧ ¬ c.ready then do
        rtmpSend c.id msgUserControl controlId clearStream 0 chanControl
        modify (fun s => s.update c.id fun c => { c with ready := true })
        pure true
      else pure c.ready
    if ready then rtmpSend c.id msgVideo streamId msg.buf msg.timestamp chanControl
    else pure ()
  else pure ()

def handleVideo (id : ℕ) (msg : RTMPMessage) : Call Unit := do
  let s ← get
  if s.publisher ≠ some id then throw (.runtimeError "not a publisher")
  else forClients (relayVideo msg)

def handleMessage (id : ℕ) (msg : RTMPMessage) : Call Unit :=
  if msg.type = msgBytesRead then
    if 4 > msg.buf.length then throw notEnough
    else modify (fun s => s.update id fun c =>
      { c with readSeq := UInt32.ofNat (ofBe (msg.buf.take 4)) })
  else if msg.type = msgSetChunk then
    if 4 > msg.buf.length then throw notEnough
    else modify (fun s => s.update id fun c => { c with chunkLen := ofBe (msg.buf.take 4) })
  else if msg.type = msgInvoke then handleInvoke id msg ⟨msg.buf,0,0⟩
  else if msg.type = msgInvoke3 then handleInvoke id msg ⟨msg.buf,1,0⟩
  else if msg.type = msgNotify then handleNotify id msg ⟨msg.buf,0,0⟩
  else if msg.type = msgAudio then handleAudio id msg
  else if msg.type = msgVideo then handleVideo id msg
  else if msg.type = msgFlashVideo then throw (.runtimeError "streaming FLV not supported")
  else pure ()

/-- What `recv` does: it has bytes, the end, nothing yet, or fails. -/
inductive RecvAnswer
  | data (bytes : List UInt8)
  | eof
  | again
  | failed (why : String)
  deriving DecidableEq, Repr

def chunkLenOf (id : ℕ) (s : Server) : ℕ := ((s.client? id).map Client.chunkLen).getD defaultChunkLen

/-- The loop of `recv_from_client` over the buffer of the client. -/
def recvLoop (id : ℕ) :
    Messages × Server → List UInt8 → Incremental.Turn (Messages × Server) Exn :=
  recvTurn (chunkLenOf id) (fun _ => handleMessage id)

/-- The messages and the buffer are kept apart while the loop runs: no handler looks at them. A
client whose loop throws is closed with them. -/
def recvFromClient (id : ℕ) : RecvAnswer → Call Unit
  | .eof => throw (.runtimeError "EOF from a client")
  | .again => pure ()
  | .failed why => throw (.runtimeError ("unable to read from a client: "++why))
  | .data bytes => fun s =>
    match s.client? id with
    | none => (.ok (),s)
    | some c =>
      match Incremental.run (recvLoop id) (c.messages,s) (c.buf++bytes) with
      | .waits (messages,s) rest =>
        (.ok (),s.update id fun c => { c with messages := messages, buf := rest })
      | .failed (_,s) e => (.error e,s)

/-- `written_seq` and `read_seq` behind the handshake, or when it broke off. -/
def handshakeSeq (done : Bool) : UInt32 := if done then 1+1536*2 else 0

def newClient (id : ℕ) (types : Channel → UInt8) (endpoints : Channel → UInt32) (done : Bool) :
    Client where
  id := id
  playing := false
  ready := false
  messages := freshMessages types endpoints
  buf := []
  sendQueue := []
  chunkLen := defaultChunkLen
  writtenSeq := handshakeSeq done
  readSeq := handshakeSeq done
  wire := []
  log := []

def Client.unready (c : Client) : Client := { c with ready := false, log := c.log++[.reset] }

/-- Without its publisher nobody is ready. -/
def closeClient (id : ℕ) (s : Server) : Server :=
  let s := { s with clients := s.clients.filter (fun c => c.id ≠ id) }
  if s.publisher = some id then
    { s with publisher := none, clients := s.clients.map Client.unready }
  else s

/-- What one entry of the poll table brings. `broken` is a handshake that sends to a peer that has
closed. -/
inductive Event
  | accepted (id : ℕ) (types : Channel → UInt8) (endpoints : Channel → UInt32) (done : Bool)
  | broken (id : ℕ)
  | writable (id : ℕ)
  | readable (id : ℕ) (answer : RecvAnswer)

/-- What `do_poll` does about a client: an exception closes it. Whatever else it does not return
from ends the run. -/
def serve (id : ℕ) (call : Call Unit) (s : Server) : Except Runs.Halt Server :=
  match s.client? id with
  | none => .error .blocked
  | some _ =>
    match call s with
    | (.ok _,s) => .ok s
    | (.error (.runtimeError _),s) => .ok (closeClient id s)
    | (.error _,_) => .error .fault

/-- The address of a new client is that of no other. -/
def step (s : Server) : Event → Except Runs.Halt Server
  | .accepted id types endpoints done =>
    match s.client? id with
    | none => .ok { s with clients := s.clients++[newClient id types endpoints done] }
    | some _ => .error .blocked
  | .broken _ => .error .fault
  | .writable id => serve id (tryToSend id) s
  | .readable id answer => serve id (recvFromClient id answer) s

def initial (answers : List SendAnswer) : Server := ⟨[],none,[],answers⟩

end Rtmp
end PcEnv
