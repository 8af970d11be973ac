import PcEnv.AmfRoundTrip
import PcEnv.RtmpServer

/-! What a message can do to the server, said once: a call is a sequence of small moves. -/
namespace PcEnv
namespace Rtmp

open Bytes Amf
open Act (throw lift get modify each Keeps)

theorem find_updateClient {f : Client → Client} (hf : ∀ c, (f c).id = c.id) (id j : ℕ)
    (l : List Client) :
    (updateClient id f l).find? (fun c => c.id = j) =
      if j = id then (l.find? (fun c => c.id = j)).map f else l.find? (fun c => c.id = j) := by
  induction l with
  | nil => simp [updateClient]
  | cons c l ih =>
    rw [updateClient]
    by_cases hc : c.id = id
    · rw [if_pos hc]
      by_cases hj : j = id
      · simp [hj,hf,hc]
      · have hne : c.id ≠ j := fun h => hj (h.symm.trans hc)
        simp [hj,hf,hne]
    · rw [if_neg hc]
      by_cases hj : c.id = j
      · have hne : j ≠ id := fun h => hc (hj.trans h)
        simp [hj,hne]
      · rw [List.find?_cons_of_neg (by simpa using hj),ih,List.find?_cons_of_neg (by simpa using hj)]

theorem ids_updateClient {f : Client → Client} (hf : ∀ c, (f c).id = c.id) (id : ℕ)
    (l : List Client) : (updateClient id f l).map Client.id = l.map Client.id := by
  induction l with
  | nil => rfl
  | cons c l ih =>
    rw [updateClient]
    split_ifs
    · simp [hf]
    · simp [ih]

theorem updateClient_congr {f g : Client → Client} {id : ℕ} {c : Client} {l : List Client}
    (hc : l.find? (fun c => c.id = id) = some c) (h : f c = g c) :
    updateClient id f l = updateClient id g l := by
  induction l with
  | nil => rfl
  | cons d l ih =>
    rw [updateClient,updateClient]
    split_ifs with hd
    · rw [List.find?_cons_of_pos (by simpa using hd)] at hc
      cases hc
      rw [h]
    · rw [List.find?_cons_of_neg (by simpa using hd)] at hc
      rw [ih hc]

theorem updateClient_updateClient {f : Client → Client} (hf : ∀ c, (f c).id = c.id)
    (g : Client → Client) (id : ℕ) (l : List Client) :
    updateClient id g (updateClient id f l) = updateClient id (fun c => g (f c)) l := by
  induction l with
  | nil => rfl
  | cons c l ih =>
    by_cases hc : c.id = id
    · simp [updateClient,hc,hf]
    · simp [updateClient,hc,ih]

namespace Server

variable {s : Server} {f g : Client → Client} {id j : ℕ} {c : Client}

theorem id_of_client? (h : s.client? j = some c) : c.id = j := by
  simpa using List.find?_some h

theorem client?_update (hf : ∀ c, (f c).id = c.id) :
    (s.update id f).client? j = if j = id then (s.client? j).map f else s.client? j :=
  find_updateClient hf id j s.clients

theorem client?_update_self (hf : ∀ c, (f c).id = c.id) (hc : s.client? j = some c) :
    (s.update j f).client? j = some (f c) := by
  rw [client?_update hf,if_pos rfl,hc]
  rfl

theorem client?_update_ne (hf : ∀ c, (f c).id = c.id) (hne : j ≠ id) :
    (s.update id f).client? j = s.client? j := by
  rw [client?_update hf,if_neg hne]

theorem update_update (hf : ∀ c, (f c).id = c.id) (g : Client → Client) :
    (s.update id f).update id g = s.update id (fun c => g (f c)) := by
  rw [update,update,update,updateClient_updateClient hf]

theorem ids_update (hf : ∀ c, (f c).id = c.id) :
    (s.update id f).clients.map Client.id = s.clients.map Client.id :=
  ids_updateClient hf id s.clients

theorem update_congr (hc : s.client? j = some c) (h : f c = g c) : s.update j f = s.update j g := by
  rw [update,update,updateClient_congr hc h]

end Server

def Client.queue (i : Channel) (f : Frame) (c : Client) : Client :=
  { c with
    sendQueue := c.sendQueue++(f.chunks c.chunkLen i).flatten
    writtenSeq := c.writtenSeq+UInt32.ofNat (f.chunks c.chunkLen i).flatten.length
    log := c.log++[.frame c.chunkLen i f] }

def Client.transmit (n : ℕ) (c : Client) : Client :=
  { c with sendQueue := c.sendQueue.drop n, wire := c.wire++c.sendQueue.take n }

def Client.setReady (c : Client) : Client := { c with ready := true }

def Client.play (c : Client) : Client :=
  { c with playing := true, ready := false, log := c.log++[.reset] }

@[simp] theorem Client.queue_id (i : Channel) (f : Frame) (c : Client) : (c.queue i f).id = c.id := rfl

@[simp] theorem Client.transmit_id (n : ℕ) (c : Client) : (c.transmit n).id = c.id := rfl

@[simp] theorem Client.setReady_id (c : Client) : c.setReady.id = c.id := rfl

@[simp] theorem Client.play_id (c : Client) : c.play.id = c.id := rfl

def Frame.IsMedia (f : Frame) : Prop := f.type = msgAudio ∨ f.type = msgVideo

instance frameIsMedia (f : Frame) : Decidable f.IsMedia :=
  inferInstanceAs (Decidable (f.type = msgAudio ∨ f.type = msgVideo))

/-- The frame that `msg` becomes for the receivers. -/
def relayed (msg : RTMPMessage) : Frame := ⟨msg.type,streamId,msg.timestamp,msg.buf⟩

def clearFrame : Frame := ⟨msgUserControl,controlId,0,clearStream⟩

/-- One change that handling `msg` of client `k` makes. Other clients than `k` are only sent
something, and only when `k` is the publisher. -/
inductive Move (k : ℕ) (msg : RTMPMessage) : Server → Server → Prop
  | answered {s : Server} (answers : List SendAnswer) : Move k msg s { s with answers := answers }
  | sent {s : Server} {j : ℕ} (n : ℕ) (hreach : j = k ∨ s.publisher = some k) :
      Move k msg s (s.update j (Client.transmit n))
  | queued {s : Server} {j : ℕ} {c : Client} {i : Channel} {f : Frame} (hc : s.client? j = some c)
      (hend : c.chunkLen ≠ 0 ∨ f.body = []) (hreach : j = k ∨ s.publisher = some k)
      (hmedia : f.IsMedia → s.publisher = some k ∧ c.ready = true ∧ f = relayed msg) :
      Move k msg s (s.update j (Client.queue i f))
  | opened {s : Server} {j : ℕ} {c : Client} (hc : s.client? j = some c)
      (hend : c.chunkLen ≠ 0) (hpub : s.publisher = some k) (hready : c.ready = false)
      (hkey : msg.type = msgVideo ∧ isKeyFrame msg.buf = true)
      (hlast : ∃ log, c.log = log++[.frame c.chunkLen chanControl clearFrame]) :
      Move k msg s (s.update j fun c => c.setReady.queue chanStream (relayed msg))
  | counted {s : Server} (n : UInt32) : Move k msg s (s.update k fun c => { c with readSeq := n })
  | chunked {s : Server} (htype : msg.type = msgSetChunk) (n : ℕ) :
      Move k msg s (s.update k fun c => { c with chunkLen := n })
  | claimed {s : Server} (hnone : s.publisher = none) :
      Move k msg s { s with publisher := some k }
  | played {s : Server} : Move k msg s (s.update k Client.play)
  | paused {s : Server} : Move k msg s (s.update k fun c => { c with playing := false })
  | described {s : Server} {m : AmfObject} (hpub : s.publisher = some k)
      (hm : ∀ p ∈ m, Loaded p.2) : Move k msg s { s with metadata := m }

abbrev Moves (k : ℕ) (msg : RTMPMessage) : Server → Server → Prop :=
  Relation.ReflTransGen (Move k msg)

instance (k : ℕ) (msg : RTMPMessage) : IsPreorder Server (Moves k msg) where
  refl _ := .refl
  trans _ _ _ := .trans

section

variable {k j : ℕ} {msg : RTMPMessage} {s s' : Server}

theorem tryToSend_moves (hreach : j = k ∨ s.publisher = some k) :
    Keeps (Moves k msg) (tryToSend j) s := by
  unfold Keeps tryToSend
  split
  · exact (Relation.ReflTransGen.single (.answered _)).tail (.sent _ hreach)
  · exact .single (.answered _)
  · exact .single (.answered _)
  · exact .single (.answered _)
  · exact .refl

theorem rtmpSend_eq {type : UInt8} {endpoint : UInt32} {buf : List UInt8} {timestamp : UInt64}
    {i : Channel} {c : Client} (hc : s.client? j = some c) :
    rtmpSend j type endpoint buf timestamp i s =
      if c.chunkLen ≠ 0 ∨ buf = [] then
        tryToSend j (s.update j
          (Client.queue (sendChannel endpoint i) ⟨type,endpoint,timestamp,buf⟩))
      else (.error .fuel,s) := by
  unfold rtmpSend
  simp only [Act.get_bind,hc]
  by_cases h : c.chunkLen ≠ 0 ∨ buf = []
  · have heq : rtmpQueue c.chunkLen type endpoint buf timestamp i (c.sendQueue,c.writtenSeq) = _ :=
      sendChunks_eq (i:=sendChannel endpoint i) ⟨type,endpoint,timestamp,buf⟩ h
        (Nat.lt_succ_self _) c.sendQueue c.writtenSeq
    rw [if_pos h]
    refine (Act.lift_ok_bind heq _ s).trans ?_
    simp only [Act.modify_bind]
    rw [Server.update_congr hc]
    rfl
  · rw [if_neg h]
    push Not at h
    obtain ⟨hzero,hbuf⟩ := h
    have heq := sendChunks_zero (sendChannel endpoint i) hbuf (buf.length+1)
      (c.sendQueue++headerBytes type endpoint buf.length timestamp (sendChannel endpoint i),
        c.writtenSeq+12)
    exact Act.lift_error_bind (by rw [rtmpQueue,hzero,heq]) _ _

theorem rtmpSend_moves {type : UInt8} {endpoint : UInt32} {buf : List UInt8} {timestamp : UInt64}
    {i : Channel} (hreach : j = k ∨ s.publisher = some k)
    (hmedia : ∀ c, s.client? j = some c → (⟨type,endpoint,timestamp,buf⟩ : Frame).IsMedia →
      s.publisher = some k ∧ c.ready = true ∧ ⟨type,endpoint,timestamp,buf⟩ = relayed msg) :
    Keeps (Moves k msg) (rtmpSend j type endpoint buf timestamp i) s := by
  unfold Keeps
  cases hc : s.client? j with
  | none =>
    unfold rtmpSend
    simp only [Act.get_bind,hc]
    exact .refl
  | some c =>
    rw [rtmpSend_eq hc]
    split_ifs with hend
    · exact .head (.queued hc hend hreach (hmedia c hc)) (tryToSend_moves hreach)
    · exact .refl

theorem rtmpSend_plain {type : UInt8} {endpoint : UInt32} {buf : List UInt8} {timestamp : UInt64}
    {i : Channel} (hreach : j = k ∨ s.publisher = some k)
    (htype : type ≠ msgAudio ∧ type ≠ msgVideo) :
    Keeps (Moves k msg) (rtmpSend j type endpoint buf timestamp i) s := by
  refine rtmpSend_moves hreach ?_
  rintro c - (h | h)
  · exact absurd h htype.1
  · exact absurd h htype.2

theorem rtmpSend_own {type : UInt8} (htype : type ≠ msgAudio ∧ type ≠ msgVideo)
    (endpoint : UInt32) (buf : List UInt8) (timestamp : UInt64) (i : Channel) (s : Server) :
    Keeps (Moves k msg) (rtmpSend k type endpoint buf timestamp i) s :=
  rtmpSend_plain (Or.inl rfl) htype

theorem sendReply_moves (txid : UInt64) (reply status : AMFValue) (s : Server) :
    Keeps (Moves k msg) (sendReply k txid reply status) s := by
  unfold sendReply
  split_ifs
  · exact Act.keeps_pure ()
  · refine Act.keeps_lift_bind fun reply _ => Act.keeps_lift_bind fun status _ => ?_
    exact rtmpSend_own (by decide) _ _ _ _ _

theorem loadValue_moves (dec : Decoder) (s : Server) : Keeps (Moves k msg) (loadValue dec) s :=
  Act.keeps_lift _

theorem loadString_moves (dec : Decoder) (s : Server) : Keeps (Moves k msg) (loadString dec) s :=
  Act.keeps_lift _

theorem loadObject_moves (dec : Decoder) (s : Server) : Keeps (Moves k msg) (loadObject dec) s :=
  Act.keeps_lift _

theorem asString_moves (v : AMFValue) (s : Server) : Keeps (Moves k msg) (asString v) s := by
  unfold asString
  split
  · exact Act.keeps_pure _
  · exact Act.keeps_throw _

theorem invoke_moves (method : String) (status : AmfObject) (s : Server) :
    Keeps (Moves k msg) (invoke method status) s :=
  Act.keeps_lift_bind fun _ _ => Act.keeps_pure _

theorem onMetaData_moves (m : AmfObject) (s : Server) :
    Keeps (Moves k msg) (onMetaData m) s :=
  Act.keeps_lift_bind fun _ _ => Act.keeps_pure _

theorem startPlayback_moves (s : Server) : Keeps (Moves k msg) (startPlayback k) s := by
  unfold startPlayback
  refine (invoke_moves _ _ s).bind fun _ s _ => (rtmpSend_own (by decide) _ _ _ _ s).bind ?_
  refine fun _ s _ => (invoke_moves _ _ s).bind fun _ s _ => ?_
  refine (rtmpSend_own (by decide) _ _ _ _ s).bind fun _ s _ => ?_
  refine (rtmpSend_own (by decide) _ _ _ _ s).bind fun _ s _ => ?_
  refine (Act.keeps_modify (.single .played)).bind fun _ s _ => Act.keeps_get_bind ?_
  split_ifs
  · exact (onMetaData_moves _ s).bind fun _ s _ => rtmpSend_own (by decide) _ _ _ _ s
  · exact Act.keeps_pure ()

theorem handleConnect_moves (txid : UInt64) (dec : Decoder) (s : Server) :
    Keeps (Moves k msg) (handleConnect k txid dec) s := by
  unfold handleConnect
  refine (loadObject_moves dec s).bind fun _ s _ => (asString_moves _ s).bind fun _ s _ => ?_
  split_ifs
  · exact Act.keeps_throw _
  · exact sendReply_moves _ _ _ s

theorem handleFcpublish_moves (txid : UInt64) (dec : Decoder) (s : Server) :
    Keeps (Moves k msg) (handleFcpublish k txid dec) s := by
  refine Act.keeps_get_bind ?_
  split_ifs with h
  · exact Act.keeps_throw _
  · refine (Act.keeps_modify (.single (.claimed (not_not.mp h)))).bind fun _ s _ => ?_
    refine (loadValue_moves dec s).bind fun _ s _ => (loadString_moves _ s).bind fun _ s _ => ?_
    refine (invoke_moves _ _ s).bind fun _ s _ => ?_
    exact (rtmpSend_own (by decide) _ _ _ _ s).bind fun _ s _ => sendReply_moves _ _ _ s

theorem handlePublish_moves (txid : UInt64) (dec : Decoder) (s : Server) :
    Keeps (Moves k msg) (handlePublish k txid dec) s := by
  refine (loadValue_moves dec s).bind fun _ s _ => (loadString_moves _ s).bind fun _ s _ => ?_
  refine (invoke_moves _ _ s).bind fun _ s _ => ?_
  exact (rtmpSend_own (by decide) _ _ _ _ s).bind fun _ s _ => sendReply_moves _ _ _ s

theorem handlePlay_moves (txid : UInt64) (dec : Decoder) (s : Server) :
    Keeps (Moves k msg) (handlePlay k txid dec) s := by
  refine (loadValue_moves dec s).bind fun _ s _ => (loadString_moves _ s).bind fun _ s _ => ?_
  exact (startPlayback_moves s).bind fun _ s _ => sendReply_moves _ _ _ s

theorem handlePlay2_moves (txid : UInt64) (dec : Decoder) (s : Server) :
    Keeps (Moves k msg) (handlePlay2 k txid dec) s := by
  refine (loadValue_moves dec s).bind fun _ s _ => (loadObject_moves _ s).bind fun _ s _ => ?_
  refine (asString_moves _ s).bind fun _ s _ => ?_
  exact (startPlayback_moves s).bind fun _ s _ => sendReply_moves _ _ _ s

theorem handlePause_moves (txid : UInt64) (dec : Decoder) (s : Server) :
    Keeps (Moves k msg) (handlePause k txid dec) s := by
  refine (loadValue_moves dec s).bind fun _ s _ => Act.keeps_lift_bind fun p _ => ?_
  obtain ⟨paused,d⟩ := p
  cases paused with
  | true =>
    refine (invoke_moves _ _ s).bind fun _ s _ => (rtmpSend_own (by decide) _ _ _ _ s).bind ?_
    refine fun _ s _ => (Act.keeps_modify (.single .paused)).bind fun _ s _ => ?_
    exact sendReply_moves _ _ _ s
  | false => exact (startPlayback_moves s).bind fun _ s _ => sendReply_moves _ _ _ s

theorem Moves.publisher (h : Moves k msg s s') (hpub : s.publisher = some k) :
    s'.publisher = some k := by
  induction h with
  | refl => exact hpub
  | tail _ hmove ih =>
    cases hmove with
    | claimed _ => rfl
    | _ => exact ih

theorem forClients_moves {f : Client → Call Unit} (hpub : s.publisher = some k)
    (hf : ∀ c s, s.publisher = some k → s.client? c.id = some c → Keeps (Moves k msg) (f c) s) :
    Keeps (Moves k msg) (forClients f) s := by
  refine Act.keeps_get_bind (Act.keeps_each (P:=fun s => s.publisher = some k) hpub
    (fun _ _ => Moves.publisher) ?_)
  intro id _ s hs
  refine Act.keeps_get_bind ?_
  cases hc : s.client? id with
  | none => exact Act.keeps_pure ()
  | some c =>
    obtain rfl := Server.id_of_client? hc
    exact hf c s hs hc

theorem handleSetdataframe_moves (dec : Decoder) (s : Server) :
    Keeps (Moves k msg) (handleSetdataframe k dec) s := by
  refine Act.keeps_get_bind ?_
  split_ifs with hpub
  · exact Act.keeps_throw _
  · have hpub := not_not.mp hpub
    refine Act.keeps_lift_bind fun p _ => ?_
    simp only
    split_ifs
    · exact Act.keeps_throw _
    · refine Act.keeps_lift_bind fun q hq => ?_
      have hloaded := loadEcmaWith_loaded (fun _ _ _ => amfLoad_loaded) hq
      refine (Act.keeps_modify (.single (.described hpub hloaded))).bind fun _ s' hs' => ?_
      cases hs'
      refine (onMetaData_moves _ _).bind fun buf s' hs' => ?_
      have hpub' := ((@onMetaData_moves k msg _ _).rel hs').publisher hpub
      refine forClients_moves hpub' fun c t ht _ => ?_
      split_ifs
      · exact rtmpSend_plain (Or.inr ht) (by decide)
      · exact Act.keeps_pure ()

theorem handleNotify_moves (dec : Decoder) (s : Server) :
    Keeps (Moves k msg) (handleNotify k msg dec) s := by
  refine (loadString_moves dec s).bind fun _ s _ => ?_
  simp only
  split_ifs
  · exact handleSetdataframe_moves _ s
  · exact Act.keeps_pure ()

theorem handleInvoke_moves (dec : Decoder) (s : Server) :
    Keeps (Moves k msg) (handleInvoke k msg dec) s := by
  refine (loadString_moves dec s).bind fun _ s _ => (Act.keeps_lift _).bind fun _ s _ => ?_
  simp only
  split_ifs
  · exact handleConnect_moves _ _ s
  · exact handleFcpublish_moves _ _ s
  · exact sendReply_moves _ _ _ s
  · exact Act.keeps_pure ()
  · exact handlePublish_moves _ _ s
  · exact handlePlay_moves _ _ s
  · exact handlePlay2_moves _ _ s
  · exact handlePause_moves _ _ s
  · exact Act.keeps_pure ()
  · exact Act.keeps_pure ()

theorem handleAudio_moves (hmsg : msg.type = msgAudio) (s : Server) :
    Keeps (Moves k msg) (handleAudio k msg) s := by
  refine Act.keeps_get_bind ?_
  split_ifs with hpub
  · exact Act.keeps_throw _
  · refine forClients_moves (not_not.mp hpub) fun c t ht hc => ?_
    split_ifs with hready
    · refine rtmpSend_moves (Or.inr ht) ?_
      rintro d hd -
      obtain rfl := Option.some.inj (hc.symm.trans hd)
      exact ⟨ht,hready,by rw [relayed,hmsg]⟩
    · exact Act.keeps_pure ()

theorem tryToSend_client {c : Client} (hc : s.client? j = some c) :
    ∃ n, (tryToSend j s).2.client? j = some (c.transmit n) := by
  have hzero : c = c.transmit 0 := by simp [Client.transmit]
  unfold tryToSend
  split
  · rename_i d n answers hd _
    obtain rfl := Option.some.inj (hc.symm.trans hd)
    exact ⟨_,Server.client?_update_self (fun _ => rfl) hc⟩
  · exact ⟨0,hc.trans (congrArg some hzero)⟩
  · exact ⟨0,hc.trans (congrArg some hzero)⟩
  · exact ⟨0,hc.trans (congrArg some hzero)⟩
  · exact ⟨0,hc.trans (congrArg some hzero)⟩

theorem open_moves (hmsg : msg.type = msgVideo) (hkey : isKeyFrame msg.buf = true) {c : Client}
    (hready : c.ready = false) (hpub : s.publisher = some k) (hc : s.client? c.id = some c) :
    Keeps (Moves k msg) (do
      rtmpSend c.id msgUserControl controlId clearStream 0 chanControl
      Act.modify (fun s => s.update c.id Client.setReady)
      rtmpSend c.id msgVideo streamId msg.buf msg.timestamp chanControl) s := by
  have hclear : Keeps (Moves k msg)
      (rtmpSend c.id msgUserControl controlId clearStream 0 chanControl) s :=
    rtmpSend_plain (Or.inr hpub) (by decide)
  refine hclear.bind fun _ s' hs' => ?_
  have hpub' := (hclear.rel hs').publisher hpub
  rw [rtmpSend_eq hc] at hs'
  split_ifs at hs' with hend
  · have hzero : c.chunkLen ≠ 0 := hend.resolve_right (by decide)
    obtain ⟨n,hn⟩ := tryToSend_client (j:=c.id) (Server.client?_update_self
      (f:=Client.queue (sendChannel controlId chanControl) clearFrame) (fun _ => rfl) hc)
    have hsnd : (tryToSend c.id (s.update c.id
        (Client.queue (sendChannel controlId chanControl) clearFrame))).2 = s' :=
      congrArg Prod.snd hs'
    have hc' : s'.client? c.id = some _ :=
      (congrArg (fun t => Server.client? t c.id) hsnd).symm.trans hn
    have hopened := @Move.opened k msg _ _ _ hc' hzero hpub' hready ⟨hmsg,hkey⟩ ⟨c.log,rfl⟩
    have hset : (s'.update c.id Client.setReady).client? c.id = some _ :=
      Server.client?_update_self (fun _ => rfl) hc'
    have hif : (Client.transmit n (Client.queue (sendChannel controlId chanControl) clearFrame c)
      ).setReady.chunkLen ≠ 0 ∨ msg.buf = [] := Or.inl hzero
    have hframe : (⟨msgVideo,streamId,msg.timestamp,msg.buf⟩ : Frame) = relayed msg := by
      rw [relayed,hmsg]
    have hvideo := @rtmpSend_eq _ _ msgVideo streamId msg.buf msg.timestamp chanControl _ hset
    have hboth : (s'.update c.id Client.setReady).update c.id
        (Client.queue (sendChannel streamId chanControl) (relayed msg)) =
          s'.update c.id fun c => c.setReady.queue chanStream (relayed msg) :=
      Server.update_update Client.setReady_id _
    rw [if_pos hif,hframe,hboth] at hvideo
    unfold Keeps
    rw [Act.modify_bind,hvideo]
    exact .head hopened (tryToSend_moves (Or.inr hpub'))
  · cases hs'

theorem relayVideo_moves (hmsg : msg.type = msgVideo) (c : Client) (hpub : s.publisher = some k)
    (hc : s.client? c.id = some c) : Keeps (Moves k msg) (relayVideo msg c) s := by
  unfold relayVideo
  split_ifs with hplay hopen
  · exact open_moves hmsg hopen.1 (by simpa using hopen.2) hpub hc
  · change Keeps _ (if c.ready then
      rtmpSend c.id msgVideo streamId msg.buf msg.timestamp chanControl else pure ()) s
    split_ifs with hready
    · refine rtmpSend_moves (Or.inr hpub) ?_
      intro d hd _
      obtain rfl := Option.some.inj (hc.symm.trans hd)
      exact ⟨hpub,hready,by rw [relayed,hmsg]⟩
    · exact Act.keeps_pure ()
  · exact Act.keeps_pure ()

theorem handleVideo_moves (hmsg : msg.type = msgVideo) (s : Server) :
    Keeps (Moves k msg) (handleVideo k msg) s := by
  refine Act.keeps_get_bind ?_
  split_ifs with hpub
  · exact Act.keeps_throw _
  · exact forClients_moves (not_not.mp hpub) fun c t ht hc => relayVideo_moves hmsg c ht hc

/-- All that a message does, however it ends. -/
theorem handleMessage_moves (k : ℕ) (msg : RTMPMessage) (s : Server) :
    Keeps (Moves k msg) (handleMessage k msg) s := by
  unfold handleMessage
  split_ifs with _ _ hchunk _ _ _ _ haudio hvideo
  · exact Act.keeps_throw _
  · exact Act.keeps_modify (.single (.counted _))
  · exact Act.keeps_throw _
  · exact Act.keeps_modify (.single (.chunked hchunk _))
  · exact handleInvoke_moves _ s
  · exact handleInvoke_moves _ s
  · exact handleNotify_moves _ s
  · exact handleAudio_moves haudio s
  · exact handleVideo_moves hvideo s
  · exact Act.keeps_throw _
  · exact Act.keeps_pure ()

end

end Rtmp
end PcEnv
