import PcEnv.RtmpReads

/-! Messages that end the server. -/
namespace PcEnv
namespace Rtmp

open Bytes Amf Runs Incremental
open Act (throw lift get modify each Within)

def IsString (v : AMFValue) : Prop := ∃ s, v = .string s

/-- The arguments of an `INVOKE` have an object without the string that `as_string` takes. -/
def assertsAt (endpoint : UInt32) (dec : Decoder) : Prop :=
  ∃ method d₁ txid d₂, amfLoadString dec = .ok (method,d₁) ∧ amfLoadNumber d₁ = .ok (txid,d₂) ∧
    ((endpoint = controlId ∧ method = ascii "connect" ∧
        ∃ o d, amfLoadObject (d₂.rest.length+1) d₂ = .ok (o,d) ∧
          ¬ IsString (getValue o "app")) ∨
      (endpoint = streamId ∧ method = ascii "play2" ∧
        ∃ v d₃ o d, amfLoad (d₂.rest.length+1) d₂ = .ok (v,d₃) ∧
          amfLoadObject (d₃.rest.length+1) d₃ = .ok (o,d) ∧
          ¬ IsString (getValue o "streamName")))

def Asserts (msg : RTMPMessage) : Prop :=
  (msg.type = msgInvoke ∧ assertsAt msg.endpoint ⟨msg.buf,0,0⟩) ∨
    (msg.type = msgInvoke3 ∧ assertsAt msg.endpoint ⟨msg.buf,1,0⟩)

/-- States and exceptions that sending and the changes of the handlers respect. -/
structure Respected (I : Server → Prop) (E : Exn → Prop) : Prop where
  thrown : ∀ what, E (.runtimeError what)
  loaded : ∀ s, I s → ∀ p ∈ s.metadata, Loaded p.2
  described : ∀ s m, I s → (∀ p ∈ m, Loaded p.2) → I { s with metadata := m }
  claimed : ∀ s k, I s → I { s with publisher := some k }
  update : ∀ s id f, I s → (∀ c, (f c).chunkLen = c.chunkLen) → I (s.update id f)
  send : ∀ id type endpoint buf timestamp i, Within I E (rtmpSend id type endpoint buf timestamp i)

section

variable {I : Server → Prop} {E : Exn → Prop}

theorem amfWrite_bind_within {α : Type} {v : AMFValue} {f : List UInt8 → Call α} (hv : Loaded v)
    (hf : ∀ w, Within I E (f w)) : Within I E (lift (amfWrite v) >>= f) := by
  obtain ⟨w,hw⟩ := amfWrite_loaded hv
  rw [hw]
  exact hf w

theorem object_loaded {entries : List (String × AMFValue)} (he : ∀ p ∈ entries, Loaded p.2) :
    Loaded (.object (object entries)) := by
  refine .object fun p hp => ?_
  have hmap : object entries = (entries.map (Prod.map ascii id)).foldl
      (fun o p => OrderedMap.insert p.1 p.2 o) [] := by
    rw [List.foldl_map]
    rfl
  rw [hmap] at hp
  rcases OrderedMap.mem_foldl_insert hp with hnil | hmem
  · cases hnil
  · obtain ⟨q,hq,rfl⟩ := List.mem_map.mp hmem
    exact he q hq

theorem asString_bind_within {α : Type} {v : AMFValue} {f : List UInt8 → Call α}
    (hv : IsString v) (hf : ∀ s, Within I E (f s)) : Within I E (asString v >>= f) := by
  obtain ⟨s,rfl⟩ := hv
  exact hf s

theorem invoke_bind_within {α : Type} {entries : List (String × AMFValue)} {method : String}
    {f : List UInt8 → Call α} (he : ∀ p ∈ entries, Loaded p.2) (hf : ∀ w, Within I E (f w)) :
    Within I E (invoke method (object entries) >>= f) := by
  have hloaded := object_loaded he
  refine Within.bind ?_ hf
  exact amfWrite_bind_within hloaded fun _ => Act.within_pure _

theorem onMetaData_bind_within {α : Type} {m : AmfObject} {f : List UInt8 → Call α}
    (hm : ∀ p ∈ m, Loaded p.2) (hf : ∀ w, Within I E (f w)) :
    Within I E (onMetaData m >>= f) := by
  obtain ⟨w,hw⟩ := writeEntries_loaded (fun p hp => amfWrite_loaded (hm p hp))
  refine Within.bind ?_ hf
  unfold onMetaData amfWriteEcma
  rw [hw]
  exact Act.within_pure _

theorem forClients_within {f : Client → Call Unit} (hf : ∀ c, Within I E (f c)) :
    Within I E (forClients f) := by
  refine Act.within_get_bind fun s _ => Act.within_each fun id _ => ?_
  refine Act.within_get_bind fun t _ => ?_
  split
  · exact Act.within_pure ()
  · exact hf _

variable (h : Respected I E)

include h

theorem Respected.throws {α : Type} {x : Except Exn α} (hx : Throws x) :
    ∀ e, x = .error e → E e := by
  intro e he
  obtain ⟨what,rfl⟩ := hx e he
  exact h.thrown what

theorem loadValue_bind_within {α : Type} {dec : Decoder} {f : AMFValue × Decoder → Call α}
    (hf : ∀ v d, amfLoad (dec.rest.length+1) dec = .ok (v,d) → Within I E (f (v,d))) :
    Within I E (loadValue dec >>= f) :=
  Act.within_lift_bind (h.throws (amfLoad_consumes (Nat.lt_succ_self _)).1)
    fun p hp => hf p.1 p.2 hp

theorem loadString_bind_within {α : Type} {dec : Decoder} {f : List UInt8 × Decoder → Call α}
    (hf : ∀ v d, amfLoadString dec = .ok (v,d) → Within I E (f (v,d))) :
    Within I E (loadString dec >>= f) :=
  Act.within_lift_bind (h.throws (amfLoadString_consumes dec).1) fun p hp => hf p.1 p.2 hp

theorem loadObject_bind_within {α : Type} {dec : Decoder} {f : AmfObject × Decoder → Call α}
    (hf : ∀ v d, amfLoadObject (dec.rest.length+1) dec = .ok (v,d) → Within I E (f (v,d))) :
    Within I E (loadObject dec >>= f) := by
  refine Act.within_lift_bind (h.throws ?_) fun p hp => hf p.1 p.2 hp
  refine (loadObjectWith_consumes ?_ (Nat.le_succ _)).1
  intro d hd
  exact amfLoad_consumes (by omega)

theorem loadEcma_bind_within {α : Type} {dec : Decoder} {f : AmfObject × Decoder → Call α}
    (hf : ∀ v d, (∀ p ∈ v, Loaded p.2) → Within I E (f (v,d))) :
    Within I E (loadEcma dec >>= f) := by
  refine Act.within_lift_bind (h.throws ?_) fun p hp => hf p.1 p.2 ?_
  · refine (loadEcmaWith_consumes ?_ (Nat.le_succ _)).1
    intro d hd
    exact amfLoad_consumes (by omega)
  · exact loadEcmaWith_loaded (fun _ _ _ => amfLoad_loaded) hp

theorem sendReply_within {reply status : AMFValue} (hreply : Loaded reply)
    (hstatus : Loaded status) (id : ℕ) (txid : UInt64) :
    Within I E (sendReply id txid reply status) := by
  unfold sendReply
  split_ifs
  · exact Act.within_pure ()
  · refine amfWrite_bind_within hreply fun _ => amfWrite_bind_within hstatus fun _ => ?_
    exact h.send _ _ _ _ _ _

theorem startPlayback_within (id : ℕ) : Within I E (startPlayback id) := by
  unfold startPlayback
  refine invoke_bind_within (by simp [str,Loaded.string]) fun _ => (h.send _ _ _ _ _ _).bind ?_
  refine fun _ => invoke_bind_within (by simp [str,Loaded.string]) fun _ => ?_
  refine (h.send _ _ _ _ _ _).bind fun _ => (h.send _ _ _ _ _ _).bind fun _ => ?_
  refine (Act.within_modify fun s hs => h.update s _ _ hs (by intro; rfl)).bind fun _ => ?_
  refine Act.within_get_bind fun s hs => ?_
  split_ifs
  · exact onMetaData_bind_within (h.loaded s hs) fun _ => h.send _ _ _ _ _ _
  · exact Act.within_pure ()

theorem handleConnect_within {dec : Decoder} (id : ℕ) (txid : UInt64)
    (hstr : ∀ o d, amfLoadObject (dec.rest.length+1) dec = .ok (o,d) → IsString (getValue o "app")) :
    Within I E (handleConnect id txid dec) := by
  refine loadObject_bind_within h fun o d ho => ?_
  refine asString_bind_within (hstr o d ho) fun app => ?_
  split_ifs
  · exact Act.within_throw (h.thrown _)
  · exact sendReply_within h (object_loaded (by simp [str,Loaded.string,Loaded.number]))
      (object_loaded (by simp [str,Loaded.string,Loaded.number])) _ _

theorem handleFcpublish_within (id : ℕ) (txid : UInt64) (dec : Decoder) :
    Within I E (handleFcpublish id txid dec) := by
  refine Act.within_get_bind fun s hs => ?_
  split_ifs
  · exact Act.within_throw (h.thrown _)
  · refine (Act.within_modify fun s hs => h.claimed s id hs).bind fun _ => ?_
    refine loadValue_bind_within h fun _ _ _ => loadString_bind_within h fun _ _ _ => ?_
    refine invoke_bind_within (by simp [str,Loaded.string]) fun _ => ?_
    exact (h.send _ _ _ _ _ _).bind fun _ => sendReply_within h .null .null _ _

theorem handlePublish_within (id : ℕ) (txid : UInt64) (dec : Decoder) :
    Within I E (handlePublish id txid dec) := by
  refine loadValue_bind_within h fun _ _ _ => loadString_bind_within h fun _ _ _ => ?_
  refine invoke_bind_within (by simp [str,Loaded.string]) fun _ => ?_
  exact (h.send _ _ _ _ _ _).bind fun _ => sendReply_within h .null .null _ _

theorem handlePlay_within (id : ℕ) (txid : UInt64) (dec : Decoder) :
    Within I E (handlePlay id txid dec) := by
  refine loadValue_bind_within h fun _ _ _ => loadString_bind_within h fun _ _ _ => ?_
  exact (startPlayback_within h id).bind fun _ => sendReply_within h .null .null _ _

theorem handlePlay2_within {dec : Decoder} (id : ℕ) (txid : UInt64)
    (hstr : ∀ v d o e, amfLoad (dec.rest.length+1) dec = .ok (v,d) →
      amfLoadObject (d.rest.length+1) d = .ok (o,e) → IsString (getValue o "streamName")) :
    Within I E (handlePlay2 id txid dec) := by
  refine loadValue_bind_within h fun v d hv => loadObject_bind_within h fun o e ho => ?_
  refine asString_bind_within (hstr v d o e hv ho) fun _ => ?_
  exact (startPlayback_within h id).bind fun _ => sendReply_within h .null .null _ _

theorem handlePause_within (id : ℕ) (txid : UInt64) (dec : Decoder) :
    Within I E (handlePause id txid dec) := by
  refine loadValue_bind_within h fun _ _ _ => ?_
  refine Act.within_lift_bind (h.throws (amfLoadBoolean_consumes _).1) fun p _ => ?_
  obtain ⟨paused,d⟩ := p
  cases paused with
  | true =>
    refine invoke_bind_within (by simp [str,Loaded.string]) fun _ => ?_
    refine (h.send _ _ _ _ _ _).bind fun _ => ?_
    refine (Act.within_modify fun s hs => h.update s _ _ hs (by intro; rfl)).bind fun _ => ?_
    exact sendReply_within h .null .null _ _
  | false => exact (startPlayback_within h id).bind fun _ => sendReply_within h .null .null _ _

theorem handleSetdataframe_within (id : ℕ) (dec : Decoder) :
    Within I E (handleSetdataframe id dec) := by
  refine Act.within_get_bind fun s hs => ?_
  split_ifs
  · exact Act.within_throw (h.thrown _)
  · refine loadString_bind_within h fun type d _ => ?_
    simp only
    split_ifs
    · exact Act.within_throw (h.thrown _)
    · refine loadEcma_bind_within h fun m d hm => ?_
      refine (Act.within_modify fun s hs => h.described s m hs hm).bind fun _ => ?_
      refine onMetaData_bind_within hm fun _ => forClients_within fun c => ?_
      split_ifs
      · exact h.send _ _ _ _ _ _
      · exact Act.within_pure ()

theorem handleNotify_within (id : ℕ) (msg : RTMPMessage) (dec : Decoder) :
    Within I E (handleNotify id msg dec) := by
  refine loadString_bind_within h fun type d _ => ?_
  simp only
  split_ifs
  · exact handleSetdataframe_within h id d
  · exact Act.within_pure ()

theorem handleAudio_within (id : ℕ) (msg : RTMPMessage) : Within I E (handleAudio id msg) := by
  refine Act.within_get_bind fun s hs => ?_
  split_ifs
  · exact Act.within_throw (h.thrown _)
  · refine forClients_within fun c => ?_
    split_ifs
    · exact h.send _ _ _ _ _ _
    · exact Act.within_pure ()

theorem relayVideo_within (msg : RTMPMessage) (c : Client) : Within I E (relayVideo msg c) := by
  have hsend (ready : Bool) : Within I E
      (if ready then rtmpSend c.id msgVideo streamId msg.buf msg.timestamp chanControl
      else pure ()) := by
    split_ifs
    · exact h.send _ _ _ _ _ _
    · exact Act.within_pure ()
  unfold relayVideo
  split_ifs with hplay hopen
  · refine (h.send _ _ _ _ _ _).bind fun _ => ?_
    refine (Act.within_modify fun s hs => h.update s _ _ hs (by intro; rfl)).bind fun _ => ?_
    exact hsend true
  · exact hsend c.ready
  · exact Act.within_pure ()

theorem handleVideo_within (id : ℕ) (msg : RTMPMessage) : Within I E (handleVideo id msg) := by
  refine Act.within_get_bind fun s hs => ?_
  split_ifs
  · exact Act.within_throw (h.thrown _)
  · exact forClients_within fun c => relayVideo_within h msg c

theorem handleInvoke_within {dec : Decoder} (id : ℕ) {msg : RTMPMessage}
    (hstr : ¬ assertsAt msg.endpoint dec) : Within I E (handleInvoke id msg dec) := by
  refine loadString_bind_within h fun method d₁ hmethod => ?_
  refine Act.within_lift_bind (h.throws (amfLoadNumber_consumes _).1) fun p htxid => ?_
  obtain ⟨txid,d₂⟩ := p
  simp only
  split_ifs with hcontrol hconnect _ _ hstream _ _ hplay
  · refine handleConnect_within h id txid fun o d ho => ?_
    by_contra hnot
    exact hstr ⟨method,d₁,txid,d₂,hmethod,htxid,Or.inl ⟨hcontrol,hconnect,o,d,ho,hnot⟩⟩
  · exact handleFcpublish_within h id txid d₂
  · exact sendReply_within h .null (.number _) id txid
  · exact Act.within_pure ()
  · exact handlePublish_within h id txid d₂
  · exact handlePlay_within h id txid d₂
  · refine handlePlay2_within h id txid fun v d o e hv ho => ?_
    by_contra hnot
    exact hstr ⟨method,d₁,txid,d₂,hmethod,htxid,Or.inr ⟨hstream,hplay,v,d,o,e,hv,ho,hnot⟩⟩
  · exact handlePause_within h id txid d₂
  · exact Act.within_pure ()
  · exact Act.within_pure ()

theorem handleMessage_within (k : ℕ) {msg : RTMPMessage} (hstr : ¬ Asserts msg)
    (hset : msg.type = msgSetChunk → 4 ≤ msg.buf.length →
      ∀ s, I s → I (s.update k fun c => { c with chunkLen := ofBe (msg.buf.take 4) })) :
    Within I E (handleMessage k msg) := by
  unfold handleMessage
  split_ifs with _ _ hchunk hlen hinvoke hinvoke3
  · exact Act.within_throw (h.thrown _)
  · exact Act.within_modify fun s hs => h.update s _ _ hs (fun _ => rfl)
  · exact Act.within_throw (h.thrown _)
  · exact Act.within_modify (hset hchunk (not_lt.mp hlen))
  · exact handleInvoke_within h k fun ha => hstr (Or.inl ⟨hinvoke,ha⟩)
  · exact handleInvoke_within h k fun ha => hstr (Or.inr ⟨hinvoke3,ha⟩)
  · exact handleNotify_within h k msg _
  · exact handleAudio_within h k msg
  · exact handleVideo_within h k msg
  · exact Act.within_throw (h.thrown _)
  · exact Act.within_pure ()

end

theorem mem_updateClient {f : Client → Client} {id : ℕ} {l : List Client} {c : Client}
    (h : c ∈ updateClient id f l) : c ∈ l ∨ ∃ d ∈ l, c = f d := by
  induction l with
  | nil => cases h
  | cons d l ih =>
    rw [updateClient] at h
    split_ifs at h
    · rcases List.mem_cons.mp h with rfl | h
      · exact Or.inr ⟨d,List.mem_cons_self,rfl⟩
      · exact Or.inl (List.mem_cons_of_mem d h)
    · rcases List.mem_cons.mp h with rfl | h
      · exact Or.inl List.mem_cons_self
      · rcases ih h with h | ⟨e,he,rfl⟩
        · exact Or.inl (List.mem_cons_of_mem d h)
        · exact Or.inr ⟨e,List.mem_cons_of_mem d he,rfl⟩

theorem sendChunks_error {c pos fuel : ℕ} {i : Channel} {buf : List UInt8}
    {q : List UInt8 × UInt32} {e : Exn} (h : sendChunks c i buf fuel pos q = .error e) :
    e = .fuel := by
  induction fuel generalizing pos q with
  | zero =>
    cases h
    rfl
  | succ fuel ih =>
    rw [sendChunks] at h
    split_ifs at h
    · exact ih h
    · exact ih h

def Server.Described (s : Server) : Prop := ∀ p ∈ s.metadata, Loaded p.2

/-- Every client has a chunk length with which sending ends, and no send meets a broken pipe. -/
structure Server.Sends (s : Server) : Prop where
  metadata : s.Described
  lengths : ∀ c ∈ s.clients, c.chunkLen ≠ 0
  answers : .broken ∉ s.answers

theorem tryToSend_within {I : Server → Prop} {E : Exn → Prop}
    (hthrown : ∀ what, E (.runtimeError what))
    (hkilled : ∀ s answers, I s → s.answers = .broken::answers → E .killed)
    (hanswers : ∀ s a answers, I s → s.answers = a::answers → I { s with answers := answers })
    (hupdate : ∀ s id f, I s → (∀ c, (f c).chunkLen = c.chunkLen) → I (s.update id f)) (id : ℕ) :
    Within I E (tryToSend id) := by
  intro s hs
  unfold tryToSend
  split
  · rename_i hanswer
    exact ⟨hupdate _ _ _ (hanswers s _ _ hs hanswer) (fun _ => rfl),by simp⟩
  · rename_i hanswer
    exact ⟨hanswers s _ _ hs hanswer,by simp⟩
  · rename_i hanswer
    refine ⟨hanswers s _ _ hs hanswer,?_⟩
    intro e he
    cases he
    exact hthrown _
  · rename_i hanswer
    refine ⟨hanswers s _ _ hs hanswer,?_⟩
    intro e he
    cases he
    exact hkilled s _ hs hanswer
  · exact ⟨hs,by simp⟩

theorem described_respected : Respected Server.Described (· ≠ .abort) where
  thrown := by simp
  loaded _ hs := hs
  described _ _ _ hm := hm
  claimed _ _ hs := hs
  update _ _ _ hs _ := hs
  send id type endpoint buf timestamp i := by
    refine Act.within_get_bind fun s hs => ?_
    split
    · exact Act.within_pure ()
    · refine Act.within_lift_bind ?_ fun q _ => ?_
      · intro e he
        rw [sendChunks_error he]
        simp
      · obtain ⟨queue,seq⟩ := q
        refine (Act.within_modify (by intro s hs; exact hs)).bind fun _ => ?_
        exact tryToSend_within (by simp) (by simp) (fun _ _ _ hs _ => hs)
          (fun _ _ _ hs _ => hs) id

theorem Server.Sends.update {s : Server} {id : ℕ} {f : Client → Client} (hs : s.Sends)
    (hf : ∀ c, c.chunkLen ≠ 0 → (f c).chunkLen ≠ 0) : (s.update id f).Sends := by
  refine ⟨hs.metadata,?_,hs.answers⟩
  intro c hc
  rcases mem_updateClient hc with hc | ⟨d,hd,rfl⟩
  · exact hs.lengths c hc
  · exact hf d (hs.lengths d hd)

theorem tryToSend_sends {E : Exn → Prop} (hthrown : ∀ what, E (.runtimeError what)) (id : ℕ) :
    Within Server.Sends E (tryToSend id) := by
  refine tryToSend_within hthrown ?_ ?_ ?_ id
  · intro s answers hs hanswers
    exact absurd (hanswers ▸ List.mem_cons_self) hs.answers
  · intro s a answers hs hanswers
    exact ⟨hs.metadata,hs.lengths,fun h => hs.answers (hanswers ▸ List.mem_cons_of_mem a h)⟩
  · exact fun s id f hs hf => hs.update fun c hc => by rwa [hf c]

theorem sends_respected {E : Exn → Prop} (hthrown : ∀ what, E (.runtimeError what)) :
    Respected Server.Sends E where
  thrown := hthrown
  loaded _ hs := hs.metadata
  described _ _ hs hm := ⟨hm,hs.lengths,hs.answers⟩
  claimed _ _ hs := ⟨hs.metadata,hs.lengths,hs.answers⟩
  update _ _ _ hs hf := hs.update fun c hc => by rwa [hf c]
  send id type endpoint buf timestamp i := by
    intro s hs
    cases hc : s.client? id with
    | none =>
      unfold rtmpSend
      simp only [Act.get_bind,hc]
      exact Act.within_pure () s hs
    | some c =>
      rw [rtmpSend_eq hc,if_pos (Or.inl (hs.lengths c (List.mem_of_find?_eq_some hc)))]
      exact tryToSend_sends hthrown id _ (hs.update fun _ hc => hc)

section

variable {k : ℕ} {msg : RTMPMessage} {s : Server}

theorem handleInvoke_asserts {dec : Decoder} (h : assertsAt msg.endpoint dec) :
    handleInvoke k msg dec s = (.error .abort,s) := by
  have hstr {v : AMFValue} (hv : ¬ IsString v) : asString v s = (.error .abort,s) := by
    cases v with
    | string name => exact absurd ⟨name,rfl⟩ hv
    | _ => rfl
  obtain ⟨method,d₁,txid,d₂,hmethod,htxid,h⟩ := h
  refine (Act.lift_ok_bind hmethod _ s).trans ?_
  refine (Act.lift_ok_bind htxid _ s).trans ?_
  rcases h with ⟨hcontrol,hconnect,o,d,ho,hnot⟩ | ⟨hstream,hplay,v,d,o,e,hv,ho,hnot⟩
  · simp only [if_pos hcontrol,if_pos hconnect]
    exact (Act.lift_ok_bind ho _ s).trans (Act.bind_error (hstr hnot))
  · have hcontrol : ¬ msg.endpoint = controlId := by
      rw [hstream]
      decide
    have hpublish : ¬ method = ascii "publish" := by
      rw [hplay]
      decide
    have hother : ¬ method = ascii "play" := by
      rw [hplay]
      decide
    simp only [if_neg hcontrol,if_pos hstream,if_neg hpublish,if_neg hother,if_pos hplay]
    refine (Act.lift_ok_bind hv _ s).trans ?_
    exact (Act.lift_ok_bind ho _ s).trans (Act.bind_error (hstr hnot))

theorem handleMessage_asserts (h : Asserts msg) : handleMessage k msg s = (.error .abort,s) := by
  rcases h with ⟨htype,h⟩ | ⟨htype,h⟩
  · have hmsg : handleMessage k msg s = handleInvoke k msg ⟨msg.buf,0,0⟩ s := by
      unfold handleMessage
      rw [htype]
      rfl
    rw [hmsg,handleInvoke_asserts h]
  · have hmsg : handleMessage k msg s = handleInvoke k msg ⟨msg.buf,1,0⟩ s := by
      unfold handleMessage
      rw [htype]
      rfl
    rw [hmsg,handleInvoke_asserts h]

/-- From any state, `connect` without a string `app` and `play2` without a string `streamName` are
the messages that end the server. -/
theorem handleMessage_abort_iff (hs : s.Described) :
    (handleMessage k msg s).1 = .error .abort ↔ Asserts msg := by
  constructor
  · intro h
    by_contra hnot
    exact ((handleMessage_within described_respected k hnot (fun _ _ _ hs => hs)) s hs).2 _ h rfl
  · intro h
    rw [handleMessage_asserts h]

end

theorem loadHeader_throws (header : RTMPHeader) (hlen : ℕ) (msg : RTMPMessage) :
    Throws (loadHeader header hlen msg) := by
  unfold loadHeader
  split_ifs
  · exact throws_error _
  · exact throws_ok _
  · exact throws_ok _
  · exact throws_ok _

theorem loadTimestamp_throws (header : RTMPHeader) (hlen : ℕ) (msg : RTMPMessage) :
    Throws (loadTimestamp header hlen msg) := by
  unfold loadTimestamp
  split_ifs
  · exact throws_error _
  · exact throws_ok _
  · exact throws_ok _
  · exact throws_ok _

theorem readChunk_throws {c : ℕ} {msg m : RTMPMessage} {buf : List UInt8} {e : Exn}
    (h : readChunk c msg buf = .fail m e) : ∃ what, e = .runtimeError what := by
  unfold readChunk at h
  split_ifs at h
  cases hheader : loadHeader (header buf) (headLen buf) msg with
  | error e' =>
    rw [hheader] at h
    cases h
    exact loadHeader_throws _ _ _ _ hheader
  | ok msg' =>
    rw [hheader] at h
    unfold readBody at h
    simp only at h
    split_ifs at h
    · cases h
      exact ⟨_,rfl⟩
    · cases hts : loadTimestamp (header buf) (headLen buf) msg' with
      | error e' =>
        rw [hts] at h
        cases h
        exact loadTimestamp_throws _ _ _ _ hts
      | ok ts =>
        rw [hts] at h
        cases h

theorem run_reader_throws {m m' : Messages} {r r' : Notes} {buf : List UInt8} {e : Exn}
    (h : run reader (m,r) buf = .failed (m',r') e) : ∃ what, e = .runtimeError what := by
  generalize ht : (m,r) = t at h
  clear ht
  induction t, buf using run_induction reader_stable with
  | more t buf t' hturn =>
    rw [run_more hturn] at h
    cases h
  | took t buf t' n hturn ih =>
    rw [run_took reader_stable hturn] at h
    exact ih h
  | fail t buf t' e' hturn =>
    rw [run_fail hturn] at h
    cases h
    by_cases hne : buf = []
    · subst hne
      rw [reader,recvTurn_nil] at hturn
      cases hturn
    · have hturned : Turned Prod.fst note t buf (reader t buf) := recvTurn_turned hne
      rw [hturn] at hturned
      cases hturned with
      | fail h => exact readChunk_throws h
      | thrown _ _ hh => cases hh

section

variable {k : ℕ} {c : Client} {s s' : Server}

theorem each_described {msgs : List RTMPMessage} (hs : s.Described)
    (h : each (handleMessage k) msgs s = (.ok (),s')) : s'.Described := by
  induction msgs generalizing s with
  | nil =>
    cases h
    exact hs
  | cons msg msgs ih =>
    obtain ⟨u,t,hmsg,hrest⟩ := Act.bind_eq_ok_iff.mp h
    exact ih (((handleMessage_moves k msg s).rel hmsg).metadata hs) hrest

theorem each_abort_iff {msgs : List RTMPMessage} (hs : s.Described) :
    (each (handleMessage k) msgs s).1 = .error .abort ↔
      ∃ before msg after s', msgs = before++msg::after ∧
        each (handleMessage k) before s = (.ok (),s') ∧ Asserts msg := by
  rw [Act.each_eq_error_iff]
  refine exists_congr fun before => exists_congr fun msg => exists_congr fun after =>
    exists_congr fun t => and_congr_right fun _ => and_congr_right fun hbefore => ?_
  exact handleMessage_abort_iff (each_described hs hbefore)

/-- The bytes that end the server are those that bring such a message when all before it has been
handled. -/
theorem recvFromClient_abort_iff (hs : s.Described) (hc : s.client? k = some c)
    (bytes : List UInt8) :
    (recvFromClient k (.data bytes) s).1 = .error .abort ↔
      ∃ before msg after s',
        (run reader (c.messages,c.chunkLen,[]) (c.buf++bytes)).state.2.2 = before++msg::after ∧
        each (handleMessage k) before s = (.ok (),s') ∧ Asserts msg := by
  obtain ⟨msgs,hmsgs,heq⟩ := recvFromClient_eq hc bytes
  rw [heq,hmsgs,← each_abort_iff hs]
  cases hread : run reader (c.messages,c.chunkLen,[]) (c.buf++bytes) with
  | waits t rest =>
    cases hmsg : each (handleMessage k) msgs s with
    | mk x s' =>
      cases x with
      | ok u => simp [finish,bind,hmsg]
      | error e => simp [finish,bind,hmsg]
  | failed t e =>
    obtain ⟨what,rfl⟩ := run_reader_throws hread
    cases hmsg : each (handleMessage k) msgs s with
    | mk x s' =>
      cases x with
      | ok u => simp [finish,bind,hmsg]
      | error e => simp [finish,bind,hmsg]

/-- A `connect` whose parameters have no `app`. -/
def nameless : Frame := ⟨msgInvoke,controlId,0,amfWriteString (ascii "connect")++amfWriteNumber 0++
  [3,0,0,9]⟩

theorem recvFromClient_abort_nameless : ∃ (s : Server) (c : Client),
    exec step (initial plenty) opening = .ok s ∧ s.client? 1 = some c ∧
      ((recvFromClient 1 (.data (frameBytes chanControl nameless)) s).1 = .error .abort ↔
        ∃ before msg after s',
          (run reader (c.messages,c.chunkLen,[])
            (c.buf++frameBytes chanControl nameless)).state.2.2 = before++msg::after ∧
          each (handleMessage 1) before s = (.ok (),s') ∧ Asserts msg) := by
  obtain ⟨s,c,hs,hc,-⟩ := exists_of_endsWith opening 1 (fun _ _ => true) (by decide +kernel)
  exact ⟨s,c,hs,hc,recvFromClient_abort_iff (exec_good hs).metadata hc _⟩

end

end Rtmp
end PcEnv
