import PcEnv.RtmpReads

/-! What a client sends does the same however it is cut into reads. -/
namespace PcEnv
namespace Rtmp

open Bytes Amf Runs Incremental
open Act (throw lift get modify each Blind)

theorem updateClient_pos {f : Client → Client} {id : ℕ} {c : Client} (h : c.id = id)
    (l : List Client) : updateClient id f (c::l) = f c::l := by
  rw [updateClient,if_pos h]

theorem updateClient_neg {f : Client → Client} {id : ℕ} {c : Client} (h : c.id ≠ id)
    (l : List Client) : updateClient id f (c::l) = c::updateClient id f l := by
  rw [updateClient,if_neg h]

theorem updateClient_comm {f g : Client → Client} (hf : ∀ c, (f c).id = c.id)
    (hg : ∀ c, (g c).id = c.id) (hcomm : ∀ c, f (g c) = g (f c)) (id k : ℕ) (l : List Client) :
    updateClient id f (updateClient k g l) = updateClient k g (updateClient id f l) := by
  induction l with
  | nil => rfl
  | cons c l ih =>
    by_cases hk : c.id = k
    · by_cases hid : c.id = id
      · rw [updateClient_pos hk,updateClient_pos ((hg c).trans hid),updateClient_pos hid,
          updateClient_pos ((hf c).trans hk),hcomm]
      · have hne : (g c).id ≠ id := fun h => hid ((hg c).symm.trans h)
        rw [updateClient_pos hk,updateClient_neg hne,updateClient_neg hid,updateClient_pos hk]
    · by_cases hid : c.id = id
      · have hne : (f c).id ≠ k := fun h => hk ((hf c).symm.trans h)
        rw [updateClient_neg hk,updateClient_pos hid,updateClient_pos hid,updateClient_neg hne]
      · rw [updateClient_neg hk,updateClient_neg hid,updateClient_neg hid,updateClient_neg hk,ih]

/-- What is kept of a client's bytes between two calls. -/
def Client.stash (messages : Messages) (buf : List UInt8) (c : Client) : Client :=
  { c with messages := messages, buf := buf }

def Server.stash (k : ℕ) (messages : Messages) (buf : List UInt8) (s : Server) : Server :=
  s.update k (Client.stash messages buf)

section

variable {k id : ℕ} {messages : Messages} {buf : List UInt8} {s : Server} {c : Client}

theorem client?_stash (hc : s.client? id = some c) :
    ∃ c', (s.stash k messages buf).client? id = some c' ∧
      (c' = c ∨ c' = c.stash messages buf) := by
  rw [Server.stash,Server.client?_update (by intro; rfl),hc]
  split_ifs
  · exact ⟨_,rfl,Or.inr rfl⟩
  · exact ⟨_,rfl,Or.inl rfl⟩

theorem client?_stash_none (hc : s.client? id = none) :
    (s.stash k messages buf).client? id = none := by
  rw [Server.stash,Server.client?_update (by intro; rfl),hc]
  split_ifs <;> rfl

theorem update_stash {f : Client → Client} (hf : ∀ c, (f c).id = c.id)
    (hcomm : ∀ c, f (c.stash messages buf) = (f c).stash messages buf) (s : Server) :
    (s.stash k messages buf).update id f = (s.update id f).stash k messages buf := by
  unfold Server.stash Server.update
  simp only
  rw [updateClient_comm hf (by intro; rfl) hcomm]

theorem update_blind {f : Client → Client} (hf : ∀ c, (f c).id = c.id)
    (hcomm : ∀ c, f (c.stash messages buf) = (f c).stash messages buf) :
    Blind (Server.stash k messages buf) (modify (fun s => s.update id f) : Call Unit) :=
  Act.blind_modify fun s => update_stash hf hcomm s

theorem tryToSend_blind (id : ℕ) : Blind (Server.stash k messages buf) (tryToSend id) := by
  intro s
  have hupdate (n : ℕ) (answers : List SendAnswer) :
      ({ s with answers := answers }.stash k messages buf).update id (Client.transmit n) =
        ({ s with answers := answers }.update id (Client.transmit n)).stash k messages buf :=
    update_stash (by intro; rfl) (by intro; rfl) _
  have hanswers : (s.stash k messages buf).answers = s.answers := rfl
  unfold tryToSend
  cases hc : s.client? id with
  | none =>
    simp only [client?_stash_none hc]
  | some c =>
    obtain ⟨c',hc',hsame⟩ := @client?_stash k id messages buf s c hc
    have hqueue : c'.sendQueue = c.sendQueue := by rcases hsame with rfl | rfl <;> rfl
    simp only [hc',hanswers]
    cases s.answers with
    | nil => rfl
    | cons answer answers =>
      cases answer with
      | wrote n =>
        simp only [hqueue]
        exact congrArg (Prod.mk _) (hupdate (min n (min c.sendQueue.length 4096)) answers)
      | again => rfl
      | failed why => rfl
      | broken => rfl

theorem rtmpSend_blind (id : ℕ) (type : UInt8) (endpoint : UInt32) (bytes : List UInt8)
    (timestamp : UInt64) (i : Channel) :
    Blind (Server.stash k messages buf) (rtmpSend id type endpoint bytes timestamp i) := by
  intro s
  cases hc : s.client? id with
  | none =>
    unfold rtmpSend
    simp only [Act.get_bind,hc,client?_stash_none hc]
    rfl
  | some c =>
    obtain ⟨c',hc',hsame⟩ := @client?_stash k id messages buf s c hc
    have hlen : c'.chunkLen = c.chunkLen := by rcases hsame with rfl | rfl <;> rfl
    rw [rtmpSend_eq hc,rtmpSend_eq hc',hlen]
    split_ifs
    · rw [update_stash (by intro; rfl) (by intro; rfl)]
      exact tryToSend_blind id _
    · rfl

theorem forClients_blind {f : Client → Call Unit} (hsame : ∀ c, f (c.stash messages buf) = f c)
    (hf : ∀ c, Blind (Server.stash k messages buf) (f c)) :
    Blind (Server.stash k messages buf) (forClients f) := by
  refine Act.blind_get_bind ?_ ?_
  · intro s
    exact congrArg (each _) (Server.ids_update (by intro; rfl))
  · intro s
    refine Act.blind_each (fun id t => ?_) _
    cases hc : t.client? id with
    | none =>
      simp only [Act.get_bind,hc,client?_stash_none hc]
      rfl
    | some c =>
      obtain ⟨c',hc',hstash⟩ := @client?_stash k id messages buf t c hc
      have hcall : f c' = f c := by
        rcases hstash with rfl | rfl
        · rfl
        · exact hsame c
      simp only [Act.get_bind,hc,hc',hcall]
      exact hf c t

theorem asString_blind (v : AMFValue) : Blind (Server.stash k messages buf) (asString v) := by
  cases v with
  | string s => exact Act.blind_pure s
  | _ => exact Act.blind_throw _

theorem invoke_blind (method : String) (status : AmfObject) :
    Blind (Server.stash k messages buf) (invoke method status) :=
  (Act.blind_lift _).bind fun _ => Act.blind_pure _

theorem onMetaData_blind (metadata : AmfObject) :
    Blind (Server.stash k messages buf) (onMetaData metadata) :=
  (Act.blind_lift _).bind fun _ => Act.blind_pure _

theorem sendReply_blind (id : ℕ) (txid : UInt64) (reply status : AMFValue) :
    Blind (Server.stash k messages buf) (sendReply id txid reply status) := by
  unfold sendReply
  split_ifs
  · exact Act.blind_pure ()
  · refine (Act.blind_lift _).bind fun _ => (Act.blind_lift _).bind fun _ => ?_
    exact rtmpSend_blind _ _ _ _ _ _

theorem startPlayback_blind (id : ℕ) :
    Blind (Server.stash k messages buf) (startPlayback id) := by
  refine (invoke_blind _ _).bind fun _ => (rtmpSend_blind _ _ _ _ _ _).bind fun _ => ?_
  refine (invoke_blind _ _).bind fun _ => (rtmpSend_blind _ _ _ _ _ _).bind fun _ => ?_
  refine (rtmpSend_blind _ _ _ _ _ _).bind fun _ => ?_
  refine (update_blind (by intro; rfl) (by intro; rfl)).bind fun _ => ?_
  refine Act.blind_get_bind (fun _ => rfl) fun s => ?_
  split_ifs
  · exact (onMetaData_blind _).bind fun _ => rtmpSend_blind _ _ _ _ _ _
  · exact Act.blind_pure ()

theorem handleConnect_blind (id : ℕ) (txid : UInt64) (dec : Decoder) :
    Blind (Server.stash k messages buf) (handleConnect id txid dec) := by
  refine (Act.blind_lift _).bind fun p => (asString_blind _).bind fun app => ?_
  split_ifs
  · exact Act.blind_throw _
  · exact sendReply_blind _ _ _ _

theorem handleFcpublish_blind (id : ℕ) (txid : UInt64) (dec : Decoder) :
    Blind (Server.stash k messages buf) (handleFcpublish id txid dec) := by
  refine Act.blind_get_bind (fun _ => rfl) fun s => ?_
  split_ifs
  · exact Act.blind_throw _
  · refine (Act.blind_modify (f:=fun s : Server => { s with publisher := some id }) fun _ => rfl).bind ?_
    refine fun _ => (Act.blind_lift _).bind fun _ => (Act.blind_lift _).bind fun _ => ?_
    refine (invoke_blind _ _).bind fun _ => (rtmpSend_blind _ _ _ _ _ _).bind fun _ => ?_
    exact sendReply_blind _ _ _ _

theorem handlePublish_blind (id : ℕ) (txid : UInt64) (dec : Decoder) :
    Blind (Server.stash k messages buf) (handlePublish id txid dec) := by
  refine (Act.blind_lift _).bind fun _ => (Act.blind_lift _).bind fun _ => ?_
  refine (invoke_blind _ _).bind fun _ => (rtmpSend_blind _ _ _ _ _ _).bind fun _ => ?_
  exact sendReply_blind _ _ _ _

theorem handlePlay_blind (id : ℕ) (txid : UInt64) (dec : Decoder) :
    Blind (Server.stash k messages buf) (handlePlay id txid dec) := by
  refine (Act.blind_lift _).bind fun _ => (Act.blind_lift _).bind fun _ => ?_
  exact (startPlayback_blind id).bind fun _ => sendReply_blind _ _ _ _

theorem handlePlay2_blind (id : ℕ) (txid : UInt64) (dec : Decoder) :
    Blind (Server.stash k messages buf) (handlePlay2 id txid dec) := by
  refine (Act.blind_lift _).bind fun _ => (Act.blind_lift _).bind fun _ => ?_
  refine (asString_blind _).bind fun _ => ?_
  exact (startPlayback_blind id).bind fun _ => sendReply_blind _ _ _ _

theorem handlePause_blind (id : ℕ) (txid : UInt64) (dec : Decoder) :
    Blind (Server.stash k messages buf) (handlePause id txid dec) := by
  refine (Act.blind_lift _).bind fun _ => (Act.blind_lift _).bind ?_
  rintro ⟨paused,d⟩
  cases paused with
  | true =>
    refine (invoke_blind _ _).bind fun _ => (rtmpSend_blind _ _ _ _ _ _).bind fun _ => ?_
    refine (update_blind (by intro; rfl) (by intro; rfl)).bind fun _ => ?_
    exact sendReply_blind _ _ _ _
  | false => exact (startPlayback_blind id).bind fun _ => sendReply_blind _ _ _ _

theorem handleSetdataframe_blind (id : ℕ) (dec : Decoder) :
    Blind (Server.stash k messages buf) (handleSetdataframe id dec) := by
  refine Act.blind_get_bind (fun _ => rfl) fun s => ?_
  split_ifs
  · exact Act.blind_throw _
  · refine (Act.blind_lift _).bind ?_
    rintro ⟨type,d⟩
    simp only
    split_ifs
    · exact Act.blind_throw _
    · refine (Act.blind_lift _).bind ?_
      rintro ⟨metadata,d⟩
      refine (Act.blind_modify (f:=fun s : Server => { s with metadata := metadata }) fun _ => rfl).bind ?_
      refine fun _ => (onMetaData_blind _).bind fun _ => forClients_blind (fun _ => rfl) fun c => ?_
      split_ifs
      · exact rtmpSend_blind _ _ _ _ _ _
      · exact Act.blind_pure ()

theorem handleInvoke_blind (id : ℕ) (msg : RTMPMessage) (dec : Decoder) :
    Blind (Server.stash k messages buf) (handleInvoke id msg dec) := by
  refine (Act.blind_lift _).bind fun _ => (Act.blind_lift _).bind ?_
  rintro ⟨txid,d⟩
  simp only
  split_ifs
  · exact handleConnect_blind _ _ _
  · exact handleFcpublish_blind _ _ _
  · exact sendReply_blind _ _ _ _
  · exact Act.blind_pure ()
  · exact handlePublish_blind _ _ _
  · exact handlePlay_blind _ _ _
  · exact handlePlay2_blind _ _ _
  · exact handlePause_blind _ _ _
  · exact Act.blind_pure ()
  · exact Act.blind_pure ()

theorem handleNotify_blind (id : ℕ) (msg : RTMPMessage) (dec : Decoder) :
    Blind (Server.stash k messages buf) (handleNotify id msg dec) := by
  refine (Act.blind_lift _).bind ?_
  rintro ⟨type,d⟩
  simp only
  split_ifs
  · exact handleSetdataframe_blind _ _
  · exact Act.blind_pure ()

theorem handleAudio_blind (id : ℕ) (msg : RTMPMessage) :
    Blind (Server.stash k messages buf) (handleAudio id msg) := by
  refine Act.blind_get_bind (fun _ => rfl) fun s => ?_
  split_ifs
  · exact Act.blind_throw _
  · refine forClients_blind (fun _ => rfl) fun c => ?_
    split_ifs
    · exact rtmpSend_blind _ _ _ _ _ _
    · exact Act.blind_pure ()

theorem relayVideo_blind (msg : RTMPMessage) (c : Client) :
    Blind (Server.stash k messages buf) (relayVideo msg c) := by
  have hsend (ready : Bool) : Blind (Server.stash k messages buf)
      (if ready then rtmpSend c.id msgVideo streamId msg.buf msg.timestamp chanControl
      else pure ()) := by
    split_ifs
    · exact rtmpSend_blind _ _ _ _ _ _
    · exact Act.blind_pure ()
  unfold relayVideo
  split_ifs
  · refine (rtmpSend_blind _ _ _ _ _ _).bind fun _ => ?_
    refine (update_blind (by intro; rfl) (by intro; rfl)).bind fun _ => ?_
    exact hsend true
  · exact hsend c.ready
  · exact Act.blind_pure ()

theorem handleVideo_blind (id : ℕ) (msg : RTMPMessage) :
    Blind (Server.stash k messages buf) (handleVideo id msg) := by
  refine Act.blind_get_bind (fun _ => rfl) fun s => ?_
  split_ifs
  · exact Act.blind_throw _
  · exact forClients_blind (fun _ => rfl) fun c => relayVideo_blind msg c

theorem handleMessage_blind (id : ℕ) (msg : RTMPMessage) :
    Blind (Server.stash k messages buf) (handleMessage id msg) := by
  unfold handleMessage
  split_ifs
  · exact Act.blind_throw _
  · exact update_blind (by intro; rfl) (by intro; rfl)
  · exact Act.blind_throw _
  · exact update_blind (by intro; rfl) (by intro; rfl)
  · exact handleInvoke_blind _ _ _
  · exact handleInvoke_blind _ _ _
  · exact handleNotify_blind _ _ _
  · exact handleAudio_blind _ _
  · exact handleVideo_blind _ _
  · exact Act.blind_throw _
  · exact Act.blind_pure ()

theorem closeClient_stash (s : Server) :
    closeClient k (s.stash k messages buf) = closeClient k s := by
  have hfilter (l : List Client) : (updateClient k (Client.stash messages buf) l).filter
      (fun c => c.id ≠ k) = l.filter (fun c => c.id ≠ k) := by
    induction l with
    | nil => rfl
    | cons c l ih =>
      by_cases hc : c.id = k
      · have hstash : (c.stash messages buf).id = k := hc
        rw [updateClient_pos hc,List.filter_cons_of_neg (by simpa using hstash),
          List.filter_cons_of_neg (by simpa using hc)]
      · rw [updateClient_neg hc,List.filter_cons_of_pos (by simpa using hc),ih,
          List.filter_cons_of_pos (by simpa using hc)]
  unfold closeClient Server.stash Server.update
  simp only [hfilter]

theorem reader_noted (noted : List RTMPMessage) (t : Messages × Notes) (bytes : List UInt8) :
    reader (t.1,t.2.1,noted++t.2.2) bytes =
      (reader t bytes).map (fun t => (t.1,t.2.1,noted++t.2.2)) := by
  unfold reader recvTurn
  by_cases hne : bytes = []
  · simp only [if_pos hne]
    rfl
  · simp only [if_neg hne]
    cases readChunk t.2.1 (t.1 (channel (bytes.headD 0))) bytes with
    | more msg => rfl
    | fail msg e => rfl
    | took msg n =>
      by_cases hfull : msg.buf.length = msg.len
      · simp only [if_pos hfull,note,Turn.map,List.append_assoc]
      · simp only [if_neg hfull,Turn.map]

theorem each_append_ok {msgs more : List RTMPMessage} {t : Server}
    (h : each (handleMessage k) msgs s = (.ok (),t)) :
    each (handleMessage k) (msgs++more) s = each (handleMessage k) more t := by
  induction msgs generalizing s with
  | nil =>
    cases h
    rfl
  | cons msg msgs ih =>
    obtain ⟨u,t',hmsg,hrest⟩ := Act.bind_eq_ok_iff.mp h
    exact (Act.bind_ok hmsg).trans (ih hrest)

theorem recvFromClient_first {a : List UInt8} {t : Server} (hc : s.client? k = some c)
    (h : recvFromClient k (.data a) s = (.ok (),t)) :
    ∃ m rest noted u d, run reader (c.messages,c.chunkLen,[]) (c.buf++a) =
        .waits (m,d.chunkLen,noted) rest ∧
      each (handleMessage k) noted s = (.ok (),u) ∧ u.client? k = some d ∧ t = u.stash k m rest := by
  obtain ⟨msgs,hmsgs,heq⟩ := recvFromClient_eq hc a
  rw [heq] at h
  cases hrun : run reader (c.messages,c.chunkLen,[]) (c.buf++a) with
  | failed q e =>
    rw [hrun] at h
    obtain ⟨p,u,hfinish,-⟩ := Act.bind_eq_ok_iff.mp h
    obtain ⟨_,_,-,hthrow⟩ := Act.bind_eq_ok_iff.mp hfinish
    cases hthrow
  | waits q rest =>
    obtain ⟨m,n,noted⟩ := q
    rw [hrun] at h hmsgs
    obtain rfl : noted = msgs := hmsgs
    obtain ⟨p,u,hfinish,hstash⟩ := Act.bind_eq_ok_iff.mp h
    obtain ⟨_,u',heach,hpure⟩ := Act.bind_eq_ok_iff.mp hfinish
    cases hpure
    cases hstash
    obtain ⟨d,hd,-,hlen⟩ := each_client hc heach
    have hn : n = d.chunkLen := by
      obtain ⟨ms,hms⟩ := run_reader_notes c.messages (c.chunkLen,[]) (c.buf++a)
      rw [hrun] at hms
      obtain ⟨hfold,hnoted⟩ := Prod.mk.inj hms
      rw [hlen,hnoted,hfold]
      rfl
    subst hn
    exact ⟨m,rest,noted,u,d,rfl,heach,hd,rfl⟩

def conclude (k : ℕ) (place : Place UInt8 (Messages × Notes) Exn) :
    Except Exn Unit × Server → Except Exn Unit × Server
  | (.error e,v) => (.error e,v)
  | (.ok (),v) =>
    match place with
    | .waits q rest => (.ok (),v.stash k q.1 rest)
    | .failed _ e => (.error e,v)

theorem recvFromClient_conclude {bytes : List UInt8} (hc : s.client? k = some c) :
    recvFromClient k (.data bytes) s =
      conclude k (run reader (c.messages,c.chunkLen,[]) (c.buf++bytes))
        (each (handleMessage k)
          (run reader (c.messages,c.chunkLen,[]) (c.buf++bytes)).state.2.2 s) := by
  obtain ⟨msgs,hmsgs,heq⟩ := recvFromClient_eq hc bytes
  rw [heq,hmsgs]
  cases hres : each (handleMessage k) msgs s with
  | mk x v =>
    cases x with
    | error e =>
      cases run reader (c.messages,c.chunkLen,[]) (c.buf++bytes) with
      | waits q rest => exact Act.bind_error (Act.bind_error hres)
      | failed q e' => exact Act.bind_error (Act.bind_error hres)
    | ok y =>
      cases run reader (c.messages,c.chunkLen,[]) (c.buf++bytes) with
      | waits q rest =>
        have hfinish : finish k msgs (.waits q rest) s = (.ok (q.1,rest),v) := Act.bind_ok hres
        exact Act.bind_ok hfinish
      | failed q e' => exact Act.bind_error (Act.bind_ok hres)

theorem conclude_stash (place : Place UInt8 (Messages × Notes) Exn) (x : Except Exn Unit)
    (v : Server) :
    conclude k place (x,v.stash k messages buf) = conclude k place (x,v) ∨
      ∃ e v', conclude k place (x,v) = (.error e,v') ∧
        conclude k place (x,v.stash k messages buf) = (.error e,v'.stash k messages buf) := by
  cases x with
  | error e => exact Or.inr ⟨e,v,rfl,rfl⟩
  | ok y =>
    cases place with
    | failed q e => exact Or.inr ⟨e,v,rfl,rfl⟩
    | waits q rest =>
      refine Or.inl (congrArg (Prod.mk _) ?_)
      unfold Server.stash
      rw [Server.update_update (by intro; rfl)]
      rfl

/-- Two pieces are as good as one, but for what is kept of the bytes when the second throws. -/
theorem recvFromClient_pieces {a : List UInt8} {t : Server} (hc : s.client? k = some c)
    (h : recvFromClient k (.data a) s = (.ok (),t)) (b : List UInt8) :
    recvFromClient k (.data b) t = recvFromClient k (.data (a++b)) s ∨
      ∃ e v messages rest, recvFromClient k (.data (a++b)) s = (.error e,v) ∧
        recvFromClient k (.data b) t = (.error e,v.stash k messages rest) := by
  obtain ⟨m,rest,noted,u,d,hfirst,heach,hd,rfl⟩ := recvFromClient_first hc h
  have ht : (u.stash k m rest).client? k = some (d.stash m rest) :=
    Server.client?_update_self (by intro; rfl) hd
  -- The reader that has had both pieces has noted what the second brings behind the first.
  have hfeed := feed_run reader_stable (c.messages,c.chunkLen,[]) (c.buf++a) b
  have hmap := run_map (reader_noted noted) (m,d.chunkLen,[]) (rest++b)
  rw [hfirst,feed,List.append_assoc] at hfeed
  simp only [List.append_nil] at hmap
  have hwhole := @recvFromClient_conclude k s c (a++b) hc
  rw [← hfeed,hmap] at hwhole
  have hsecond : recvFromClient k (.data b) (u.stash k m rest) =
      conclude k (run reader (m,d.chunkLen,[]) (rest++b)) (each (handleMessage k)
        (run reader (m,d.chunkLen,[]) (rest++b)).state.2.2 (u.stash k m rest)) :=
    recvFromClient_conclude ht
  generalize run reader (m,d.chunkLen,[]) (rest++b) = place at hwhole hsecond
  have hmsgs : (place.map fun t => (t.1,t.2.1,noted++t.2.2)).state.2.2 =
      noted++place.state.2.2 := by cases place <;> rfl
  have hplace (x : Except Exn Unit × Server) :
      conclude k (place.map fun t => (t.1,t.2.1,noted++t.2.2)) x = conclude k place x := by
    obtain ⟨r,v⟩ := x
    cases r <;> cases place <;> rfl
  rw [hmsgs,each_append_ok heach,hplace] at hwhole
  have hblind := Act.blind_each (fun msg => @handleMessage_blind k m rest k msg)
    place.state.2.2 u
  rw [hblind] at hsecond
  rw [hwhole,hsecond]
  rcases conclude_stash place (each (handleMessage k) place.state.2.2 u).1
    (each (handleMessage k) place.state.2.2 u).2 with hsame | ⟨e,v,hone,htwo⟩
  · exact Or.inl hsame
  · exact Or.inr ⟨e,v,m,rest,hone,htwo⟩

/-- Two reads of a client that stays come to what one read of both comes to. -/
theorem step_pieces {a b : List UInt8} {t : Server} (h : step s (.readable k (.data a)) = .ok t)
    (hk : t.client? k ≠ none) :
    step t (.readable k (.data b)) = step s (.readable k (.data (a++b))) := by
  obtain ⟨d,hd⟩ := Option.ne_none_iff_exists'.mp hk
  obtain ⟨c,hc,hcall⟩ := serve_ok hd h
  simp only [step,serve,hc,hd]
  rcases recvFromClient_pieces hc hcall b with hsame | ⟨e,v,messages,rest,hwhole,hsecond⟩
  · rw [hsame]
  · rw [hwhole,hsecond]
    cases e with
    | runtimeError what => simp only [closeClient_stash]
    | abort => rfl
    | killed => rfl
    | fuel => rfl

theorem step_joined {t : Server} (piece : List UInt8) (pieces : List (List UInt8))
    (h : exec step s (.readable k (.data piece)::pieces.map fun p => .readable k (.data p)) = .ok t) :
    step s (.readable k (.data (piece++pieces.flatten))) = .ok t := by
  induction pieces generalizing piece with
  | nil =>
    obtain ⟨u,hstep,hnil⟩ := exec_cons_ok.mp h
    cases hnil
    simpa using hstep
  | cons q pieces ih =>
    obtain ⟨u,hfirst,hrest⟩ := exec_cons_ok.mp h
    obtain ⟨w,hsecond,hrest⟩ := exec_cons_ok.mp hrest
    have hk : u.client? k ≠ none := by
      intro hnone
      simp [step,serve,hnone] at hsecond
    rw [step_pieces hfirst hk] at hsecond
    have hjoined := ih (piece++q) (exec_cons_ok.mpr ⟨w,hsecond,hrest⟩)
    rwa [List.append_assoc] at hjoined

/-- How the bytes of a client are cut into reads makes no difference: one read of all of them comes
to the same clients, queues and bytes on the sockets. -/
theorem exec_pieces {t : Server} (piece : List UInt8) (pieces : List (List UInt8))
    (h : exec step s ((piece::pieces).map fun p => .readable k (.data p)) = .ok t) :
    step s (.readable k (.data (piece++pieces.flatten))) = .ok t :=
  step_joined piece pieces h

theorem exec_pieces_picture : ∃ (s t : Server), exec step (initial plenty) opening = .ok s ∧
    exec step s ([(frameBytes chanStream picture).take 5,(frameBytes chanStream picture).drop 5].map
      fun p => .readable 1 (.data p)) = .ok t ∧
    step s (.readable 1 (.data ((frameBytes chanStream picture).take 5++
      [(frameBytes chanStream picture).drop 5].flatten))) = .ok t := by
  obtain ⟨s,-,t,-,hs,-,-,ht,-,-⟩ := exists_of_endsWith_append opening
    ([(frameBytes chanStream picture).take 5,(frameBytes chanStream picture).drop 5].map
      fun p => .readable 1 (.data p)) 1 1 (fun _ _ => true) (fun _ _ => true)
    (by decide +kernel) (by decide +kernel)
  exact ⟨s,t,hs,ht,exec_pieces _ _ ht⟩

theorem run_reader_inbox {n : ℕ} {m m' : Messages} {got got' : List (Channel × RTMPMessage)}
    {buf rest : List UInt8} (h : run (inbox n) (m,got) buf = .waits (m',got') rest)
    (hset : ∀ p ∈ got', p.2.type ≠ msgSetChunk) :
    run reader (m,n,got.map Prod.snd) buf = .waits (m',n,got'.map Prod.snd) rest := by
  induction hlen : buf.length using Nat.strong_induction_on generalizing m got buf with
  | _ l ih =>
    by_cases hne : buf = []
    · subst hne
      have hinbox : inbox n (m,got) [] = .more (m,got) := recvTurn_nil _
      have hreader : reader (m,n,got.map Prod.snd) [] = .more (m,n,got.map Prod.snd) :=
        recvTurn_nil _
      rw [run_more hinbox] at h
      cases h
      exact run_more hreader
    · have hturn : Turned (fun _ => n) keep (m,got) buf (inbox n (m,got) buf) :=
        recvTurn_turned hne
      generalize hx : inbox n (m,got) buf = x at hturn
      cases hturn with
      | more hread =>
        have hreader : reader (m,n,got.map Prod.snd) buf = .more _ := (Turned.more hread).eq hne
        rw [run_more hx] at h
        cases h
        exact run_more hreader
      | fail hread =>
        rw [run_fail hx] at h
        cases h
      | part hread hpart =>
        have hreader : reader (m,n,got.map Prod.snd) buf = .took _ _ :=
          (Turned.part hread hpart).eq hne
        have hbounds := readChunk_bounds hread
        rw [run_took (inbox_stable n) hx] at h
        rw [run_took reader_stable hreader]
        exact ih _ (by rw [← hlen,List.length_drop]; omega) h rfl
      | @handled msg w _ hread hfull hh =>
        cases hh
        have hreader : reader (m,n,got.map Prod.snd) buf = .took _ _ :=
          (Turned.handled hread hfull rfl).eq hne
        have hbounds := readChunk_bounds hread
        rw [run_took (inbox_stable n) hx] at h
        rw [run_took reader_stable hreader]
        have hmono := run_inbox_mono (c:=n) (Function.update m (channel (buf.headD 0))
          { msg with buf := [] },got++[(channel (buf.headD 0),msg)]) (buf.drop w)
        rw [h] at hmono
        have htype := hset _ (hmono.subset (List.mem_append_right _ List.mem_cons_self))
        have hsame : nextChunkLen n msg = n := if_neg fun h => htype h.1
        have hnext := ih _ (by rw [← hlen,List.length_drop]; omega) h rfl
        rw [List.map_append,List.map_singleton] at hnext
        simp only [hsame]
        exact hnext
      | thrown _ _ hh => cases hh

theorem recvFromClient_interleaved (hc : s.client? k = some c) (hpos : 0 < c.chunkLen)
    (hidle : c.buf = [] ∧ ∀ i, (c.messages i).buf = []) {fs : Channel → List Frame}
    (hf : ∀ i, ∀ f ∈ fs i, f.Fits ∧ f.type ≠ msgSetChunk) {ws : List (List UInt8)}
    (hws : ∀ i, ws.filter (fun w => chunkChannel w = i) =
      (fs i).flatMap (Frame.chunks c.chunkLen i)) :
    ∃ got msgs, (∀ i, ofChannel i got = (fs i).map Frame.message) ∧ (∀ i, (msgs i).buf = []) ∧
      recvFromClient k (.data ws.flatten) s =
        (each (handleMessage k) (got.map Prod.snd) >>= fun _ =>
          modify (Server.stash k msgs [])) s := by
  choose msgs hmsgs hrun using fun i =>
    channelRun_frames hpos (fun f hfi => (hf i f hfi).1) (hidle.2 i) i
  obtain ⟨got,hgot,hout⟩ := @run_interleaved c.chunkLen ws c.messages [] msgs
    (fun i => (fs i).map Frame.message) (fun i => by rw [hws i,hrun i]) []
  refine ⟨got,msgs,hout,hmsgs,?_⟩
  rw [List.append_nil,run_inbox_nil,List.nil_append] at hgot
  have hset : ∀ p ∈ got, p.2.type ≠ msgSetChunk := by
    intro p hp
    have hmem : p.2 ∈ ofChannel p.1 got :=
      List.mem_map_of_mem (List.mem_filter.mpr ⟨hp,by simp⟩)
    rw [hout] at hmem
    obtain ⟨f,hfi,heq⟩ := List.mem_map.mp hmem
    rw [← heq]
    exact (hf p.1 f hfi).2
  have hread := run_reader_inbox hgot hset
  rw [recvFromClient_conclude hc,hidle.1,List.nil_append]
  simp only [List.map_nil] at hread
  rw [hread]
  simp only [Place.state]
  cases hx : each (handleMessage k) (got.map Prod.snd) s with
  | mk r v =>
    cases r with
    | error e => exact (Act.bind_error hx).symm
    | ok u =>
      refine Eq.trans ?_ (Act.bind_ok hx).symm
      rfl

/-- Whatever stands between the chunks of a message and however the bytes are cut into reads: while
the client stays, the messages of each channel are handled as they were sent, and nothing is left
over. -/
theorem exec_interleaved (hc : s.client? k = some c) (hpos : 0 < c.chunkLen)
    (hidle : c.buf = [] ∧ ∀ i, (c.messages i).buf = []) {fs : Channel → List Frame}
    (hf : ∀ i, ∀ f ∈ fs i, f.Fits ∧ f.type ≠ msgSetChunk) {ws : List (List UInt8)}
    (hws : ∀ i, ws.filter (fun w => chunkChannel w = i) =
      (fs i).flatMap (Frame.chunks c.chunkLen i))
    {piece : List UInt8} {pieces : List (List UInt8)} (hpieces : piece++pieces.flatten = ws.flatten)
    {t : Server} (h : exec step s ((piece::pieces).map fun p => .readable k (.data p)) = .ok t)
    (hk : t.client? k ≠ none) :
    ∃ got msgs u, (∀ i, ofChannel i got = (fs i).map Frame.message) ∧ (∀ i, (msgs i).buf = []) ∧
      each (handleMessage k) (got.map Prod.snd) s = (.ok (),u) ∧ t = u.stash k msgs [] := by
  have hstep := step_joined piece pieces h
  rw [hpieces] at hstep
  obtain ⟨d,hd⟩ := Option.ne_none_iff_exists'.mp hk
  obtain ⟨-,-,hcall⟩ := serve_ok hd hstep
  obtain ⟨got,msgs,hgot,hmsgs,hread⟩ := recvFromClient_interleaved hc hpos hidle hf hws
  obtain ⟨_,u,heach,hmodify⟩ := Act.bind_eq_ok_iff.mp (hread.symm.trans hcall)
  cases hmodify
  exact ⟨got,msgs,u,hgot,hmsgs,heach,rfl⟩

/-- A sound and a picture in chunks of two bytes, the second within the first, in two reads. -/
theorem exec_interleaved_two :
    let sound : Frame := ⟨msgAudio,streamId,0,[1,2,3]⟩
    let view : Frame := ⟨msgVideo,streamId,0,[0x17,5,6]⟩
    let chunks := [sound.header 3++[1,2],view.header 4++[0x17,5],[nextFlags 4,6],[nextFlags 3,3]]
    ∃ (s t : Server), exec step (initial plenty) (opening++
        [.readable 1 (.data (frameBytes chanControl ⟨msgSetChunk,controlId,0,[0,0,0,2]⟩))]) = .ok s ∧
      exec step s ([chunks.flatten.take 20,chunks.flatten.drop 20].map
        fun p => .readable 1 (.data p)) = .ok t ∧
      ∃ got msgs u, (∀ i, ofChannel i got =
          (if i = 3 then [sound] else if i = 4 then [view] else []).map Frame.message) ∧
        (∀ i, (msgs i).buf = []) ∧
        each (handleMessage 1) (got.map Prod.snd) s = (.ok (),u) ∧ t = u.stash 1 msgs [] := by
  intro sound view chunks
  obtain ⟨s,c,t,d,hs,hc,hidle,ht,hd,-⟩ := exists_of_endsWith_append (opening++
      [.readable 1 (.data (frameBytes chanControl ⟨msgSetChunk,controlId,0,[0,0,0,2]⟩))])
    ([chunks.flatten.take 20,chunks.flatten.drop 20].map fun p => .readable 1 (.data p)) 1 1
    (fun _ c => c.chunkLen = 2 ∧ c.buf = [] ∧ ∀ i, (c.messages i).buf = []) (fun _ _ => true)
    (by decide +kernel) (by decide +kernel)
  obtain ⟨hlen,hidle⟩ := of_decide_eq_true hidle
  have hchunks : ∀ i, chunks.filter (fun w => chunkChannel w = i) =
      (if i = 3 then [sound] else if i = 4 then [view] else []).flatMap (Frame.chunks 2 i) := by
    decide +kernel
  refine ⟨s,t,hs,ht,exec_interleaved hc (hlen ▸ Nat.two_pos) hidle ?_ (hlen ▸ hchunks) (by simp) ht
    (by simp [hd])⟩
  intro i f hf
  split_ifs at hf
  · rw [List.mem_singleton.mp hf]
    decide
  · rw [List.mem_singleton.mp hf]
    decide
  · cases hf

end

end Rtmp
end PcEnv
