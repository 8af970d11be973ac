import Mathlib.Data.List.TakeWhile
import PcEnv.RtmpReads

/-! What the publisher's messages are to each client. -/
namespace PcEnv
namespace Rtmp

open Bytes Amf Runs Incremental
open Act (each get modify)

/-- A client hears audio when it is ready, paused or not, and sees video while it plays, from a key
frame on. -/
def share (msg : RTMPMessage) (c : Client) : List Sent :=
  if msg.type = msgAudio then
    if c.ready then [.frame c.chunkLen chanStream (relayed msg)] else []
  else if c.playing then
    if c.ready then [.frame c.chunkLen chanStream (relayed msg)]
    else if isKeyFrame msg.buf then
      [.frame c.chunkLen chanControl clearFrame,.frame c.chunkLen chanStream (relayed msg)]
    else []
  else []

def readyAfter (msg : RTMPMessage) (c : Client) : Bool :=
  c.ready || (msg.type = msgVideo && c.playing && isKeyFrame msg.buf)

structure Shared (msg : RTMPMessage) (c c' : Client) : Prop where
  log : c'.log = c.log++share msg c
  ready : c'.ready = readyAfter msg c
  playing : c'.playing = c.playing
  chunkLen : c'.chunkLen = c.chunkLen

section

variable {j : ℕ} {s s' : Server} {c : Client}

theorem tryToSend_others {l : ℕ} (hl : l ≠ j) (s : Server) :
    (tryToSend j s).2.client? l = s.client? l := by
  unfold tryToSend
  split
  · exact Server.client?_update_ne (fun _ => rfl) hl
  · rfl
  · rfl
  · rfl
  · rfl

theorem rtmpSend_client {type : UInt8} {endpoint : UInt32} {buf : List UInt8} {timestamp : UInt64}
    {i : Channel} (hc : s.client? j = some c)
    (h : rtmpSend j type endpoint buf timestamp i s = (.ok (),s')) :
    (∃ n, s'.client? j =
      some ((c.queue (sendChannel endpoint i) ⟨type,endpoint,timestamp,buf⟩).transmit n)) ∧
      ∀ l, l ≠ j → s'.client? l = s.client? l := by
  rw [rtmpSend_eq hc] at h
  split_ifs at h
  · have hsnd : (tryToSend j (s.update j
        (Client.queue (sendChannel endpoint i) ⟨type,endpoint,timestamp,buf⟩))).2 = s' :=
      congrArg Prod.snd h
    subst hsnd
    refine ⟨tryToSend_client (Server.client?_update_self (fun _ => rfl) hc),?_⟩
    intro l hl
    exact (tryToSend_others hl _).trans (Server.client?_update_ne (fun _ => rfl) hl)
  · cases h

def forClient (f : Client → Call Unit) (id : ℕ) : Call Unit := do
  let s ← get
  match s.client? id with
  | none => pure ()
  | some c => f c

theorem each_forClient {f : Client → Call Unit} {P : Client → Client → Prop}
    (hf : ∀ c t t', t.client? c.id = some c → f c t = (.ok (),t') →
      (∃ c', t'.client? c.id = some c' ∧ P c c') ∧ ∀ l, l ≠ c.id → t'.client? l = t.client? l)
    {l : List ℕ} (hl : l.Nodup) (h : each (forClient f) l s = (.ok (),s')) :
    (∀ i ∉ l, s'.client? i = s.client? i) ∧
      ∀ i ∈ l, ∀ c, s.client? i = some c → ∃ c', s'.client? i = some c' ∧ P c c' := by
  induction l generalizing s with
  | nil =>
    cases h
    exact ⟨fun _ _ => rfl,by simp⟩
  | cons id l ih =>
    obtain ⟨hid,hl⟩ := List.nodup_cons.mp hl
    obtain ⟨u,t,hone,hrest⟩ := Act.bind_eq_ok_iff.mp h
    have hstep : (∀ i, i ≠ id → t.client? i = s.client? i) ∧
        ∀ c, s.client? id = some c → ∃ c', t.client? id = some c' ∧ P c c' := by
      unfold forClient at hone
      cases hd : s.client? id with
      | none =>
        simp only [Act.get_bind,hd] at hone
        cases hone
        exact ⟨fun _ _ => rfl,by simp⟩
      | some d =>
        simp only [Act.get_bind,hd] at hone
        obtain rfl := Server.id_of_client? hd
        obtain ⟨hself,hothers⟩ := hf d s t hd hone
        refine ⟨hothers,?_⟩
        intro c hc
        obtain rfl := Option.some.inj hc
        exact hself
    obtain ⟨hout,hin⟩ := ih hl hrest
    refine ⟨?_,?_⟩
    · intro i hi
      obtain ⟨hne,hi⟩ := not_or.mp (mt List.mem_cons.mpr hi)
      exact (hout i hi).trans (hstep.1 i hne)
    · intro i hi c hc
      rcases List.mem_cons.mp hi with rfl | hi
      · rw [hout i hid]
        exact hstep.2 c hc
      · have hne : i ≠ id := fun h => hid (h ▸ hi)
        exact hin i hi c ((hstep.1 i hne).trans hc)

/-- What a loop over the clients does to each, if the call for one does it to that one. -/
theorem forClients_client {f : Client → Call Unit} {P : Client → Client → Prop}
    (hids : (s.clients.map Client.id).Nodup)
    (hf : ∀ c t t', t.client? c.id = some c → f c t = (.ok (),t') →
      (∃ c', t'.client? c.id = some c' ∧ P c c') ∧ ∀ l, l ≠ c.id → t'.client? l = t.client? l)
    (h : forClients f s = (.ok (),s')) (hc : s.client? j = some c) :
    ∃ c', s'.client? j = some c' ∧ P c c' := by
  have hmem : j ∈ s.clients.map Client.id := by
    by_contra hnot
    rw [client?_eq_none_iff.mpr hnot] at hc
    cases hc
  have hloop : each (forClient f) (s.clients.map Client.id) s = (.ok (),s') := h
  exact (each_forClient hf hids hloop).2 j hmem c hc

variable {k : ℕ} {msg : RTMPMessage} {c' d : Client}

theorem handleAudio_shared (hids : (s.clients.map Client.id).Nodup) (htype : msg.type = msgAudio)
    (h : handleAudio k msg s = (.ok (),s')) (hc : s.client? j = some c) :
    ∃ c', s'.client? j = some c' ∧ Shared msg c c' := by
  have hframe : (⟨msgAudio,streamId,msg.timestamp,msg.buf⟩ : Frame) = relayed msg := by
    rw [relayed,htype]
  have hvideo : ¬ msg.type = msgVideo := by
    rw [htype]
    decide
  unfold handleAudio at h
  rw [Act.get_bind] at h
  split_ifs at h
  · cases h
  · refine forClients_client hids ?_ h hc
    intro c t t' hc ht
    split_ifs at ht with hready
    · obtain ⟨⟨n,hn⟩,hothers⟩ := rtmpSend_client hc ht
      refine ⟨⟨_,hn,?_,?_,rfl,rfl⟩,hothers⟩
      · simp only [share,if_pos htype,if_pos hready,← hframe]
        rfl
      · simp [readyAfter,hvideo,Client.queue,Client.transmit]
    · cases ht
      refine ⟨⟨c,hc,?_,?_,rfl,rfl⟩,fun _ _ => rfl⟩
      · simp [share,htype,hready]
      · simp [readyAfter,hvideo]

theorem relayVideo_shared (htype : msg.type = msgVideo) (hc : s.client? c.id = some c)
    (h : relayVideo msg c s = (.ok (),s')) :
    (∃ c', s'.client? c.id = some c' ∧ Shared msg c c') ∧
      ∀ l, l ≠ c.id → s'.client? l = s.client? l := by
  have hframe : (⟨msgVideo,streamId,msg.timestamp,msg.buf⟩ : Frame) = relayed msg := by
    rw [relayed,htype]
  have haudio : ¬ msg.type = msgAudio := by
    rw [htype]
    decide
  unfold relayVideo at h
  split_ifs at h with hplay hopen
  · have hready : c.ready = false := by simpa using hopen.2
    obtain ⟨u,t,hclear,h⟩ := Act.bind_eq_ok_iff.mp h
    rw [Act.modify_bind] at h
    obtain ⟨⟨n,hn⟩,hothers⟩ := rtmpSend_client hc hclear
    have hset := Server.client?_update_self Client.setReady_id hn
    obtain ⟨⟨n',hn'⟩,hothers'⟩ := rtmpSend_client hset h
    refine ⟨⟨_,hn',?_,?_,rfl,rfl⟩,?_⟩
    · simp only [share,if_neg haudio,if_pos hplay,hready,if_pos hopen.1,← hframe]
      exact List.append_assoc c.log [_] [_]
    · simp [readyAfter,htype,hplay,hopen.1,Client.queue,Client.transmit,Client.setReady]
    · intro l hl
      rw [hothers' l hl,Server.client?_update_ne Client.setReady_id hl,hothers l hl]
  · change (if c.ready then rtmpSend c.id msgVideo streamId msg.buf msg.timestamp chanControl
      else pure ()) s = _ at h
    split_ifs at h with hready
    · obtain ⟨⟨n,hn⟩,hothers⟩ := rtmpSend_client hc h
      refine ⟨⟨_,hn,?_,?_,rfl,rfl⟩,hothers⟩
      · simp only [share,if_neg haudio,if_pos hplay,if_pos hready,← hframe]
        rfl
      · simp [readyAfter,hready,Client.queue,Client.transmit]
    · cases h
      have hkey : ¬ isKeyFrame msg.buf = true := fun h => hopen ⟨h,hready⟩
      refine ⟨⟨c,hc,?_,?_,rfl,rfl⟩,fun _ _ => rfl⟩
      · simp [share,haudio,hplay,hready,hkey]
      · simp [readyAfter,hkey]
  · cases h
    refine ⟨⟨c,hc,?_,?_,rfl,rfl⟩,fun _ _ => rfl⟩
    · simp [share,haudio,hplay]
    · simp [readyAfter,hplay]

theorem handleVideo_shared (hids : (s.clients.map Client.id).Nodup) (htype : msg.type = msgVideo)
    (h : handleVideo k msg s = (.ok (),s')) (hc : s.client? j = some c) :
    ∃ c', s'.client? j = some c' ∧ Shared msg c c' := by
  unfold handleVideo at h
  rw [Act.get_bind] at h
  split_ifs at h
  · cases h
  · exact forClients_client hids (fun _ _ _ hc ht => relayVideo_shared htype hc ht) h hc

def RTMPMessage.IsMedia (msg : RTMPMessage) : Prop := msg.type = msgAudio ∨ msg.type = msgVideo

instance messageIsMedia (msg : RTMPMessage) : Decidable msg.IsMedia :=
  inferInstanceAs (Decidable (msg.type = msgAudio ∨ msg.type = msgVideo))

theorem handleMessage_shared (hids : (s.clients.map Client.id).Nodup) (hmedia : msg.IsMedia)
    (h : handleMessage k msg s = (.ok (),s')) (hc : s.client? j = some c) :
    ∃ c', s'.client? j = some c' ∧ Shared msg c c' := by
  rcases hmedia with htype | htype
  · have hmsg : handleMessage k msg s = handleAudio k msg s := by
      unfold handleMessage
      rw [htype]
      rfl
    rw [hmsg] at h
    exact handleAudio_shared hids htype h hc
  · have hmsg : handleMessage k msg s = handleVideo k msg s := by
      unfold handleMessage
      rw [htype]
      rfl
    rw [hmsg] at h
    exact handleVideo_shared hids htype h hc

def opens (msg : RTMPMessage) : Bool := msg.type = msgVideo && isKeyFrame msg.buf

/-- What a client that plays gets of a stream. -/
def watched (c : Client) (msgs : List RTMPMessage) : List Sent :=
  let media := msgs.map fun msg => Sent.frame c.chunkLen chanStream (relayed msg)
  if c.ready then media
  else
    match msgs.dropWhile (fun msg => !opens msg) with
    | [] => []
    | msgs =>
      .frame c.chunkLen chanControl clearFrame::
        msgs.map (fun msg => .frame c.chunkLen chanStream (relayed msg))

/-- A client has got what it gets of the messages. -/
structure Follows (msgs : List RTMPMessage) (c d : Client) : Prop where
  log : d.log = c.log++watched c msgs
  ready : d.ready = (c.ready || msgs.any opens)
  playing : d.playing = c.playing
  chunkLen : d.chunkLen = c.chunkLen

theorem watched_nil (c : Client) : watched c [] = [] := by
  unfold watched
  split_ifs <;> rfl

theorem Follows.refl (c : Client) : Follows [] c c := ⟨by simp [watched_nil],by simp,rfl,rfl⟩

theorem share_eq_watched (hmedia : msg.IsMedia) (hplay : c.playing = true) :
    share msg c = watched c [msg] := by
  cases hr : c.ready with
  | true => simp [share,watched,hr,hplay]
  | false =>
    by_cases hopen : opens msg = true
    · obtain ⟨htype,hkey⟩ : msg.type = msgVideo ∧ isKeyFrame msg.buf = true := by
        simpa [opens] using hopen
      have haudio : ¬ msgVideo = msgAudio := by decide
      simp [watched,share,hr,hopen,haudio,htype,hkey,hplay]
    · have hshare : share msg c = [] := by
        unfold share
        rcases hmedia with htype | htype
        · simp [htype,hr]
        · have haudio : ¬ msg.type = msgAudio := by
            rw [htype]
            decide
          have hkey : ¬ isKeyFrame msg.buf = true := fun hkey => hopen (by simp [opens,htype,hkey])
          simp [haudio,hr,hplay,hkey]
      rw [hshare]
      simp [watched,hr,hopen]

theorem Shared.follows (h : Shared msg c c') (hmedia : msg.IsMedia) (hplay : c.playing = true) :
    Follows [msg] c c' := by
  refine ⟨?_,?_,h.playing,h.chunkLen⟩
  · rw [h.log,share_eq_watched hmedia hplay]
  · rw [h.ready,readyAfter,hplay]
    simp [opens]

theorem watched_append {msgs : List RTMPMessage} (h : Follows msgs c d) (more : List RTMPMessage) :
    watched c (msgs++more) = watched c msgs++watched d more := by
  have hready := h.ready
  cases hr : c.ready with
  | true =>
    rw [hr,Bool.true_or] at hready
    simp [watched,hr,hready,h.chunkLen]
  | false =>
    rw [hr,Bool.false_or] at hready
    unfold watched
    simp only [hr,hready,h.chunkLen,Bool.false_eq_true,if_false,List.dropWhile_append]
    cases hdrop : msgs.dropWhile (fun msg => !opens msg) with
    | nil =>
      have hnone : msgs.any opens = false := by
        simpa [List.dropWhile_eq_nil_iff] using hdrop
      simp [hnone]
    | cons m ms =>
      have hany : msgs.any opens = true := by
        by_contra hnot
        have hnil : msgs.dropWhile (fun msg => !opens msg) = [] := by
          simpa [List.dropWhile_eq_nil_iff] using hnot
        rw [hdrop] at hnil
        cases hnil
      simp [hany]

theorem Follows.trans {msgs more : List RTMPMessage} {e : Client} (h : Follows msgs c d)
    (h' : Follows more d e) : Follows (msgs++more) c e := by
  refine ⟨?_,?_,h'.playing.trans h.playing,h'.chunkLen.trans h.chunkLen⟩
  · rw [h'.log,h.log,watched_append h,List.append_assoc]
  · rw [h'.ready,h.ready,List.any_append,Bool.or_assoc]

/-- Media messages of the publisher, one after the other. -/
theorem each_follows {msgs : List RTMPMessage} (hids : (s.clients.map Client.id).Nodup)
    (hmedia : ∀ msg ∈ msgs, msg.IsMedia) (h : each (handleMessage k) msgs s = (.ok (),s'))
    (hc : s.client? j = some c) (hplay : c.playing = true) :
    ∃ d, s'.client? j = some d ∧ Follows msgs c d := by
  induction msgs generalizing s c with
  | nil =>
    cases h
    exact ⟨c,hc,.refl c⟩
  | cons msg msgs ih =>
    obtain ⟨hone,hmedia⟩ := List.forall_mem_cons.mp hmedia
    obtain ⟨u,t,hmsg,hrest⟩ := Act.bind_eq_ok_iff.mp h
    obtain ⟨d,hd,hshared⟩ := handleMessage_shared hids hone hmsg hc
    have hids' : (t.clients.map Client.id).Nodup := by
      rw [((handleMessage_moves k msg s).rel hmsg).ids]
      exact hids
    obtain ⟨e,he,hfollows⟩ := ih hids' hmedia hrest hd (hshared.playing.trans hplay)
    exact ⟨e,he,(hshared.follows hone hplay).trans hfollows⟩

end

section

variable {j k : ℕ} {s t : Server} {c p : Client}

theorem step_there {e : Event} (hs : s.Good)
    (hnew : ∀ types endpoints done, e ≠ .accepted j types endpoints done) (h : step s e = .ok t)
    (ht : t.client? j ≠ none) : s.client? j ≠ none := by
  by_cases hj : e.client = j
  · intro hnone
    cases e with
    | accepted id types endpoints done =>
      obtain rfl : id = j := hj
      exact hnew types endpoints done rfl
    | broken id => cases h
    | writable id =>
      obtain rfl : id = j := hj
      simp [step,serve,hnone] at h
    | readable id answer =>
      obtain rfl : id = j := hj
      simp [step,serve,hnone] at h
  · have hstepped := step_stepped (fun k c hc => (hs.client k c hc).sized) h
    exact mt (hstepped.client?_eq_none (Ne.symm hj)).mpr ht

theorem Served.publisher {i : ℕ} (h : Served i s t) (hp : s.publisher = some k) :
    t.publisher = some k := by
  induction h with
  | refl => exact hp
  | tail _ heffect ih => exact heffect.publisher ih

theorem run_reader_waits {r : Messages × Notes} {m : Messages} {n : ℕ} {noted : List RTMPMessage}
    {buf rest : List UInt8} (h : run reader r buf = .waits (m,n,noted) rest) :
    run reader (m,n,[]) rest = .waits (m,n,[]) rest := by
  have hmore := more_again reader_stable h
  by_cases hne : rest = []
  · subst hne
    exact run_more (recvTurn_nil _)
  · have hturn : Turned Prod.fst note (m,n,noted) rest (reader (m,n,noted) rest) :=
      recvTurn_turned hne
    generalize hx : reader (m,n,noted) rest = x at hturn
    rw [hmore] at hx
    cases hturn with
    | @more msg hread =>
      have hsame : Function.update m (channel (rest.headD 0)) msg = m :=
        (congrArg (fun x => x.state.1) hx).symm
      have hreader : reader (m,n,[]) rest =
          .more (Function.update m (channel (rest.headD 0)) msg,n,[]) :=
        (Turned.more (s:=(m,n,[])) hread).eq hne
      rw [run_more hreader,hsame]
    | fail => cases hx
    | part => cases hx
    | handled => cases hx
    | thrown => cases hx

theorem Stepped.publisher {i : ℕ} (h : Stepped s i t) (hp : s.publisher = some k)
    (ht : t.client? i ≠ none) : t.publisher = some k := by
  cases h with
  | accepted => exact hp
  | served _ h => exact h.publisher hp
  | closed _ h =>
    rw [client?_closeClient,if_pos rfl] at ht
    exact absurd rfl ht

theorem exec_there {es : List Event} (hs : s.Good)
    (hnew : ∀ types endpoints done, .accepted j types endpoints done ∉ es)
    (h : exec step s es = .ok t) (ht : t.client? j ≠ none) : s.client? j ≠ none := by
  induction es generalizing s with
  | nil =>
    cases h
    exact ht
  | cons e es ih =>
    obtain ⟨u,hstep,hrest⟩ := exec_cons_ok.mp h
    refine step_there hs ?_ hstep (ih (step_good hs hstep) ?_ hrest)
    · rintro types endpoints done rfl
      exact hnew types endpoints done List.mem_cons_self
    · intro types endpoints done hmem
      exact hnew types endpoints done (List.mem_cons_of_mem _ hmem)

/-- Client `k` publishes and is where the reader is behind `bytes`, and what the reader has noted
has come to client `j`, which was `c` before. -/
structure Showing (k j : ℕ) (c : Client) (r : Messages × Notes) (bytes : List UInt8)
    (s : Server) : Prop where
  good : s.Good
  publisher : s.publisher = some k
  shown : ∃ q d noted, s.client? k = some q ∧ s.client? j = some d ∧
    run reader r bytes = .waits (q.messages,q.chunkLen,noted) q.buf ∧
    ((∀ msg ∈ noted, msg.IsMedia) → Follows noted c d)

theorem Follows.transmit {msgs : List RTMPMessage} {d : Client} (h : Follows msgs c d) (n : ℕ) :
    Follows msgs c (d.transmit n) := ⟨h.log,h.ready,h.playing,h.chunkLen⟩

section

variable {r : Messages × Notes} {bytes : List UInt8}

theorem Showing.writable (h : Showing k j c r bytes s) (hjk : j ≠ k) (hgood : t.Good)
    (hpub : t.publisher = some k) (hcall : tryToSend k s = (.ok (),t)) :
    Showing k j c r bytes t := by
  obtain ⟨q,d,noted,hq,hd,hread,hfollows⟩ := h.shown
  obtain ⟨n,hn⟩ := tryToSend_client hq
  have hothers := tryToSend_others hjk s
  rw [hcall] at hn hothers
  exact ⟨hgood,hpub,q.transmit n,d,noted,hn,hothers.trans hd,hread,hfollows⟩

theorem Showing.data (h : Showing k j c r bytes s) (hjk : j ≠ k) (hplay : c.playing = true)
    {piece : List UInt8} (hgood : t.Good) (hpub : t.publisher = some k) (hj : t.client? j ≠ none)
    (hcall : recvFromClient k (.data piece) s = (.ok (),t)) :
    Showing k j c r (bytes++piece) t := by
  obtain ⟨q,d,noted,hq,hd,hread,hfollows⟩ := h.shown
  obtain ⟨msgs,u,q',heach,hq',hread',hothers⟩ := recvFromClient_handled hq hread hcall
  obtain ⟨d',hd'⟩ := Option.ne_none_iff_exists'.mp hj
  refine ⟨hgood,hpub,q',d',noted++msgs,hq',hd',hread',?_⟩
  intro hmedia
  have hfirst := hfollows fun msg hmsg => hmedia msg (List.mem_append_left _ hmsg)
  obtain ⟨e,he,hnext⟩ := each_follows h.good.ids
    (fun msg hmsg => hmedia msg (List.mem_append_right _ hmsg)) heach hd (hfirst.playing.trans hplay)
  obtain rfl := Option.some.inj (hd'.symm.trans ((hothers j hjk).trans he))
  exact hfirst.trans hnext

theorem Showing.other {e : Event} (h : Showing k j c r bytes s) (hek : e.client ≠ k)
    (hes : e.client = j → e = .writable j) (hj : t.client? j ≠ none) (hstep : step s e = .ok t) :
    Showing k j c r bytes t := by
  have hgood := step_good h.good hstep
  have hstepped := step_stepped (fun i c hc => (h.good.client i c hc).sized) hstep
  obtain ⟨hpub,hothers⟩ := hstepped.isolated h.publisher hek
  obtain ⟨q,d,noted,hq,hd,hread,hfollows⟩ := h.shown
  have hq' := (hothers k (Ne.symm hek)).trans hq
  by_cases hej : e.client = j
  · obtain rfl := hes hej
    obtain ⟨d',hd'⟩ := Option.ne_none_iff_exists'.mp hj
    obtain ⟨-,-,hcall⟩ := serve_ok hd' hstep
    obtain ⟨n,hn⟩ := tryToSend_client hd
    rw [hcall] at hn
    exact ⟨hgood,hpub,q,d.transmit n,noted,hq',hn,hread,fun hmedia => (hfollows hmedia).transmit n⟩
  · exact ⟨hgood,hpub,q,d,noted,hq',(hothers j (Ne.symm hej)).trans hd,hread,hfollows⟩

theorem Showing.turn {e : Event} (h : Showing k j c r bytes s) (hjk : j ≠ k)
    (hplay : c.playing = true) (hes : e.client = j → e = .writable j)
    (hnew : ∀ types endpoints done, e ≠ .accepted k types endpoints done)
    (hk : t.client? k ≠ none) (hj : t.client? j ≠ none) (hstep : step s e = .ok t) :
    Showing k j c r (hear k bytes e) t := by
  by_cases hek : e.client = k
  · have hgood := step_good h.good hstep
    have hstepped := step_stepped (fun i c hc => (h.good.client i c hc).sized) hstep
    rw [hek] at hstepped
    have hpub := hstepped.publisher h.publisher hk
    obtain ⟨q',hq'⟩ := Option.ne_none_iff_exists'.mp hk
    cases e with
    | accepted id types endpoints done =>
      obtain rfl : id = k := hek
      exact absurd rfl (hnew types endpoints done)
    | broken id => cases hstep
    | writable id =>
      obtain rfl : id = k := hek
      obtain ⟨-,-,hcall⟩ := serve_ok hq' hstep
      exact h.writable hjk hgood hpub hcall
    | readable id answer =>
      obtain rfl : id = k := hek
      obtain ⟨-,-,hcall⟩ := serve_ok hq' hstep
      cases answer with
      | data piece =>
        simp only [hear,if_pos]
        exact h.data hjk hplay hgood hpub hj hcall
      | eof => cases hcall
      | failed why => cases hcall
      | again =>
        cases hcall
        exact h
  · rw [hear_of_ne hek]
    exact h.other hek hes hj hstep

theorem Showing.rounds {es : List Event} (h : Showing k j c r bytes s) (hjk : j ≠ k)
    (hplay : c.playing = true) (hes : ∀ e ∈ es, e.client = j → e = .writable j)
    (hnew : ∀ types endpoints done, .accepted k types endpoints done ∉ es)
    (hk : t.client? k ≠ none) (hj : t.client? j ≠ none) (ht : exec step s es = .ok t) :
    Showing k j c r (es.foldl (hear k) bytes) t := by
  induction es generalizing s bytes with
  | nil =>
    cases ht
    exact h
  | cons e es ih =>
    obtain ⟨u,hstep,hrest⟩ := exec_cons_ok.mp ht
    obtain ⟨hone,hes⟩ := List.forall_mem_cons.mp hes
    have hnewk : ∀ types endpoints done, .accepted k types endpoints done ∉ es :=
      fun types endpoints done hmem => hnew types endpoints done (List.mem_cons_of_mem _ hmem)
    have hnewj : ∀ types endpoints done, .accepted j types endpoints done ∉ es :=
      fun types endpoints done hmem => Event.noConfusion (hes _ hmem rfl)
    have hgood := step_good h.good hstep
    refine ih (h.turn hjk hplay hone ?_ (exec_there hgood hnewk hrest hk)
      (exec_there hgood hnewj hrest hj) hstep) hes hnewk hrest
    rintro types endpoints done rfl
    exact hnew types endpoints done List.mem_cons_self

end

/-- The messages that a client completes. -/
def completed (k : ℕ) (p : Client) (es : List Event) : List RTMPMessage :=
  (run reader (p.messages,p.chunkLen,[]) (es.foldl (hear k) p.buf)).state.2.2

/-- However the publisher's bytes are cut and whatever others do in between, a client that plays
gets the stream from the first key frame on, behind a `CLEAR_STREAM`, and from there every message
once and in its order. -/
theorem exec_watched {answers : List SendAnswer} {es₀ es : List Event} {d : Client}
    (hs : exec step (initial answers) es₀ = .ok s) (ht : exec step s es = .ok t) (hjk : j ≠ k)
    (hpub : s.publisher = some k) (hp : s.client? k = some p) (hk : t.client? k ≠ none)
    (hc : s.client? j = some c) (hplay : c.playing = true) (hd : t.client? j = some d)
    (hes : ∀ e ∈ es, e.client = j → e = .writable j)
    (hnew : ∀ types endpoints done, .accepted k types endpoints done ∉ es)
    (hmedia : ∀ msg ∈ completed k p es, msg.IsMedia) :
    d.log = c.log++watched c (completed k p es) := by
  obtain ⟨types,endpoints,msgs,hread⟩ := exec_reading hs hp
  have hstart : Showing k j c (p.messages,p.chunkLen,[]) p.buf s :=
    ⟨exec_good hs,hpub,p,c,[],hp,hc,run_reader_waits hread,fun _ => .refl c⟩
  have hend := hstart.rounds hjk hplay hes hnew hk (by simp [hd]) ht
  obtain ⟨q,d',noted,-,hd',hrun,hfollows⟩ := hend.shown
  obtain rfl := Option.some.inj (hd.symm.trans hd')
  have hnoted : completed k p es = noted := congrArg (fun x => x.state.2.2) hrun
  rw [hnoted] at hmedia ⊢
  exact (hfollows hmedia).log

def inPieces : List Event :=
  [.readable 1 (.data ((frameBytes chanStream picture).take 5)),
    .accepted 3 (fun _ => 0) (fun _ => 0) true,.writable 2,
    .readable 1 (.data ((frameBytes chanStream picture).drop 5))]

theorem exec_watched_pieces : ∃ (s t : Server) (p c d : Client),
    exec step (initial plenty) opening = .ok s ∧ exec step s inPieces = .ok t ∧
      s.client? 1 = some p ∧ s.client? 2 = some c ∧ t.client? 2 = some d ∧
      d.log = c.log++watched c (completed 1 p inPieces) := by
  obtain ⟨s,p,t,d,hs,hp,hP,ht,hd,hk⟩ := exists_of_endsWith_append opening inPieces 1 2
    (fun s p => s.publisher = some 1 ∧ (s.client? 2).any Client.playing ∧
      ∀ msg ∈ completed 1 p inPieces, msg.IsMedia)
    (fun t _ => (t.client? 1).isSome) (by decide +kernel) (by decide +kernel)
  obtain ⟨hpub,hplay,hmedia⟩ := of_decide_eq_true hP
  obtain ⟨c,hc,hplay⟩ := (Option.any_eq_true _ _).mp hplay
  have hthere : t.client? 1 ≠ none := Option.isSome_iff_ne_none.mp hk
  exact ⟨s,t,p,c,d,hs,ht,hp,hc,hd,exec_watched hs ht (by decide) hpub hp hthere hc hplay hd
    (by simp [inPieces,Event.client]) (by simp [inPieces]) hmedia⟩

end

end Rtmp
end PcEnv
