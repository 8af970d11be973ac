import PcEnv.RtmpSafety

/-! What a client sends is read as if nobody else were there. -/
namespace PcEnv
namespace Rtmp

open Bytes Amf Runs Incremental
open Act (each)

def nextChunkLen (c : ℕ) (msg : RTMPMessage) : ℕ :=
  if msg.type = msgSetChunk ∧ 4 ≤ msg.buf.length then ofBe (msg.buf.take 4) else c

abbrev Notes := ℕ × List RTMPMessage

def note (_ : Channel) (msg : RTMPMessage) (r : Notes) : Except Exn Unit × Notes :=
  (.ok (),(nextChunkLen r.1 msg,r.2++[msg]))

def reader : Messages × Notes → List UInt8 → Turn (Messages × Notes) Exn := recvTurn Prod.fst note

theorem reader_stable : Stable reader := recvTurn_stable _ _

theorem run_reader_notes (m : Messages) (r : Notes) (buf : List UInt8) :
    ∃ msgs, (run reader (m,r) buf).state.2 = (msgs.foldl nextChunkLen r.1,r.2++msgs) := by
  refine run_invariant reader_stable (s:=(m,r))
    (P:=fun t => ∃ msgs, t.2 = (msgs.foldl nextChunkLen r.1,r.2++msgs)) ?_ ⟨[],by simp⟩
  intro t buf ht
  by_cases hne : buf = []
  · subst hne
    exact ht
  · have hturn : Turned Prod.fst note t buf (reader t buf) := recvTurn_turned hne
    generalize reader t buf = x at hturn
    cases hturn with
    | more => exact ht
    | fail => exact ht
    | part => exact ht
    | @handled msg _ _ _ _ hh =>
      cases hh
      obtain ⟨msgs,hmsgs⟩ := ht
      refine ⟨msgs++[msg],?_⟩
      simp only [Turn.state]
      rw [hmsgs,List.foldl_append,List.append_assoc]
      rfl
    | thrown _ _ hh => cases hh

section

variable {k j : ℕ} {s s' : Server} {c c' : Client} {msg : RTMPMessage}

theorem Touch.chunkLen_eq (h : Touch msg c c') (htype : msg.type ≠ msgSetChunk) :
    c'.chunkLen = c.chunkLen := by
  cases h with
  | chunkLen hset => exact absurd hset htype
  | _ => rfl

theorem Touch.kept (h : Touch msg c c') : c'.messages = c.messages ∧ c'.buf = c.buf := by
  cases h with
  | _ => exact ⟨rfl,rfl⟩

theorem Moves.client (h : Moves k msg s s') (hc : s.client? j = some c) :
    ∃ c', s'.client? j = some c' ∧ (c'.messages = c.messages ∧ c'.buf = c.buf) ∧
      (msg.type ≠ msgSetChunk → c'.chunkLen = c.chunkLen) := by
  induction h with
  | refl => exact ⟨c,hc,⟨rfl,rfl⟩,fun _ => rfl⟩
  | @tail t u _ hmove ih =>
    obtain ⟨d,hd,hkept,hlen⟩ := ih
    have hthere : u.client? j ≠ none := by
      rw [Ne,client?_eq_none_iff,hmove.ids,← client?_eq_none_iff,hd]
      simp
    obtain ⟨c',hc'⟩ := Option.ne_none_iff_exists'.mp hthere
    obtain ⟨d',hd',htouch⟩ := hmove.touch hc'
    obtain rfl := Option.some.inj (hd.symm.trans hd')
    refine ⟨c',hc',⟨htouch.kept.1.trans hkept.1,htouch.kept.2.trans hkept.2⟩,?_⟩
    intro htype
    exact (htouch.chunkLen_eq htype).trans (hlen htype)

theorem handleMessage_chunkLen (hc : s.client? k = some c)
    (h : handleMessage k msg s = (.ok (),s')) :
    ∃ c', s'.client? k = some c' ∧ (c'.messages = c.messages ∧ c'.buf = c.buf) ∧
      c'.chunkLen = nextChunkLen c.chunkLen msg := by
  unfold nextChunkLen
  by_cases htype : msg.type = msgSetChunk
  · have hne : ¬ msg.type = msgBytesRead := by
      rw [htype]
      decide
    unfold handleMessage at h
    rw [if_neg hne,if_pos htype] at h
    by_cases hlen : 4 > msg.buf.length
    · rw [if_pos hlen] at h
      cases h
    · rw [if_neg hlen] at h
      cases h
      refine ⟨_,Server.client?_update_self (fun _ => rfl) hc,⟨rfl,rfl⟩,?_⟩
      rw [if_pos ⟨htype,not_lt.mp hlen⟩]
  · obtain ⟨c',hc',hkept,hsame⟩ := Moves.client ((handleMessage_moves k msg s).rel h) hc
    refine ⟨c',hc',hkept,?_⟩
    rw [if_neg (fun h => htype h.1)]
    exact hsame htype

/-- How the loop ends, as `recv_from_client` sees it. -/
def settle : Place UInt8 (Messages × Server) Exn → Except Exn (Messages × List UInt8) × Server
  | .waits (m,s) rest => (.ok (m,rest),s)
  | .failed (_,s) e => (.error e,s)

def finish (k : ℕ) (msgs : List RTMPMessage) :
    Place UInt8 (Messages × Notes) Exn → Call (Messages × List UInt8)
  | .waits (m,_) rest => do
    each (handleMessage k) msgs
    pure (m,rest)
  | .failed _ e => do
    each (handleMessage k) msgs
    Act.throw e

theorem finish_cons_ok {msgs : List RTMPMessage} (p : Place UInt8 (Messages × Notes) Exn)
    (h : handleMessage k msg s = (.ok (),s')) : finish k (msg::msgs) p s = finish k msgs p s' := by
  have heach : each (handleMessage k) (msg::msgs) s = each (handleMessage k) msgs s' :=
    Act.bind_ok h
  cases p with
  | waits t rest => simp only [finish,bind,heach]
  | failed t e => simp only [finish,bind,heach]

theorem finish_cons_error {msgs : List RTMPMessage} (p : Place UInt8 (Messages × Notes) Exn)
    {e : Exn} (h : handleMessage k msg s = (.error e,s')) :
    finish k (msg::msgs) p s = (.error e,s') := by
  have heach : each (handleMessage k) (msg::msgs) s = (.error e,s') := Act.bind_error h
  cases p with
  | waits t rest => simp only [finish,bind,heach]
  | failed t e => simp only [finish,bind,heach]

/-- Handling each message as it comes in is handling them behind the reader. -/
theorem settle_recvLoop (m : Messages) (r : Notes) (buf : List UInt8) (hc : s.client? k = some c)
    (hlen : c.chunkLen = r.1) :
    ∃ msgs, (run reader (m,r) buf).state.2 = (msgs.foldl nextChunkLen r.1,r.2++msgs) ∧
      settle (run (recvLoop k) (m,s) buf) = finish k msgs (run reader (m,r) buf) s := by
  have hloop : Stable (recvLoop k) := recvTurn_stable _ _
  induction hn : buf.length using Nat.strong_induction_on generalizing m r buf s c with
  | _ n ih =>
    by_cases hne : buf = []
    · subst hne
      have hreader : reader (m,r) [] = .more (m,r) := recvTurn_nil _
      have hrecv : recvLoop k (m,s) [] = .more (m,s) := recvTurn_nil _
      rw [run_more hreader,run_more hrecv]
      exact ⟨[],by simp [Place.state],rfl⟩
    · have hchunk : chunkLenOf k s = r.1 := by simp [chunkLenOf,hc,hlen]
      cases hread : readChunk r.1 (m (channel (buf.headD 0))) buf with
      | more msg =>
        have hreader : reader (m,r) buf = .more _ := (Turned.more hread).eq hne
        have hrecv : recvLoop k (m,s) buf = .more _ := (Turned.more (hchunk ▸ hread)).eq hne
        rw [run_more hreader,run_more hrecv]
        exact ⟨[],by simp [Place.state],rfl⟩
      | fail msg e =>
        have hreader : reader (m,r) buf = .fail _ e := (Turned.fail hread).eq hne
        have hrecv : recvLoop k (m,s) buf = .fail _ e := (Turned.fail (hchunk ▸ hread)).eq hne
        rw [run_fail hreader,run_fail hrecv]
        exact ⟨[],by simp [Place.state],rfl⟩
      | took msg l =>
        have hless : (buf.drop l).length < n := by
          have hbounds := readChunk_bounds hread
          rw [← hn,List.length_drop]
          omega
        by_cases hfull : msg.buf.length = msg.len
        · -- The message is complete. What the reader notes from here on is handled only if this is.
          have hreader : reader (m,r) buf = .took (Function.update m (channel (buf.headD 0))
              { msg with buf := [] },(nextChunkLen r.1 msg,r.2++[msg])) l :=
            (Turned.handled hread hfull rfl).eq hne
          rw [run_took reader_stable hreader]
          cases hh : handleMessage k msg s with
          | mk x s' =>
            cases x with
            | ok u =>
              have hrecv : recvLoop k (m,s) buf = .took (_,s') l :=
                (Turned.handled (hchunk ▸ hread) hfull hh).eq hne
              obtain ⟨c',hc',-,hlen'⟩ := handleMessage_chunkLen hc hh
              rw [hlen] at hlen'
              obtain ⟨msgs,hmsgs,hset⟩ := ih _ hless _
                (nextChunkLen r.1 msg,r.2++[msg]) (buf.drop l) hc' hlen' rfl
              refine ⟨msg::msgs,by rw [hmsgs]; simp,?_⟩
              rw [run_took hloop hrecv]
              exact hset.trans (finish_cons_ok _ hh).symm
            | error e =>
              have hrecv : recvLoop k (m,s) buf = .fail (_,s') e :=
                (Turned.thrown (hchunk ▸ hread) hfull hh).eq hne
              obtain ⟨msgs,hmsgs⟩ := run_reader_notes _ _ (buf.drop l)
              refine ⟨msg::msgs,by rw [hmsgs]; simp,?_⟩
              rw [run_fail hrecv]
              exact (finish_cons_error _ hh).symm
        · have hreader : reader (m,r) buf = .took _ l := (Turned.part hread hfull).eq hne
          have hrecv : recvLoop k (m,s) buf = .took _ l :=
            (Turned.part (hchunk ▸ hread) hfull).eq hne
          rw [run_took reader_stable hreader,run_took hloop hrecv]
          exact ih _ hless _ r (buf.drop l) hc hlen rfl

/-- `recv_from_client` does what reading all messages and then handling them does. -/
theorem recvFromClient_eq (hc : s.client? k = some c) (bytes : List UInt8) :
    ∃ msgs, (run reader (c.messages,c.chunkLen,[]) (c.buf++bytes)).state.2.2 = msgs ∧
      recvFromClient k (.data bytes) s =
        (finish k msgs (run reader (c.messages,c.chunkLen,[]) (c.buf++bytes)) >>= fun p =>
          Act.modify (fun s => s.update k fun c => { c with messages := p.1, buf := p.2 })) s := by
  obtain ⟨msgs,hmsgs,hset⟩ := settle_recvLoop c.messages (c.chunkLen,[]) (c.buf++bytes) hc rfl
  refine ⟨msgs,by rw [hmsgs]; rfl,?_⟩
  unfold recvFromClient
  simp only [hc]
  cases hrun : run (recvLoop k) (c.messages,s) (c.buf++bytes) with
  | waits t rest =>
    rw [hrun] at hset
    refine Eq.trans ?_ (Act.bind_ok hset.symm).symm
    rfl
  | failed t e =>
    rw [hrun] at hset
    exact (Act.bind_error hset.symm).symm

end

/-- Its stream goes on, and nothing else of it changes but its queue and whether it is ready. -/
structure Reached (c c' : Client) : Prop where
  playing : c'.playing = c.playing
  messages : c'.messages = c.messages
  buf : c'.buf = c.buf
  chunkLen : c'.chunkLen = c.chunkLen
  readSeq : c'.readSeq = c.readSeq
  wire : c.wire <+: c'.wire
  log : c.log <+: c'.log

theorem Reached.refl (c : Client) : Reached c c :=
  ⟨rfl,rfl,rfl,rfl,rfl,List.prefix_refl _,List.prefix_refl _⟩

theorem Reached.trans {c d e : Client} (h : Reached c d) (h' : Reached d e) : Reached c e :=
  ⟨h'.playing.trans h.playing,h'.messages.trans h.messages,h'.buf.trans h.buf,
    h'.chunkLen.trans h.chunkLen,h'.readSeq.trans h.readSeq,h.wire.trans h'.wire,h.log.trans h'.log⟩

section

variable {k j : ℕ} {s s' : Server} {c c' : Client} {msg : RTMPMessage}

theorem reached_update {f : Client → Client} {id : ℕ} (hc : s.client? j = some c)
    (hid : ∀ c, (f c).id = c.id) (hf : Reached c (f c)) :
    ∃ c', (s.update id f).client? j = some c' ∧ Reached c c' := by
  rw [Server.client?_update hid]
  split_ifs with hj
  · exact ⟨f c,by rw [hc]; rfl,hf⟩
  · exact ⟨c,hc,.refl c⟩

theorem reached_other {f : Client → Client} (hc : s.client? j = some c) (hj : j ≠ k)
    (hid : ∀ c, (f c).id = c.id) : ∃ c', (s.update k f).client? j = some c' ∧ Reached c c' := by
  rw [Server.client?_update_ne hid hj]
  exact ⟨c,hc,.refl c⟩

theorem Move.reached (h : Move k msg s s') (hj : j ≠ k) (hc : s.client? j = some c) :
    ∃ c', s'.client? j = some c' ∧ Reached c c' := by
  have hqueue (i : Channel) (f : Frame) : Reached c (c.queue i f) :=
    ⟨rfl,rfl,rfl,rfl,rfl,List.prefix_refl _,List.prefix_append _ _⟩
  cases h with
  | answered | claimed | described => exact ⟨c,hc,.refl c⟩
  | sent n _ =>
    exact reached_update hc (fun _ => rfl)
      ⟨rfl,rfl,rfl,rfl,rfl,List.prefix_append _ _,List.prefix_refl _⟩
  | queued => exact reached_update hc (fun _ => rfl) (hqueue _ _)
  | opened =>
    exact reached_update hc (fun _ => rfl)
      ⟨rfl,rfl,rfl,rfl,rfl,List.prefix_refl _,List.prefix_append _ _⟩
  | counted | chunked | played | paused => exact reached_other hc hj (fun _ => rfl)

theorem Served.reached (h : Served k s s') (hj : j ≠ k) (hc : s.client? j = some c) :
    ∃ c', s'.client? j = some c' ∧ Reached c c' := by
  induction h with
  | refl => exact ⟨c,hc,.refl c⟩
  | tail _ heffect ih =>
    obtain ⟨d,hd,hreached⟩ := ih
    cases heffect with
    | move _ hmove =>
      obtain ⟨c',hc',hnext⟩ := hmove.reached hj hd
      exact ⟨c',hc',hreached.trans hnext⟩
    | @kept messages _ rest =>
      obtain ⟨c',hc',hnext⟩ := reached_other
        (f:=fun c => { c with messages := messages, buf := rest }) hd hj (fun _ => rfl)
      exact ⟨c',hc',hreached.trans hnext⟩

theorem Stepped.reached (h : Stepped s k s') (hj : j ≠ k) (hc : s.client? j = some c) :
    ∃ c', s'.client? j = some c' ∧ Reached c c' := by
  cases h with
  | accepted hid types endpoints done =>
    rw [client?_accepted _ _ _ hid,if_neg hj]
    exact ⟨c,hc,.refl c⟩
  | served _ h => exact h.reached hj hc
  | closed _ h =>
    obtain ⟨d,hd,hreached⟩ := h.reached hj hc
    rw [client?_closeClient,if_neg hj]
    split_ifs
    · refine ⟨d.unready,by rw [hd]; rfl,hreached.trans ?_⟩
      exact ⟨rfl,rfl,rfl,rfl,rfl,List.prefix_refl _,List.prefix_append _ _⟩
    · exact ⟨d,hd,hreached⟩

/-- Whatever the others do, a client stays, what it has sent stays as it is, and what was made for
it is neither taken back nor changed. -/
theorem exec_others {answers : List SendAnswer} {es₀ es : List Event} {t : Server}
    (hs : exec step (initial answers) es₀ = .ok s) (ht : exec step s es = .ok t)
    (hc : s.client? j = some c) (hes : ∀ e ∈ es, e.client ≠ j) :
    ∃ c', t.client? j = some c' ∧ Reached c c' := by
  have hall : Along step (fun _ e => e.client ≠ j) s es := along_of_mem hes s
  have hinv := exec_invariant
    (fun u => u.Good ∧ ∃ d, u.client? j = some d ∧ Reached c d) ?_ ⟨exec_good hs,c,hc,.refl c⟩
    hall ht
  · exact hinv.2
  · rintro u e v ⟨hu,d,hd,hreached⟩ hej hstep
    have hstepped := step_stepped (fun k c hc => (hu.client k c hc).sized) hstep
    obtain ⟨c',hc',hnext⟩ := hstepped.reached (Ne.symm hej) hd
    exact ⟨step_good hu hstep,c',hc',hreached.trans hnext⟩

/-- The publisher shows a picture and breaks off. -/
theorem exec_others_publisher : ∃ (s : Server) (c : Client) (t : Server),
    exec step (initial plenty) opening = .ok s ∧ s.client? 2 = some c ∧
      exec step s [.readable 1 (.data (frameBytes chanStream picture)),.readable 1 .eof] = .ok t ∧
      ∃ c', t.client? 2 = some c' ∧ Reached c c' := by
  obtain ⟨s,c,t,-,hs,hc,-,ht,-,-⟩ := exists_of_endsWith_append opening
    [.readable 1 (.data (frameBytes chanStream picture)),.readable 1 .eof] 2 2
    (fun _ _ => true) (fun _ _ => true) (by decide +kernel) (by decide +kernel)
  exact ⟨s,c,t,hs,hc,ht,exec_others hs ht hc (by simp [Event.client])⟩

end

/-- The bytes of a client since it was accepted. -/
def hear (j : ℕ) (heard : List UInt8) : Event → List UInt8
  | .accepted id _ _ _ => if id = j then [] else heard
  | .readable id (.data bytes) => if id = j then heard++bytes else heard
  | _ => heard

/-- A client is where a reader is behind `bytes`. -/
def Client.Reads (bytes : List UInt8) (c : Client) : Prop :=
  ∃ types endpoints msgs,
    run reader (freshMessages types endpoints,defaultChunkLen,[]) bytes =
      .waits (c.messages,c.chunkLen,msgs) c.buf

theorem Client.Reads.same {bytes : List UInt8} {c c' : Client} (h : c.Reads bytes)
    (hmessages : c'.messages = c.messages) (hbuf : c'.buf = c.buf)
    (hlen : c'.chunkLen = c.chunkLen) : c'.Reads bytes := by
  unfold Client.Reads
  rw [hmessages,hbuf,hlen]
  exact h

section

variable {k j : ℕ} {s s' : Server} {c c' : Client} {bytes : List UInt8}

theorem each_client {msgs : List RTMPMessage} (hc : s.client? k = some c)
    (h : each (handleMessage k) msgs s = (.ok (),s')) :
    ∃ c', s'.client? k = some c' ∧ (c'.messages = c.messages ∧ c'.buf = c.buf) ∧
      c'.chunkLen = msgs.foldl nextChunkLen c.chunkLen := by
  induction msgs generalizing s c with
  | nil =>
    cases h
    exact ⟨c,hc,⟨rfl,rfl⟩,rfl⟩
  | cons msg msgs ih =>
    obtain ⟨u,t,hmsg,hrest⟩ := Act.bind_eq_ok_iff.mp h
    obtain ⟨d,hd,hkept,hlen⟩ := handleMessage_chunkLen hc hmsg
    obtain ⟨c',hc',hkept',hlen'⟩ := ih hd hrest
    refine ⟨c',hc',⟨hkept'.1.trans hkept.1,hkept'.2.trans hkept.2⟩,?_⟩
    rw [hlen',hlen]
    rfl

theorem recvFromClient_handled {r : Messages × Notes} {noted : List RTMPMessage}
    {piece : List UInt8} (hc : s.client? k = some c)
    (h : run reader r bytes = .waits (c.messages,c.chunkLen,noted) c.buf)
    (hr : recvFromClient k (.data piece) s = (.ok (),s')) :
    ∃ msgs u c', each (handleMessage k) msgs s = (.ok (),u) ∧ s'.client? k = some c' ∧
      run reader r (bytes++piece) = .waits (c'.messages,c'.chunkLen,noted++msgs) c'.buf ∧
      ∀ i, i ≠ k → s'.client? i = u.client? i := by
  obtain ⟨msgs,hmsgs,hset⟩ :=
    settle_recvLoop c.messages (c.chunkLen,noted) (c.buf++piece) hc rfl
  have hfeed := feed_run reader_stable r bytes piece
  rw [h,feed] at hfeed
  unfold recvFromClient at hr
  simp only [hc] at hr
  cases hrun : run (recvLoop k) (c.messages,s) (c.buf++piece) with
  | failed t e =>
    rw [hrun] at hr
    cases hr
  | waits t rest =>
    rw [hrun] at hr hset
    cases hr
    cases hread : run reader (c.messages,c.chunkLen,noted) (c.buf++piece) with
    | failed q e =>
      rw [hread] at hset
      obtain ⟨u,s₁,-,hthrow⟩ := Act.bind_eq_ok_iff.mp hset.symm
      cases hthrow
    | waits q rest' =>
      rw [hread] at hset hmsgs
      obtain ⟨u,s₁,heach,hpure⟩ := Act.bind_eq_ok_iff.mp hset.symm
      obtain ⟨m,notes⟩ := q
      cases hpure
      cases hmsgs
      obtain ⟨d,hd,-,hlen⟩ := each_client hc heach
      refine ⟨msgs,_,_,heach,Server.client?_update_self (by intro; rfl) hd,?_,?_⟩
      · rw [← hfeed,hread,hlen]
      · intro i hi
        exact Server.client?_update_ne (by intro; rfl) hi

theorem recvFromClient_reads {piece : List UInt8} (hc : s.client? k = some c) (h : c.Reads bytes)
    (hr : recvFromClient k (.data piece) s = (.ok (),s')) (hc' : s'.client? k = some c') :
    c'.Reads (bytes++piece) := by
  obtain ⟨types,endpoints,noted,hreader⟩ := h
  obtain ⟨msgs,u,d,-,hd,hread,-⟩ := recvFromClient_handled hc hreader hr
  obtain rfl := Option.some.inj (hc'.symm.trans hd)
  exact ⟨types,endpoints,noted++msgs,hread⟩

theorem tryToSend_reads (hc : s.client? k = some c) (h : c.Reads bytes)
    (hc' : (tryToSend k s).2.client? k = some c') : c'.Reads bytes := by
  have hmoves : Moves k ⟨0,1,0,0,[0]⟩ s (tryToSend k s).2 := tryToSend_moves (Or.inl rfl)
  obtain ⟨d,hd,hkept,hlen⟩ := hmoves.client hc
  obtain rfl := Option.some.inj (hc'.symm.trans hd)
  exact h.same hkept.1 hkept.2 (hlen (by decide))

theorem serve_ok {call : Call Unit} (hc' : s'.client? k = some c')
    (h : serve k call s = .ok s') : ∃ c, s.client? k = some c ∧ call s = (.ok (),s') := by
  unfold serve at h
  cases hc : s.client? k with
  | none =>
    simp only [hc] at h
    cases h
  | some c =>
    simp only [hc] at h
    cases hr : call s with
    | mk r t =>
      simp only [hr] at h
      cases r with
      | ok u =>
        cases h
        exact ⟨c,rfl,rfl⟩
      | error e =>
        cases e with
        | runtimeError what =>
          cases h
          rw [client?_closeClient,if_pos rfl] at hc'
          cases hc'
        | abort => cases h
        | killed => cases h
        | fuel => cases h

theorem hear_of_ne {e : Event} (h : e.client ≠ j) : hear j bytes e = bytes := by
  cases e with
  | accepted id => exact if_neg h
  | broken id => rfl
  | writable id => rfl
  | readable id answer =>
    cases answer with
    | data piece => exact if_neg h
    | eof | again | failed why => rfl

/-- A step takes each client as far as a reader gets with what it has heard of it. -/
theorem step_reads {e : Event} (hgood : s.Good)
    (hs : ∀ c, s.client? j = some c → c.Reads bytes) (h : step s e = .ok s')
    (hc' : s'.client? j = some c') : c'.Reads (hear j bytes e) := by
  by_cases hj : e.client = j
  · cases e with
    | accepted id types endpoints done =>
      obtain rfl : id = j := hj
      simp only [step] at h
      cases hc : s.client? id with
      | some c =>
        simp only [hc] at h
        cases h
      | none =>
        simp only [hc] at h
        cases h
        rw [client?_accepted _ _ _ hc,if_pos rfl] at hc'
        cases hc'
        simp only [hear,if_pos]
        exact ⟨types,endpoints,[],rfl⟩
    | broken id => cases h
    | writable id =>
      obtain rfl : id = j := hj
      obtain ⟨c,hc,hcall⟩ := serve_ok hc' h
      refine tryToSend_reads hc (hs c hc) ?_
      rw [hcall]
      exact hc'
    | readable id answer =>
      obtain rfl : id = j := hj
      obtain ⟨c,hc,hcall⟩ := serve_ok hc' h
      cases answer with
      | data piece =>
        simp only [hear,if_pos]
        exact recvFromClient_reads hc (hs c hc) hcall hc'
      | eof => cases hcall
      | failed why => cases hcall
      | again =>
        cases hcall
        exact hs c' hc'
  · have hstepped := step_stepped (fun k c hc => (hgood.client k c hc).sized) h
    rw [hear_of_ne hj]
    cases hc : s.client? j with
    | none =>
      rw [(hstepped.client?_eq_none (Ne.symm hj)).mpr hc] at hc'
      cases hc'
    | some c =>
      obtain ⟨d,hd,hreached⟩ := hstepped.reached (Ne.symm hj) hc
      obtain rfl := Option.some.inj (hc'.symm.trans hd)
      exact (hs c hc).same hreached.messages hreached.buf hreached.chunkLen

theorem exec_reading {answers : List SendAnswer} {es : List Event}
    (h : exec step (initial answers) es = .ok s) (hc : s.client? j = some c) :
    c.Reads (es.foldl (hear j) []) := by
  induction es using List.reverseRecOn generalizing s c with
  | nil =>
    cases h
    cases hc
  | append_singleton es e ih =>
    cases hes : exec step (initial answers) es with
    | error halt =>
      rw [exec_append,hes] at h
      cases h
    | ok t =>
      rw [exec_append_ok hes] at h
      rw [List.foldl_append]
      obtain ⟨u,hstep,hnil⟩ := exec_cons_ok.mp h
      cases hnil
      exact step_reads (exec_good hes) (fun c hc => ih hes hc) hstep hc

/-- In every run a client is where a reader is that has had all bytes of the client at once, and
nobody else's. -/
theorem exec_reads {answers : List SendAnswer} {es : List Event}
    (h : exec step (initial answers) es = .ok s) (hc : s.client? j = some c) :
    ∃ types endpoints msgs,
      run reader (freshMessages types endpoints,defaultChunkLen,[]) (es.foldl (hear j) []) =
        .waits (c.messages,c.chunkLen,msgs) c.buf ∧
      c.chunkLen = msgs.foldl nextChunkLen defaultChunkLen := by
  obtain ⟨types,endpoints,msgs,hread⟩ := exec_reading h hc
  refine ⟨types,endpoints,msgs,hread,?_⟩
  obtain ⟨noted,hnoted⟩ := run_reader_notes (freshMessages types endpoints) (defaultChunkLen,[])
    (es.foldl (hear j) [])
  rw [hread] at hnoted
  obtain ⟨hlen,hmsgs⟩ := Prod.mk.inj hnoted
  rw [hlen,hmsgs]
  rfl

theorem exec_reads_premiere : ∃ (s : Server) (c : Client),
    exec step (initial plenty) premiere = .ok s ∧ s.client? 1 = some c ∧
      ∃ types endpoints msgs,
        run reader (freshMessages types endpoints,defaultChunkLen,[])
          (premiere.foldl (hear 1) []) = .waits (c.messages,c.chunkLen,msgs) c.buf ∧
        c.chunkLen = msgs.foldl nextChunkLen defaultChunkLen := by
  obtain ⟨s,c,hs,hc,-⟩ := exists_of_endsWith premiere 1 (fun _ _ => true)
    (by decide +kernel)
  exact ⟨s,c,hs,hc,exec_reads hs hc⟩

/-- However much a client sends and in whatever chunks, less than 16 MiB of it are kept for each
channel, and less than that and a header as bytes that wait. -/
theorem exec_bounded {answers : List SendAnswer} {es : List Event}
    (h : exec step (initial answers) es = .ok s) (hc : s.client? j = some c) :
    (∀ i, (c.messages i).buf.length ≤ (c.messages i).len ∧ (c.messages i).len < 2^24) ∧
      c.buf.length < 12+min c.chunkLen (2^24) := by
  have hsized := ((exec_good h).client j c hc).sized
  refine ⟨hsized,?_⟩
  obtain ⟨types,endpoints,noted,hread⟩ := exec_reading h hc
  exact recvTurn_more hsized (more_again reader_stable hread)

theorem exec_bounded_premiere : ∃ (s : Server) (c : Client),
    exec step (initial plenty) premiere = .ok s ∧ s.client? 1 = some c ∧
      (∀ i, (c.messages i).buf.length ≤ (c.messages i).len ∧ (c.messages i).len < 2^24) ∧
      c.buf.length < 12+min c.chunkLen (2^24) := by
  obtain ⟨s,c,hs,hc,-⟩ := exists_of_endsWith premiere 1 (fun _ _ => true) (by decide +kernel)
  exact ⟨s,c,hs,hc,exec_bounded hs hc⟩

end

end Rtmp
end PcEnv
