import PcEnv.RtmpFaults
import PcEnv.RtmpPieces

/-! What ends a run of the server, and runs that nothing ends. -/
namespace PcEnv
namespace Rtmp

open Bytes Amf Runs Incremental
open Act (each Within)

/-- With this chunk length `rtmp_send` never ends. -/
def SetsZero (msg : RTMPMessage) : Prop :=
  msg.type = msgSetChunk ∧ 4 ≤ msg.buf.length ∧ ofBe (msg.buf.take 4) = 0

def Ended (e : Exn) : Prop := e = .abort ∨ ∃ what, e = .runtimeError what

/-- The messages that more bytes of a client complete, if nothing is thrown before. -/
def Client.completes (c : Client) (bytes : List UInt8) : List RTMPMessage :=
  (run reader (c.messages,c.chunkLen,[]) (c.buf++bytes)).state.2.2

/-- One of the messages asserts, and those before it are handled. -/
def Aborts (s : Server) (e : Event) : Prop :=
  ∃ k bytes c before msg after s', e = .readable k (.data bytes) ∧ s.client? k = some c ∧
    c.completes bytes = before++msg::after ∧ each (handleMessage k) before s = (.ok (),s') ∧
    Asserts msg

section

variable {k : ℕ} {c : Client} {s s' : Server}

theorem handleMessage_sends {msg : RTMPMessage} (h : ¬ SetsZero msg) :
    Within Server.Sends Ended (handleMessage k msg) := by
  by_cases hasserts : Asserts msg
  · intro s hs
    rw [handleMessage_asserts hasserts]
    refine ⟨hs,?_⟩
    intro e he
    cases he
    exact Or.inl rfl
  · exact handleMessage_within (sends_respected fun what => Or.inr ⟨what,rfl⟩) k hasserts
      fun htype hlen _ hs => hs.update fun _ _ hzero => h ⟨htype,hlen,hzero⟩

theorem closeClient_sends (hs : s.Sends) : (closeClient k s).Sends := by
  have hfilter : ∀ c ∈ s.clients.filter (fun c => c.id ≠ k), c.chunkLen ≠ 0 := fun c hc =>
    hs.lengths c (List.mem_of_mem_filter hc)
  unfold closeClient
  simp only
  split_ifs
  · refine ⟨hs.metadata,?_,hs.answers⟩
    intro c hc
    obtain ⟨d,hd,rfl⟩ := List.mem_map.mp hc
    exact hfilter d hd
  · exact ⟨hs.metadata,hfilter,hs.answers⟩

theorem serve_sends {call : Call Unit} (hc : s.client? k = some c)
    (hcall : (call s).2.Sends ∧ ∀ e, (call s).1 = .error e → Ended e) :
    (serve k call s = .error .fault ↔ (call s).1 = .error .abort) ∧
      ∀ t, serve k call s = .ok t → t.Sends := by
  unfold serve
  simp only [hc]
  cases hr : call s with
  | mk r t =>
    rw [hr] at hcall
    cases r with
    | ok u =>
      refine ⟨by simp,?_⟩
      intro t' ht
      cases ht
      exact hcall.1
    | error e =>
      rcases hcall.2 e rfl with rfl | ⟨what,rfl⟩
      · exact ⟨by simp,by simp⟩
      · refine ⟨by simp,?_⟩
        intro t' ht
        cases ht
        exact closeClient_sends hcall.1

theorem serve_throws {call : Call Unit} (hs : s.Sends)
    (hcall : Within Server.Sends (fun e => ∃ what, e = .runtimeError what) call) :
    serve k call s ≠ .error .fault ∧ ∀ t, serve k call s = .ok t → t.Sends := by
  cases hc : s.client? k with
  | none => simp [serve,hc]
  | some c =>
    obtain ⟨hsends,hthrows⟩ := hcall s hs
    obtain ⟨hfault,hok⟩ := serve_sends hc ⟨hsends,fun e he => Or.inr (hthrows e he)⟩
    refine ⟨?_,hok⟩
    rw [Ne,hfault]
    intro habort
    obtain ⟨what,h⟩ := hthrows _ habort
    cases h

theorem recvFromClient_sends {bytes : List UInt8} (hs : s.Sends) (hc : s.client? k = some c)
    (hmsg : ∀ msg ∈ c.completes bytes, ¬ SetsZero msg) :
    ((recvFromClient k (.data bytes) s).2.Sends ∧
      ∀ e, (recvFromClient k (.data bytes) s).1 = .error e → Ended e) ∧
    ((recvFromClient k (.data bytes) s).1 = .error .abort ↔
      (each (handleMessage k) (c.completes bytes) s).1 = .error .abort) := by
  have heach : Within Server.Sends Ended (each (handleMessage k) (c.completes bytes)) :=
    Act.within_each fun msg hm => handleMessage_sends (hmsg msg hm)
  have hdone := heach s hs
  rw [recvFromClient_conclude hc]
  unfold Client.completes at hdone ⊢
  generalize hx : each (handleMessage k)
    (run reader (c.messages,c.chunkLen,[]) (c.buf++bytes)).state.2.2 s = x at hdone
  obtain ⟨r,v⟩ := x
  cases r with
  | error e => exact ⟨hdone,Iff.rfl⟩
  | ok u =>
    cases hrun : run reader (c.messages,c.chunkLen,[]) (c.buf++bytes) with
    | waits t rest =>
      exact ⟨⟨hdone.1.update fun _ h => h,by simp [conclude]⟩,by simp [conclude]⟩
    | failed t e =>
      obtain ⟨what,rfl⟩ := run_reader_throws hrun
      refine ⟨⟨hdone.1,?_⟩,by simp [conclude]⟩
      intro e' he
      cases he
      exact Or.inr ⟨what,rfl⟩

theorem recvFromClient_throws {answer : RecvAnswer} (id : ℕ) (h : ∀ bytes, answer ≠ .data bytes) :
    Within Server.Sends (fun e => ∃ what, e = .runtimeError what) (recvFromClient id answer) := by
  cases answer with
  | data bytes => exact absurd rfl (h bytes)
  | again => exact Act.within_pure ()
  | eof | failed why => exact Act.within_throw ⟨_,rfl⟩

theorem not_aborts {e : Event} (h : ∀ k bytes, e ≠ .readable k (.data bytes)) : ¬ Aborts s e := by
  rintro ⟨k,bytes,-,-,-,-,-,rfl,-⟩
  exact h k bytes rfl

theorem aborts_data_iff {bytes : List UInt8} (hs : s.Described) (hc : s.client? k = some c) :
    Aborts s (.readable k (.data bytes)) ↔
      (each (handleMessage k) (c.completes bytes) s).1 = .error .abort := by
  rw [each_abort_iff hs]
  constructor
  · rintro ⟨_,_,d,before,msg,after,t,he,hd,hmsgs,hbefore,hasserts⟩
    cases he
    obtain rfl := Option.some.inj (hc.symm.trans hd)
    exact ⟨before,msg,after,t,hmsgs,hbefore,hasserts⟩
  · rintro ⟨before,msg,after,t,hmsgs,hbefore,hasserts⟩
    exact ⟨k,bytes,c,before,msg,after,t,rfl,hc,hmsgs,hbefore,hasserts⟩

/-- A step ends a server that can send if and only if it brings a message that asserts. -/
theorem step_aborts_iff {e : Event} (hs : s.Sends) (hbroken : ∀ id, e ≠ .broken id)
    (hmsg : ∀ k bytes c, e = .readable k (.data bytes) → s.client? k = some c →
      ∀ msg ∈ c.completes bytes, ¬ SetsZero msg) :
    (step s e = .error .fault ↔ Aborts s e) ∧ ∀ t, step s e = .ok t → t.Sends := by
  cases e with
  | accepted id types endpoints done =>
    have hnot : ¬ Aborts s (.accepted id types endpoints done) := not_aborts (by simp)
    simp only [step]
    cases hc : s.client? id with
    | some c => simp [hnot]
    | none =>
      refine ⟨by simp [hnot],?_⟩
      intro t ht
      cases ht
      refine ⟨hs.metadata,?_,hs.answers⟩
      intro c hc
      rcases List.mem_append.mp hc with hc | hc
      · exact hs.lengths c hc
      · rw [List.mem_singleton.mp hc]
        exact (by decide : defaultChunkLen ≠ 0)
  | broken id => exact absurd rfl (hbroken id)
  | writable id =>
    obtain ⟨hsafe,hok⟩ := serve_throws hs (tryToSend_sends (fun what => ⟨what,rfl⟩) id)
    exact ⟨iff_of_false hsafe (not_aborts (by simp)),hok⟩
  | readable id answer =>
    by_cases hdata : ∃ bytes, answer = .data bytes
    · obtain ⟨bytes,rfl⟩ := hdata
      cases hc : s.client? id with
      | none =>
        have hnot : ¬ Aborts s (.readable id (.data bytes)) := by
          rintro ⟨_,_,c,-,-,-,-,he,hc',-⟩
          cases he
          cases hc.symm.trans hc'
        simp [step,serve,hc,hnot]
      | some c =>
        obtain ⟨hsends,habort⟩ := recvFromClient_sends hs hc (hmsg id bytes c rfl hc)
        obtain ⟨hfault,hok⟩ := serve_sends hc hsends
        exact ⟨hfault.trans (habort.trans (aborts_data_iff hs.metadata hc).symm),hok⟩
    · obtain ⟨hsafe,hok⟩ := serve_throws hs (recvFromClient_throws id (not_exists.mp hdata))
      refine ⟨iff_of_false hsafe (not_aborts ?_),hok⟩
      rintro k bytes he
      cases he
      exact hdata ⟨bytes,rfl⟩

end

/-- The messages that a client completes with all its bytes, if nothing is thrown before. -/
def said (types : Channel → UInt8) (endpoints : Channel → UInt32) (bytes : List UInt8) :
    List RTMPMessage :=
  (run reader (freshMessages types endpoints,defaultChunkLen,[]) bytes).state.2.2

/-- No send meets a broken pipe and no client sets a chunk length of zero, whatever stood in the
memory of its channels. -/
structure Clean (answers : List SendAnswer) (es : List Event) : Prop where
  sends : .broken ∉ answers
  handshakes : ∀ id, .broken id ∉ es
  lengths : ∀ es' k types endpoints, es' <+: es →
    ∀ msg ∈ said types endpoints (es'.foldl (hear k) []), ¬ SetsZero msg

section

variable {k : ℕ} {c : Client} {s : Server} {answers : List SendAnswer} {es es' fs : List Event}

theorem completes_said (h : exec step (initial answers) es = .ok s) (hc : s.client? k = some c)
    (bytes : List UInt8) : ∃ types endpoints, ∀ msg ∈ c.completes bytes,
      msg ∈ said types endpoints ((es++[Event.readable k (.data bytes)]).foldl (hear k) []) := by
  obtain ⟨types,endpoints,noted,hread⟩ := exec_reading h hc
  refine ⟨types,endpoints,?_⟩
  have hheard : (es++[Event.readable k (.data bytes)]).foldl (hear k) [] =
      es.foldl (hear k) []++bytes := by simp [hear]
  have hfeed := feed_run reader_stable (freshMessages types endpoints,defaultChunkLen,[])
    (es.foldl (hear k) []) bytes
  have hmap := run_map (reader_noted noted) (c.messages,c.chunkLen,[]) (c.buf++bytes)
  simp only [List.append_nil] at hmap
  rw [hread,feed,hmap] at hfeed
  unfold said
  rw [hheard,← hfeed]
  intro msg hmsg
  unfold Client.completes at hmsg
  cases hrun : run reader (c.messages,c.chunkLen,[]) (c.buf++bytes) <;>
    exact List.mem_append_right noted (by simpa [hrun,Place.state] using hmsg)

theorem Clean.step_aborts {e : Event} (h : Clean answers (es++e::fs)) (hs : s.Sends)
    (hes : exec step (initial answers) es = .ok s) :
    (step s e = .error .fault ↔ Aborts s e) ∧ ∀ t, step s e = .ok t → t.Sends := by
  refine step_aborts_iff hs ?_ ?_
  · rintro id rfl
    exact h.handshakes id (List.mem_append_right es List.mem_cons_self)
  · rintro k bytes c rfl hc msg hmsg
    obtain ⟨types,endpoints,hsaid⟩ := completes_said hes hc bytes
    exact h.lengths _ k types endpoints ⟨fs,by simp⟩ msg (hsaid msg hmsg)

theorem Clean.exec_sends (h : Clean answers (es++fs)) (hes : exec step (initial answers) es = .ok s) :
    s.Sends := by
  induction es using List.reverseRecOn generalizing fs s with
  | nil =>
    cases hes
    exact ⟨by simp [Server.Described,initial],by simp [initial],h.sends⟩
  | append_singleton es e ih =>
    rw [List.append_assoc,List.singleton_append] at h
    cases ht : exec step (initial answers) es with
    | error halt =>
      rw [exec_append,ht] at hes
      cases hes
    | ok t =>
      rw [exec_append_ok ht] at hes
      obtain ⟨u,hstep,hnil⟩ := exec_cons_ok.mp hes
      cases hnil
      exact (h.step_aborts (ih h ht) ht).2 _ hstep

def oneRead (bytes : List UInt8) : List Event :=
  [.accepted 1 (fun _ => 0) (fun _ => 0) true,.readable 1 (.data bytes)]

theorem heard_oneRead {bytes : List UInt8} (h : es' <+: oneRead bytes) :
    es'.foldl (hear k) [] = [] ∨ es'.foldl (hear k) [] = bytes := by
  match es', h with
  | [], _ => exact Or.inl rfl
  | [_], ⟨_,h⟩ =>
    cases h
    exact Or.inl (ite_self _)
  | [_,_], ⟨_,h⟩ =>
    cases h
    by_cases hk : 1 = k
    · exact Or.inr (by simp [hear,hk])
    · exact Or.inl (by simp [hear,hk])
  | _::_::_::es', ⟨_,h⟩ => simp [oneRead] at h

section

variable {types : Channel → UInt8} {endpoints : Channel → UInt32} {i : Channel} {f : Frame}
  {msg : RTMPMessage}

theorem said_frame (hf : f.Fits) (htype : f.type ≠ msgSetChunk) :
    said types endpoints (f.chunks defaultChunkLen i).flatten = [f.message] := by
  obtain ⟨msgs,hrun⟩ := @run_frame types endpoints i f 127 hf
  have hread := run_reader_inbox hrun (by simpa [Frame.message] using htype)
  unfold said
  exact congrArg (fun p => p.state.2.2) hread

theorem said_oneRead (hf : f.Fits) (htype : f.type ≠ msgSetChunk)
    (h : es' <+: oneRead (f.chunks defaultChunkLen i).flatten)
    (hmsg : msg ∈ said types endpoints (es'.foldl (hear k) [])) : msg = f.message := by
  rcases heard_oneRead (k:=k) h with hnil | hall
  · rw [hnil] at hmsg
    cases hmsg
  · rw [hall,said_frame hf htype] at hmsg
    exact List.mem_singleton.mp hmsg

theorem clean_oneRead (hf : f.Fits) (htype : f.type ≠ msgSetChunk) :
    Clean plenty (oneRead (f.chunks defaultChunkLen i).flatten) where
  sends := by decide
  handshakes id := by simp [oneRead]
  lengths es' k types endpoints h msg hmsg := by
    rw [said_oneRead hf htype h hmsg]
    exact fun hzero => htype hzero.1

end

end

section

variable {answers : List SendAnswer} {es : List Event}

end

end Rtmp
end PcEnv
