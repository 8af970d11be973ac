import PcEnv.RtmpStream

/-! What `rtmp_send` writes is what `recv_from_client` reads, with the chunks of any channels between
one another. -/
namespace PcEnv
namespace Rtmp

open Bytes Incremental
open Amf (Exn notEnough)

@[ext]
structure Frame where
  type : UInt8
  endpoint : UInt32
  timestamp : UInt64
  body : List UInt8
  deriving DecidableEq, Repr

/-- Bytes in pieces of `c`, of which the last may be shorter. -/
def pieces (c : ℕ) (l : List UInt8) : List (List UInt8) :=
  if l = [] ∨ c = 0 then [] else l.take c::pieces c (l.drop c)
termination_by l.length
decreasing_by
  rename_i h
  push Not at h
  have hpos := List.length_pos_iff.mpr h.1
  rw [List.length_drop]
  omega

def Frame.header (f : Frame) (i : Channel) : List UInt8 :=
  headerBytes f.type f.endpoint f.body.length f.timestamp i

/-- The chunks of a frame, the first with the whole header. -/
def Frame.chunks (c : ℕ) (i : Channel) (f : Frame) : List (List UInt8) :=
  (f.header i++f.body.take c)::(pieces c (f.body.drop c)).map (nextFlags i::·)

def Frame.message (f : Frame) : RTMPMessage :=
  ⟨f.type,f.body.length,UInt64.ofNat (f.timestamp.toNat % 2^24),f.endpoint,f.body⟩

/-- The header has room for the length, and the timestamp is not the mark of a longer one. -/
structure Frame.Fits (f : Frame) : Prop where
  pos : f.body ≠ []
  lt : f.body.length < 2^24
  timestamp : f.timestamp.toNat % 2^24 ≠ 0xffffff

instance frameFits (f : Frame) : Decidable f.Fits :=
  decidable_of_iff (f.body ≠ [] ∧ f.body.length < 2^24 ∧ f.timestamp.toNat % 2^24 ≠ 0xffffff)
    ⟨fun h => ⟨h.1,h.2.1,h.2.2⟩,fun h => ⟨h.pos,h.lt,h.timestamp⟩⟩

section

variable {c : ℕ} {l : List UInt8} {i : Channel}

@[simp] theorem pieces_nil (c : ℕ) : pieces c [] = [] := by
  rw [pieces,if_pos (Or.inl rfl)]

theorem pieces_ne_nil (hc : 0 < c) (hl : l ≠ []) : pieces c l = l.take c::pieces c (l.drop c) := by
  rw [pieces,if_neg (not_or.mpr ⟨hl,hc.ne'⟩)]

theorem take_drop_piece (buf : List UInt8) (pos c : ℕ) :
    (buf.drop pos).take (min (buf.length-pos) c) = (buf.drop pos).take c ∧
      (buf.drop pos).drop c = buf.drop (pos+min (buf.length-pos) c) ∧
      ((buf.drop pos).take c).length = min (buf.length-pos) c := by
  have hlen := List.length_drop (i:=pos) (l:=buf)
  refine ⟨?_,?_,?_⟩
  · rw [Nat.min_comm,← hlen,← List.take_eq_take_min]
  · rw [List.drop_drop]
    rcases le_total c (buf.length-pos) with hle | hle
    · rw [Nat.min_eq_right hle]
    · rw [Nat.min_eq_left hle,List.drop_eq_nil_of_le (by omega),List.drop_eq_nil_of_le (by omega)]
  · rw [List.length_take,hlen,Nat.min_comm]

theorem sendChunks_rest (hc : 0 < c) (buf : List UInt8) {fuel pos : ℕ} (hpos : pos ≠ 0)
    (hfuel : buf.length-pos < fuel) (queue : List UInt8) (seq : UInt32) :
    sendChunks c i buf fuel pos (queue,seq) =
      .ok (queue++((pieces c (buf.drop pos)).map (nextFlags i::·)).flatten,
        seq+UInt32.ofNat ((pieces c (buf.drop pos)).map (nextFlags i::·)).flatten.length) := by
  induction fuel generalizing pos queue seq with
  | zero => omega
  | succ fuel ih =>
    rw [sendChunks]
    by_cases hlt : pos < buf.length
    · have hne : buf.drop pos ≠ [] := List.ne_nil_of_length_pos (by rw [List.length_drop]; omega)
      obtain ⟨htake,hdrop,hlen⟩ := take_drop_piece buf pos c
      simp only [if_pos hlt,if_pos hpos]
      rw [ih (by omega) (by omega),htake,pieces_ne_nil hc hne,hdrop]
      simp [hlen,UInt32.add_assoc,UInt32.add_comm]
    · have hnil : buf.drop pos = [] := List.drop_eq_nil_of_le (not_lt.mp hlt)
      simp [hlt,hnil]

theorem sendChunks_zero (i : Channel) {buf : List UInt8} (hbuf : buf ≠ []) (fuel : ℕ)
    (q : List UInt8 × UInt32) : sendChunks 0 i buf fuel 0 q = .error .fuel := by
  have hpos := List.length_pos_iff.mpr hbuf
  induction fuel generalizing q with
  | zero => rfl
  | succ fuel ih => simp [sendChunks,hpos,ih]

theorem sendChunks_eq (f : Frame) (hc : c ≠ 0 ∨ f.body = []) {fuel : ℕ} (hfuel : f.body.length < fuel)
    (queue : List UInt8) (seq : UInt32) :
    sendChunks c i f.body fuel 0 (queue++f.header i,seq+12) =
      .ok (queue++(f.chunks c i).flatten,seq+UInt32.ofNat (f.chunks c i).flatten.length) := by
  have hheader : (f.header i).length = 12 := by simp [Frame.header,headerBytes]
  obtain ⟨fuel,rfl⟩ : ∃ n, fuel = n+1 := ⟨fuel-1,by omega⟩
  rw [sendChunks]
  by_cases hlt : 0 < f.body.length
  · obtain ⟨htake,hdrop,hlen⟩ := take_drop_piece f.body 0 c
    rw [List.drop_zero] at htake hdrop hlen
    simp only [if_pos hlt,ne_eq,not_true_eq_false,if_false,List.drop_zero]
    have hne : f.body ≠ [] := List.ne_nil_of_length_pos hlt
    have hpos : 0 < c := Nat.pos_of_ne_zero (hc.resolve_right hne)
    rw [sendChunks_rest hpos f.body (by omega) (by omega),htake,← hdrop,Frame.chunks]
    simp [hlen,hheader,UInt32.add_assoc]
  · have hnil : f.body = [] := List.eq_nil_of_length_eq_zero (by omega)
    simp [hnil,Frame.chunks,hheader]

/-- `rtmp_send` comes to its end, with a frame in the queue and its bytes counted, unless there is
something to send and the chunks have no length. -/
theorem rtmpQueue_ends_iff (c : ℕ) (i : Channel) (f : Frame) (queue : List UInt8) (seq : UInt32) :
    ((∃ fuel, sendChunks c i f.body fuel 0 (queue++f.header i,seq+12) ≠ .error .fuel) ↔
      c ≠ 0 ∨ f.body = []) ∧
    rtmpQueue c f.type f.endpoint f.body f.timestamp i (queue,seq) =
      if c ≠ 0 ∨ f.body = [] then
        .ok (queue++(f.chunks c (sendChannel f.endpoint i)).flatten,
          seq+UInt32.ofNat (f.chunks c (sendChannel f.endpoint i)).flatten.length)
      else .error .fuel := by
  by_cases h : c ≠ 0 ∨ f.body = []
  · refine ⟨iff_of_true ⟨f.body.length+1,?_⟩ h,?_⟩
    · rw [sendChunks_eq f h (Nat.lt_succ_self _)]
      simp
    · rw [if_pos h]
      exact sendChunks_eq f h (Nat.lt_succ_self _) queue seq
  · rw [if_neg h]
    push Not at h
    obtain ⟨rfl,hbody⟩ := h
    refine ⟨iff_of_false ?_ (by simp [hbody]),sendChunks_zero _ hbody _ _⟩
    rintro ⟨fuel,hfuel⟩
    exact hfuel (sendChunks_zero i hbody fuel _)

end

/-- A whole chunk: the message with it, and the message that it completes. -/
def chunkStep (c : ℕ) (msg : RTMPMessage) (w : List UInt8) :
    Option (RTMPMessage × List RTMPMessage) :=
  match readChunk c msg w with
  | .took msg n =>
    if n = w.length then
      some (if msg.buf.length = msg.len then ({ msg with buf := [] },[msg]) else (msg,[]))
    else none
  | _ => none

def channelRun (c : ℕ) : RTMPMessage → List (List UInt8) → Option (RTMPMessage × List RTMPMessage)
  | msg, [] => some (msg,[])
  | msg, w::ws => do
    let (msg,out) ← chunkStep c msg w
    let (msg,outs) ← channelRun c msg ws
    some (msg,out++outs)

section

variable {c : ℕ} {i : Channel} {f : Frame} {msg : RTMPMessage} {p : List UInt8}

theorem toNat_firstFlags (i : Channel) : (firstFlags i).toNat = i.val := by
  rw [firstFlags,UInt8.toNat_ofNat']
  omega

theorem toNat_nextFlags (i : Channel) : (nextFlags i).toNat = i.val+192 := by
  rw [nextFlags,UInt8.toNat_ofNat']
  omega

theorem headerLen_firstFlags (i : Channel) : headerLen (firstFlags i) = 12 := by
  have hzero : i.val/64 = 0 := Nat.div_eq_of_lt i.isLt
  rw [headerLen,toNat_firstFlags,hzero]
  rfl

theorem headerLen_nextFlags (i : Channel) : headerLen (nextFlags i) = 1 := by
  have hthree : (i.val+192)/64 = 3 := by omega
  rw [headerLen,toNat_nextFlags,hthree]
  rfl

@[simp] theorem channel_firstFlags (i : Channel) : channel (firstFlags i) = i := by
  apply Fin.ext
  simp only [channel,toNat_firstFlags]
  omega

@[simp] theorem channel_nextFlags (i : Channel) : channel (nextFlags i) = i := by
  apply Fin.ext
  simp only [channel,toNat_nextFlags]
  omega

theorem loadLe32_reverse (n : UInt32) : loadLe32 (toBe 4 n.toNat).reverse = n := by
  have hlt : n.toNat < 256^4 := n.toNat_lt
  rw [loadLe32,List.reverse_reverse,ofBe_toBe hlt,UInt32.ofNat_toNat]

theorem ofBytes_header (f : Frame) (i : Channel) :
    RTMPHeader.ofBytes (f.header i) =
      ⟨f.timestamp.toNat % 2^24,f.body.length % 2^24,f.type,f.endpoint⟩ := by
  have hpow : (256 : ℕ)^3 = 2^24 := by norm_num
  have hts : ((f.header i).drop 1).take 3 = toBe 3 f.timestamp.toNat := rfl
  have hlen : ((f.header i).drop 4).take 3 = toBe 3 f.body.length := rfl
  have htype : ((f.header i).drop 7).headD 0 = f.type := rfl
  have hendpoint : ((f.header i).drop 8).take 4 = (toBe 4 f.endpoint.toNat).reverse := rfl
  rw [RTMPHeader.ofBytes,hts,hlen,htype,hendpoint,ofBe_toBe_mod,ofBe_toBe_mod,hpow,
    loadLe32_reverse]

theorem readChunk_header (hlt : f.body.length < 2^24) (hmsg : msg.buf = []) (c : ℕ) :
    readChunk c msg (f.header i++f.body.take c) =
      if f.body = [] then
        .fail ⟨f.type,0,msg.timestamp,f.endpoint,[]⟩ (.runtimeError "message without a header")
      else if f.timestamp.toNat % 2^24 = 0xffffff then
        .fail ⟨f.type,f.body.length,msg.timestamp,f.endpoint,[]⟩
          (.runtimeError "ext timestamp not supported")
      else
        .took { f.message with buf := f.body.take c } (f.header i++f.body.take c).length := by
  have hheader : (f.header i).length = 12 := by simp [Frame.header,headerBytes]
  have hhead : headLen (f.header i++f.body.take c) = 12 := headerLen_firstFlags i
  have htake : header (f.header i++f.body.take c) =
      ⟨f.timestamp.toNat % 2^24,f.body.length % 2^24,f.type,f.endpoint⟩ := by
    rw [header,hhead,← hheader,List.take_left,ofBytes_header]
  have hlen : f.body.length % 2^24 = f.body.length := Nat.mod_eq_of_lt hlt
  have hpiece : (f.body.take c).length = min f.body.length c := by
    rw [List.length_take,Nat.min_comm]
  have hload : loadHeader ⟨f.timestamp.toNat % 2^24,f.body.length % 2^24,f.type,f.endpoint⟩ 12 msg =
      .ok ⟨f.type,f.body.length,msg.timestamp,f.endpoint,[]⟩ := by
    rw [hlen]
    simp [loadHeader,hmsg]
  have hstamp : loadTimestamp ⟨f.timestamp.toNat % 2^24,f.body.length % 2^24,f.type,f.endpoint⟩ 12
      ⟨f.type,f.body.length,msg.timestamp,f.endpoint,[]⟩ =
      if f.timestamp.toNat % 2^24 = 0xffffff then
        .error (.runtimeError "ext timestamp not supported")
      else .ok (UInt64.ofNat (f.timestamp.toNat % 2^24)) := by
    rw [loadTimestamp,if_pos (by decide),if_neg (show ¬12 < 12 by decide),UInt64.add_zero]
  have hdrop : (f.header i++f.body.take c).drop 12 = f.body.take c := by
    rw [← hheader,List.drop_left]
  have htook : (f.body.take c).take (min f.body.length c) = f.body.take c := by
    rw [← hpiece,List.take_length]
  have hall : (f.header i++f.body.take c).length = 12+min f.body.length c := by
    rw [List.length_append,hheader,hpiece]
  have hheadle : ¬ 12+min f.body.length c < 12 := by omega
  unfold readChunk
  simp only [hhead,htake,hall,if_neg hheadle,hload,readBody,List.length_nil,
    Nat.sub_zero,lt_irrefl,if_false,hstamp,hdrop,htook,List.nil_append]
  by_cases hnil : f.body = []
  · simp [hnil]
  · have hzero : ¬ f.body.length = 0 := fun h => hnil (List.eq_nil_of_length_eq_zero h)
    simp only [if_neg hzero,if_neg hnil]
    split_ifs <;> rfl

theorem readChunk_first (hf : f.Fits) (hmsg : msg.buf = []) (c : ℕ) :
    readChunk c msg (f.header i++f.body.take c) =
      .took { f.message with buf := f.body.take c } (f.header i++f.body.take c).length := by
  rw [readChunk_header hf.lt hmsg,if_neg hf.pos,if_neg hf.timestamp]

theorem readChunk_next (i : Channel) (hlt : msg.buf.length < msg.len)
    (hp : p.length = min (msg.len-msg.buf.length) c) :
    readChunk c msg (nextFlags i::p) =
      .took { msg with buf := msg.buf++p } (nextFlags i::p).length := by
  have hhead : headLen (nextFlags i::p) = 1 := headerLen_nextFlags i
  have hload (h : RTMPHeader) : loadHeader h 1 msg = .ok msg := by simp [loadHeader]
  have hstamp (h : RTMPHeader) : loadTimestamp h 1 msg = .ok msg.timestamp := by
    simp [loadTimestamp]
  have hheadle : ¬ 1+p.length < 1 := by omega
  have hzero : ¬ msg.len = 0 := by omega
  have hall : (nextFlags i::p).length = 1+p.length := Nat.add_comm _ _
  have htook : ((nextFlags i::p).drop 1).take p.length = p := by simp
  unfold readChunk
  simp only [hhead,if_neg hheadle,hload,readBody,if_neg hzero,← hp,hall,lt_irrefl,if_false,hstamp,
    htook]

theorem channelRun_rest (hc : 0 < c) (i : Channel) {rest : List UInt8} (hrest : rest ≠ [])
    (hlen : msg.len = msg.buf.length+rest.length) :
    channelRun c msg ((pieces c rest).map (nextFlags i::·)) =
      some ({ msg with buf := [] },[{ msg with buf := msg.buf++rest }]) := by
  induction hk : rest.length using Nat.strong_induction_on generalizing msg rest with
  | _ k ih =>
    have hpos := List.length_pos_iff.mpr hrest
    have hp : (rest.take c).length = min (msg.len-msg.buf.length) c := by
      rw [List.length_take,hlen,Nat.add_sub_cancel_left,Nat.min_comm]
    have hread := readChunk_next i (by omega) hp
    rw [pieces_ne_nil hc hrest,List.map_cons,channelRun,chunkStep,hread]
    simp only [if_true]
    by_cases hdone : rest.drop c = []
    · have hall : rest.take c = rest := by
        have hsplit := List.take_append_drop c rest
        rwa [hdone,List.append_nil] at hsplit
      have hfull : (msg.buf++rest).length = msg.len := by rw [List.length_append,hlen]
      rw [hall,hdone,if_pos hfull]
      simp [channelRun]
    · have hmore := List.length_pos_iff.mpr hdone
      rw [List.length_drop] at hmore
      have hpart : ¬ (msg.buf++rest.take c).length = msg.len := by
        rw [List.length_append,List.length_take]
        omega
      have hleft : msg.len = (msg.buf++rest.take c).length+(rest.drop c).length := by
        rw [hlen,List.length_append,List.length_take,List.length_drop]
        omega
      have hnext := @ih (rest.drop c).length (by rw [List.length_drop]; omega)
        { msg with buf := msg.buf++rest.take c } (rest.drop c) hdone hleft rfl
      rw [if_neg hpart]
      simp only [Option.bind_eq_bind,Option.bind_some,hnext]
      simp

theorem channelRun_frame (hc : 0 < c) (hf : f.Fits) (hmsg : msg.buf = []) (i : Channel) :
    channelRun c msg (f.chunks c i) = some ({ f.message with buf := [] },[f.message]) := by
  rw [Frame.chunks,channelRun,chunkStep,readChunk_first hf hmsg]
  simp only [if_true]
  by_cases hdone : f.body.drop c = []
  · have hall : f.body.take c = f.body := by
      have hsplit := List.take_append_drop c f.body
      rwa [hdone,List.append_nil] at hsplit
    have hfull : f.body.length = f.message.len := rfl
    rw [hall,hdone,pieces_nil,if_pos hfull]
    simp [channelRun,Frame.message]
  · have hmore := List.length_pos_iff.mpr hdone
    rw [List.length_drop] at hmore
    have hlen : f.message.len = f.body.length := rfl
    have hpart : ¬ (f.body.take c).length = f.message.len := by
      rw [List.length_take,hlen]
      omega
    have hleft : f.message.len = (f.body.take c).length+(f.body.drop c).length := by
      rw [hlen,List.length_take,List.length_drop]
      omega
    have hnext := @channelRun_rest c { f.message with buf := f.body.take c } hc i _ hdone hleft
    rw [if_neg hpart]
    simp only [Option.bind_eq_bind,Option.bind_some,hnext]
    simp [Frame.message]

theorem channelRun_append {msg' : RTMPMessage} {out : List RTMPMessage} {ws : List (List UInt8)}
    (h : channelRun c msg ws = some (msg',out)) (vs : List (List UInt8)) :
    channelRun c msg (ws++vs) = (channelRun c msg' vs).map (fun p => (p.1,out++p.2)) := by
  induction ws generalizing msg out with
  | nil =>
    cases h
    simp
  | cons w ws ih =>
    rw [channelRun] at h
    rw [List.cons_append,channelRun]
    cases hstep : chunkStep c msg w with
    | none =>
      rw [hstep] at h
      cases h
    | some p =>
      rw [hstep] at h
      simp only [Option.bind_eq_bind,Option.bind_some] at h ⊢
      cases hrun : channelRun c p.1 ws with
      | none =>
        rw [hrun] at h
        cases h
      | some q =>
        rw [hrun] at h
        cases h
        rw [ih hrun]
        cases channelRun c q.1 vs <;> simp

theorem channelRun_frames (hc : 0 < c) {fs : List Frame} (hf : ∀ f ∈ fs, f.Fits)
    (hmsg : msg.buf = []) (i : Channel) :
    ∃ msg', msg'.buf = [] ∧
      channelRun c msg (fs.flatMap (Frame.chunks c i)) = some (msg',fs.map Frame.message) := by
  induction fs generalizing msg with
  | nil => exact ⟨msg,hmsg,rfl⟩
  | cons f fs ih =>
    obtain ⟨hfit,hfits⟩ := List.forall_mem_cons.mp hf
    obtain ⟨msg',hmsg',hrest⟩ := @ih { f.message with buf := [] } hfits rfl
    refine ⟨msg',hmsg',?_⟩
    rw [List.flatMap_cons,channelRun_append (channelRun_frame hc hfit hmsg i),hrest]
    rfl

end

def keep (i : Channel) (msg : RTMPMessage) (got : List (Channel × RTMPMessage)) :
    Except Exn Unit × List (Channel × RTMPMessage) :=
  (.ok (),got++[(i,msg)])

/-- A peer whose chunk length stays as it is. -/
def inbox (c : ℕ) :
    Messages × List (Channel × RTMPMessage) → List UInt8 →
      Turn (Messages × List (Channel × RTMPMessage)) Exn :=
  recvTurn (fun _ => c) keep

def chunkChannel (w : List UInt8) : Channel := channel (w.headD 0)

def ofChannel (i : Channel) (got : List (Channel × RTMPMessage)) : List RTMPMessage :=
  (got.filter (fun p => p.1 = i)).map Prod.snd

section

variable {c : ℕ} {msg : RTMPMessage} {w : List UInt8} {ws : List (List UInt8)} {msgs : Messages}
  {got : List (Channel × RTMPMessage)}

theorem inbox_stable (c : ℕ) : Stable (inbox c) := recvTurn_stable _ _

@[simp] theorem ofChannel_append (i : Channel) (got got' : List (Channel × RTMPMessage)) :
    ofChannel i (got++got') = ofChannel i got++ofChannel i got' := by
  simp [ofChannel]

@[simp] theorem ofChannel_map_self (i : Channel) (out : List RTMPMessage) :
    ofChannel i (out.map (Prod.mk i)) = out := by
  induction out with
  | nil => rfl
  | cons m out ih =>
    unfold ofChannel at ih ⊢
    simp [ih]

theorem ofChannel_map_ne {i j : Channel} (h : j ≠ i) (out : List RTMPMessage) :
    ofChannel i (out.map (Prod.mk j)) = [] := by
  induction out with
  | nil => rfl
  | cons m out ih =>
    unfold ofChannel at ih ⊢
    simp [h,ih]

theorem chunkStep_eq_some {msg' : RTMPMessage} {out : List RTMPMessage}
    (h : chunkStep c msg w = some (msg',out)) :
    ∃ m, readChunk c msg w = .took m w.length ∧
      (if m.buf.length = m.len then ({ m with buf := [] },[m]) else (m,[])) = (msg',out) := by
  unfold chunkStep at h
  cases hread : readChunk c msg w with
  | more m =>
    rw [hread] at h
    cases h
  | fail m e =>
    rw [hread] at h
    cases h
  | took m n =>
    rw [hread] at h
    simp only at h
    by_cases hn : n = w.length
    · subst hn
      rw [if_pos rfl] at h
      exact ⟨m,rfl,Option.some.inj h⟩
    · rw [if_neg hn] at h
      cases h

theorem run_chunk {msg' : RTMPMessage} {out : List RTMPMessage}
    (h : chunkStep c (msgs (chunkChannel w)) w = some (msg',out)) (rest : List UInt8) :
    run (inbox c) (msgs,got) (w++rest) =
      run (inbox c) (Function.update msgs (chunkChannel w) msg',
        got++out.map (Prod.mk (chunkChannel w))) rest := by
  obtain ⟨m,hread,hm⟩ := chunkStep_eq_some h
  have hne : w ≠ [] := ne_nil_of_headLen (readChunk_took hread).1
  have hne' : w++rest ≠ [] := by simp [hne]
  have hhead : channel ((w++rest).headD 0) = chunkChannel w := by
    rw [headD_append hne]
    rfl
  have hmore : readChunk c (msgs (chunkChannel w)) (w++rest) = .took m w.length := by
    rcases readChunk_append c (msgs (chunkChannel w)) hne rest with ⟨m',hm',-⟩ | ⟨heq,-⟩
    · rw [hread] at hm'
      cases hm'
    · rw [heq,hread]
  have hturn : inbox c (msgs,got) (w++rest) =
      .took (Function.update msgs (chunkChannel w) msg',
        got++out.map (Prod.mk (chunkChannel w))) w.length := by
    unfold inbox recvTurn
    simp only [if_neg hne',hhead,hmore]
    by_cases hfull : m.buf.length = m.len
    · rw [if_pos hfull] at hm ⊢
      cases hm
      rfl
    · rw [if_neg hfull] at hm ⊢
      cases hm
      simp
  rw [run_took (inbox_stable c) hturn,List.drop_left]

theorem run_chunk_fail {m : RTMPMessage} {e : Exn} (hne : w ≠ [])
    (h : readChunk c (msgs (chunkChannel w)) w = .fail m e) (rest : List UInt8) :
    ∃ s, run (inbox c) (msgs,got) (w++rest) = .failed s e := by
  have hne' : w++rest ≠ [] := by simp [hne]
  have hhead : channel ((w++rest).headD 0) = chunkChannel w := by
    rw [headD_append hne]
    rfl
  have hmore : readChunk c (msgs (chunkChannel w)) (w++rest) = .fail m e := by
    rcases readChunk_append c (msgs (chunkChannel w)) hne rest with ⟨m',hm',-⟩ | ⟨heq,-⟩
    · rw [h] at hm'
      cases hm'
    · rw [heq,h]
  have hturn : ∃ s, inbox c (msgs,got) (w++rest) = .fail s e := by
    unfold inbox recvTurn
    simp only [if_neg hne',hhead,hmore]
    exact ⟨_,rfl⟩
  obtain ⟨s,hs⟩ := hturn
  exact ⟨s,run_fail hs⟩

theorem run_inbox_nil (c : ℕ) (s : Messages × List (Channel × RTMPMessage)) :
    run (inbox c) s [] = .waits s [] := rfl

/-- The chunks of all channels in any order: each channel has its own. -/
theorem run_interleaved {msgs' : Messages} {out : Channel → List RTMPMessage}
    (h : ∀ i, channelRun c (msgs i) (ws.filter (fun w => chunkChannel w = i)) =
      some (msgs' i,out i)) (rest : List UInt8) :
    ∃ got', run (inbox c) (msgs,got) (ws.flatten++rest) = run (inbox c) (msgs',got++got') rest ∧
      ∀ i, ofChannel i got' = out i := by
  induction ws generalizing msgs got out with
  | nil =>
    have hmsgs : msgs = msgs' := funext fun i => congrArg Prod.fst (Option.some.inj (h i))
    have hout : ∀ i, [] = out i := fun i => congrArg Prod.snd (Option.some.inj (h i))
    subst hmsgs
    exact ⟨[],by simp,hout⟩
  | cons w ws ih =>
    have hself := h (chunkChannel w)
    rw [List.filter_cons_of_pos (by simp),channelRun] at hself
    cases hstep : chunkStep c (msgs (chunkChannel w)) w with
    | none =>
      rw [hstep] at hself
      cases hself
    | some p =>
      rw [hstep] at hself
      simp only [Option.bind_eq_bind,Option.bind_some] at hself
      cases hrun : channelRun c p.1 (ws.filter (fun v => chunkChannel v = chunkChannel w)) with
      | none =>
        rw [hrun] at hself
        cases hself
      | some q =>
        rw [hrun] at hself
        obtain ⟨hq,hout⟩ := Prod.mk.inj (Option.some.inj hself)
        have hnext : ∀ i, channelRun c (Function.update msgs (chunkChannel w) p.1 i)
            (ws.filter (fun v => chunkChannel v = i)) =
              some (msgs' i,Function.update out (chunkChannel w) q.2 i) := by
          intro i
          by_cases hi : i = chunkChannel w
          · subst hi
            rw [Function.update_self,Function.update_self,hrun,← hq]
          · have hi' := h i
            rw [List.filter_cons_of_neg (by simpa using Ne.symm hi)] at hi'
            rw [Function.update_of_ne hi,Function.update_of_ne hi,hi']
        obtain ⟨got',hrest,hgot⟩ := @ih _ (got++p.2.map (Prod.mk (chunkChannel w))) _ hnext
        refine ⟨p.2.map (Prod.mk (chunkChannel w))++got',?_,?_⟩
        · rw [List.flatten_cons,List.append_assoc,run_chunk hstep,hrest,List.append_assoc]
        · intro i
          rw [ofChannel_append,hgot i]
          by_cases hi : i = chunkChannel w
          · subst hi
            rw [ofChannel_map_self,Function.update_self,hout]
          · rw [ofChannel_map_ne (Ne.symm hi),Function.update_of_ne hi,List.nil_append]

theorem chunkChannel_chunks {f : Frame} {i : Channel} (hw : w ∈ f.chunks c i) :
    chunkChannel w = i := by
  rcases List.mem_cons.mp hw with rfl | hw
  · exact channel_firstFlags i
  · obtain ⟨p,-,rfl⟩ := List.mem_map.mp hw
    exact channel_nextFlags i

theorem run_chunks {i : Channel} (hws : ∀ w ∈ ws, chunkChannel w = i) {msg' : RTMPMessage}
    {out : List RTMPMessage} (h : channelRun c (msgs i) ws = some (msg',out)) (rest : List UInt8) :
    run (inbox c) (msgs,got) (ws.flatten++rest) =
      run (inbox c) (Function.update msgs i msg',got++out.map (Prod.mk i)) rest := by
  induction ws generalizing msgs got out with
  | nil =>
    cases h
    simp
  | cons w ws ih =>
    obtain ⟨rfl,hws⟩ := List.forall_mem_cons.mp hws
    rw [channelRun,Option.bind_eq_bind,Option.bind_eq_some_iff] at h
    obtain ⟨p,hstep,h⟩ := h
    obtain ⟨q,hrun,h⟩ := Option.bind_eq_some_iff.mp h
    cases h
    have hrun' : channelRun c (Function.update msgs (chunkChannel w) p.1 (chunkChannel w)) ws =
        some q := by
      rw [Function.update_self]
      exact hrun
    have hnext := @ih _ (got++p.2.map (Prod.mk (chunkChannel w))) hws _ hrun'
    rw [List.flatten_cons,List.append_assoc,run_chunk hstep,hnext,Function.update_idem]
    simp

theorem run_frames (hc : 0 < c) {fs : List (Channel × Frame)} (hf : ∀ p ∈ fs, p.2.Fits)
    (hmsgs : ∀ i, (msgs i).buf = []) (rest : List UInt8) :
    ∃ msgs', (∀ i, (msgs' i).buf = []) ∧
      run (inbox c) (msgs,got) ((fs.flatMap (fun p => (p.2.chunks c p.1).flatten))++rest) =
        run (inbox c) (msgs',got++fs.map (fun p => (p.1,p.2.message))) rest := by
  induction fs generalizing msgs got with
  | nil => exact ⟨msgs,hmsgs,by simp⟩
  | cons p fs ih =>
    obtain ⟨hfit,hfits⟩ := List.forall_mem_cons.mp hf
    have hframe := channelRun_frame hc hfit (hmsgs p.1) p.1
    have hbufs : ∀ i, (Function.update msgs p.1 { p.2.message with buf := [] } i).buf = [] := by
      intro i
      by_cases hi : i = p.1
      · rw [hi,Function.update_self]
      · rw [Function.update_of_ne hi,hmsgs i]
    obtain ⟨msgs',hmsgs',hrest⟩ := @ih _ (got++[(p.1,p.2.message)]) hfits hbufs
    refine ⟨msgs',hmsgs',?_⟩
    rw [List.flatMap_cons,List.append_assoc,
      run_chunks (fun w hw => chunkChannel_chunks hw) hframe,List.map_singleton,hrest]
    simp

/-- Only whole messages are ever handed over. -/
theorem run_inbox_whole {s : Messages × List (Channel × RTMPMessage)} (hs : Sized s.1)
    (hgot : ∀ p ∈ s.2, Whole p.2) (buf : List UInt8) :
    ∀ p ∈ (run (inbox c) s buf).state.2, Whole p.2 := by
  have hstep (s : Messages × List (Channel × RTMPMessage)) (buf : List UInt8)
      (hs : Sized s.1 ∧ ∀ p ∈ s.2, Whole p.2) :
      Sized (inbox c s buf).state.1 ∧ ∀ p ∈ (inbox c s buf).state.2, Whole p.2 := by
    let whole (got : List (Channel × RTMPMessage)) := ∀ p ∈ got, Whole p.2
    refine recvTurn_invariant (I:=whole) ?_ hs
    intro i msg got hmsg hgot p hp
    rcases List.mem_append.mp hp with hp | hp
    · exact hgot p hp
    · rw [List.mem_singleton.mp hp]
      exact hmsg
  exact (run_invariant (inbox_stable c) (P:=fun s => Sized s.1 ∧ ∀ p ∈ s.2, Whole p.2) hstep
    ⟨hs,hgot⟩).2

/-- The channels of a new client, with whatever stood there as types and endpoints. -/
def freshMessages (types : Channel → UInt8) (endpoints : Channel → UInt32) : Messages :=
  fun i => ⟨types i,0,0,endpoints i,[]⟩

theorem sized_fresh (types : Channel → UInt8) (endpoints : Channel → UInt32) :
    Sized (freshMessages types endpoints) := fun _ => ⟨le_rfl,Nat.two_pow_pos 24⟩

section

variable {types : Channel → UInt8} {endpoints : Channel → UInt32} {i : Channel} {f : Frame}

theorem run_frame (c : ℕ) (hf : f.Fits) : ∃ msgs', run (inbox (c+1))
    (freshMessages types endpoints,[]) (f.chunks (c+1) i).flatten =
      .waits (msgs',[(i,f.message)]) [] := by
  obtain ⟨msgs',-,hrun⟩ := @run_frames (c+1) (freshMessages types endpoints) []
    (Nat.succ_pos c) [(i,f)] (by simpa using hf) (fun _ => rfl) []
  rw [run_inbox_nil] at hrun
  exact ⟨msgs',by simpa using hrun⟩

theorem fits_of_run_frame {msgs' : Messages} (h : run (inbox (c+1))
    (freshMessages types endpoints,[]) (f.chunks (c+1) i).flatten = .waits (msgs',[(i,msg)]) [])
    (hbody : msg.buf = f.body) : f.Fits := by
  have hheader : f.header i++f.body.take (c+1) ≠ [] := by simp [Frame.header,headerBytes]
  have hchannel : chunkChannel (f.header i++f.body.take (c+1)) = i := channel_firstFlags i
  have hlt : f.body.length < 2^24 := by
    have hwhole := run_inbox_whole (c:=c+1) (s:=(freshMessages types endpoints,[]))
      (sized_fresh types endpoints) (by simp) (f.chunks (c+1) i).flatten
    rw [h] at hwhole
    have hmsg : Whole msg := hwhole (i,msg) List.mem_cons_self
    rw [← hbody,hmsg.len]
    exact hmsg.lt
  have hread := @readChunk_header i f (freshMessages types endpoints i) hlt rfl (c+1)
  have hnofail {m : RTMPMessage} {e : Exn} :
      readChunk (c+1) (freshMessages types endpoints i) (f.header i++f.body.take (c+1)) ≠
        .fail m e := by
    intro hfail
    obtain ⟨s,hs⟩ := @run_chunk_fail _ _ (freshMessages types endpoints) [] _ _ hheader
      (by rw [hchannel]; exact hfail)
      ((pieces (c+1) (f.body.drop (c+1))).map (nextFlags i::·)).flatten
    rw [Frame.chunks,List.flatten_cons,hs] at h
    cases h
  refine ⟨?_,hlt,?_⟩
  · intro hnil
    rw [if_pos hnil] at hread
    exact hnofail hread
  · intro hstamp
    by_cases hnil : f.body = []
    · rw [if_pos hnil] at hread
      exact hnofail hread
    · rw [if_neg hnil,if_pos hstamp] at hread
      exact hnofail hread

end

def RTMPMessage.frame (msg : RTMPMessage) : Frame :=
  ⟨msg.type,msg.endpoint,msg.timestamp,msg.buf⟩

theorem Frame.message_frame (f : Frame) : f.message.frame = f ↔ f.timestamp.toNat < 2^24 := by
  have hframe : f.message.frame = f ↔ UInt64.ofNat (f.timestamp.toNat % 2^24) = f.timestamp := by
    rw [Frame.ext_iff]
    simp [RTMPMessage.frame,Frame.message]
  have hmod : f.timestamp.toNat % 2^24 < 2^64 := by omega
  rw [hframe,← UInt64.toNat_inj,UInt64.toNat_ofNat',Nat.mod_eq_of_lt hmod]
  omega

/-- The frames that a peer reads back are those that fit: an empty body, a length of more than three
bytes and a timestamp that ends in `0xffffff` do not get across. The timestamp loses all but its
three lower bytes. -/
theorem run_frame_iff (c : ℕ) (types : Channel → UInt8) (endpoints : Channel → UInt32)
    (i : Channel) (f : Frame) :
    ((∃ msgs', run (inbox (c+1)) (freshMessages types endpoints,[]) (f.chunks (c+1) i).flatten =
      .waits (msgs',[(i,f.message)]) []) ↔ f.Fits) ∧
    ((∃ msgs' msg, run (inbox (c+1)) (freshMessages types endpoints,[])
        (f.chunks (c+1) i).flatten = .waits (msgs',[(i,msg)]) [] ∧ msg.frame = f) ↔
      f.Fits ∧ f.timestamp.toNat < 2^24) := by
  refine ⟨⟨?_,run_frame c⟩,?_⟩
  · rintro ⟨msgs',h⟩
    exact fits_of_run_frame h rfl
  constructor
  · rintro ⟨msgs',msg,h,hframe⟩
    have hf := fits_of_run_frame h (congrArg Frame.body hframe)
    refine ⟨hf,?_⟩
    obtain ⟨msgs'',hrun⟩ := @run_frame types endpoints i f c hf
    rw [hrun] at h
    cases h
    exact f.message_frame.mp hframe
  · rintro ⟨hf,hlt⟩
    obtain ⟨msgs',hrun⟩ := @run_frame types endpoints i f c hf
    exact ⟨msgs',f.message,hrun,f.message_frame.mpr hlt⟩

end

end Rtmp
end PcEnv
