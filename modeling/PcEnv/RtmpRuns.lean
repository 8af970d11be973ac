import PcEnv.RtmpMoves

/-! What holds in every run of the server. -/
namespace PcEnv
namespace Rtmp

open Bytes Amf Runs

inductive Touch (msg : RTMPMessage) : Client → Client → Prop
  | same (c : Client) : Touch msg c c
  | transmit (c : Client) (n : ℕ) : Touch msg c (c.transmit n)
  | queue {c : Client} (i : Channel) {f : Frame}
      (hmedia : f.IsMedia → c.ready = true ∧ f = relayed msg) : Touch msg c (c.queue i f)
  | opened {c : Client} (hready : c.ready = false)
      (hkey : msg.type = msgVideo ∧ isKeyFrame msg.buf = true)
      (hlast : ∃ log, c.log = log++[.frame c.chunkLen chanControl clearFrame]) :
      Touch msg c (c.setReady.queue chanStream (relayed msg))
  | readSeq (c : Client) (n : UInt32) : Touch msg c { c with readSeq := n }
  | chunkLen (htype : msg.type = msgSetChunk) (c : Client) (n : ℕ) :
      Touch msg c { c with chunkLen := n }
  | play (c : Client) : Touch msg c c.play
  | pause (c : Client) : Touch msg c { c with playing := false }

section

variable {k j : ℕ} {msg : RTMPMessage} {s s' : Server} {c c' : Client}

theorem touch_update {f : Client → Client} {id : ℕ} (hc : (s.update id f).client? j = some c')
    (hid : ∀ c, (f c).id = c.id) (hf : ∀ c, s.client? id = some c → Touch msg c (f c)) :
    ∃ c, s.client? j = some c ∧ Touch msg c c' := by
  rw [Server.client?_update hid] at hc
  split_ifs at hc with hj
  · subst hj
    obtain ⟨c,hd,rfl⟩ := Option.map_eq_some_iff.mp hc
    exact ⟨c,hd,hf c hd⟩
  · exact ⟨c',hc,.same c'⟩

theorem Move.touch (h : Move k msg s s') (hc : s'.client? j = some c') :
    ∃ c, s.client? j = some c ∧ Touch msg c c' := by
  cases h with
  | answered => exact ⟨c',hc,.same c'⟩
  | sent n _ => exact touch_update hc (fun _ => rfl) (fun c _ => .transmit c n)
  | queued hd _ _ hmedia =>
    refine touch_update hc (fun _ => rfl) ?_
    intro c hc
    obtain rfl := Option.some.inj (hd.symm.trans hc)
    exact .queue _ (fun hf => (hmedia hf).2)
  | opened hd _ _ hready hkey hlast =>
    refine touch_update hc (fun _ => rfl) ?_
    intro c hc
    obtain rfl := Option.some.inj (hd.symm.trans hc)
    exact .opened hready hkey hlast
  | counted n => exact touch_update hc (fun _ => rfl) (fun c _ => .readSeq c n)
  | chunked htype n => exact touch_update hc (fun _ => rfl) (fun c _ => .chunkLen htype c n)
  | claimed => exact ⟨c',hc,.same c'⟩
  | played => exact touch_update hc (fun _ => rfl) (fun c _ => .play c)
  | paused => exact touch_update hc (fun _ => rfl) (fun c _ => .pause c)
  | described => exact ⟨c',hc,.same c'⟩

theorem Move.ids (h : Move k msg s s') : s'.clients.map Client.id = s.clients.map Client.id := by
  cases h with
  | sent | queued | opened | counted | chunked | played | paused =>
    exact Server.ids_update (fun _ => rfl)
  | answered | claimed | described => rfl

/-- Only a client that is the publisher, or becomes it, reaches others. -/
theorem Move.others (h : Move k msg s s') (hj : j ≠ k) (hpub : s.publisher ≠ some k) :
    s'.client? j = s.client? j := by
  cases h with
  | answered | claimed | described => rfl
  | sent n hreach =>
    obtain rfl := hreach.resolve_right hpub
    exact Server.client?_update_ne (fun _ => rfl) hj
  | queued _ _ hreach _ =>
    obtain rfl := hreach.resolve_right hpub
    exact Server.client?_update_ne (fun _ => rfl) hj
  | opened _ _ hpub' => exact absurd hpub' hpub
  | counted | chunked | played | paused => exact Server.client?_update_ne (fun _ => rfl) hj

theorem Move.publisher_eq (h : Move k msg s s') :
    s'.publisher = s.publisher ∨ s.publisher = none ∧ s'.publisher = some k := by
  cases h with
  | claimed hnone => exact Or.inr ⟨hnone,rfl⟩
  | _ => exact Or.inl rfl

theorem Move.metadata (h : Move k msg s s') (hs : ∀ p ∈ s.metadata, Loaded p.2) :
    ∀ p ∈ s'.metadata, Loaded p.2 := by
  cases h with
  | described _ hm => exact hm
  | _ => exact hs

theorem Moves.ids (h : Moves k msg s s') : s'.clients.map Client.id = s.clients.map Client.id := by
  induction h with
  | refl => rfl
  | tail _ hmove ih => exact hmove.ids.trans ih

theorem Moves.metadata (h : Moves k msg s s') (hs : ∀ p ∈ s.metadata, Loaded p.2) :
    ∀ p ∈ s'.metadata, Loaded p.2 := by
  induction h with
  | refl => exact hs
  | tail _ hmove ih => exact hmove.metadata ih

end

inductive Effect (k : ℕ) : Server → Server → Prop
  | move {s s' : Server} {msg : RTMPMessage} (hmsg : Whole msg) (h : Move k msg s s') : Effect k s s'
  | kept {s : Server} {messages : Messages} (hsized : Sized messages) (rest : List UInt8) :
      Effect k s (s.update k fun c => { c with messages := messages, buf := rest })

abbrev Served (k : ℕ) : Server → Server → Prop := Relation.ReflTransGen (Effect k)

theorem Moves.served {k : ℕ} {msg : RTMPMessage} (hmsg : Whole msg) {s s' : Server}
    (h : Moves k msg s s') : Served k s s' := by
  induction h with
  | refl => exact .refl
  | tail _ hmove ih => exact ih.tail (.move hmsg hmove)

theorem recvLoop_served {k : ℕ} {s : Server} {messages : Messages} (hs : Sized messages)
    (buf : List UInt8) :
    Sized (Incremental.run (recvLoop k) (messages,s) buf).state.1 ∧
      Served k s (Incremental.run (recvLoop k) (messages,s) buf).state.2 := by
  refine Incremental.run_invariant (recvTurn_stable _ _)
    (P:=fun t : Messages × Server => Sized t.1 ∧ Served k s t.2) ?_ ⟨hs,.refl⟩
  intro t buf ht
  refine recvTurn_invariant ?_ ht
  intro i msg t hmsg ht
  exact ht.trans (Moves.served hmsg (handleMessage_moves k msg t))

theorem recvFromClient_served {k : ℕ} {s : Server} (a : RecvAnswer)
    (hs : ∀ c, s.client? k = some c → Sized c.messages) : Served k s (recvFromClient k a s).2 := by
  cases a with
  | eof => exact .refl
  | again => exact .refl
  | failed why => exact .refl
  | data bytes =>
    unfold recvFromClient
    cases hc : s.client? k with
    | none =>
      simp only [hc]
      exact .refl
    | some c =>
      obtain ⟨hsized,hserved⟩ := recvLoop_served (k:=k) (s:=s) (hs c hc) (c.buf++bytes)
      simp only [hc]
      cases hrun : Incremental.run (recvLoop k) (c.messages,s) (c.buf++bytes) with
      | waits t rest =>
        rw [hrun] at hsized hserved
        exact hserved.tail (.kept hsized rest)
      | failed t e =>
        rw [hrun] at hserved
        exact hserved

inductive Stepped (s : Server) : ℕ → Server → Prop
  | accepted {id : ℕ} (hid : s.client? id = none) (types : Channel → UInt8)
      (endpoints : Channel → UInt32) (done : Bool) :
      Stepped s id { s with clients := s.clients++[newClient id types endpoints done] }
  | served {k : ℕ} {c : Client} {s' : Server} (hc : s.client? k = some c) (h : Served k s s') :
      Stepped s k s'
  | closed {k : ℕ} {c : Client} {t : Server} (hc : s.client? k = some c) (h : Served k s t) :
      Stepped s k (closeClient k t)

/-- The client that an event is about. -/
def Event.client : Event → ℕ
  | .accepted id _ _ _ | .broken id | .writable id | .readable id _ => id

theorem serve_stepped {k : ℕ} {call : Call Unit} {s s' : Server} (hcall : Served k s (call s).2)
    (h : serve k call s = .ok s') : Stepped s k s' := by
  unfold serve at h
  cases hc : s.client? k with
  | none =>
    simp only [hc] at h
    cases h
  | some c =>
    simp only [hc] at h
    cases hr : call s with
    | mk r t =>
      rw [hr] at hcall
      simp only [hr] at h
      cases r with
      | ok u =>
        cases h
        exact .served hc hcall
      | error e =>
        cases e with
        | runtimeError what =>
          cases h
          exact .closed hc hcall
        | abort => cases h
        | killed => cases h
        | fuel => cases h

theorem step_stepped {s s' : Server} {e : Event}
    (hs : ∀ k c, s.client? k = some c → Sized c.messages) (h : step s e = .ok s') :
    Stepped s e.client s' := by
  cases e with
  | accepted id types endpoints done =>
    simp only [step] at h
    cases hc : s.client? id with
    | some c =>
      simp only [hc] at h
      cases h
    | none =>
      simp only [hc] at h
      cases h
      exact .accepted hc types endpoints done
  | broken id => cases h
  | writable k =>
    have hmsg : Whole ⟨0,1,0,0,[0]⟩ := ⟨rfl,by decide,by decide⟩
    exact serve_stepped (Moves.served hmsg (tryToSend_moves (Or.inl rfl))) h
  | readable k a => exact serve_stepped (recvFromClient_served a (hs k)) h

def Sent.bytes : Sent → List UInt8
  | .frame c i f => (f.chunks c i).flatten
  | .reset => []

/-- A stream in which media may follow or not: it opens with a key frame behind a `CLEAR_STREAM`,
and a reset closes it. -/
inductive Opened : List Sent → Bool → Prop
  | nil : Opened [] false
  | reset {l : List Sent} {b : Bool} (h : Opened l b) : Opened (l++[.reset]) false
  | other {l : List Sent} {b : Bool} {c : ℕ} {i : Channel} {f : Frame} (h : Opened l b)
      (hf : ¬ f.IsMedia) : Opened (l++[.frame c i f]) b
  | first {l : List Sent} {c c' : ℕ} {i i' : Channel} {f : Frame}
      (h : Opened (l++[.frame c i clearFrame]) false)
      (hkey : f.type = msgVideo ∧ isKeyFrame f.body = true) :
      Opened (l++[.frame c i clearFrame]++[.frame c' i' f]) true
  | media {l : List Sent} {c : ℕ} {i : Channel} {f : Frame} (h : Opened l true) :
      Opened (l++[.frame c i f]) true

structure Client.Good (c : Client) : Prop where
  sized : Sized c.messages
  stream : c.wire++c.sendQueue = c.log.flatMap Sent.bytes
  written : ∃ done, c.writtenSeq =
    handshakeSeq done+UInt32.ofNat (c.log.flatMap Sent.bytes).length
  opened : Opened c.log c.ready

structure Server.Good (s : Server) : Prop where
  ids : (s.clients.map Client.id).Nodup
  publisher : ∀ k, s.publisher = some k → s.client? k ≠ none
  metadata : ∀ p ∈ s.metadata, Loaded p.2
  client : ∀ j c, s.client? j = some c → c.Good

theorem Client.Good.queue {c : Client} (h : c.Good) {i : Channel} {f : Frame} {b : Bool}
    (hopened : Opened (c.log++[.frame c.chunkLen i f]) b) :
    (({ c with ready := b } : Client).queue i f).Good where
  sized := h.sized
  stream := by
    have hstream := h.stream
    simp only [Client.queue,List.flatMap_append,List.flatMap_singleton,Sent.bytes]
    rw [← hstream,List.append_assoc]
  written := by
    obtain ⟨done,hw⟩ := h.written
    refine ⟨done,?_⟩
    simp only [Client.queue,List.flatMap_append,List.flatMap_singleton,Sent.bytes,hw,
      List.length_append,UInt32.ofNat_add,UInt32.add_assoc]
  opened := hopened

theorem Touch.good {msg : RTMPMessage} {c c' : Client} (h : Touch msg c c') (hc : c.Good) :
    c'.Good := by
  cases h with
  | same => exact hc
  | transmit n =>
    refine ⟨hc.sized,?_,hc.written,hc.opened⟩
    simp only [Client.transmit]
    rw [List.append_assoc,List.take_append_drop]
    exact hc.stream
  | queue i hmedia =>
    rename_i f
    by_cases hf : f.IsMedia
    · have hready := (hmedia hf).1
      have hopened := hc.opened
      rw [hready] at hopened
      have hgood := hc.queue (i:=i) (Opened.media (c:=c.chunkLen) (i:=i) (f:=f) hopened)
      rw [← hready] at hgood
      exact hgood
    · exact hc.queue (hc.opened.other hf)
  | opened hready hkey hlast =>
    obtain ⟨log,hlog⟩ := hlast
    refine hc.queue ?_
    have hopened := hc.opened
    rw [hready,hlog] at hopened
    rw [hlog]
    exact .first hopened hkey
  | readSeq n => exact ⟨hc.sized,hc.stream,hc.written,hc.opened⟩
  | chunkLen _ n => exact ⟨hc.sized,hc.stream,hc.written,hc.opened⟩
  | play =>
    refine ⟨hc.sized,?_,?_,hc.opened.reset⟩
    · simpa [Client.play,Sent.bytes] using hc.stream
    · simpa [Client.play,Sent.bytes] using hc.written
  | pause => exact ⟨hc.sized,hc.stream,hc.written,hc.opened⟩

section

variable {k : ℕ} {s s' : Server}

theorem client?_eq_none_iff {id : ℕ} : s.client? id = none ↔ id ∉ s.clients.map Client.id := by
  simp [Server.client?]

theorem Effect.good (h : Effect k s s') (hk : s.client? k ≠ none) (hs : s.Good) : s'.Good := by
  cases h with
  | move hmsg h =>
    have hids := h.ids
    refine ⟨hids ▸ hs.ids,?_,h.metadata hs.metadata,?_⟩
    · intro p hp
      rw [Ne,client?_eq_none_iff,hids,← client?_eq_none_iff]
      rcases h.publisher_eq with heq | ⟨-,heq⟩
      · exact hs.publisher p (heq.symm.trans hp)
      · obtain rfl := Option.some.inj (heq.symm.trans hp)
        exact hk
    · intro j c' hc'
      obtain ⟨c,hc,htouch⟩ := h.touch hc'
      exact htouch.good (hs.client j c hc)
  | @kept messages hsized rest =>
    have hid : ∀ c : Client, ({ c with messages := messages, buf := rest } : Client).id = c.id :=
      fun _ => rfl
    have hids := @Server.ids_update s _ k hid
    refine ⟨hids ▸ hs.ids,?_,hs.metadata,?_⟩
    · intro p hp
      rw [Ne,client?_eq_none_iff,hids,← client?_eq_none_iff]
      exact hs.publisher p hp
    · intro j c' hc'
      rw [Server.client?_update hid] at hc'
      split_ifs at hc'
      · obtain ⟨c,hc,rfl⟩ := Option.map_eq_some_iff.mp hc'
        have hgood := hs.client j c hc
        exact ⟨hsized,hgood.stream,hgood.written,hgood.opened⟩
      · exact hs.client j c' hc'

theorem Effect.ids (h : Effect k s s') : s'.clients.map Client.id = s.clients.map Client.id := by
  cases h with
  | move _ h => exact h.ids
  | kept => exact Server.ids_update (fun _ => rfl)

theorem Served.ids (h : Served k s s') : s'.clients.map Client.id = s.clients.map Client.id := by
  induction h with
  | refl => rfl
  | tail _ heffect ih => exact heffect.ids.trans ih

theorem Served.good (h : Served k s s') (hk : s.client? k ≠ none) (hs : s.Good) : s'.Good := by
  induction h with
  | refl => exact hs
  | tail hserved heffect ih =>
    refine heffect.good ?_ ih
    rw [Ne,client?_eq_none_iff,Served.ids hserved,← client?_eq_none_iff]
    exact hk

/-- A closed client is gone, and the others are only told that the publisher is. -/
theorem client?_closeClient (k j : ℕ) (s : Server) :
    (closeClient k s).client? j =
      if j = k then none
      else if s.publisher = some k then (s.client? j).map Client.unready else s.client? j := by
  have hfilter (l : List Client) : (l.filter (fun c => c.id ≠ k)).find? (fun c => c.id = j) =
      if j = k then none else l.find? (fun c => c.id = j) := by
    induction l with
    | nil => simp
    | cons c l ih =>
      by_cases hc : c.id = k
      · rw [List.filter_cons_of_neg (by simpa using hc),ih]
        by_cases hj : j = k
        · simp [hj]
        · have hne : ¬ c.id = j := fun h => hj (h.symm.trans hc)
          simp [hj,hne]
      · rw [List.filter_cons_of_pos (by simpa using hc)]
        by_cases hj : c.id = j
        · have hne : ¬ j = k := fun h => hc (hj.trans h)
          simp [hj,hne]
        · rw [List.find?_cons_of_neg (by simpa using hj),ih,
            List.find?_cons_of_neg (by simpa using hj)]
  have hmap (l : List Client) : (l.map Client.unready).find? (fun c => c.id = j) =
      (l.find? (fun c => c.id = j)).map Client.unready := by
    rw [List.find?_map]
    rfl
  unfold closeClient
  simp only
  split_ifs with hpub hj hj
  · simp only [Server.client?]
    rw [hmap,hfilter,if_pos hj]
    rfl
  · simp only [Server.client?]
    rw [hmap,hfilter,if_neg hj]
  · simp only [Server.client?]
    rw [hfilter,if_pos hj]
  · simp only [Server.client?]
    rw [hfilter,if_neg hj]

theorem closeClient_good (k : ℕ) (hs : s.Good) : (closeClient k s).Good := by
  have hids : ((closeClient k s).clients.map Client.id).Nodup := by
    have hsub : List.Sublist ((s.clients.filter (fun c => c.id ≠ k)).map Client.id)
        (s.clients.map Client.id) := List.filter_sublist.map _
    unfold closeClient
    simp only
    split_ifs
    · simp only [List.map_map]
      exact hs.ids.sublist hsub
    · exact hs.ids.sublist hsub
  refine ⟨hids,?_,?_,?_⟩
  · intro p hp
    by_cases hpub : s.publisher = some k
    · have hnone : (closeClient k s).publisher = none := by
        unfold closeClient
        simp only
        rw [if_pos hpub]
      rw [hnone] at hp
      cases hp
    · have hsame : (closeClient k s).publisher = s.publisher := by
        unfold closeClient
        simp only
        rw [if_neg hpub]
      rw [hsame] at hp
      have hne : ¬ p = k := by
        rintro rfl
        exact hpub hp
      rw [client?_closeClient,if_neg hne,if_neg hpub]
      exact hs.publisher p hp
  · unfold closeClient
    simp only
    split_ifs <;> exact hs.metadata
  · intro j c' hc'
    rw [client?_closeClient] at hc'
    split_ifs at hc' with hj hpub
    · obtain ⟨c,hc,rfl⟩ := Option.map_eq_some_iff.mp hc'
      have hgood := hs.client j c hc
      refine ⟨hgood.sized,?_,?_,hgood.opened.reset⟩
      · simpa [Client.unready,Sent.bytes] using hgood.stream
      · simpa [Client.unready,Sent.bytes] using hgood.written
    · exact hs.client j c' hc'

theorem newClient_good (id : ℕ) (types : Channel → UInt8) (endpoints : Channel → UInt32)
    (done : Bool) : (newClient id types endpoints done).Good where
  sized := sized_fresh types endpoints
  stream := rfl
  written := ⟨done,by simp [newClient]⟩
  opened := .nil

theorem client?_accepted {id : ℕ} (types : Channel → UInt8) (endpoints : Channel → UInt32)
    (done : Bool) (hid : s.client? id = none) (j : ℕ) :
    ({ s with clients := s.clients++[newClient id types endpoints done] } : Server).client? j =
      if j = id then some (newClient id types endpoints done) else s.client? j := by
  unfold Server.client? at hid ⊢
  rw [List.find?_append]
  by_cases hj : j = id
  · subst hj
    simp [hid,newClient]
  · have hne : ¬ id = j := fun h => hj h.symm
    simp [hj,hne,newClient]

theorem Stepped.good (h : Stepped s k s') (hs : s.Good) : s'.Good := by
  cases h with
  | accepted hid types endpoints done =>
    refine ⟨?_,?_,hs.metadata,?_⟩
    · rw [List.map_append,List.map_singleton]
      refine List.Nodup.append hs.ids (List.nodup_singleton _) ?_
      rw [List.disjoint_singleton]
      exact client?_eq_none_iff.mp hid
    · intro p hp
      rw [client?_accepted _ _ _ hid]
      split_ifs
      · simp
      · exact hs.publisher p hp
    · intro j c hc
      rw [client?_accepted _ _ _ hid] at hc
      split_ifs at hc
      · cases hc
        exact newClient_good _ _ _ _
      · exact hs.client j c hc
  | served hc h => exact h.good (by simp [hc]) hs
  | closed hc h => exact closeClient_good k (h.good (by simp [hc]) hs)

end

theorem step_good {s s' : Server} {e : Event} (hs : s.Good) (h : step s e = .ok s') : s'.Good :=
  (step_stepped (fun k c hc => (hs.client k c hc).sized) h).good hs

theorem initial_good (answers : List SendAnswer) : (initial answers).Good where
  ids := List.nodup_nil
  publisher := by simp [initial]
  metadata := by simp [initial]
  client := by simp [initial,Server.client?]

/-- Every state that a run comes to is good. -/
theorem exec_good {answers : List SendAnswer} {es : List Event} {s : Server}
    (h : exec step (initial answers) es = .ok s) : s.Good := by
  have hall : Along step (fun _ _ => True) (initial answers) es :=
    along_of_forall (fun _ _ => trivial) _ es
  exact exec_invariant Server.Good (fun _ _ _ hs _ h => step_good hs h) (initial_good answers) hall
    h

def frameBytes (i : Channel) (f : Frame) : List UInt8 := f.header i++f.body

def callBytes (endpoint : UInt32) (method : String) : List UInt8 :=
  frameBytes chanControl ⟨msgInvoke,endpoint,0,
    amfWriteString (ascii method)++amfWriteNumber 0++amfWriteNull++amfWriteString []⟩

def picture : Frame := ⟨msgVideo,streamId,0,[0x17,1]⟩

def opening : List Event :=
  [.accepted 1 (fun _ => 0) (fun _ => 0) true,
    .readable 1 (.data (callBytes controlId "FCPublish")),
    .accepted 2 (fun _ => 0) (fun _ => 0) true,.readable 2 (.data (callBytes streamId "play"))]

def premiere : List Event := opening++[.readable 1 (.data (frameBytes chanStream picture))]

def plenty : List SendAnswer := List.replicate 9 (.wrote 4096)

def endsWith (es : List Event) (j : ℕ) (P : Server → Client → Bool) : Bool :=
  match exec step (initial plenty) es with
  | .ok s => (s.client? j).any (P s)
  | .error _ => false

theorem exists_of_endsWith (es : List Event) (j : ℕ) (P : Server → Client → Bool)
    (h : endsWith es j P = true) :
    ∃ s c, exec step (initial plenty) es = .ok s ∧ s.client? j = some c ∧ P s c = true := by
  unfold endsWith at h
  cases hs : exec step (initial plenty) es with
  | error halt =>
    rw [hs] at h
    cases h
  | ok s =>
    rw [hs] at h
    obtain ⟨c,hc,hP⟩ := (Option.any_eq_true _ _).mp h
    exact ⟨s,c,rfl,hc,hP⟩

theorem exists_of_endsWith_append (es fs : List Event) (j i : ℕ) (P Q : Server → Client → Bool)
    (h : endsWith es j P = true) (hfs : endsWith (es++fs) i Q = true) :
    ∃ s c t d, exec step (initial plenty) es = .ok s ∧ s.client? j = some c ∧ P s c = true ∧
      exec step s fs = .ok t ∧ t.client? i = some d ∧ Q t d = true := by
  obtain ⟨s,c,hs,hc,hP⟩ := exists_of_endsWith es j P h
  obtain ⟨t,d,ht,hd,hQ⟩ := exists_of_endsWith (es++fs) i Q hfs
  exact ⟨s,c,t,d,hs,hc,hP,(exec_append_ok hs).mp ht,hd,hQ⟩

end Rtmp
end PcEnv
