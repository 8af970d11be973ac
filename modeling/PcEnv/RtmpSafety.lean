import PcEnv.RtmpRuns

/-! What a client gets, and what other clients can do to it. -/
namespace PcEnv
namespace Rtmp

open Bytes Amf Runs Incremental

/-- The bytes that a client has got and will get are those of its frames, one after the other, and
`written_seq` counts them. -/
theorem exec_stream {answers : List SendAnswer} {es : List Event} {s : Server} {j : ℕ} {c : Client}
    (h : exec step (initial answers) es = .ok s) (hc : s.client? j = some c) :
    c.wire++c.sendQueue = c.log.flatMap Sent.bytes ∧
      ∃ done, c.writtenSeq = handshakeSeq done+UInt32.ofNat (c.wire++c.sendQueue).length := by
  have hgood := (exec_good h).client j c hc
  exact ⟨hgood.stream,by rw [hgood.stream]; exact hgood.written⟩

theorem exec_stream_premiere : ∃ (s : Server) (c : Client),
    exec step (initial plenty) premiere = .ok s ∧ s.client? 2 = some c ∧
      c.wire++c.sendQueue = c.log.flatMap Sent.bytes ∧
      ∃ done, c.writtenSeq = handshakeSeq done+UInt32.ofNat (c.wire++c.sendQueue).length := by
  obtain ⟨s,c,hs,hc,-⟩ := exists_of_endsWith premiere 2 (fun _ _ => true)
    (by decide +kernel)
  exact ⟨s,c,hs,hc,exec_stream hs hc⟩

def Sent.frame? : Sent → Option (Channel × Frame)
  | .frame _ i f => some (i,f)
  | .reset => none

def Sent.FitsAt (c : ℕ) : Sent → Prop
  | .frame d _ f => d = c ∧ f.Fits
  | .reset => True

instance sentFitsAt (c : ℕ) (x : Sent) : Decidable (x.FitsAt c) :=
  match x with
  | .frame d _ f => inferInstanceAs (Decidable (d = c ∧ f.Fits))
  | .reset => inferInstanceAs (Decidable True)

section

variable {c : ℕ} {log : List Sent}

theorem flatMap_bytes (h : ∀ x ∈ log, x.FitsAt c) :
    log.flatMap Sent.bytes =
      (log.filterMap Sent.frame?).flatMap (fun p => (p.2.chunks c p.1).flatten) := by
  induction log with
  | nil => rfl
  | cons x log ih =>
    obtain ⟨hx,hlog⟩ := List.forall_mem_cons.mp h
    cases x with
    | frame d i f =>
      obtain ⟨rfl,-⟩ := hx
      simp only [List.flatMap_cons,ih hlog,Sent.bytes]
      rfl
    | reset => exact ih hlog

theorem fits_filterMap (h : ∀ x ∈ log, x.FitsAt c) :
    ∀ p ∈ log.filterMap Sent.frame?, p.2.Fits := by
  intro p hp
  obtain ⟨x,hx,hframe⟩ := List.mem_filterMap.mp hp
  cases x with
  | frame d i f =>
    cases hframe
    exact (h _ hx).2
  | reset => cases hframe

theorem run_inbox_mono (s : Messages × List (Channel × RTMPMessage)) (buf : List UInt8) :
    s.2 <+: (run (inbox c) s buf).state.2 := by
  refine run_invariant (inbox_stable c) (P:=fun t => s.2 <+: t.2) ?_ (List.prefix_refl _)
  intro t buf ht
  by_cases hne : buf = []
  · subst hne
    exact ht
  · have hturn : Turned (fun _ => c) keep t buf (recvTurn (fun _ => c) keep t buf) :=
      recvTurn_turned hne
    unfold inbox
    generalize recvTurn (fun _ => c) keep t buf = x at hturn ⊢
    cases hturn with
    | more => exact ht
    | fail => exact ht
    | part => exact ht
    | handled _ _ hh =>
      cases hh
      exact ht.trans (List.prefix_append _ _)
    | thrown _ _ hh => cases hh

theorem run_beginning {fs : List (Channel × Frame)} (hc : 0 < c) (hf : ∀ p ∈ fs, p.2.Fits)
    {msgs : Messages} (hmsgs : ∀ i, (msgs i).buf = []) {wire queue : List UInt8}
    (h : wire++queue = fs.flatMap (fun p => (p.2.chunks c p.1).flatten)) :
    ∃ msgs' got rest, run (inbox c) (msgs,[]) wire = .waits (msgs',got) rest ∧
      got <+: fs.map (fun p => (p.1,p.2.message)) ∧
      (queue = [] → got = fs.map (fun p => (p.1,p.2.message)) ∧ rest = []) := by
  obtain ⟨msgs₁,-,hrun⟩ := @run_frames _ _ [] hc _ hf hmsgs []
  rw [List.append_nil,← h,run_inbox_nil,List.nil_append] at hrun
  have hfeed := feed_run (inbox_stable c) (msgs,[]) wire queue
  rw [hrun] at hfeed
  cases hwire : run (inbox c) (msgs,[]) wire with
  | failed t e =>
    rw [hwire] at hfeed
    cases hfeed
  | waits t rest =>
    rw [hwire,feed] at hfeed
    have hmono := run_inbox_mono (c:=c) t (rest++queue)
    rw [hfeed] at hmono
    refine ⟨t.1,t.2,rest,rfl,hmono,?_⟩
    rintro rfl
    rw [List.append_nil,hwire] at hrun
    cases hrun
    exact ⟨rfl,rfl⟩

end

/-- A client that reads with the chunk length it has set gets the frames that were made for it, in
order and each at most once, as far as the bytes have come, and all of them when nothing is left to
send. -/
theorem exec_received {answers : List SendAnswer} {es : List Event} {s : Server} {j : ℕ}
    {c : Client} (h : exec step (initial answers) es = .ok s) (hc : s.client? j = some c) (n : ℕ)
    (hlog : ∀ x ∈ c.log, x.FitsAt (n+1)) (types : Channel → UInt8)
    (endpoints : Channel → UInt32) :
    ∃ msgs got rest,
      run (inbox (n+1)) (freshMessages types endpoints,[]) c.wire = .waits (msgs,got) rest ∧
      got <+: (c.log.filterMap Sent.frame?).map (fun p => (p.1,p.2.message)) ∧
      (c.sendQueue = [] →
        got = (c.log.filterMap Sent.frame?).map (fun p => (p.1,p.2.message)) ∧ rest = []) := by
  have hstream := ((exec_good h).client j c hc).stream
  rw [flatMap_bytes hlog] at hstream
  exact run_beginning (Nat.succ_pos n) (fits_filterMap hlog) (fun _ => rfl) hstream

theorem exec_received_premiere : ∃ (s : Server) (c : Client),
    exec step (initial plenty) premiere = .ok s ∧ s.client? 2 = some c ∧
      ∃ msgs got rest, run (inbox 128) (freshMessages (fun _ => 0) (fun _ => 0),[]) c.wire =
          .waits (msgs,got) rest ∧
        got <+: (c.log.filterMap Sent.frame?).map (fun p => (p.1,p.2.message)) ∧
        (c.sendQueue = [] →
          got = (c.log.filterMap Sent.frame?).map (fun p => (p.1,p.2.message)) ∧ rest = []) := by
  obtain ⟨s,c,hs,hc,hlog⟩ := exists_of_endsWith premiere 2
    (fun _ c => ∀ x ∈ c.log, x.FitsAt 128) (by decide +kernel)
  exact ⟨s,c,hs,hc,exec_received hs hc 127 (of_decide_eq_true hlog) _ _⟩

/-- A log that ends in a stream opened by a key frame behind a `CLEAR_STREAM`. -/
def HasKey (log : List Sent) : Prop :=
  ∃ before c i c' i' f after, log = before++[.frame c i clearFrame,.frame c' i' f]++after ∧
    f.type = msgVideo ∧ isKeyFrame f.body = true ∧ .reset ∉ after

theorem HasKey.concat {log : List Sent} (h : HasKey log) {x : Sent} (hx : x ≠ .reset) :
    HasKey (log++[x]) := by
  obtain ⟨before,c,i,c',i',f,after,rfl,htype,hkey,hafter⟩ := h
  refine ⟨before,c,i,c',i',f,after++[x],by simp,htype,hkey,?_⟩
  simp only [List.mem_append,List.mem_singleton,not_or]
  exact ⟨hafter,Ne.symm hx⟩

theorem opened_key {log : List Sent} {b : Bool} (h : Opened log b) :
    (b = true → HasKey log) ∧
      ∀ before c i f after, log = before++.frame c i f::after → f.IsMedia →
        HasKey (before++[.frame c i f]) := by
  have hlast {l before after : List Sent} {x : Sent} {c : ℕ} {i : Channel} {f : Frame}
      (heq : l++[x] = before++.frame c i f::after) :
      (∃ after', l = before++.frame c i f::after') ∨ (before = l ∧ x = .frame c i f) := by
    rcases List.eq_nil_or_concat after with rfl | ⟨after',y,rfl⟩
    · obtain ⟨rfl,hx⟩ := List.append_inj' heq rfl
      exact Or.inr ⟨rfl,(List.cons.inj hx).1⟩
    · refine Or.inl ⟨after',?_⟩
      have hsplit : before++.frame c i f::(after'++[y]) = (before++.frame c i f::after')++[y] := by
        simp
      rw [List.concat_eq_append,hsplit] at heq
      exact (List.append_inj' heq rfl).1
  induction h with
  | nil => exact ⟨by simp,by simp⟩
  | reset _ ih =>
    refine ⟨by simp,?_⟩
    intro before c i f after heq hf
    rcases hlast heq with ⟨after',h⟩ | ⟨-,h⟩
    · exact ih.2 before c i f after' h hf
    · cases h
  | other _ hplain ih =>
    refine ⟨fun hb => (ih.1 hb).concat (by simp),?_⟩
    intro before c i f after heq hf
    rcases hlast heq with ⟨after',h⟩ | ⟨-,h⟩
    · exact ih.2 before c i f after' h hf
    · cases h
      exact absurd hf hplain
  | first _ hkey ih =>
    rename_i l c c' i i' f _
    have hhas : HasKey (l++[.frame c i clearFrame]++[.frame c' i' f]) :=
      ⟨l,c,i,c',i',f,[],by simp,hkey.1,hkey.2,by simp⟩
    refine ⟨fun _ => hhas,?_⟩
    intro before d j g after heq hg
    rcases hlast heq with ⟨after',h⟩ | ⟨rfl,h⟩
    · exact ih.2 before d j g after' h hg
    · rw [← h]
      exact hhas
  | media _ ih =>
    refine ⟨fun _ => (ih.1 rfl).concat (by simp),?_⟩
    intro before c i f after heq hf
    rcases hlast heq with ⟨after',h⟩ | ⟨rfl,h⟩
    · exact ih.2 before c i f after' h hf
    · rw [← h]
      exact (ih.1 rfl).concat (by simp)

/-- Whatever came of audio and video to a client, a key frame behind a `CLEAR_STREAM` came first,
since the stream was started or its publisher left. -/
theorem exec_key {answers : List SendAnswer} {es : List Event} {s : Server} {j : ℕ} {c : Client}
    (h : exec step (initial answers) es = .ok s) (hc : s.client? j = some c)
    {before after : List Sent} {n : ℕ} {i : Channel} {f : Frame}
    (hlog : c.log = before++.frame n i f::after) (hf : f.IsMedia) :
    HasKey (before++[.frame n i f]) :=
  (opened_key ((exec_good h).client j c hc).opened).2 before n i f after hlog hf

theorem exec_key_premiere : ∃ (s : Server) (c : Client),
    exec step (initial plenty) premiere = .ok s ∧ s.client? 2 = some c ∧
      HasKey (c.log.take 6++[.frame 128 chanStream picture]) := by
  obtain ⟨s,c,hs,hc,hlog⟩ := exists_of_endsWith premiere 2
    (fun _ c => c.log = c.log.take 6++.frame 128 chanStream picture::[]) (by decide +kernel)
  exact ⟨s,c,hs,hc,exec_key hs hc (of_decide_eq_true hlog) (by decide)⟩

theorem ready_update {s : Server} {id j : ℕ} {f : Client → Client} {c' : Client}
    (hc' : (s.update id f).client? j = some c') (hid : ∀ c, (f c).id = c.id)
    (hf : ∀ c, c.ready = false → (f c).ready = false)
    (h : ∀ j c, s.client? j = some c → c.ready = false) : c'.ready = false := by
  rw [Server.client?_update hid] at hc'
  split_ifs at hc'
  · obtain ⟨c,hc,rfl⟩ := Option.map_eq_some_iff.mp hc'
    exact hf c (h j c hc)
  · exact h j c' hc'

def Server.Unready (s : Server) : Prop := ∀ j c, s.client? j = some c → c.ready = false

theorem Effect.unready {k : ℕ} {s s' : Server} (h : Effect k s s')
    (hs : s.publisher = none → s.Unready) : s'.publisher = none → s'.Unready := by
  intro hnone j c' hc'
  cases h with
  | move _ h =>
    cases h with
    | answered => exact hs hnone j c' hc'
    | described => exact hs hnone j c' hc'
    | claimed => cases hnone
    | opened _ _ hpub => cases hpub.symm.trans hnone
    | sent | queued | counted | chunked | paused =>
      exact ready_update hc' (fun _ => rfl) (fun _ h => h) (hs hnone)
    | played => exact ready_update hc' (fun _ => rfl) (fun _ _ => rfl) (hs hnone)
  | kept => exact ready_update hc' (fun _ => rfl) (fun _ h => h) (hs hnone)

theorem Served.unready {k : ℕ} {s s' : Server} (h : Served k s s')
    (hs : s.publisher = none → s.Unready) : s'.publisher = none → s'.Unready := by
  induction h with
  | refl => exact hs
  | tail _ heffect ih => exact heffect.unready ih

theorem Stepped.unready {k : ℕ} {s s' : Server} (h : Stepped s k s')
    (hs : s.publisher = none → s.Unready) : s'.publisher = none → s'.Unready := by
  intro hnone j c' hc'
  cases h with
  | accepted hid types endpoints done =>
    rw [client?_accepted _ _ _ hid] at hc'
    split_ifs at hc'
    · cases hc'
      rfl
    · exact hs hnone j c' hc'
  | served _ h => exact h.unready hs hnone j c' hc'
  | closed _ h =>
    rw [client?_closeClient] at hc'
    split_ifs at hc' with hj hpub
    · obtain ⟨c,-,rfl⟩ := Option.map_eq_some_iff.mp hc'
      rfl
    · refine h.unready hs ?_ j c' hc'
      unfold closeClient at hnone
      simp only [if_neg hpub] at hnone
      exact hnone

/-- The publisher is a client that is still there, and without one nobody gets the stream. -/
theorem exec_publisher {answers : List SendAnswer} {es : List Event} {s : Server}
    (h : exec step (initial answers) es = .ok s) :
    (∀ p, s.publisher = some p → ∃ c, s.client? p = some c) ∧
      (s.publisher = none → ∀ j c, s.client? j = some c → c.ready = false) := by
  have hall : Along step (fun _ _ => True) (initial answers) es :=
    along_of_forall (fun _ _ => trivial) _ es
  have hinv := exec_invariant (fun u => u.Good ∧ (u.publisher = none → u.Unready)) ?_
    ⟨initial_good answers,by simp [Server.Unready,initial,Server.client?]⟩ hall h
  · exact ⟨fun p hp => Option.ne_none_iff_exists'.mp (hinv.1.publisher p hp),hinv.2⟩
  · rintro u e v ⟨hgood,hu⟩ - hstep
    have hstepped := step_stepped (fun k c hc => (hgood.client k c hc).sized) hstep
    exact ⟨step_good hgood hstep,hstepped.unready hu⟩

theorem exec_publisher_premiere : ∃ s, exec step (initial plenty) premiere = .ok s ∧
    (∀ p, s.publisher = some p → ∃ c, s.client? p = some c) ∧
      (s.publisher = none → ∀ j c, s.client? j = some c → c.ready = false) := by
  obtain ⟨s,c,hs,-,-⟩ := exists_of_endsWith premiere 1 (fun _ _ => true)
    (by decide +kernel)
  exact ⟨s,hs,exec_publisher hs⟩

section

variable {k j p : ℕ} {s s' : Server}

theorem Effect.publisher (h : Effect k s s') (hp : s.publisher = some p) : s'.publisher = some p := by
  cases h with
  | move _ h =>
    rcases h.publisher_eq with heq | ⟨hnone,-⟩
    · exact heq.trans hp
    · rw [hnone] at hp
      cases hp
  | kept => exact hp

theorem Effect.others (h : Effect k s s') (hj : j ≠ k) (hpub : s.publisher ≠ some k) :
    s'.client? j = s.client? j := by
  cases h with
  | move _ h => exact h.others hj hpub
  | kept => exact Server.client?_update_ne (fun _ => rfl) hj

theorem Served.isolated (h : Served k s s') (hp : s.publisher = some p) (hk : k ≠ p) :
    s'.publisher = some p ∧ ∀ j, j ≠ k → s'.client? j = s.client? j := by
  induction h with
  | refl => exact ⟨hp,fun _ _ => rfl⟩
  | tail _ heffect ih =>
    obtain ⟨hpub,hothers⟩ := ih
    have hne : some p ≠ some k := fun h => hk (Option.some.inj h).symm
    exact ⟨heffect.publisher hpub,
      fun j hj => (heffect.others hj (hpub ▸ hne)).trans (hothers j hj)⟩

theorem Stepped.isolated (h : Stepped s k s') (hp : s.publisher = some p) (hk : k ≠ p) :
    s'.publisher = some p ∧ ∀ j, j ≠ k → s'.client? j = s.client? j := by
  cases h with
  | accepted hid types endpoints done =>
    refine ⟨hp,?_⟩
    intro j hj
    rw [client?_accepted _ _ _ hid,if_neg hj]
  | served hc h => exact h.isolated hp hk
  | closed hc h =>
    obtain ⟨hpub,hothers⟩ := h.isolated hp hk
    have hne : ¬ some p = some k := fun h => hk (Option.some.inj h).symm
    refine ⟨?_,?_⟩
    · unfold closeClient
      simp only [hpub,if_neg hne]
    · intro j hj
      rw [client?_closeClient,if_neg hj,hpub,if_neg hne]
      exact hothers j hj

/-- While a client publishes, no other takes its place, sends anything to a third one or makes its
stream stop, whatever they all do. -/
theorem exec_isolated {answers : List SendAnswer} {es₀ es : List Event} {t : Server}
    (hs : exec step (initial answers) es₀ = .ok s) (ht : exec step s es = .ok t)
    (hp : s.publisher = some p) (hes : ∀ e ∈ es, e.client ≠ p ∧ e.client ≠ j) :
    t.publisher = some p ∧ t.client? j = s.client? j := by
  have hgood := exec_good hs
  have hall : Along step (fun _ e => e.client ≠ p ∧ e.client ≠ j) s es := along_of_mem hes s
  have hinv := exec_invariant
    (fun u => u.Good ∧ u.publisher = some p ∧ u.client? j = s.client? j) ?_ ⟨hgood,hp,rfl⟩ hall ht
  · exact hinv.2
  · rintro u e v ⟨hu,hpub,hsame⟩ ⟨hep,hej⟩ hstep
    have hstepped := step_stepped (fun k c hc => (hu.client k c hc).sized) hstep
    obtain ⟨hpub',hothers⟩ := hstepped.isolated hpub hep
    exact ⟨step_good hu hstep,hpub',(hothers j hej.symm).trans hsame⟩

theorem exec_isolated_third : ∃ (s t : Server),
    exec step (initial plenty) opening = .ok s ∧
      exec step s [.accepted 3 (fun _ => 0) (fun _ => 0) true,.readable 3 .eof] = .ok t ∧
      t.publisher = some 1 ∧ t.client? 2 = s.client? 2 := by
  obtain ⟨s,-,t,-,hs,-,hp,ht,-,-⟩ := exists_of_endsWith_append opening
    [.accepted 3 (fun _ => 0) (fun _ => 0) true,.readable 3 .eof] 2 2
    (fun s _ => s.publisher = some 1) (fun _ _ => true) (by decide +kernel) (by decide +kernel)
  exact ⟨s,t,hs,ht,exec_isolated hs ht (of_decide_eq_true hp) (by simp [Event.client])⟩

theorem Stepped.client?_eq_none (h : Stepped s k s') (hj : j ≠ k) :
    s'.client? j = none ↔ s.client? j = none := by
  have hserved {t : Server} (h : Served k s t) : t.client? j = none ↔ s.client? j = none := by
    rw [client?_eq_none_iff,h.ids,← client?_eq_none_iff]
  cases h with
  | accepted hid types endpoints done => rw [client?_accepted _ _ _ hid,if_neg hj]
  | served _ h => exact hserved h
  | closed _ h =>
    rw [client?_closeClient,if_neg hj]
    split_ifs
    · simpa using hserved h
    · exact hserved h

end

end Rtmp
end PcEnv
