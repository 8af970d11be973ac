import PcEnv.AlsaStream

/-! `_alsa_ctrl_write_stream`, which fills a short buffer up with silence before the loop. -/
namespace PcEnv
namespace Alsa

open Runs Word

/-- `int silence_bytes=(period_frames/bytes_per_frame)-bytes`. -/
def silenceBytes (ptr : AlsaCtrl) (bytes : ℕ) : ℤ :=
  toInt (sizeSub (ptr.periodFrames/ptr.bytesPerFrame) bytes)

/-- What is done before the loop. -/
def padSilence (ptr : AlsaCtrl) (bytes : ℕ) (s : Stream) : Stream :=
  if 0 < silenceBytes ptr bytes then
    { s with c := ptr.periodFrames,
             silences := s.silences++[(s.p+bytes,(silenceBytes ptr bytes).toNat)] }
  else s

/-- `_alsa_ctrl_write_stream`; `r` is as wide as the result of `snd_pcm_writei`. -/
def writeJob (ptr : AlsaCtrl) (bytes : ℕ) : Job :=
  { ptr := ptr, narrow := id, pad := padSilence ptr bytes }

def Entered (ptr : AlsaCtrl) (es : List Event) : Prop :=
  (∃ rest, es = .abortFlag false::rest) ∧ ptr.opens = true

def acceptedOne : Event → ℕ
  | .xfer r => r.toNat
  | _ => 0

def accepted (es : List Event) : ℕ := (es.map acceptedOne).sum

/-- Every region lies inside the buffer, those that are accepted follow each other from its
start on, and the result is the bytes accepted, or `-1` for a call that is turned down. -/
structure WritesInside (ptr : AlsaCtrl) (bytes : ℕ) (es : List Event) (s : Stream) : Prop where
  silence : ∀ r ∈ s.silences, r.1+2*r.2 ≤ bytes
  gapless : Gapless ptr.bytesPerFrame bytes s.calls
  refused : Refused ptr es → s.pc = .done (-1)
  result : ¬ Refused ptr es →
    ∀ ret, s.pc = .done ret → ret = (ptr.bytesPerFrame*received s.calls : ℕ)

structure Frame (s t : Stream) (frames : ℕ) : Prop where
  pc : t.pc ≠ .entry
  silences : t.silences = s.silences
  received : received t.calls = received s.calls+frames

section

variable {s : Stream} {bpf : ℕ}

theorem leave_frame : Frame s s.leave 0 := ⟨by simp [Stream.leave],rfl,rfl⟩

theorem top_frame : Frame s s.top 0 := by
  unfold Stream.top
  split_ifs
  · exact ⟨by simp,rfl,rfl⟩
  · exact leave_frame

theorem advance_frame : Frame s (s.advance bpf) 0 := by
  unfold Stream.advance
  split_ifs
  · exact ⟨top_frame.pc,top_frame.silences,top_frame.received⟩
  · exact top_frame

theorem resumed_frame : Frame s (s.resumed bpf) 0 := by
  unfold Stream.resumed
  split_ifs
  · exact ⟨by simp,rfl,rfl⟩
  · exact advance_frame

theorem branch_frame : Frame s (s.branch bpf) 0 := by
  unfold Stream.branch
  split_ifs
  · exact advance_frame
  · exact ⟨by simp,rfl,rfl⟩
  · exact ⟨by simp,rfl,rfl⟩
  · exact leave_frame
  · exact advance_frame

theorem call_frame {t : Stream} {frames : ℕ} {r narrowed : ℤ}
    (h : Frame (s.call frames r narrowed) t 0) : Frame s t r.toNat := by
  refine ⟨h.pc,h.silences,?_⟩
  rw [h.received,add_zero]
  exact received_concat _ _

theorem step_frame {j : Job} {t : Stream} {e : Event} (hpc : s.pc ≠ .entry)
    (ht : step j s e = .ok t) : Frame s t (acceptedOne e) := by
  -- `r` is no part of the frame
  have ofRes {r : ℤ} {t : Stream} (h : Frame { s with r := r } t 0) : Frame s t 0 :=
    ⟨h.pc,h.silences,h.received⟩
  cases step_does ht with
  | refuse h _ => exact (hpc h).elim
  | enter h _ => exact (hpc h).elim
  | goOn h =>
    rcases h with ⟨-,rfl⟩ | ⟨-,rfl⟩ | ⟨-,rfl⟩ <;> exact ⟨by simp,rfl,rfl⟩
  | stop _ => exact leave_frame
  | giveUp _ => exact resumed_frame
  | xfer _ => exact call_frame branch_frame
  | recovered _ _ => exact ⟨by simp,rfl,rfl⟩
  | recover _ => exact ofRes advance_frame
  | retry _ => exact call_frame advance_frame
  | again _ => exact ⟨by simp,rfl,rfl⟩
  | resume _ => exact ofRes resumed_frame
  | fail _ _ => exact ofRes leave_frame
  | prepare _ => exact ofRes top_frame

theorem run_frame {j : Job} {t : Stream} {es : List Event} (hpc : s.pc ≠ .entry)
    (ht : exec (step j) s es = .ok t) : Frame s t (accepted es) := by
  induction es generalizing s with
  | nil =>
    cases ht
    exact ⟨hpc,rfl,rfl⟩
  | cons e es ih =>
    obtain ⟨u,hu,ht⟩ := exec_cons_ok.mp ht
    have hstep := step_frame hpc hu
    have hrun := ih hstep.pc ht
    refine ⟨hrun.pc,hrun.silences.trans hstep.silences,?_⟩
    rw [hrun.received,hstep.received,Nat.add_assoc]
    rfl

end

theorem toInt_eq_iff {x : ℕ} : toInt x = x ↔ x ≤ intMax := by
  refine ⟨?_,toInt_eq⟩
  intro h
  have hle := toInt_le_intMax x
  omega

theorem Entered.not_refused {ptr : AlsaCtrl} {es : List Event} (h : Entered ptr es) :
    ¬ Refused ptr es := by
  obtain ⟨⟨rest,rfl⟩,hopen⟩ := h
  rintro ⟨set,hset,rfl | hclosed⟩
  · cases hset
  · rw [hopen] at hclosed
    cases hclosed

/-- The silence of a call stems from before the loop, and its frames from the loop. -/
theorem entered_frame {ptr : AlsaCtrl} {bytes : ℕ} {rest : List Event} {s : Stream}
    (h : exec (step (writeJob ptr bytes)) (padSilence ptr bytes (start ptr bytes)).top rest =
      .ok s) :
    s.silences = (padSilence ptr bytes (start ptr bytes)).silences ∧
      received s.calls = accepted (.abortFlag false::rest) := by
  have hframe := run_frame top_frame.pc h
  have hpad : received (padSilence ptr bytes (start ptr bytes)).top.calls = 0 := by
    rw [top_frame.received,padSilence]
    split_ifs <;> rfl
  have hfirst : accepted (.abortFlag false::rest) = accepted rest := Nat.zero_add _
  refine ⟨hframe.silences.trans top_frame.silences,?_⟩
  rw [hframe.received,hpad,hfirst,Nat.zero_add]

section

variable {ptr : AlsaCtrl} {bytes : ℕ} {rest : List Event} {s : Stream}

theorem not_inside_of_silence (hpos : 0 < silenceBytes ptr bytes) {es : List Event}
    (hsil : s.silences = (padSilence ptr bytes (start ptr bytes)).silences) :
    ¬ WritesInside ptr bytes es s := by
  intro h
  have hin := h.silence (0+bytes,(silenceBytes ptr bytes).toNat) (by
    rw [hsil,padSilence,if_pos hpos]
    exact List.mem_singleton_self _)
  simp only at hin
  omega

theorem silent_done (hsilent : ¬ 0 < silenceBytes ptr bytes) (hopen : ptr.opens = true)
    (hbpf : 1 ≤ ptr.bytesPerFrame) (hbytes : bytes < sizeMod)
    (hlaw : Along (step (writeJob ptr bytes)) (Lawful (writeJob ptr bytes)) (start ptr bytes)
      (.abortFlag false::rest))
    (hrest : exec (step (writeJob ptr bytes)) (padSilence ptr bytes (start ptr bytes)).top rest =
      .ok s) :
    Inv ptr.bytesPerFrame (bytes/ptr.bytesPerFrame) s := by
  have hstart : padSilence ptr bytes (start ptr bytes) = start ptr bytes := if_neg hsilent
  have hmul : ptr.bytesPerFrame*(bytes/ptr.bytesPerFrame) ≤ bytes := Nat.mul_div_le _ _
  have hfits : Fits (writeJob ptr bytes) (bytes/ptr.bytesPerFrame) :=
    ⟨hbpf,hmul.trans_lt hbytes⟩
  have hinv : Inv ptr.bytesPerFrame (bytes/ptr.bytesPerFrame)
      (padSilence ptr bytes (start ptr bytes)).top := by
    rw [hstart]
    exact top_inv (start_account ptr bytes)
  exact (loop_run hfits hinv (hlaw.2 _ (entry_step bytes hopen)) hrest).1

end

/-- `_alsa_ctrl_write_stream` keeps to the buffer and tells what was accepted exactly when the
silence comes to no bytes, and what is accepted fits an `int` when it returns. -/
theorem write_stream_inside_iff (ptr : AlsaCtrl) (bytes : ℕ) (es : List Event) (s : Stream)
    (hbpf : 1 ≤ ptr.bytesPerFrame) (hbytes : bytes < sizeMod)
    (hlaw : Along (step (writeJob ptr bytes)) (Lawful (writeJob ptr bytes)) (start ptr bytes) es)
    (hrun : exec (step (writeJob ptr bytes)) (start ptr bytes) es = .ok s) :
    WritesInside ptr bytes es s ↔
      (Entered ptr es → silenceBytes ptr bytes ≤ 0 ∧
        ∀ ret, s.pc = .done ret → ptr.bytesPerFrame*accepted es ≤ intMax) := by
  rcases run_cases hrun with ⟨rfl,rfl⟩ | ⟨href,rfl⟩ | ⟨rest,rfl,hopen,hrest⟩
  · refine iff_of_true ⟨?_,gapless_nil _ _,?_,?_⟩ ?_
    · simp [start]
    · rintro ⟨set,h,-⟩
      cases h
    · intro _ ret hret
      cases hret
    · rintro ⟨⟨rest,h⟩,-⟩
      cases h
  · refine iff_of_true ⟨?_,gapless_nil _ _,fun _ => rfl,fun h => (h href).elim⟩ ?_
    · simp [start]
    · exact fun h => (h.not_refused href).elim
  · have hentered : Entered ptr (.abortFlag false::rest) := ⟨⟨rest,rfl⟩,hopen⟩
    have hnotref := hentered.not_refused
    obtain ⟨hsil,hrec⟩ := entered_frame hrest
    rw [← hrec]
    by_cases hpos : 0 < silenceBytes ptr bytes
    · refine iff_of_false (not_inside_of_silence hpos hsil) ?_
      exact fun h => absurd (h hentered).1 (not_le.mpr hpos)
    · have hdone := silent_done hpos hopen hbpf hbytes hlaw hrest
      constructor
      · intro h _
        refine ⟨not_lt.mp hpos,?_⟩
        intro ret hret
        exact toInt_eq_iff.mp ((hdone.result hret).symm.trans (h.result hnotref ret hret))
      · intro h
        refine ⟨?_,hdone.account.gapless.mono (Nat.mul_div_le _ _),
          fun href => (hnotref href).elim,?_⟩
        · rw [hsil,padSilence,if_neg hpos]
          simp [start]
        · intro _ ret hret
          exact (hdone.result hret).trans (toInt_eq_iff.mpr ((h hentered).2 ret hret))

def wholePeriod : List Event := [.abortFlag false,.abortFlag false,.xfer 2]

theorem write_stream_inside_iff_two :
    ∃ s, exec (step (writeJob ⟨true,8,4⟩ 8)) (start ⟨true,8,4⟩ 8) wholePeriod = .ok s ∧
      s.pc = .done 8 ∧ WritesInside ⟨true,8,4⟩ 8 wholePeriod s := by
  obtain ⟨s,hs,hpc⟩ : ∃ s, exec (step (writeJob ⟨true,8,4⟩ 8)) (start ⟨true,8,4⟩ 8) wholePeriod =
      .ok s ∧ s.pc = .done 8 := ⟨_,rfl,rfl⟩
  refine ⟨s,hs,hpc,?_⟩
  refine (write_stream_inside_iff ⟨true,8,4⟩ 8 wholePeriod s (by decide) (by decide) (by decide)
    hs).mpr ?_
  intro _
  exact ⟨by decide,fun _ _ => by decide⟩

/-- Eight bytes where a period has 64 frames of four: eight samples of silence are written behind
the buffer, and 64 frames are sent from it. -/
theorem write_stream_overruns :
    ∃ s, exec (step (writeJob ⟨true,64,4⟩ 8)) (start ⟨true,64,4⟩ 8)
        [.abortFlag false,.abortFlag false,.xfer 64] = .ok s ∧
      s.silences = [(8,8)] ∧ s.calls = [⟨0,64,64⟩] ∧ s.pc = .done 256 ∧
      ¬ WritesInside ⟨true,64,4⟩ 8 [.abortFlag false,.abortFlag false,.xfer 64] s := by
  obtain ⟨s,hs,hsil,hcalls,hpc⟩ : ∃ s, exec (step (writeJob ⟨true,64,4⟩ 8)) (start ⟨true,64,4⟩ 8)
      [.abortFlag false,.abortFlag false,.xfer 64] = .ok s ∧
      s.silences = [(8,8)] ∧ s.calls = [⟨0,64,64⟩] ∧ s.pc = .done 256 := ⟨_,rfl,rfl,rfl,rfl⟩
  refine ⟨s,hs,hsil,hcalls,hpc,?_⟩
  intro h
  have hin := h.silence (8,8) (by rw [hsil]; exact List.mem_singleton_self _)
  simp at hin

end Alsa
end PcEnv
