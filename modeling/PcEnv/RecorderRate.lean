import PcEnv.Recorder
import PcEnv.Word

/-! The frame rate of the video stream, from which `pullSteamLoop` takes the bound of its
queues. -/
namespace PcEnv
namespace RtspClient

open Runs Word

/-- A rate as FFmpeg reports it: two `int`s, neither of them negative. -/
structure AVRational where
  num : ℕ
  den : ℕ
  num_le : num ≤ intMax
  den_le : den ≤ intMax
  deriving DecidableEq, Repr

inductive AVMediaType
  | video | audio | other
  deriving DecidableEq, Repr

structure AVStream where
  codecType : AVMediaType
  avgFrameRate : AVRational
  deriving DecidableEq, Repr

/-- `none` for an index of `-1`. -/
structure Scan where
  vsIdx : Option ℕ
  asIdx : Option ℕ
  mFps : ℕ
  deriving DecidableEq, Repr

/-- The loop over the streams, with `sc` from those before the stream `i`. A division by zero is
undefined. -/
def scanStreams (i : ℕ) (sc : Scan) : List AVStream → Except Halt Scan
  | [] => .ok sc
  | st::streams =>
    match st.codecType with
    | .video =>
      if st.avgFrameRate.den = 0 then .error .fault
      else scanStreams (i+1)
        { sc with vsIdx := some i, mFps := st.avgFrameRate.num/st.avgFrameRate.den } streams
    | .audio => scanStreams (i+1) { sc with asIdx := some i } streams
    | .other => scanStreams (i+1) sc streams

/-- `mFps` is not set before the loop; without a video stream it is not read. -/
def firstScan : Scan := { vsIdx := none, asIdx := none, mFps := 0 }

/-- The step of the client after the loop; a packet of a stream `-1` never comes. -/
def pullStep (maxSize : ℕ) (sc : Scan) (s : Client) (e : Event) : Except Halt Client :=
  match e,sc.vsIdx with
  | .packet _,none => .error .blocked
  | e,_ => step maxSize (sizeMul 10 sc.mFps) s e

def CycWrites (s : Client) (e : Event) (q : MTQueue FrameData) : Prop :=
  e = .pull ∧ ∃ stage pkt i b, s.pc = some (stage,pkt) ∧ (stage = .cycw ∨ stage = .again) ∧
    deref s = .ok (i,b) ∧ q = b.befor

/-- The step takes the back element of, or pops, an empty queue. -/
def PopsEmpty (s : Client) (e : Event) : Prop :=
  ∃ q, CycWrites s e q ∧ q.maxCount ≤ q.q.length ∧ q.q = []

/-- There is no division by zero, and no `cycWrite` of the run takes from an empty queue. -/
def RateSafe (maxSize : ℕ) (streams : List AVStream) (es : List Event) : Prop :=
  ∃ sc, scanStreams 0 firstScan streams = .ok sc ∧
    Along (pullStep maxSize sc) (fun s e => ¬ PopsEmpty s e) start es

def NeverWrites (maxSize : ℕ) (streams : List AVStream) (es : List Event) : Prop :=
  ∀ sc, scanStreams 0 firstScan streams = .ok sc →
    Along (pullStep maxSize sc) (fun s e => ∀ q, ¬ CycWrites s e q) start es

def videoRates (streams : List AVStream) : List AVRational :=
  (streams.filter (fun st => st.codecType = .video)).map AVStream.avgFrameRate

theorem videoRates_video {st : AVStream} {streams : List AVStream} (h : st.codecType = .video) :
    videoRates (st::streams) = st.avgFrameRate::videoRates streams := by
  simp [videoRates,h]

theorem videoRates_other {st : AVStream} {streams : List AVStream} (h : st.codecType ≠ .video) :
    videoRates (st::streams) = videoRates streams := by
  simp [videoRates,h]

def lastFps (fps : ℕ) (rates : List AVRational) : ℕ :=
  (rates.getLast?.map (fun r => r.num/r.den)).getD fps

theorem lastFps_cons (fps : ℕ) (r : AVRational) (rates : List AVRational) :
    lastFps fps (r::rates) = lastFps (r.num/r.den) rates := by
  cases rates with
  | nil => rfl
  | cons x rates =>
    rw [lastFps,lastFps,List.getLast?_cons_cons,List.getLast?_cons]
    rfl

theorem scanStreams_spec (i : ℕ) (sc : Scan) (streams : List AVStream) :
    (∀ r ∈ videoRates streams, r.den ≠ 0) ∧
        (∃ sc', scanStreams i sc streams = .ok sc' ∧
          sc'.mFps = lastFps sc.mFps (videoRates streams)) ∨
      (∃ r ∈ videoRates streams, r.den = 0) ∧ scanStreams i sc streams = .error .fault := by
  induction streams generalizing i sc with
  | nil => exact Or.inl ⟨(fun r hr => by cases hr),sc,rfl,rfl⟩
  | cons st streams ih =>
    cases hc : st.codecType with
    | video =>
      rw [videoRates_video hc,List.forall_mem_cons,List.exists_mem_cons_iff,lastFps_cons]
      by_cases hden : st.avgFrameRate.den = 0
      · exact Or.inr ⟨Or.inl hden,by simp only [scanStreams,hc,if_pos hden]⟩
      · simp only [scanStreams,hc,if_neg hden]
        rcases ih (i+1)
          { sc with vsIdx := some i, mFps := st.avgFrameRate.num/st.avgFrameRate.den }
          with ⟨hall,hok⟩ | ⟨hex,hfault⟩
        · exact Or.inl ⟨⟨hden,hall⟩,hok⟩
        · exact Or.inr ⟨Or.inr hex,hfault⟩
    | audio =>
      rw [videoRates_other (by simp [hc])]
      simp only [scanStreams,hc]
      exact ih (i+1) { sc with asIdx := some i }
    | other =>
      rw [videoRates_other (by simp [hc])]
      simp only [scanStreams,hc]
      exact ih (i+1) sc

structure BeforStep (b b' : BAStream) : Prop where
  max : b'.befor.maxCount = b.befor.maxCount
  empty : b.befor.maxCount = 0 → b.befor.q = [] → b'.befor.q = []

theorem BeforStep.of_eq {b b' : BAStream} (h : b'.befor = b.befor) : BeforStep b b' :=
  ⟨by rw [h],fun _ hq => by rw [h,hq]⟩

section

variable {maxSize mMax : ℕ} {s t : Client}

/-- Every stream of `t` was made by the step, or comes from one of `s`. -/
def StreamsFrom (maxSize mMax : ℕ) (s t : Client) : Prop :=
  ∀ b' ∈ t.streams, b' = .create maxSize mMax ∨ ∃ b ∈ s.streams, BeforStep b b'

theorem streamsFrom_same (h : t.streams = s.streams) : StreamsFrom maxSize mMax s t :=
  fun b hb => Or.inr ⟨b,h ▸ hb,.of_eq rfl⟩

theorem streamsFrom_set {i : ℕ} {b b' : BAStream} (hb : s.streams[i]? = some b)
    (ht : t.streams = s.streams.set i b') (h : BeforStep b b') :
    StreamsFrom maxSize mMax s t := by
  intro c hc
  rw [ht] at hc
  rcases List.mem_or_eq_of_mem_set hc with hc | rfl
  · exact Or.inr ⟨c,hc,.of_eq rfl⟩
  · exact Or.inr ⟨b,List.mem_of_getElem? hb,h⟩

theorem deref_ok {i : ℕ} {b : BAStream} (h : deref s = .ok (i,b)) : s.streams[i]? = some b := by
  unfold deref at h
  split at h
  · cases h
  · next j hj =>
    split at h
    · cases h
    · next c hc =>
      cases h
      exact hc

theorem writeBefor_step {b b' : BAStream} {pkt : AVPacket} (h : b.writeBefor pkt = .ok b') :
    BeforStep b b' := by
  refine ⟨(BAStream.writeBefor_ok h).2.1,?_⟩
  intro hmax hq
  simp [BAStream.writeBefor,MTQueue.cycWrite,hmax,MTQueue.back,hq] at h

theorem writeBefor_from {pkt : AVPacket} (h : writeBefor s pkt = .ok t) :
    StreamsFrom maxSize mMax s t := by
  unfold writeBefor at h
  split at h
  · cases h
  · next i b hd =>
    split at h
    · cases h
    · next b' hb =>
      cases h
      exact streamsFrom_set (deref_ok hd) rfl (writeBefor_step hb)

theorem writeAfter_from {pkt : AVPacket} {r : Bool} (h : writeAfter s pkt = .ok (t,r)) :
    StreamsFrom maxSize mMax s t := by
  unfold writeAfter at h
  split at h
  · cases h
  · next i b hd =>
    cases h
    exact streamsFrom_set (deref_ok hd) rfl (.of_eq rfl)

theorem advance_from (u : Upload) (b : BAStream) (expired : Bool) :
    BeforStep b (advance u b expired).2 := by
  cases hr : u.reader with
  | none =>
    simp only [advance,hr]
    exact .of_eq rfl
  | some place =>
    cases place with
    | befor =>
      rcases b.readOneAt_befor expired with ⟨-,hone⟩ | ⟨frame,-,hone⟩
      · simp only [advance,hr,hone]
        exact .of_eq rfl
      · simp only [advance,hr,hone]
        exact ⟨rfl,fun _ hq => by simp [MTQueue.popBack,hq]⟩
    | after =>
      have hsame : (b.readOneAt expired .after).1.befor = b.befor := by
        simp only [BAStream.readOneAt]
        split <;> rfl
      simp only [advance,hr]
      split
      · next c place hc => exact .of_eq (by simpa [hc] using hsame)
      · next c frame hc => exact .of_eq (by simpa [hc] using hsame)

theorem pull_from {stage : Stage} {pkt : AVPacket}
    (h : pull maxSize mMax s pkt stage = .ok t) : StreamsFrom maxSize mMax s t := by
  cases stage with
  | create =>
    cases h
    intro b hb
    rcases List.mem_append.mp hb with hb | hb
    · exact Or.inr ⟨b,hb,.of_eq rfl⟩
    · exact Or.inl (List.mem_singleton.mp hb)
  | cycw | again =>
    simp only [pull] at h
    split at h
    · next u hu =>
      cases h
      have hfrom : StreamsFrom maxSize mMax s u := writeBefor_from hu
      exact hfrom
    · cases h
  | first | dump =>
    simp only [pull] at h
    split at h
    · next u r hu =>
      cases h
      have hfrom : StreamsFrom maxSize mMax s u := writeAfter_from hu
      exact hfrom
    · cases h
  | geti | upload =>
    simp only [pull] at h
    split at h
    · cases h
      exact streamsFrom_same rfl
    · cases h
  | exitCond =>
    simp only [pull] at h
    split at h
    · next i b hd =>
      cases h
      exact streamsFrom_set (deref_ok hd) rfl (.of_eq rfl)
    · cases h
  | testStart | created | testCycw | testGeti | toDump | testDump | toStart =>
    cases h
    exact streamsFrom_same rfl

theorem step_from {e : Event} (h : step maxSize mMax s e = .ok t) :
    StreamsFrom maxSize mMax s t := by
  cases e with
  | packet pkt =>
    obtain ⟨-,rfl⟩ := packet_step h
    exact streamsFrom_same rfl
  | pull =>
    obtain ⟨stage,pkt,-,hp⟩ := pull_step h
    exact pull_from hp
  | trigger =>
    cases h
    refine streamsFrom_same ?_
    unfold setBAStreamStatus
    split_ifs <;> rfl
  | upload k expired =>
    simp only [step] at h
    split at h
    · cases h
    · next u hu =>
      split at h
      · cases h
      · next b hb =>
        cases h
        exact streamsFrom_set hb rfl (advance_from u b expired)

/-- The queues of the streams have the bound they were made with; those without room are
empty. -/
def Queues (maxCount : ℕ) (s : Client) : Prop :=
  ∀ b ∈ s.streams, b.befor.maxCount = maxCount ∧ (maxCount = 0 → b.befor.q = [])

theorem Queues.from {maxCount : ℕ} (hs : Queues maxCount s)
    (hmax : (BAStream.create maxSize mMax).befor.maxCount = maxCount)
    (h : StreamsFrom maxSize mMax s t) : Queues maxCount t := by
  intro b' hb'
  rcases h b' hb' with rfl | ⟨b,hb,hstep⟩
  · exact ⟨hmax,fun _ => rfl⟩
  · obtain ⟨hm,hq⟩ := hs b hb
    exact ⟨hstep.max.trans hm,fun hzero => hstep.empty (hm.trans hzero) (hq hzero)⟩

theorem CycWrites.queue {maxCount : ℕ} {e : Event} {q : MTQueue FrameData}
    (h : CycWrites s e q) (hs : Queues maxCount s) :
    q.maxCount = maxCount ∧ (maxCount = 0 → q.q = []) := by
  obtain ⟨-,stage,pkt,i,b,-,-,hd,rfl⟩ := h
  exact hs b (List.mem_of_getElem? (deref_ok hd))

/-- With room for one element no queue is popped empty, and with none every `cycWrite` does. -/
theorem popsEmpty_iff {maxCount : ℕ} (hs : Queues maxCount s) (e : Event) :
    PopsEmpty s e ↔ maxCount = 0 ∧ ∃ q, CycWrites s e q := by
  constructor
  · rintro ⟨q,hq,hfull,hnil⟩
    obtain ⟨hm,-⟩ := hq.queue hs
    rw [hnil,List.length_nil] at hfull
    exact ⟨by omega,q,hq⟩
  · rintro ⟨hzero,q,hq⟩
    obtain ⟨hm,hnil⟩ := hq.queue hs
    exact ⟨q,hq,by rw [hm,hzero]; exact Nat.zero_le _,hnil hzero⟩

end

theorem pullStep_ok {maxSize : ℕ} {sc : Scan} {s t : Client} {e : Event}
    (h : pullStep maxSize sc s e = .ok t) : step maxSize (sizeMul 10 sc.mFps) s e = .ok t := by
  unfold pullStep at h
  split at h
  · cases h
  · exact h

theorem along_not_popsEmpty {maxSize : ℕ} {sc : Scan} {maxCount : ℕ} {es : List Event}
    (hmax : (BAStream.create maxSize (sizeMul 10 sc.mFps)).befor.maxCount = maxCount) :
    Along (pullStep maxSize sc) (fun s e => ¬ PopsEmpty s e) start es ↔
      Along (pullStep maxSize sc) (fun s e => maxCount = 0 → ∀ q, ¬ CycWrites s e q) start es := by
  refine along_iff_of_invariant (Queues maxCount) ?_ ?_ (fun b hb => by cases hb)
  · intro s e hs
    rw [popsEmpty_iff hs e,not_and,not_exists]
  · intro s e t hs _ ht
    exact hs.from hmax (step_from (pullStep_ok ht))

theorem create_maxCount {maxSize fps : ℕ} (hsize : 1 ≤ maxSize) (hfps : fps ≤ intMax) :
    (BAStream.create maxSize (sizeMul 10 fps)).befor.maxCount = 0 ↔ fps = 0 := by
  have hmul : sizeMul 10 fps = 10*fps := by
    apply sizeMul_eq
    unfold intMax at hfps
    unfold sizeMod
    omega
  rw [hmul]
  simp only [BAStream.create,MTQueue.create]
  split_ifs <;> omega

theorem lastFps_zero_iff {rates : List AVRational} (h : ∀ r ∈ rates, r.den ≠ 0) :
    lastFps 0 rates ≤ intMax ∧
      (lastFps 0 rates ≠ 0 ↔ ∃ r, rates.getLast? = some r ∧ r.den ≤ r.num) := by
  unfold lastFps
  cases hlast : rates.getLast? with
  | none => simp
  | some r =>
    have hden : 0 < r.den := Nat.pos_of_ne_zero (h r (List.mem_of_getLast? hlast))
    simp only [Option.map_some,Option.getD_some,Option.some.injEq,exists_eq_left']
    refine ⟨(Nat.div_le_self _ _).trans r.num_le,?_⟩
    rw [← Nat.pos_iff_ne_zero,Nat.div_pos_iff]
    exact ⟨fun h => h.2,fun h => ⟨hden,h⟩⟩

/-- A frame rate is safe exactly when no video stream has a denominator of zero, and the last one
has a rate of at least one frame a second, unless no packet is ever written. -/
theorem rate_safe_iff (maxSize : ℕ) (streams : List AVStream) (es : List Event)
    (hsize : 1 ≤ maxSize) :
    RateSafe maxSize streams es ↔
      (∀ r ∈ videoRates streams, r.den ≠ 0) ∧
      ((∃ r, (videoRates streams).getLast? = some r ∧ r.den ≤ r.num) ∨
        NeverWrites maxSize streams es) := by
  rcases scanStreams_spec 0 firstScan streams with ⟨hden,sc,hsc,hfps⟩ | ⟨⟨r,hr,hzero⟩,hfault⟩
  · obtain ⟨hle,hone⟩ := lastFps_zero_iff hden
    have hfps' : sc.mFps = lastFps 0 (videoRates streams) := hfps
    rw [← hfps'] at hle hone
    have hsafe : RateSafe maxSize streams es ↔
        Along (pullStep maxSize sc) (fun s e => ¬ PopsEmpty s e) start es := by
      simp [RateSafe,hsc]
    have hnever : NeverWrites maxSize streams es ↔
        Along (pullStep maxSize sc) (fun s e => ∀ q, ¬ CycWrites s e q) start es := by
      simp [NeverWrites,hsc]
    rw [hsafe,along_not_popsEmpty rfl,and_iff_right hden,← hone,hnever,
      create_maxCount hsize hle]
    by_cases hz : sc.mFps = 0
    · simp [hz]
    · refine iff_of_true ?_ (Or.inl hz)
      exact along_of_forall (fun _ _ h => absurd h hz) _ _
  · refine iff_of_false ?_ (fun h => h.1 r hr hzero)
    rintro ⟨sc,hsc,-⟩
    rw [hfault] at hsc
    cases hsc

def videoAt (num den : ℕ) (hnum : num ≤ intMax) (hden : den ≤ intMax) : AVStream :=
  { codecType := .video, avgFrameRate := ⟨num,den,hnum,hden⟩ }

def ntsc : AVStream := videoAt 30000 1001 (by decide) (by decide)
def unknown : AVStream := videoAt 0 0 (by decide) (by decide)
def halfRate : AVStream := videoAt 1 2 (by decide) (by decide)

def onePacket : List Event :=
  [.packet { data := [1], flags := 0 },.pull,.pull,.pull,.pull,.pull]

theorem rate_safe_iff_ntsc : RateSafe 9 [ntsc] onePacket :=
  (rate_safe_iff 9 [ntsc] onePacket (by decide)).mpr
    ⟨by decide,Or.inl ⟨ntsc.avgFrameRate,by decide,by decide⟩⟩

/-- A rate of `0/0` is divided, and at one of `1/2` the first packet pops an empty queue. -/
theorem rate_breaks_recording :
    ¬ RateSafe 9 [unknown] [] ∧ ¬ RateSafe 9 [halfRate] onePacket ∧
    ∃ s q, exec (pullStep 9 ⟨some 0,none,0⟩) start onePacket.dropLast = .ok s ∧
      CycWrites s .pull q ∧ q.maxCount = 0 ∧ q.q = [] := by
  have hpop : ∃ s q, exec (pullStep 9 ⟨some 0,none,0⟩) start onePacket.dropLast = .ok s ∧
      CycWrites s .pull q ∧ q.maxCount = 0 ∧ q.q = [] :=
    ⟨_,_,rfl,⟨rfl,.cycw,_,0,_,rfl,Or.inl rfl,rfl,rfl⟩,rfl,rfl⟩
  refine ⟨?_,?_,hpop⟩
  · rintro ⟨sc,hsc,-⟩
    cases hsc
  · rintro ⟨sc,hsc,hsafe⟩
    cases hsc
    obtain ⟨s,q,hs,hq,hmax,hnil⟩ := hpop
    have hrun : Along (pullStep 9 ⟨some 0,none,0⟩) (fun s e => ¬ PopsEmpty s e) start
        (onePacket.dropLast++[.pull]) := hsafe
    exact ((along_append.mp hrun).2 s hs).1 ⟨q,hq,by rw [hmax]; exact Nat.zero_le _,hnil⟩

end RtspClient
end PcEnv
