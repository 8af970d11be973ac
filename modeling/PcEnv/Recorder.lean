import PcEnv.BAStream

/-! `RtspClient::pullSteamLoop`, which keeps the newest packets and, after a signal, hands them
and the packets that follow to an upload. The signal handler overwrites the status between any
two of its steps. -/
namespace PcEnv
namespace RtspClient

open Runs

inductive DumpSteamStatus
  | start | cycw | dump | geti | done
  deriving DecidableEq, Repr

/-- The places of the loop after `av_read_frame`; `status` is read again by each test. -/
inductive Stage
  | testStart | create | created
  | testCycw | cycw
  | testGeti | geti | toDump | first | upload | again
  | testDump | dump | toStart | exitCond
  deriving DecidableEq, Repr

/-- A thread of `curlPushUp`, in `readOne` or between two of its calls; `taken` are the frames
they returned. -/
structure Upload where
  stream : ℕ
  reader : Option BAStream.ReadAt
  taken : List FrameData
  deriving DecidableEq

inductive Side
  | befor | after
  deriving DecidableEq, Repr

/-- `pc` is the next step of the loop, `none` at `av_read_frame`. `received` are the video
packets so far, `writes` the streams and queues that packets were put in. -/
structure Client where
  status : DumpSteamStatus
  mVbas : Option ℕ
  streams : List BAStream
  pc : Option (Stage × AVPacket)
  uploads : List Upload
  received : List AVPacket
  writes : List (ℕ × Side)
  deriving DecidableEq

def start : Client :=
  { status := .start, mVbas := none, streams := [], pc := none, uploads := [], received := [],
    writes := [] }

/-- `mVbas->`, undefined for `NULL`. -/
def deref (s : Client) : Except Halt (ℕ × BAStream) :=
  match s.mVbas with
  | none => .error .fault
  | some i =>
    match s.streams[i]? with
    | none => .error .fault
    | some b => .ok (i,b)

def writeBefor (s : Client) (pkt : AVPacket) : Except Halt Client :=
  match deref s with
  | .error h => .error h
  | .ok (i,b) =>
    match b.writeBefor pkt with
    | .error h => .error h
    | .ok b => .ok { s with streams := s.streams.set i b, writes := s.writes++[(i,.befor)] }

def writeAfter (s : Client) (pkt : AVPacket) : Except Halt (Client × Bool) :=
  match deref s with
  | .error h => .error h
  | .ok (i,b) =>
    let (b,done) := b.writeAfter pkt
    .ok ({ s with streams := s.streams.set i b,
                  writes := if done then s.writes++[(i,.after)] else s.writes },done)

def intOfBool (b : Bool) : ℤ := if b then 1 else 0

theorem intOfBool_nonneg (b : Bool) : 0 ≤ intOfBool b := by
  cases b <;> decide

/-- One step of the loop on the packet `pkt`; `maxSize` is `q.max_size()` of the queues. -/
def pull (maxSize mMax : ℕ) (s : Client) (pkt : AVPacket) : Stage → Except Halt Client
  | .testStart => .ok { s with pc := some (if s.status = .start then .create else .testCycw,pkt) }
  | .create =>
    .ok { s with streams := s.streams++[.create maxSize mMax], mVbas := some s.streams.length,
                 pc := some (.created,pkt) }
  | .created => .ok { s with status := .cycw, pc := some (.testCycw,pkt) }
  | .testCycw => .ok { s with pc := some (if s.status = .cycw then .cycw else .testGeti,pkt) }
  | .cycw =>
    match writeBefor s pkt with
    | .ok s => .ok { s with pc := none }
    | .error h => .error h
  | .testGeti => .ok { s with pc := some (if s.status = .geti then .geti else .testDump,pkt) }
  | .geti =>
    match deref s with
    | .ok (_,b) => .ok { s with pc := some (if isKey b.getRiFlags then .toDump else .again,pkt) }
    | .error h => .error h
  | .toDump => .ok { s with status := .dump, pc := some (.first,pkt) }
  | .first =>
    match writeAfter s pkt with
    | .ok (s,_) => .ok { s with pc := some (.upload,pkt) }
    | .error h => .error h
  | .upload =>
    match deref s with
    | .ok (i,_) =>
      .ok { s with uploads := s.uploads++[{ stream := i, reader := none, taken := [] }],
                   pc := none }
    | .error h => .error h
  | .again =>
    match writeBefor s pkt with
    | .ok s => .ok { s with pc := none }
    | .error h => .error h
  | .testDump => .ok { s with pc := if s.status = .dump then some (.dump,pkt) else none }
  | .dump =>
    match writeAfter s pkt with
    | .ok (s,done) =>
      .ok { s with pc := if intOfBool done < 0 then some (.toStart,pkt) else none }
    | .error h => .error h
  | .toStart => .ok { s with status := .start, pc := some (.exitCond,pkt) }
  | .exitCond =>
    match deref s with
    | .ok (i,b) => .ok { s with streams := s.streams.set i b.setWaitExitCond, pc := none }
    | .error h => .error h

def setBAStreamStatus (s : Client) : Client :=
  if s.status ≠ .geti then { s with status := .geti } else s

/-- The next step of the upload thread `u` in its stream `b`. -/
def advance (u : Upload) (b : BAStream) (expired : Bool) : Upload × BAStream :=
  match u.reader with
  | none => ({ u with reader := some b.readOne.2 },b.readOne.1)
  | some at' =>
    match b.readOneAt expired at' with
    | (b,.inl at') => ({ u with reader := some at' },b)
    | (b,.inr frame) => ({ u with reader := none, taken := u.taken++frame.toList },b)

/-- A packet of another stream than the video changes nothing and is no event. -/
inductive Event
  | packet (pkt : AVPacket)
  | pull
  | trigger
  | upload (k : ℕ) (expired : Bool)
  deriving DecidableEq

def step (maxSize mMax : ℕ) (s : Client) : Event → Except Halt Client
  | .packet pkt =>
    match s.pc with
    | none => .ok { s with pc := some (.testStart,pkt), received := s.received++[pkt] }
    | some _ => .error .blocked
  | .pull =>
    match s.pc with
    | none => .error .blocked
    | some (stage,pkt) => pull maxSize mMax s pkt stage
  | .trigger => .ok (setBAStreamStatus s)
  | .upload k expired =>
    match s.uploads[k]? with
    | none => .error .blocked
    | some u =>
      match s.streams[u.stream]? with
      | none => .error .blocked
      | some b =>
        let (u',b') := advance u b expired
        .ok { s with uploads := s.uploads.set k u', streams := s.streams.set u.stream b' }

theorem packet_step {maxSize mMax : ℕ} {s t : Client} {pkt : AVPacket}
    (ht : step maxSize mMax s (.packet pkt) = .ok t) :
    s.pc = none ∧
      t = { s with pc := some (.testStart,pkt), received := s.received++[pkt] } := by
  cases hpc : s.pc with
  | none =>
    simp only [step,hpc] at ht
    cases ht
    exact ⟨rfl,rfl⟩
  | some x => simp [step,hpc] at ht

theorem pull_step {maxSize mMax : ℕ} {s t : Client} (ht : step maxSize mMax s .pull = .ok t) :
    ∃ stage pkt, s.pc = some (stage,pkt) ∧ pull maxSize mMax s pkt stage = .ok t := by
  cases hpc : s.pc with
  | none => simp [step,hpc] at ht
  | some x =>
    simp only [step,hpc] at ht
    exact ⟨x.1,x.2,rfl,ht⟩

def frames (pkts : List AVPacket) : List FrameData := pkts.map .ofPacket

def before (s : Client) : List AVPacket :=
  match s.pc with
  | none => s.received
  | some _ => s.received.dropLast

/-- No packet goes to the `befor` of a stream after one has gone to its `after`. -/
def Ordered (writes : List (ℕ × Side)) : Prop :=
  writes.Pairwise (fun v w => v.1 = w.1 → v.2 = .after → w.2 = .after)

theorem ordered_after {writes : List (ℕ × Side)} (h : Ordered writes) (i : ℕ) :
    Ordered (writes++[(i,.after)]) := by
  rw [Ordered,List.pairwise_append]
  refine ⟨h,List.pairwise_singleton _ _,?_⟩
  intro v _ w hw _ _
  rw [List.mem_singleton.mp hw]

theorem ordered_of_befor {writes : List (ℕ × Side)} (h : ∀ w ∈ writes, w.2 = .befor) :
    Ordered writes := by
  rw [Ordered,List.pairwise_iff_forall_sublist]
  intro v w hsub _ hv
  have hmem := h v (hsub.subset (by simp))
  rw [hv] at hmem
  cases hmem

/-- There is one stream, whose `after` has not been told to end. -/
structure One (maxSize mMax : ℕ) (s : Client) (b : BAStream) : Prop where
  streams : s.streams = [b]
  current : s.mVbas = some 0
  befor : b.befor.maxCount = (BAStream.create maxSize mMax).befor.maxCount
  after : b.after.maxCount = (BAStream.create maxSize mMax).after.maxCount
  open' : b.after.mIsWaitWasExited = false
  last : ∀ stage pkt, s.pc = some (stage,pkt) → s.received = before s++[pkt]

/-- Where the loop is, and the status, while the stream is recorded. -/
def Recording (b : BAStream) (status : DumpSteamStatus) : Option Stage → Prop
  | none | some .testStart | some .testCycw | some .cycw => status = .cycw ∨ status = .geti
  | some .created => True
  | some .testGeti | some .geti | some .again => status = .geti
  | some .toDump => status = .geti ∧ b.befor.content ≠ []
  | some .first => status = .dump ∧ b.befor.content ≠ []
  | _ => False

def Dumping : Option Stage → Prop
  | none | some .testStart | some .testCycw | some .testGeti | some .testDump | some .dump => True
  | _ => False

/-- `clip` is a run of `pkts`, up to the last of them unless `after` is full. -/
def Clip (clip : List FrameData) (b : BAStream) (pkts : List AVPacket) : Prop :=
  clip ≠ [] ∧ ∃ pre post, frames pkts = pre++clip++post ∧
    (post ≠ [] → b.after.maxCount ≤ b.after.q.length)

inductive Phase (maxSize mMax : ℕ) (s : Client) : Prop
  | fresh (hs : s.streams = []) (hv : s.mVbas = none) (hu : s.uploads = []) (hw : s.writes = [])
      (hpc : s.status = .start ∧ s.pc = none ∧ s.received = [] ∨
        ∃ pkt, s.received = [pkt] ∧
          (s.status = .start ∧ s.pc = some (.testStart,pkt) ∨ s.pc = some (.create,pkt)))
  | record (b : BAStream) (hone : One maxSize mMax s b) (hu : s.uploads = [])
      (ha : b.after.q = []) (hw : ∀ w ∈ s.writes, w.2 = .befor)
      (hpc : Recording b s.status (s.pc.map Prod.fst)) (hb : b.befor.content <:+ frames (before s))
  | upload (b : BAStream) (pkt : AVPacket) (hone : One maxSize mMax s b) (hu : s.uploads = [])
      (hw : Ordered s.writes) (hst : s.status = .dump) (hpc : s.pc = some (.upload,pkt))
      (hc : Clip (b.befor.content++b.after.content) b s.received)
  | dump (b : BAStream) (reader : Option BAStream.ReadAt) (taken : List FrameData)
      (hone : One maxSize mMax s b)
      (hu : s.uploads = [{ stream := 0, reader := reader, taken := taken }])
      (hr : reader ≠ some .after) (hw : Ordered s.writes) (hst : s.status = .dump)
      (hpc : Dumping (s.pc.map Prod.fst))
      (hc : Clip (taken++b.befor.content++b.after.content) b (before s))

/-- A trigger comes while the stream is recorded, or where the loop is about to set the status
itself. -/
def TriggerOk (s : Client) : Event → Prop
  | .trigger => s.status = .cycw ∨ s.status = .geti ∨
      s.pc.map Prod.fst = some .create ∨ s.pc.map Prod.fst = some .created
  | _ => True

instance (s : Client) : DecidablePred (TriggerOk s)
  | .trigger => inferInstanceAs (Decidable (_ ∨ _ ∨ _ ∨ _))
  | .packet _ | .pull | .upload _ _ => .isTrue trivial

variable {maxSize mMax : ℕ} {s t : Client} {b : BAStream}

theorem start_phase : Phase maxSize mMax start :=
  .fresh rfl rfl rfl rfl (Or.inl ⟨rfl,rfl,rfl⟩)

theorem One.deref (h : One maxSize mMax s b) : deref s = .ok (0,b) := by
  simp [RtspClient.deref,h.current,h.streams]

theorem One.writeBefor (h : One maxSize mMax s b) {pkt : AVPacket}
    (ht : writeBefor s pkt = .ok t) :
    ∃ b', t = { s with streams := [b'], writes := s.writes++[(0,.befor)] } ∧
      b'.after = b.after ∧ b'.befor.maxCount = b.befor.maxCount ∧
      ∃ dropped, b.befor.content++[.ofPacket pkt] = dropped++b'.befor.content := by
  unfold RtspClient.writeBefor at ht
  rw [h.deref] at ht
  simp only at ht
  split at ht
  · cases ht
  · next b' hb =>
    cases ht
    exact ⟨b',by simp [h.streams],BAStream.writeBefor_ok hb⟩

theorem One.writeAfter (h : One maxSize mMax s b) (pkt : AVPacket) :
    b.after.maxCount ≤ b.after.q.length ∧ writeAfter s pkt = .ok (s,false) ∨
    b.after.q.length < b.after.maxCount ∧ writeAfter s pkt =
      .ok ({ s with streams := [{ b with after := b.after.pushFront (.ofPacket pkt) }],
                    writes := s.writes++[(0,.after)] },true) := by
  unfold RtspClient.writeAfter
  rw [h.deref]
  rcases b.writeAfter_cases pkt with ⟨hfull,hw⟩ | ⟨hlt,hw⟩
  · refine Or.inl ⟨hfull,?_⟩
    simp only [hw,h.streams,List.set_cons_zero]
    rw [← h.streams]
    rfl
  · exact Or.inr ⟨hlt,by simp [hw,h.streams]⟩

theorem before_of_none (h : s.pc = none) : before s = s.received := by
  rw [before,h]

theorem before_of_some {x : Stage × AVPacket} (h : s.pc = some x) :
    before s = s.received.dropLast := by
  rw [before,h]

theorem One.step {b' : BAStream} (h : One maxSize mMax s b) (hs : t.streams = [b'])
    (hv : t.mVbas = s.mVbas) (hr : t.received = s.received)
    (hbefor : b'.befor.maxCount = b.befor.maxCount)
    (hafter : b'.after.maxCount = b.after.maxCount)
    (hopen : b'.after.mIsWaitWasExited = b.after.mIsWaitWasExited)
    (hpc : t.pc = none ∨ ∃ stage stage' pkt, s.pc = some (stage,pkt) ∧ t.pc = some (stage',pkt)) :
    One maxSize mMax t b' where
  streams := hs
  current := hv.trans h.current
  befor := hbefor.trans h.befor
  after := hafter.trans h.after
  open' := hopen.trans h.open'
  last := by
    intro stage pkt hpkt
    rcases hpc with hnone | ⟨stage₀,stage₁,pkt₀,hs₀,ht₀⟩
    · simp [hnone] at hpkt
    · have hlast := h.last stage₀ pkt₀ hs₀
      rw [before_of_some hs₀] at hlast
      rw [ht₀] at hpkt
      cases hpkt
      rw [before_of_some ht₀,hr]
      exact hlast

theorem record_goto {stage : Stage} {pkt : AVPacket} (hone : One maxSize mMax s b)
    (hu : s.uploads = []) (ha : b.after.q = []) (hw : ∀ w ∈ s.writes, w.2 = .befor)
    (hb : b.befor.content <:+ frames (before s)) (hpc : s.pc = some (stage,pkt))
    (stage' : Stage) (status : DumpSteamStatus) (h : Recording b status (some stage')) :
    Phase maxSize mMax { s with status := status, pc := some (stage',pkt) } := by
  refine .record b ?_ hu ha hw h ?_
  · exact hone.step hone.streams rfl rfl rfl rfl rfl (Or.inr ⟨stage,stage',pkt,hpc,rfl⟩)
  · rw [before_of_some rfl]
    rwa [before_of_some hpc] at hb

theorem record_write {stage : Stage} {pkt : AVPacket} (hone : One maxSize mMax s b)
    (hu : s.uploads = []) (ha : b.after.q = []) (hw : ∀ w ∈ s.writes, w.2 = .befor)
    (hb : b.befor.content <:+ frames (before s)) (hpc : s.pc = some (stage,pkt))
    (hst : s.status = .cycw ∨ s.status = .geti) (hwrite : writeBefor s pkt = .ok t) :
    Phase maxSize mMax { t with pc := none } := by
  obtain ⟨b',rfl,hafter,hmax,dropped,hdrop⟩ := hone.writeBefor hwrite
  refine .record b' ?_ hu (by rw [hafter]; exact ha) ?_ hst ?_
  · exact hone.step rfl rfl rfl hmax (by rw [hafter]) (by rw [hafter]) (Or.inl rfl)
  · intro w hmem
    rcases List.mem_append.mp hmem with hmem | hmem
    · exact hw w hmem
    · rw [List.mem_singleton.mp hmem]
  · obtain ⟨pre,hpre⟩ := hb
    rw [before_of_none rfl,hone.last stage pkt hpc,frames,List.map_append,List.map_singleton]
    refine ⟨pre++dropped,?_⟩
    rw [List.append_assoc,← hdrop,← List.append_assoc,hpre]
    rfl

theorem dump_goto {reader : Option BAStream.ReadAt} {taken : List FrameData} {stage : Stage}
    {pkt : AVPacket} (hone : One maxSize mMax s b)
    (hu : s.uploads = [{ stream := 0, reader := reader, taken := taken }])
    (hr : reader ≠ some .after) (hw : Ordered s.writes) (hst : s.status = .dump)
    (hc : Clip (taken++b.befor.content++b.after.content) b (before s))
    (hpc : s.pc = some (stage,pkt)) (stage' : Stage) (h : Dumping (some stage')) :
    Phase maxSize mMax { s with pc := some (stage',pkt) } := by
  refine .dump b reader taken ?_ hu hr hw hst h ?_
  · exact hone.step hone.streams rfl rfl rfl rfl rfl (Or.inr ⟨stage,stage',pkt,hpc,rfl⟩)
  · rw [before_of_some rfl]
    rwa [before_of_some hpc] at hc

/-- Where `writeAfter` leaves a clip. -/
theorem Clip.extend {front : List FrameData} {pkts : List AVPacket}
    (h : Clip (front++b.after.content) b pkts) (pkt : AVPacket) :
    (b.after.maxCount ≤ b.after.q.length →
      Clip (front++b.after.content) b (pkts++[pkt])) ∧
    (b.after.q.length < b.after.maxCount →
      Clip (front++(b.after.pushFront (.ofPacket pkt)).content)
        { b with after := b.after.pushFront (.ofPacket pkt) } (pkts++[pkt])) := by
  obtain ⟨hne,pre,post,hall,hfull⟩ := h
  have hmore : frames (pkts++[pkt]) = frames pkts++[.ofPacket pkt] := by simp [frames]
  constructor
  · intro hle
    refine ⟨hne,pre,post++[.ofPacket pkt],?_,fun _ => hle⟩
    rw [hmore,hall,List.append_assoc]
  · intro hlt
    have hpost : post = [] := by
      by_contra hpost
      have := hfull hpost
      omega
    refine ⟨by simp,pre,[],?_,fun h => (h rfl).elim⟩
    rw [hmore,hall,hpost,MTQueue.content_pushFront]
    simp

/-- `writeAfter` has been called for `pkt`, which a clip goes on with or has no room for. -/
structure WroteAfter (b b' : BAStream) (pkt : AVPacket) : Prop where
  befor : b'.befor = b.befor
  bound : b'.after.maxCount = b.after.maxCount
  open' : b'.after.mIsWaitWasExited = b.after.mIsWaitWasExited
  content : b.after.content <+: b'.after.content
  clip : ∀ front pkts, Clip (front++b.after.content) b pkts →
    Clip (front++b'.after.content) b' (pkts++[pkt])

theorem One.wroteAfter (h : One maxSize mMax s b) {pkt : AVPacket} {done : Bool}
    (ht : RtspClient.writeAfter s pkt = .ok (t,done)) :
    ∃ b' writes, t = { s with streams := [b'], writes := writes } ∧
      (Ordered s.writes → Ordered writes) ∧ WroteAfter b b' pkt := by
  rcases h.writeAfter pkt with ⟨hfull,hwrite⟩ | ⟨hlt,hwrite⟩
  · rw [hwrite] at ht
    cases ht
    refine ⟨b,s.writes,by rw [← h.streams],id,rfl,rfl,rfl,List.prefix_refl _,?_⟩
    exact fun front pkts hc => (hc.extend pkt).1 hfull
  · rw [hwrite] at ht
    cases ht
    refine ⟨_,_,rfl,fun ho => ordered_after ho 0,rfl,rfl,rfl,?_,?_⟩
    · rw [MTQueue.content_pushFront]
      exact List.prefix_append _ _
    · exact fun front pkts hc => (hc.extend pkt).2 hlt

theorem WroteAfter.one {b' : BAStream} {pkt : AVPacket} (h : WroteAfter b b' pkt)
    (hone : One maxSize mMax s b) (hs : t.streams = [b']) (hv : t.mVbas = s.mVbas)
    (hr : t.received = s.received)
    (hpc : t.pc = none ∨ ∃ stage stage' pkt, s.pc = some (stage,pkt) ∧ t.pc = some (stage',pkt)) :
    One maxSize mMax t b' :=
  hone.step hs hv hr (by rw [h.befor]) h.bound h.open' hpc

/-- The packets of `befor` are a clip as long as `after` is empty. -/
theorem clip_of_suffix {pkts : List AVPacket} (ha : b.after.q = []) (hne : b.befor.content ≠ [])
    (hb : b.befor.content <:+ frames pkts) :
    Clip (b.befor.content++b.after.content) b pkts := by
  obtain ⟨pre,hpre⟩ := hb
  have hnil : b.after.content = [] := by simp [MTQueue.content,ha]
  rw [hnil,List.append_nil]
  exact ⟨hne,pre,[],by simp [hpre],fun h => (h rfl).elim⟩

theorem advance_befor {u u' : Upload} {b' : BAStream} {expired : Bool}
    (hr : u.reader ≠ some .after) (h : advance u b expired = (u',b')) :
    u'.stream = u.stream ∧ u'.reader ≠ some .after ∧ b'.after = b.after ∧
      b'.befor.maxCount = b.befor.maxCount ∧
      u'.taken++b'.befor.content = u.taken++b.befor.content := by
  obtain ⟨stream,reader,taken⟩ := u
  cases reader with
  | none =>
    cases h
    simp [BAStream.readOne_befor]
  | some place =>
    cases place with
    | after => exact (hr rfl).elim
    | befor =>
      rcases b.readOneAt_befor expired with ⟨hempty,hone⟩ | ⟨frame,hcont,hone⟩
      · simp only [advance,hone] at h
        cases h
        exact ⟨rfl,by simp,rfl,rfl,rfl⟩
      · simp only [advance,hone] at h
        cases h
        exact ⟨rfl,by simp,rfl,rfl,by simp [hcont]⟩

theorem Phase.packet {pkt : AVPacket} (h : Phase maxSize mMax s) (hpc : s.pc = none) :
    Phase maxSize mMax
      { s with pc := some (.testStart,pkt), received := s.received++[pkt] } := by
  have hbefore : before { s with pc := some (.testStart,pkt), received := s.received++[pkt] } =
      before s := by
    rw [before_of_some rfl,before_of_none hpc,List.dropLast_concat]
  have hone {b : BAStream} (hone : One maxSize mMax s b) : One maxSize mMax
      { s with pc := some (.testStart,pkt), received := s.received++[pkt] } b :=
    ⟨hone.streams,hone.current,hone.befor,hone.after,hone.open',by
      intro stage pkt' h
      cases h
      rw [hbefore,before_of_none hpc]⟩
  cases h with
  | fresh hs hv hu hw hst =>
    rcases hst with ⟨hstart,-,hr⟩ | ⟨pkt',-,⟨-,h⟩ | h⟩
    · exact .fresh hs hv hu hw (Or.inr ⟨pkt,by simp [hr],Or.inl ⟨hstart,rfl⟩⟩)
    · simp [hpc] at h
    · simp [hpc] at h
  | record b hb hu ha hw hrec hsuf =>
    rw [hpc] at hrec
    exact .record b (hone hb) hu ha hw hrec (by rw [hbefore]; exact hsuf)
  | upload b pkt' _ _ _ _ h _ => simp [hpc] at h
  | dump b reader taken hb hu hr hw hst _ hc =>
    exact .dump b reader taken (hone hb) hu hr hw hst trivial (by rw [hbefore]; exact hc)

theorem Phase.trigger (h : Phase maxSize mMax s) (hok : TriggerOk s .trigger) :
    Phase maxSize mMax (setBAStreamStatus s) := by
  unfold setBAStreamStatus
  split_ifs with hst
  · have hone {b : BAStream} (hone : One maxSize mMax s b) :
        One maxSize mMax { s with status := .geti } b :=
      ⟨hone.streams,hone.current,hone.befor,hone.after,hone.open',hone.last⟩
    cases h with
    | fresh hs hv hu hw hpc =>
      refine .fresh hs hv hu hw ?_
      rcases hpc with ⟨hstart,hnone,-⟩ | ⟨pkt,hr,⟨hstart,htest⟩ | hcreate⟩
      · simp [TriggerOk,hstart,hnone] at hok
      · simp [TriggerOk,hstart,htest] at hok
      · exact Or.inr ⟨pkt,hr,Or.inr hcreate⟩
    | record b hb hu ha hw hrec hsuf =>
      refine .record b (hone hb) hu ha hw ?_ hsuf
      -- a trigger is refused while the status is `dump`
      cases hstage : s.pc.map Prod.fst with
      | none => exact Or.inr rfl
      | some stage =>
        rw [hstage] at hrec
        cases stage <;> simp_all [Recording,TriggerOk]
    | upload b pkt _ _ _ hdump hpc _ => simp [TriggerOk,hdump,hpc] at hok
    | dump b reader taken _ _ _ _ hdump hpc _ =>
      rcases hok with h | h | h | h
      · simp [hdump] at h
      · simp [hdump] at h
      · simp [h,Dumping] at hpc
      · simp [h,Dumping] at hpc
  · exact h

theorem fresh_pull {pkt : AVPacket} (hs : s.streams = []) (hu : s.uploads = [])
    (hw : s.writes = []) (hr : s.received = [pkt]) :
    Phase maxSize mMax
      { s with streams := s.streams++[.create maxSize mMax], mVbas := some s.streams.length,
               pc := some (.created,pkt) } := by
  refine .record (.create maxSize mMax) ⟨by simp [hs],by simp [hs],rfl,rfl,rfl,?_⟩ hu rfl ?_
    trivial ?_
  · intro stage pkt' h
    cases h
    simp [before,hr]
  · simp [hw]
  · simp [before,hr,frames,BAStream.create,MTQueue.create,MTQueue.content]

theorem record_pull {stage : Stage} {pkt : AVPacket} (hone : One maxSize mMax s b)
    (hu : s.uploads = []) (ha : b.after.q = []) (hw : ∀ w ∈ s.writes, w.2 = .befor)
    (hb : b.befor.content <:+ frames (before s)) (hpc : s.pc = some (stage,pkt))
    (hrec : Recording b s.status (some stage)) (ht : pull maxSize mMax s pkt stage = .ok t) :
    Phase maxSize mMax t := by
  have goto := record_goto hone hu ha hw hb hpc
  cases stage with
  | testStart =>
    cases ht
    refine goto _ s.status ?_
    rcases hrec with h | h <;> rw [h] <;> simp [Recording]
  | created =>
    cases ht
    exact goto .testCycw .cycw (Or.inl rfl)
  | testCycw =>
    cases ht
    refine goto _ s.status ?_
    rcases hrec with h | h <;> rw [h] <;> simp [Recording]
  | cycw =>
    simp only [pull] at ht
    split at ht
    · next u hwrite =>
      cases ht
      exact record_write hone hu ha hw hb hpc hrec hwrite
    · cases ht
  | testGeti =>
    cases ht
    refine goto _ s.status ?_
    rw [show s.status = .geti from hrec]
    rfl
  | geti =>
    simp only [pull,hone.deref] at ht
    cases ht
    refine goto _ s.status ?_
    split_ifs with hkey
    · obtain ⟨f,hf,-⟩ := BAStream.isKey_getRiFlags.mp hkey
      refine ⟨hrec,?_⟩
      intro hnil
      simp [hnil] at hf
    · exact hrec
  | again =>
    simp only [pull] at ht
    split at ht
    · next u hwrite =>
      cases ht
      exact record_write hone hu ha hw hb hpc (Or.inr hrec) hwrite
    · cases ht
  | toDump =>
    cases ht
    exact goto .first .dump ⟨rfl,hrec.2⟩
  | first =>
    -- the first packet of `after`; the packets of `befor` are the last before it
    simp only [pull] at ht
    split at ht
    · next u done hwrite =>
      cases ht
      obtain ⟨b',writes,rfl,hord,hwrote⟩ := hone.wroteAfter hwrite
      refine .upload b' pkt ?_ hu (hord (ordered_of_befor hw)) hrec.1 rfl ?_
      · exact hwrote.one hone rfl rfl rfl (Or.inr ⟨_,_,pkt,hpc,rfl⟩)
      · rw [hone.last .first pkt hpc,hwrote.befor]
        exact hwrote.clip _ _ (clip_of_suffix ha hrec.2 hb)
    · cases ht
  | _ => exact hrec.elim

theorem upload_pull {pkt : AVPacket} (hone : One maxSize mMax s b) (hu : s.uploads = [])
    (hw : Ordered s.writes) (hst : s.status = .dump)
    (hc : Clip (b.befor.content++b.after.content) b s.received)
    (ht : pull maxSize mMax s pkt .upload = .ok t) : Phase maxSize mMax t := by
  simp only [pull,hone.deref] at ht
  cases ht
  refine .dump b none [] ?_ (by rw [hu]; rfl) (by simp) hw hst trivial hc
  exact hone.step hone.streams rfl rfl rfl rfl rfl (Or.inl rfl)

theorem dump_pull {reader : Option BAStream.ReadAt} {taken : List FrameData} {stage : Stage}
    {pkt : AVPacket} (hone : One maxSize mMax s b)
    (hu : s.uploads = [{ stream := 0, reader := reader, taken := taken }])
    (hr : reader ≠ some .after) (hw : Ordered s.writes) (hst : s.status = .dump)
    (hc : Clip (taken++b.befor.content++b.after.content) b (before s))
    (hpc : s.pc = some (stage,pkt)) (hdump : Dumping (some stage))
    (ht : pull maxSize mMax s pkt stage = .ok t) : Phase maxSize mMax t := by
  have goto := dump_goto hone hu hr hw hst hc hpc
  cases stage with
  | testStart | testCycw | testGeti =>
    cases ht
    refine goto _ ?_
    rw [hst]
    trivial
  | testDump =>
    cases ht
    rw [if_pos hst]
    exact goto .dump trivial
  | dump =>
    -- `writeAfter` returns a `bool`, and no `bool` is negative
    simp only [pull] at ht
    split at ht
    · next u done hwrite =>
      cases ht
      obtain ⟨b',writes,rfl,hord,hwrote⟩ := hone.wroteAfter hwrite
      rw [if_neg (intOfBool_nonneg done).not_gt]
      refine .dump b' reader taken ?_ hu hr (hord hw) hst trivial ?_
      · exact hwrote.one hone rfl rfl rfl (Or.inl rfl)
      · change Clip _ b' s.received
        rw [hone.last .dump pkt hpc,hwrote.befor]
        exact hwrote.clip _ _ hc
    · cases ht
  | _ => exact hdump.elim

theorem Phase.pull {stage : Stage} {pkt : AVPacket} (h : Phase maxSize mMax s)
    (hpc : s.pc = some (stage,pkt)) (ht : pull maxSize mMax s pkt stage = .ok t) :
    Phase maxSize mMax t := by
  cases h with
  | fresh hs hv hu hw hst =>
    rcases hst with ⟨-,hnone,-⟩ | ⟨pkt',hr,⟨hstart,htest⟩ | hcreate⟩
    · simp [hpc] at hnone
    · rw [hpc] at htest
      cases htest
      cases ht
      rw [if_pos hstart]
      exact .fresh hs hv hu hw (Or.inr ⟨pkt,hr,Or.inr rfl⟩)
    · rw [hpc] at hcreate
      cases hcreate
      cases ht
      exact fresh_pull hs hu hw hr
  | record b hone hu ha hw hrec hb =>
    rw [hpc] at hrec
    exact record_pull hone hu ha hw hb hpc hrec ht
  | upload b pkt' hone hu hw hst hup hc =>
    rw [hpc] at hup
    cases hup
    exact upload_pull hone hu hw hst hc ht
  | dump b reader taken hone hu hr hw hst hdump hc =>
    rw [hpc] at hdump
    exact dump_pull hone hu hr hw hst hc hpc hdump ht

structure Advanced (maxSize mMax : ℕ) (s t : Client) (b b' : BAStream)
    (taken taken' : List FrameData) (reader' : Option BAStream.ReadAt) : Prop where
  one : One maxSize mMax t b'
  uploads : t.uploads = [⟨0,reader',taken'⟩]
  reader : reader' ≠ some .after
  after : b'.after = b.after
  taken : taken'++b'.befor.content = taken++b.befor.content
  rest : t.writes = s.writes ∧ t.status = s.status ∧ t.pc = s.pc ∧ t.received = s.received

theorem upload_advanced {k : ℕ} {expired : Bool} {reader : Option BAStream.ReadAt}
    {taken : List FrameData} (hone : One maxSize mMax s b) (hu : s.uploads = [⟨0,reader,taken⟩])
    (hr : reader ≠ some .after) (ht : step maxSize mMax s (.upload k expired) = .ok t) :
    ∃ b' taken' reader', Advanced maxSize mMax s t b b' taken taken' reader' := by
  cases k with
  | succ k => simp [step,hu] at ht
  | zero =>
    obtain ⟨⟨u,b'⟩,hadv⟩ : ∃ x, advance ⟨0,reader,taken⟩ b expired = x := ⟨_,rfl⟩
    simp only [step,hu,hone.streams,List.getElem?_cons_zero,List.set_cons_zero,hadv] at ht
    cases ht
    obtain ⟨hstream,hreader,hafter,hmax,htaken⟩ := advance_befor hr hadv
    obtain ⟨stream,reader',taken'⟩ := u
    simp only at hstream hreader htaken
    subst stream
    refine ⟨b',taken',reader',?_,rfl,hreader,hafter,htaken,rfl,rfl,rfl,rfl⟩
    have hpc : s.pc = none ∨ ∃ stage stage' pkt, s.pc = some (stage,pkt) ∧
        s.pc = some (stage',pkt) := by
      cases hs : s.pc with
      | none => exact Or.inl rfl
      | some x => exact Or.inr ⟨x.1,x.1,x.2,rfl,rfl⟩
    exact hone.step rfl rfl rfl hmax (by rw [hafter]) (by rw [hafter]) hpc

theorem upload_phase {k : ℕ} {expired : Bool} (h : Phase maxSize mMax s)
    (ht : step maxSize mMax s (.upload k expired) = .ok t) : Phase maxSize mMax t := by
  cases h with
  | fresh _ _ hu _ _ => simp [step,hu] at ht
  | record _ _ hu _ _ _ _ => simp [step,hu] at ht
  | upload _ _ _ hu _ _ _ _ => simp [step,hu] at ht
  | dump b reader taken hone hu hr hw hst hpc hc =>
    obtain ⟨b',taken',reader',hadv⟩ := upload_advanced hone hu hr ht
    obtain ⟨hwrites,hstatus,hpc',hreceived⟩ := hadv.rest
    refine .dump b' reader' taken' hadv.one hadv.uploads hadv.reader (by rw [hwrites]; exact hw)
      (hstatus.trans hst) (by rw [hpc']; exact hpc) ?_
    have hbefore : before t = before s := by rw [before,before,hpc',hreceived]
    obtain ⟨hne,pre,post,hall,hfull⟩ := hc
    rw [hbefore,hadv.taken,hadv.after]
    exact ⟨hne,pre,post,hall,by rw [hadv.after]; exact hfull⟩

theorem phase_step {e : Event} (h : Phase maxSize mMax s) (hok : TriggerOk s e)
    (ht : step maxSize mMax s e = .ok t) : Phase maxSize mMax t := by
  cases e with
  | packet pkt =>
    obtain ⟨hpc,rfl⟩ := packet_step ht
    exact h.packet hpc
  | pull =>
    obtain ⟨stage,pkt,hpc,hpull⟩ := pull_step ht
    exact h.pull hpc hpull
  | trigger =>
    cases ht
    exact h.trigger hok
  | upload k expired => exact upload_phase h ht

theorem phase_run {es : List Event} (ha : Along (step maxSize mMax) TriggerOk start es)
    (hs : exec (step maxSize mMax) start es = .ok s) : Phase maxSize mMax s :=
  exec_invariant (Phase maxSize mMax) (fun _ _ _ h hok ht => phase_step h hok ht) start_phase ha hs

def Stage.handles : Stage → Bool
  | .cycw | .geti | .toDump | .first | .upload | .again | .dump => true
  | _ => false

/-- The stream in use is there, no stream has two uploads, and `befor` is not written after
`after`. -/
structure Survives (s : Client) : Prop where
  live : ∀ stage pkt, s.pc = some (stage,pkt) → stage.handles = true →
    ∃ i b, s.mVbas = some i ∧ s.streams[i]? = some b
  once : (s.uploads.map Upload.stream).Nodup
  ordered : Ordered s.writes

theorem Phase.survives (h : Phase maxSize mMax s) : Survives s := by
  have live {b : BAStream} (hone : One maxSize mMax s b) :
      ∃ i b, s.mVbas = some i ∧ s.streams[i]? = some b :=
    ⟨0,b,hone.current,by simp [hone.streams]⟩
  cases h with
  | fresh hs hv hu hw hpc =>
    refine ⟨?_,by simp [hu],by simp [hw,Ordered]⟩
    intro stage pkt hstage hh
    rcases hpc with ⟨-,hnone,-⟩ | ⟨pkt',-,⟨-,htest⟩ | hcreate⟩
    · simp [hnone] at hstage
    · rw [htest] at hstage
      cases hstage
      cases hh
    · rw [hcreate] at hstage
      cases hstage
      cases hh
  | record b hone hu _ hw _ _ =>
    exact ⟨fun _ _ _ _ => live hone,by simp [hu],ordered_of_befor hw⟩
  | upload b _ hone hu hw _ _ _ => exact ⟨fun _ _ _ _ => live hone,by simp [hu],hw⟩
  | dump b _ _ hone hu _ hw _ _ _ => exact ⟨fun _ _ _ _ => live hone,by simp [hu],hw⟩

theorem One.safe (h : One maxSize mMax s b) (hs : 1 ≤ maxSize) (hm : 1 ≤ mMax) (pkt : AVPacket)
    (stage : Stage) : RtspClient.pull maxSize mMax s pkt stage ≠ .error .fault := by
  have hbefor : 1 ≤ b.befor.maxCount := by
    rw [h.befor]
    exact MTQueue.create_maxCount hs hm
  have hwrite : ∃ t, RtspClient.writeBefor s pkt = .ok t := by
    obtain ⟨b',hb'⟩ := BAStream.writeBefor_safe hbefor pkt
    simp [RtspClient.writeBefor,h.deref,hb']
  obtain ⟨t,ht⟩ := hwrite
  have hafter : ∃ x, RtspClient.writeAfter s pkt = .ok x := by
    rcases h.writeAfter pkt with ⟨-,hw⟩ | ⟨-,hw⟩ <;> exact ⟨_,hw⟩
  obtain ⟨x,hx⟩ := hafter
  cases stage <;> simp [RtspClient.pull,h.deref,ht,hx]

theorem Phase.safe (h : Phase maxSize mMax s) (hs : 1 ≤ maxSize) (hm : 1 ≤ mMax) (e : Event) :
    step maxSize mMax s e ≠ .error .fault := by
  cases e with
  | packet pkt => cases hpc : s.pc <;> simp [step,hpc]
  | trigger => simp [step]
  | upload k expired =>
    simp only [step]
    split
    · simp
    · split <;> simp
  | pull =>
    cases hpc : s.pc with
    | none => simp [step,hpc]
    | some x =>
      obtain ⟨stage,pkt⟩ := x
      simp only [step,hpc]
      cases h with
      | fresh _ _ _ _ hst =>
        rcases hst with ⟨-,hnone,-⟩ | ⟨pkt',-,⟨-,htest⟩ | hcreate⟩
        · simp [hpc] at hnone
        · rw [hpc] at htest
          cases htest
          simp [RtspClient.pull]
        · rw [hpc] at hcreate
          cases hcreate
          simp [RtspClient.pull]
      | record b hone _ _ _ _ _ => exact hone.safe hs hm pkt stage
      | upload b _ hone _ _ _ _ _ => exact hone.safe hs hm pkt stage
      | dump b _ _ hone _ _ _ _ _ _ => exact hone.safe hs hm pkt stage

/-- The recorder survives every run whose triggers come while it records, or at the two steps
after which it sets the status itself. -/
theorem recorder_survives (maxSize mMax : ℕ) (es : List Event)
    (ha : Along (step maxSize mMax) TriggerOk start es) :
    (∀ s, exec (step maxSize mMax) start es = .ok s → Survives s) ∧
    (1 ≤ maxSize → 1 ≤ mMax → exec (step maxSize mMax) start es ≠ .error .fault) := by
  refine ⟨fun s hs => (phase_run ha hs).survives,?_⟩
  intro hmax hm
  exact exec_safe (Phase maxSize mMax) (fun _ _ _ h hok ht => phase_step h hok ht)
    (fun _ e h _ => h.safe hmax hm e) start_phase ha

def packetOf (n : ℕ) (flags : BitVec 32) : AVPacket :=
  { data := List.replicate n 0, flags := flags }

def arrive (n : ℕ) (flags : BitVec 32) (steps : ℕ) : List Event :=
  .packet (packetOf n flags)::List.replicate steps .pull

def uploadEvents : List Event := arrive 3 1 5++[.trigger]++arrive 4 0 7

theorem recorder_survives_upload :
    ∃ s, exec (step 9 10) start uploadEvents = .ok s ∧ s.uploads = [⟨0,none,[]⟩] ∧ Survives s := by
  obtain ⟨s,hs,hu⟩ : ∃ s, exec (step 9 10) start uploadEvents = .ok s ∧
      s.uploads = [⟨0,none,[]⟩] := observe_eq_some.mp (by decide +kernel)
  exact ⟨s,hs,hu,(recorder_survives 9 10 uploadEvents (by decide +kernel)).1 s hs⟩

/-- A trigger before the first packet makes the loop use `mVbas` while it is `NULL`, and one
during an upload starts a second upload of the same stream. -/
theorem late_and_early_triggers :
    exec (step 9 10) start (.trigger::arrive 3 1 4) = .error .fault ∧
    (∃ s, exec (step 9 10) start (.trigger::arrive 3 1 3) = .ok s ∧ ¬ Survives s) ∧
    ∃ s, exec (step 9 10) start (uploadEvents++[.trigger]++arrive 5 0 7) = .ok s ∧
      s.uploads.map Upload.stream = [0,0] ∧ ¬ Survives s := by
  refine ⟨faults_iff.mp (by decide +kernel),?_,?_⟩
  · obtain ⟨s,hs,hpc⟩ : ∃ s, exec (step 9 10) start (.trigger::arrive 3 1 3) = .ok s ∧
        (s.pc,s.mVbas) = (some (.geti,packetOf 3 1),none) :=
      observe_eq_some.mp (by decide +kernel)
    refine ⟨s,hs,?_⟩
    intro h
    obtain ⟨i,b,hi,-⟩ := h.live .geti (packetOf 3 1) (congrArg Prod.fst hpc) rfl
    have hnull : s.mVbas = none := congrArg Prod.snd hpc
    simp [hnull] at hi
  · obtain ⟨s,hs,hu⟩ : ∃ s, exec (step 9 10) start (uploadEvents++[.trigger]++arrive 5 0 7) = .ok s ∧
        s.uploads.map Upload.stream = [0,0] := observe_eq_some.mp (by decide +kernel)
    refine ⟨s,hs,hu,?_⟩
    intro h
    have hnodup := h.once
    rw [hu] at hnodup
    simp at hnodup

end RtspClient
end PcEnv
