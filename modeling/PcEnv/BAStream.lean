import PcEnv.MTQueue

/-! `BAStream`, the frames before and after a trigger, and the upload callback `readBuf`.
An upload runs in a thread of its own for each stream; all of them use the one set of `static`
variables of `readBuf`. -/
namespace PcEnv

open Runs Monitor

/-- What `RtspPullHandle` uses of a packet of `libavformat`; `size` is the length of `data`. -/
structure AVPacket where
  data : List UInt8
  flags : BitVec 32
  deriving DecidableEq, Repr

def avPktFlagKey : BitVec 32 := 1

def isKey (flags : BitVec 32) : Bool := flags &&& avPktFlagKey != 0

structure FrameData where
  data : List UInt8
  flags : BitVec 32
  deriving DecidableEq, Repr

namespace FrameData

def ofPacket (pkt : AVPacket) : FrameData := { data := pkt.data, flags := pkt.flags }

def getSize (f : FrameData) : ℕ := f.data.length

/-- `return size;`, a `size_t`. -/
def getFlags (f : FrameData) : BitVec 64 := BitVec.ofNat 64 f.getSize

end FrameData

/-- `after` and `befor` are owned queues of frames. -/
structure BAStream where
  befor : MTQueue FrameData
  after : MTQueue FrameData
  isBeforReadDone : Bool
  deriving DecidableEq

namespace BAStream

def create (maxSize mMax : ℕ) : BAStream :=
  { befor := .create _ maxSize mMax, after := .create _ maxSize mMax, isBeforReadDone := false }

def getRiFlags (b : BAStream) : BitVec 32 :=
  match b.befor.get.out with
  | .ret (.get (some frame)) => frame.getFlags.setWidth 32
  | _ => 0

def writeBefor (b : BAStream) (pkt : AVPacket) : Except Halt BAStream :=
  match b.befor.cycWrite (.ofPacket pkt) with
  | .ok sec => .ok { b with befor := sec.queue }
  | .error h => .error h

/-- `false` where `after->write(one) < 0`. -/
def writeAfter (b : BAStream) (pkt : AVPacket) : BAStream × Bool :=
  let sec := b.after.write (.ofPacket pkt)
  ({ b with after := sec.queue },
    match sec.out with
    | .ret (.write res) | .signal (.write res) => !decide (res < 0)
    | _ => true)

def setWaitExitCond (b : BAStream) : BAStream :=
  { b with after := b.after.setWaitExitState.queue }

inductive ReadAt
  | befor | after
  deriving DecidableEq, Repr

/-- `readOne` up to its first read. -/
def readOne (b : BAStream) : BAStream × ReadAt :=
  let b := { b with isBeforReadDone := false }
  if !b.isBeforReadDone then (b,.befor) else (b,.after)

/-- The next critical section of a `readOne`, which goes on to read a queue or returns. A read
that waits tests its queue again whenever it is woken, as it may be at any time. -/
def readOneAt (b : BAStream) (expired : Bool) : ReadAt → BAStream × (ReadAt ⊕ Option FrameData)
  | .befor =>
    let sec := b.befor.read
    match sec.out with
    | .ret (.read (some frame)) => ({ b with befor := sec.queue },.inr (some frame))
    | .ret (.read none) =>
      ({ b with befor := sec.queue, isBeforReadDone := true },.inl .after)
    | _ => (b,.inl .befor)
  | .after =>
    let sec := b.after.readTd expired
    match sec.out with
    | .ret (.read frame) => ({ b with after := sec.queue },.inr frame)
    | _ => (b,.inl .after)

theorem isKey_eq (flags : BitVec 32) : isKey flags = decide (flags.toNat % 2 = 1) := by
  have hand : (flags &&& avPktFlagKey).toNat = flags.toNat % 2 := by
    rw [BitVec.toNat_and]
    exact Nat.and_one_is_mod _
  have hne : flags &&& avPktFlagKey ≠ 0 ↔ flags.toNat % 2 = 1 := by
    rw [Ne,← BitVec.toNat_inj,hand]
    simp
  rw [isKey,Bool.eq_iff_iff,bne_iff_ne,hne,decide_eq_true_iff]

/-- The flag that is tested is the lowest bit of the size. -/
theorem isKey_getFlags (f : FrameData) :
    isKey (f.getFlags.setWidth 32) = decide (f.data.length % 2 = 1) := by
  rw [isKey_eq,FrameData.getFlags,FrameData.getSize,BitVec.toNat_setWidth,BitVec.toNat_ofNat,
    decide_eq_decide]
  omega

theorem isKey_getRiFlags {b : BAStream} :
    isKey b.getRiFlags = true ↔ ∃ f, b.befor.content.head? = some f ∧ f.data.length % 2 = 1 := by
  have hhead : b.befor.content.head? = b.befor.back := by
    simp [MTQueue.content,MTQueue.back]
  rw [hhead,getRiFlags,MTQueue.get]
  cases b.befor.back with
  | none => simp [isKey]
  | some f => simp [isKey_getFlags]

theorem writeBefor_ok {b b' : BAStream} {pkt : AVPacket} (h : b.writeBefor pkt = .ok b') :
    b'.after = b.after ∧ b'.befor.maxCount = b.befor.maxCount ∧
      ∃ dropped, b.befor.content++[.ofPacket pkt] = dropped++b'.befor.content := by
  unfold writeBefor at h
  split at h
  · next sec hsec =>
    cases h
    have hcrit : MTQueue.critical (.cycWrite (.ofPacket pkt)) false b.befor = .ok sec := hsec
    have hacc := (MTQueue.critical_does hcrit).accounted
    refine ⟨rfl,hacc.max,sec.removed.map Prod.fst,?_⟩
    have hone : sec.accepted = [.ofPacket pkt] := by
      unfold MTQueue.cycWrite at hsec
      split_ifs at hsec
      · split at hsec <;> cases hsec
        rfl
      · cases hsec
        rfl
    rw [← hacc.content,hone]
  · cases h

theorem writeBefor_safe {b : BAStream} (h : 1 ≤ b.befor.maxCount) (pkt : AVPacket) :
    ∃ b', b.writeBefor pkt = .ok b' := by
  have hsafe := MTQueue.critical_safe h (.cycWrite (.ofPacket pkt)) false
  simp only [MTQueue.critical] at hsafe
  unfold writeBefor
  cases hc : b.befor.cycWrite (.ofPacket pkt) with
  | ok sec => exact ⟨_,rfl⟩
  | error x =>
    cases x with
    | fault => exact (hsafe hc).elim
    | blocked =>
      unfold MTQueue.cycWrite at hc
      split_ifs at hc
      split at hc <;> cases hc

theorem writeAfter_cases (b : BAStream) (pkt : AVPacket) :
    b.after.maxCount ≤ b.after.q.length ∧ b.writeAfter pkt = (b,false) ∨
      b.after.q.length < b.after.maxCount ∧
        b.writeAfter pkt = ({ b with after := b.after.pushFront (.ofPacket pkt) },true) := by
  unfold writeAfter MTQueue.write
  split_ifs with hfull
  · exact Or.inl ⟨hfull,by simp⟩
  · exact Or.inr ⟨by omega,by simp⟩

theorem readOne_befor (b : BAStream) :
    b.readOne = ({ b with isBeforReadDone := false },.befor) := rfl

/-- The read of `befor` waits or takes its oldest frame. It never ends without one, so that
`readOne` never goes on to `after`. -/
theorem readOneAt_befor (b : BAStream) (expired : Bool) :
    (b.befor.content = [] ∧ b.readOneAt expired .befor = (b,.inl .befor)) ∨
    ∃ frame, b.befor.content = frame::b.befor.popBack.content ∧
      b.readOneAt expired .befor = ({ b with befor := b.befor.popBack },.inr (some frame)) := by
  unfold readOneAt MTQueue.read
  cases hb : b.befor.back with
  | none =>
    have hq : b.befor.q = [] := by simpa [MTQueue.back] using hb
    exact Or.inl ⟨by simp [MTQueue.content,hq],rfl⟩
  | some frame => exact Or.inr ⟨frame,MTQueue.content_popBack hb,rfl⟩

end BAStream
end PcEnv
