import PcEnv.Monitor
import PcEnv.Uartd
import PcEnv.Word

/-! The output side of `uartd`. Any thread queues commands with `sendCmd`; one thread runs
`HardWriteProcess`, which takes them from the queue and writes them to the device. -/
namespace PcEnv

/-- `q` starts with its front, the newest element. -/
structure CondFifo (α : Type) where
  q : List α
  maxCount : ℕ
  deriving DecidableEq

namespace CondFifo

variable {α : Type}

/-- `maxSize` is `q.max_size()`. -/
def create (α : Type) (maxSize max : ℕ) : CondFifo α :=
  { q := [], maxCount := if max < maxSize then max else maxSize }

def content (f : CondFifo α) : List α := f.q.reverse

/-- `none` while the queue is empty, where the caller waits. -/
def readOne (f : CondFifo α) : Option (CondFifo α × α) :=
  match f.q.getLast? with
  | none => none
  | some one => some ({ f with q := f.q.dropLast },one)

/-- The result is `-1`, or `0` where the element is queued. -/
def writeOne (f : CondFifo α) (one : α) : CondFifo α × ℤ :=
  if f.maxCount ≤ f.q.length then (f,-1) else ({ f with q := one::f.q },0)

theorem readOne_content {f g : CondFifo α} {one : α} (h : f.readOne = some (g,one)) :
    f.content = one::g.content := by
  unfold readOne at h
  split at h
  · cases h
  · next hlast =>
    cases h
    have hq : f.q.dropLast++[one] = f.q := List.dropLast_append_getLast? one hlast
    simp only [content]
    nth_rewrite 1 [← hq]
    simp

theorem readOne_size {f g : CondFifo α} {one : α} (h : f.readOne = some (g,one)) :
    g.maxCount = f.maxCount ∧ g.q.length ≤ f.q.length := by
  unfold readOne at h
  split at h
  · cases h
  · cases h
    exact ⟨rfl,by simp⟩

theorem writeOne_cases (f : CondFifo α) (one : α) :
    f.maxCount ≤ f.q.length ∧ f.writeOne one = (f,-1) ∨
      f.q.length < f.maxCount ∧ f.writeOne one = ({ f with q := one::f.q },0) := by
  unfold writeOne
  split_ifs with hfull
  · exact Or.inl ⟨hfull,rfl⟩
  · exact Or.inr ⟨by omega,rfl⟩

end CondFifo

namespace Uartd

open Runs Monitor

def wFifoMax : ℕ := 25
/-- `write` transfers at most `0x7ffff000` bytes, so its result fits an `int`. -/
def transferMax : ℕ := 0x7ffff000

def realCmd (cmd : List UInt8) : List UInt8 := [caret]++cmd++[newline]

/-- The queue, the variables of `HardWriteProcess`, what `writeOne` answered to the commands
given to `sendCmd`, in the order of its critical sections, and what the device has taken.
`writeable` is set between a good `isHardWriteable` and the `write` after it. -/
structure Line where
  wFifo : CondFifo (List UInt8)
  cmd : List UInt8
  count : ℕ
  writeable : Bool
  answers : List (List UInt8 × ℤ)
  device : List UInt8
  deriving DecidableEq

inductive LineCall
  | readOne
  | sendCmd (cmd : List UInt8)
  deriving DecidableEq

/-- `res` of `sendCmd`: it returns `-1` if that is negative. Otherwise it flows off its end, which
C++ leaves undefined; here it comes back, with a value at which no caller looks. -/
inductive LineRet
  | one (cmd : List UInt8)
  | res (res : ℤ)
  deriving DecidableEq

/-- `writeOne` notifies where it has queued the command. -/
def critical (l : Line) : LineCall → Line × Outcome LineRet
  | .readOne =>
    match l.wFifo.readOne with
    | none => (l,.wait)
    | some (f,one) => ({ l with wFifo := f, cmd := one, count := 0 },.ret (.one one))
  | .sendCmd cmd =>
    let (f,res) := l.wFifo.writeOne (realCmd cmd)
    ({ l with wFifo := f, answers := l.answers++[(cmd,res)] },
      if res < 0 then .ret (.res res) else .signal (.res res))

def lineCode : Code LineCall LineRet Line where
  timed _ := false
  body c _ l := .ok (critical l c)

/-- `while (isHardWriteable() < 0)` has one more turn, or ends. -/
def isHardWriteable (l : Line) (ready : Bool) : Except Halt Line :=
  if l.count < l.cmd.length ∧ l.writeable = false then .ok { l with writeable := ready }
  else .error .blocked

/-- `write` and the lines after it. `none` is a failure or a transfer of nothing; `res` is an
`int`, so that a result above `INT_MAX` would be negative. -/
def write (l : Line) (transferred : Option ℕ) : Except Halt Line :=
  if l.count < l.cmd.length ∧ l.writeable = true then
    match transferred with
    | none => .ok { l with writeable := false }
    | some n =>
      if 1 ≤ n ∧ n ≤ l.cmd.length-l.count ∧ n ≤ transferMax then
        let taken := { l with device := l.device++(l.cmd.drop l.count).take n,
                              writeable := false }
        if Word.intMax < Word.intOf n then .ok taken
        else .ok { taken with count := taken.count+Word.intOf n }
      else .error .blocked
  else .error .blocked

/-- `none` is the thread of `HardWriteProcess`. -/
abbrev LineSys (T : Type) := Sys (Option T) LineCall LineRet Line

inductive LineEvent (T : Type)
  | thread (e : Event (Option T) LineCall)
  | isHardWriteable (ready : Bool)
  | write (transferred : Option ℕ)

/-- `HardWriteProcess` is the reader, and reads when the last command is written. -/
def MayCall {T : Type} (l : Line) : Event (Option T) LineCall → Prop
  | .call none c => c = .readOne ∧ l.cmd.length ≤ l.count
  | .call (some _) c => c ≠ .readOne
  | _ => True

instance {T : Type} (l : Line) : DecidablePred (MayCall (T:=T) l)
  | .call none _ => inferInstanceAs (Decidable (_ ∧ _))
  | .call (some _) c => inferInstanceAs (Decidable (c ≠ .readOne))
  | .lock _ | .notify _ _ | .timeout _ | .spurious _ => .isTrue trivial

def startLine (maxSize : ℕ) : Line :=
  { wFifo := .create _ maxSize wFifoMax, cmd := [], count := 0, writeable := false,
    answers := [], device := [] }

def lineStart (T : Type) (maxSize : ℕ) : LineSys T :=
  { shared := startLine maxSize, pc := fun _ => .idle }

section Steps

variable {T : Type}

def lineStep [Fintype T] [DecidableEq T] (s : LineSys T) : LineEvent T → Except Halt (LineSys T)
  | .thread e => if MayCall s.shared e then Monitor.step lineCode s e else .error .blocked
  | .isHardWriteable ready =>
    match isHardWriteable s.shared ready with
    | .ok l => .ok { s with shared := l }
    | .error h => .error h
  | .write transferred =>
    match write s.shared transferred with
    | .ok l => .ok { s with shared := l }
    | .error h => .error h

/-- The frames of the commands that were queued, in the order they were. -/
def accepted (l : Line) : List (List UInt8) :=
  (l.answers.filter (fun a => a.2 = 0)).map (fun a => realCmd a.1)

/-- What is to come of the command being written. -/
def remaining (l : Line) : List UInt8 := l.cmd.drop l.count

/-- Each accepted byte is taken by the device, still to be written, or queued, in this order. -/
def Whole (l : Line) : Prop :=
  l.device++(remaining l++l.wFifo.content.flatten) = (accepted l).flatten

theorem remaining_eq_nil {l : Line} : remaining l = [] ↔ l.cmd.length ≤ l.count :=
  List.drop_eq_nil_iff

theorem startLine_whole (maxSize : ℕ) : Whole (startLine maxSize) := rfl

/-- `readOne` overwrites `cmd`, so it has to find it written. -/
theorem readOne_whole {l : Line} (h : Whole l) (hr : remaining l = []) :
    Whole (critical l .readOne).1 := by
  cases hf : l.wFifo.readOne with
  | none => simpa [critical,hf] using h
  | some x =>
    obtain ⟨f,one⟩ := x
    have hc := CondFifo.readOne_content hf
    rw [Whole,hr,hc] at h
    simpa [critical,hf,Whole,remaining,accepted] using h

theorem sendCmd_cases (l : Line) (cmd : List UInt8) :
    (l.wFifo.q.length < l.wFifo.maxCount ∧
      (critical l (.sendCmd cmd)).1.answers = l.answers++[(cmd,0)] ∧
      accepted (critical l (.sendCmd cmd)).1 = accepted l++[realCmd cmd]) ∨
    (l.wFifo.maxCount ≤ l.wFifo.q.length ∧
      (critical l (.sendCmd cmd)).1.answers = l.answers++[(cmd,-1)] ∧
      accepted (critical l (.sendCmd cmd)).1 = accepted l) := by
  rcases l.wFifo.writeOne_cases (realCmd cmd) with ⟨hle,hw⟩ | ⟨hlt,hw⟩
  · exact Or.inr ⟨hle,by simp [critical,hw],by simp [critical,hw,accepted]⟩
  · exact Or.inl ⟨hlt,by simp [critical,hw],by simp [critical,hw,accepted]⟩

theorem sendCmd_whole {l : Line} (h : Whole l) (cmd : List UInt8) :
    Whole (critical l (.sendCmd cmd)).1 := by
  rcases l.wFifo.writeOne_cases (realCmd cmd) with ⟨-,hw⟩ | ⟨-,hw⟩
  · have hsame : accepted (critical l (.sendCmd cmd)).1 = accepted l := by
      simp [critical,hw,accepted]
    rw [Whole,hsame]
    simpa [critical,hw,Whole,remaining] using h
  · have hmore : accepted (critical l (.sendCmd cmd)).1 = accepted l++[realCmd cmd] := by
      simp [critical,hw,accepted]
    rw [Whole,hmore,List.flatten_append,← h]
    simp [critical,hw,remaining,CondFifo.content]

structure Sized (n : ℕ) (l : Line) : Prop where
  max : l.wFifo.maxCount = n
  bound : l.wFifo.q.length ≤ n

theorem startLine_max {maxSize : ℕ} (h : wFifoMax ≤ maxSize) :
    (startLine maxSize).wFifo.maxCount = 25 := by
  unfold wFifoMax at h
  change (if 25 < maxSize then 25 else maxSize) = 25
  split_ifs <;> omega

theorem critical_sized {n : ℕ} {l : Line} (h : Sized n l) (c : LineCall) :
    Sized n (critical l c).1 := by
  obtain ⟨hmax,hbound⟩ := h
  cases c with
  | readOne =>
    cases hf : l.wFifo.readOne with
    | none => simpa [critical,hf] using Sized.mk hmax hbound
    | some x =>
      obtain ⟨f,one⟩ := x
      obtain ⟨hm,hl⟩ := CondFifo.readOne_size hf
      refine ⟨by simpa [critical,hf,hm] using hmax,?_⟩
      simp only [critical,hf]
      omega
  | sendCmd cmd =>
    rcases l.wFifo.writeOne_cases (realCmd cmd) with ⟨-,hw⟩ | ⟨hlt,hw⟩
    · exact ⟨by simpa [critical,hw] using hmax,by simpa [critical,hw] using hbound⟩
    · refine ⟨by simpa [critical,hw] using hmax,?_⟩
      simp only [critical,hw,List.length_cons]
      omega

theorem isHardWriteable_whole {l l' : Line} {ready : Bool} (h : Whole l)
    (hl : isHardWriteable l ready = .ok l') : Whole l' := by
  unfold isHardWriteable at hl
  split_ifs at hl
  cases hl
  exact h

theorem intOf_transfer {n : ℕ} (h : n ≤ transferMax) : Word.intOf n = n ∧ n ≤ Word.intMax := by
  have hn : n ≤ Word.intMax := h.trans (by decide)
  exact ⟨Word.intOf_eq hn,hn⟩

theorem write_whole {l l' : Line} {transferred : Option ℕ} (h : Whole l)
    (hl : write l transferred = .ok l') : Whole l' := by
  unfold write at hl
  split_ifs at hl
  cases transferred with
  | none =>
    cases hl
    exact h
  | some n =>
    simp only at hl
    split_ifs at hl with hn hbig
    · have hfit := intOf_transfer hn.2.2
      omega
    · cases hl
      rw [(intOf_transfer hn.2.2).1]
      -- what the device takes is the first `n` bytes of what remained
      have hsplit : remaining l = (l.cmd.drop l.count).take n++l.cmd.drop (l.count+n) := by
        rw [remaining,← List.drop_drop,List.take_append_drop]
      rw [Whole,hsplit,List.append_assoc,← List.append_assoc l.device] at h
      exact h

theorem isHardWriteable_only {l l' : Line} {ready : Bool} (h : isHardWriteable l ready = .ok l') :
    l.count < l.cmd.length ∧ l'.wFifo = l.wFifo := by
  unfold isHardWriteable at h
  split_ifs at h with hc
  cases h
  exact ⟨hc.1,rfl⟩

theorem write_only {l l' : Line} {transferred : Option ℕ} (h : write l transferred = .ok l') :
    l.count < l.cmd.length ∧ l'.wFifo = l.wFifo := by
  unfold write at h
  split_ifs at h with hc
  refine ⟨hc.1,?_⟩
  cases transferred with
  | none =>
    cases h
    rfl
  | some n =>
    simp only at h
    split_ifs at h <;> cases h <;> rfl

/-- Only `HardWriteProcess` is in `readOne`, and only with its last command written. -/
def ReadsWritten (s : LineSys T) : Prop :=
  ∀ t, (s.pc t).call? = some .readOne → t = none ∧ remaining s.shared = []

structure LineInv (n : ℕ) (s : LineSys T) : Prop where
  whole : Whole s.shared
  size : Sized n s.shared
  reads : ReadsWritten s

theorem lineStart_inv (maxSize : ℕ) :
    LineInv (startLine maxSize).wFifo.maxCount (lineStart T maxSize) where
  whole := startLine_whole maxSize
  size := ⟨rfl,Nat.zero_le _⟩
  reads := fun t h => by simp [lineStart,Pc.call?] at h

theorem critical_remaining {l : Line} {c : LineCall} (h : c ≠ .readOne) :
    remaining (critical l c).1 = remaining l := by
  cases c with
  | readOne => exact (h rfl).elim
  | sendCmd cmd => rfl

theorem critical_wait {l : Line} {c : LineCall} (h : (critical l c).2 = .wait) :
    (critical l c).1 = l := by
  cases c with
  | readOne =>
    cases hf : l.wFifo.readOne with
    | none => simp [critical,hf]
    | some x => simp [critical,hf] at h
  | sendCmd cmd =>
    simp only [critical] at h
    split_ifs at h

variable [DecidableEq T]

theorem thread_inv {n : ℕ} {s u : LineSys T} {e : Event (Option T) LineCall} (hs : LineInv n s)
    (hok : MayCall s.shared e) (h : Move lineCode s e u) : LineInv n u := by
  have hreads : ∀ t, (u.pc t).call? = some .readOne → t = none ∧ remaining s.shared = [] := by
    intro t ht
    rcases h.call_origin ht with hold | rfl
    · exact hs.reads t hold
    · cases t with
      | none => exact ⟨rfl,remaining_eq_nil.mpr hok.2⟩
      | some t => exact (hok rfl).elim
  cases h with
  | @lock t c expired l out hpc hb =>
    have hl : critical s.shared c = (l,out) := by simpa [lineCode] using hb
    have hcall := Pc.call_of_entered hpc
    constructor
    · have hw : Whole (critical s.shared c).1 := by
        cases c with
        | readOne => exact readOne_whole hs.whole (hs.reads t hcall).2
        | sendCmd cmd => exact sendCmd_whole hs.whole cmd
      rwa [hl] at hw
    · have hsize := critical_sized hs.size c
      rwa [hl] at hsize
    · intro i hi
      have hold := hreads i hi
      refine ⟨hold.1,?_⟩
      by_cases hc : c = .readOne
      · -- a `readOne` that is still in its call has waited
        subst c
        have hti := (hs.reads t hcall).1
        subst hti
        rw [hold.1,Sys.moved_self,Pc.call?_after] at hi
        have hwait : (critical s.shared .readOne).2 = .wait := by rw [hl]; exact hi.1
        have hsame := critical_wait hwait
        rw [hl] at hsame
        exact (congrArg remaining hsame).trans hold.2
      · have hsame := critical_remaining (l:=s.shared) hc
        rw [hl] at hsame
        exact hsame.trans hold.2
  | _ => exact ⟨hs.whole,hs.size,hreads⟩

theorem lineStep_inv [Fintype T] {n : ℕ} {s u : LineSys T} {e : LineEvent T} (hs : LineInv n s)
    (h : lineStep s e = .ok u) : LineInv n u := by
  -- the device acts while `cmd` is not written, so that no thread is in `readOne`
  have device {l : Line} (hw : Whole l) (hf : l.wFifo = s.shared.wFifo)
      (hlt : s.shared.count < s.shared.cmd.length) : LineInv n { s with shared := l } := by
    refine ⟨hw,⟨?_,?_⟩,?_⟩
    · rw [hf]
      exact hs.size.max
    · rw [hf]
      exact hs.size.bound
    intro t ht
    have := remaining_eq_nil.mp (hs.reads t ht).2
    omega
  cases e with
  | thread e =>
    simp only [lineStep] at h
    split_ifs at h with hok
    exact thread_inv hs hok (step_move h)
  | isHardWriteable ready =>
    simp only [lineStep] at h
    split at h
    · next l hl =>
      cases h
      obtain ⟨hlt,hf⟩ := isHardWriteable_only hl
      exact device (isHardWriteable_whole hs.whole hl) hf hlt
    · cases h
  | write transferred =>
    simp only [lineStep] at h
    split at h
    · next l hl =>
      cases h
      obtain ⟨hlt,hf⟩ := write_only hl
      exact device (write_whole hs.whole hl) hf hlt
    · cases h

theorem run_line_inv [Fintype T] {maxSize : ℕ} {es : List (LineEvent T)} {s : LineSys T}
    (h : exec lineStep (lineStart T maxSize) es = .ok s) :
    LineInv (startLine maxSize).wFifo.maxCount s :=
  exec_invariant (LineInv _) (fun _ _ _ hs _ ht => lineStep_inv hs ht) (lineStart_inv maxSize)
    (along_of_forall (fun _ _ => trivial) _ _) h

/-- In every interleaving, and whatever the device does, it has taken a prefix of the frames of
the commands that were queued, in the order they were; a command is refused when 25 are queued,
and adds nothing. -/
theorem device_gets_whole_frames [Fintype T] (maxSize : ℕ) (es : List (LineEvent T)) (s : LineSys T)
    (h : exec lineStep (lineStart T maxSize) es = .ok s) :
    s.shared.device <+: (accepted s.shared).flatten ∧
    (wFifoMax ≤ maxSize → ∀ cmd,
      (s.shared.wFifo.q.length < 25 ∧
        (critical s.shared (.sendCmd cmd)).1.answers = s.shared.answers++[(cmd,0)] ∧
        accepted (critical s.shared (.sendCmd cmd)).1 = accepted s.shared++[realCmd cmd]) ∨
      (s.shared.wFifo.q.length = 25 ∧
        (critical s.shared (.sendCmd cmd)).1.answers = s.shared.answers++[(cmd,-1)] ∧
        accepted (critical s.shared (.sendCmd cmd)).1 = accepted s.shared)) := by
  have hinv := run_line_inv h
  refine ⟨⟨_,hinv.whole⟩,?_⟩
  intro hmax cmd
  have hcount : s.shared.wFifo.maxCount = 25 := hinv.size.max.trans (startLine_max hmax)
  have hbound : s.shared.wFifo.q.length ≤ 25 := startLine_max hmax ▸ hinv.size.bound
  rcases sendCmd_cases s.shared cmd with ⟨hlt,ha,hacc⟩ | ⟨hle,ha,hacc⟩
  · exact Or.inl ⟨by omega,ha,hacc⟩
  · exact Or.inr ⟨by omega,ha,hacc⟩

def slowEvents : List (LineEvent Unit) :=
  [.thread (.call (some ()) (.sendCmd [97])),.thread (.lock (some ())),
   .thread (.notify (some ()) none),.thread (.call none .readOne),.thread (.lock none),
   .isHardWriteable false,.isHardWriteable true,.write none,.isHardWriteable true,.write (some 2),
   .thread (.call (some ()) (.sendCmd [98])),.thread (.lock (some ())),
   .isHardWriteable true,.write (some 1),.thread (.call none .readOne),.thread (.lock none),
   .isHardWriteable true,.write (some 1)]

theorem device_gets_whole_frames_slow : ∃ s, exec lineStep (lineStart Unit 99) slowEvents = .ok s ∧
    s.shared.device = [94,97,10,94] ∧ s.shared.device <+: (accepted s.shared).flatten := by
  obtain ⟨s,hs,hd⟩ : ∃ s, exec lineStep (lineStart Unit 99) slowEvents = .ok s ∧
      s.shared.device = [94,97,10,94] := observe_eq_some.mp (by decide +kernel)
  exact ⟨s,hs,hd,(device_gets_whole_frames 99 slowEvents s hs).1⟩

end Steps

end Uartd
end PcEnv
