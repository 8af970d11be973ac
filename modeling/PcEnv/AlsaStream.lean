import PcEnv.Runs
import PcEnv.Word

/-! `_alsa_ctrl_read_stream` and `_alsa_ctrl_write_stream` of `alsa_ctrl.c`, which have one loop.
Every read of `abort_flag` and every result of the driver is an event; the flag may be set, and
the driver may fail, at any time. -/
namespace PcEnv
namespace Alsa

open Runs Word

def eagain : ℤ := -11
def epipe : ℤ := -32
def estrpipe : ℤ := -86

/-- What the streams read of an `alsa_ctrl_t`; `opens` is that `handle` is not `NULL`. -/
structure AlsaCtrl where
  opens : Bool
  periodFrames : ℕ
  bytesPerFrame : ℕ
  deriving DecidableEq, Repr

/-- The places of the function that wait for an event; `retry n` is the transfer of `n` frames
after a recovery, `pause` and `check` the tests of `abort_flag` around `snd_pcm_resume`. -/
inductive Pc
  | entry | test | xfer | recover
  | retry (n : ℕ)
  | pause | resume | check | prepare
  | done (ret : ℤ)
  deriving DecidableEq, Repr

/-- A call of `snd_pcm_readi` or `snd_pcm_writei` at `buffer+offset`, and its result. -/
structure Call where
  offset : ℕ
  frames : ℕ
  got : ℤ
  deriving DecidableEq, Repr

/-- `p` is `p-buffer`; `silences` are the calls of `snd_pcm_format_set_silence`, an offset and
16-bit samples. -/
structure Stream where
  p : ℕ
  c : ℕ
  r : ℤ
  pc : Pc
  calls : List Call
  silences : List (ℕ × ℕ)
  deriving DecidableEq, Repr

inductive Event
  | abortFlag (set : Bool)
  | xfer (r : ℤ)
  | recover (r : ℤ)
  | resume (r : ℤ)
  | prepare (r : ℤ)
  deriving DecidableEq, Repr

/-- What the two streams differ in: the type of `r`, and what is done before the loop. -/
structure Job where
  ptr : AlsaCtrl
  narrow : ℤ → ℤ
  pad : Stream → Stream

namespace Stream

/-- `return (int)(p-(char *)buffer)`. -/
def leave (s : Stream) : Stream := { s with pc := .done (toInt s.p) }

def top (s : Stream) : Stream := if 0 < s.c then { s with pc := .test } else s.leave

def advance (bpf : ℕ) (s : Stream) : Stream :=
  if 0 < s.r then { s with c := sizeSub s.c s.r.toNat, p := s.p+sizeMul s.r.toNat bpf }.top
  else s.top

/-- After `while(r==-EAGAIN)`. -/
def resumed (bpf : ℕ) (s : Stream) : Stream :=
  if s.r < 0 then { s with pc := .check } else s.advance bpf

def call (s : Stream) (frames : ℕ) (r narrowed : ℤ) : Stream :=
  { s with r := narrowed, calls := s.calls++[⟨s.p,frames,r⟩] }

def branch (bpf : ℕ) (s : Stream) : Stream :=
  if s.r = eagain ∨ (0 ≤ s.r ∧ s.r.toNat < s.c) then s.advance bpf
  else if s.r = epipe then { s with pc := .recover }
  else if s.r = estrpipe then { s with pc := .pause }
  else if s.r < 0 then s.leave
  else s.advance bpf

end Stream

def step (j : Job) (s : Stream) (e : Event) : Except Halt Stream :=
  match s.pc,e with
  | .entry,.abortFlag set =>
    if set || !j.ptr.opens then .ok { s with pc := .done (-1) } else .ok (j.pad s).top
  | .test,.abortFlag set => if set then .ok s.leave else .ok { s with pc := .xfer }
  | .xfer,.xfer r => .ok ((s.call s.c r (j.narrow r)).branch j.ptr.bytesPerFrame)
  | .recover,.recover r =>
    if 0 < r ∧ r.toNat ≤ s.c then .ok { s with r := r, pc := .retry r.toNat }
    else .ok ({ s with r := r }.advance j.ptr.bytesPerFrame)
  | .retry n,.xfer r => .ok ((s.call n r (j.narrow r)).advance j.ptr.bytesPerFrame)
  | .pause,.abortFlag set =>
    if set then .ok (s.resumed j.ptr.bytesPerFrame) else .ok { s with pc := .resume }
  | .resume,.resume r =>
    if r = eagain then .ok { s with r := r, pc := .pause }
    else .ok ({ s with r := r }.resumed j.ptr.bytesPerFrame)
  | .check,.abortFlag set => if set then .ok s.leave else .ok { s with pc := .prepare }
  | .prepare,.prepare r =>
    if r < 0 then .ok { s with r := r }.leave else .ok { s with r := r }.top
  | _,_ => .error .blocked

inductive Does (j : Job) (s : Stream) : Event → Stream → Prop
  | refuse {set} (h : s.pc = .entry) (hs : (set || !j.ptr.opens) = true) :
      Does j s (.abortFlag set) { s with pc := .done (-1) }
  | enter (h : s.pc = .entry) (ho : j.ptr.opens = true) :
      Does j s (.abortFlag false) (j.pad s).top
  | goOn {pc} (h : s.pc = .test ∧ pc = .xfer ∨ s.pc = .pause ∧ pc = .resume ∨
        s.pc = .check ∧ pc = .prepare) :
      Does j s (.abortFlag false) { s with pc := pc }
  | stop (h : s.pc = .test ∨ s.pc = .check) : Does j s (.abortFlag true) s.leave
  | giveUp (h : s.pc = .pause) : Does j s (.abortFlag true) (s.resumed j.ptr.bytesPerFrame)
  | xfer {r} (h : s.pc = .xfer) :
      Does j s (.xfer r) ((s.call s.c r (j.narrow r)).branch j.ptr.bytesPerFrame)
  | recovered {r} (h : s.pc = .recover) (hr : 0 < r) :
      Does j s (.recover r) { s with r := r, pc := .retry r.toNat }
  | recover {r} (h : s.pc = .recover) :
      Does j s (.recover r) ({ s with r := r }.advance j.ptr.bytesPerFrame)
  | retry {n r} (h : s.pc = .retry n) :
      Does j s (.xfer r) ((s.call n r (j.narrow r)).advance j.ptr.bytesPerFrame)
  | again {r} (h : s.pc = .resume) : Does j s (.resume r) { s with r := r, pc := .pause }
  | resume {r} (h : s.pc = .resume) :
      Does j s (.resume r) ({ s with r := r }.resumed j.ptr.bytesPerFrame)
  | fail {r} (h : s.pc = .prepare) (hr : r < 0) : Does j s (.prepare r) { s with r := r }.leave
  | prepare {r} (h : s.pc = .prepare) : Does j s (.prepare r) { s with r := r }.top

theorem step_does {j : Job} {s t : Stream} {e : Event} (h : step j s e = .ok t) :
    Does j s e t := by
  unfold step at h
  split at h
  · next set hpc =>
    split_ifs at h with href
    · cases h
      exact .refuse hpc href
    · cases h
      have hboth : set = false ∧ j.ptr.opens = true := by simpa using href
      rw [hboth.1]
      exact .enter hpc hboth.2
  · next set hpc =>
    cases set with
    | true =>
      cases h
      exact .stop (Or.inl hpc)
    | false =>
      cases h
      exact .goOn (Or.inl ⟨hpc,rfl⟩)
  · next r hpc =>
    cases h
    exact .xfer hpc
  · next r hpc =>
    split_ifs at h with hr
    · cases h
      exact .recovered hpc hr.1
    · cases h
      exact .recover hpc
  · next n r hpc =>
    cases h
    exact .retry hpc
  · next set hpc =>
    cases set with
    | true =>
      cases h
      exact .giveUp hpc
    | false =>
      cases h
      exact .goOn (Or.inr (Or.inl ⟨hpc,rfl⟩))
  · next r hpc =>
    split_ifs at h
    · cases h
      exact .again hpc
    · cases h
      exact .resume hpc
  · next set hpc =>
    cases set with
    | true =>
      cases h
      exact .stop (Or.inr hpc)
    | false =>
      cases h
      exact .goOn (Or.inr (Or.inr ⟨hpc,rfl⟩))
  · next r hpc =>
    split_ifs at h with hr
    · cases h
      exact .fail hpc hr
    · cases h
      exact .prepare hpc
  · cases h

def start (ptr : AlsaCtrl) (bytes : ℕ) : Stream :=
  { p := 0, c := bytes/ptr.bytesPerFrame, r := 0, pc := .entry, calls := [], silences := [] }

/-- `int r=x` for a `snd_pcm_sframes_t` `x`. -/
def intOfLong (x : ℤ) : ℤ := x.bmod (2^32)

/-- `_alsa_ctrl_read_stream`. -/
def readJob (ptr : AlsaCtrl) : Job := { ptr := ptr, narrow := intOfLong, pad := id }

/-- What the driver is to keep to: a transfer returns at most the frames it is asked for, or an
error, which is an `int`, so that `r` holds it; the other calls return `0` or an error. -/
def Lawful (j : Job) (s : Stream) : Event → Prop
  | .abortFlag _ => True
  | .xfer r => j.narrow r = r ∧ r ≤ (match s.pc with | .retry n => n | _ => s.c)
  | .recover r | .resume r | .prepare r => r ≤ 0

instance (j : Job) (s : Stream) : DecidablePred (Lawful j s)
  | .abortFlag _ => .isTrue trivial
  | .xfer _ => inferInstanceAs (Decidable (_ ∧ _))
  | .recover _ | .resume _ | .prepare _ => inferInstanceAs (Decidable (_ ≤ _))

def received (calls : List Call) : ℕ := (calls.map (fun c => c.got.toNat)).sum

/-- Every call is for the bytes right after those of the frames received before it, and stays
within `bytes`. -/
def Gapless (bpf bytes : ℕ) (calls : List Call) : Prop :=
  ∀ pre c post, calls = pre++c::post →
    c.offset = bpf*received pre ∧ c.offset+bpf*c.frames ≤ bytes

@[simp] theorem received_nil : received [] = 0 := rfl

theorem received_concat (calls : List Call) (c : Call) :
    received (calls++[c]) = received calls+c.got.toNat := by
  simp [received]

theorem gapless_nil (bpf bytes : ℕ) : Gapless bpf bytes [] := by
  intro pre c post h
  simp at h

theorem Gapless.concat {bpf bytes : ℕ} {calls : List Call} {c : Call}
    (h : Gapless bpf bytes calls) (hc : c.offset = bpf*received calls)
    (hin : c.offset+bpf*c.frames ≤ bytes) : Gapless bpf bytes (calls++[c]) := by
  intro pre d post hsplit
  rcases List.eq_nil_or_concat post with rfl | ⟨post,x,rfl⟩
  · obtain ⟨rfl,hd⟩ := List.append_inj' hsplit rfl
    cases hd
    exact ⟨hc,hin⟩
  · have hsplit' : calls++[c] = (pre++d::post)++[x] := by
      rw [hsplit,List.concat_eq_append,List.append_assoc,List.cons_append]
    exact h pre d post (List.append_inj' hsplit' rfl).1

/-- The frames asked for are those received and those left, and the pointer is behind the
former. -/
structure Account (bpf total : ℕ) (s : Stream) : Prop where
  count : s.c+received s.calls = total
  pos : s.p = bpf*received s.calls
  gapless : Gapless bpf (bpf*total) s.calls

/-- The places of the loop, with the error that led to a pause and the result once it is left. -/
def InLoop (s : Stream) : Prop :=
  match s.pc with
  | .entry | .retry _ => False
  | .pause => s.r ≤ 0
  | .done ret => ret = toInt s.p
  | _ => True

structure Inv (bpf total : ℕ) (s : Stream) : Prop where
  account : Account bpf total s
  inLoop : InLoop s

section

variable {bpf total : ℕ} {s t : Stream}

theorem Account.congr (h : Account bpf total s) (hp : t.p = s.p) (hc : t.c = s.c)
    (hcalls : t.calls = s.calls) : Account bpf total t :=
  ⟨by rw [hc,hcalls,h.count],by rw [hp,hcalls,h.pos],by rw [hcalls]; exact h.gapless⟩

theorem leave_inv (h : Account bpf total s) : Inv bpf total s.leave :=
  ⟨h.congr rfl rfl rfl,rfl⟩

theorem top_inv (h : Account bpf total s) : Inv bpf total s.top := by
  unfold Stream.top
  split_ifs
  · exact ⟨h.congr rfl rfl rfl,trivial⟩
  · exact leave_inv h

theorem advance_inv_of_nonpos (h : Account bpf total s) (hr : s.r ≤ 0) :
    Inv bpf total (s.advance bpf) := by
  rw [Stream.advance,if_neg (not_lt.mpr hr)]
  exact top_inv h

theorem call_account (h : Account bpf total s) {r narrowed : ℤ} (hr : r ≤ 0) :
    Account bpf total (s.call s.c r narrowed) := by
  have hrec : received (s.calls++[⟨s.p,s.c,r⟩]) = received s.calls := by
    rw [received_concat,Int.toNat_of_nonpos hr,add_zero]
  have hpos := h.pos
  refine ⟨?_,?_,?_⟩
  · rw [← h.count,← hrec]
    rfl
  · rw [← hrec] at hpos
    exact hpos
  · refine h.gapless.concat h.pos ?_
    rw [h.pos,← mul_add,Nat.add_comm,h.count]

theorem call_advance_inv (h : Account bpf total s) {r : ℤ} (hr : 0 < r) (hle : r ≤ s.c)
    (hbpf : 1 ≤ bpf) (hfit : bpf*total < sizeMod) :
    Inv bpf total ((s.call s.c r r).advance bpf) := by
  obtain ⟨n,rfl⟩ := Int.eq_ofNat_of_zero_le hr.le
  have hn : n ≤ s.c := by omega
  have htotal : total ≤ bpf*total := Nat.le_mul_of_pos_left total hbpf
  have hcount := h.count
  have hsub : sizeSub s.c n = s.c-n := sizeSub_eq hn (by omega)
  have hmul : sizeMul n bpf = n*bpf := by
    apply sizeMul_eq
    calc n*bpf ≤ total*bpf := Nat.mul_le_mul_right bpf (by omega)
      _ = bpf*total := Nat.mul_comm total bpf
      _ < sizeMod := hfit
  have hrec : received (s.calls++[⟨s.p,s.c,n⟩]) = received s.calls+n := by
    rw [received_concat,Int.toNat_natCast]
  have hpos : s.p+n*bpf = bpf*(received s.calls+n) := by
    rw [h.pos]
    ring
  rw [← hrec] at hpos
  rw [Stream.advance,if_pos (by simpa [Stream.call] using hr)]
  refine top_inv ⟨?_,?_,?_⟩
  · simp only [Stream.call,Int.toNat_natCast,hrec,hsub]
    omega
  · simp only [Stream.call,Int.toNat_natCast,hmul]
    exact hpos
  · refine h.gapless.concat h.pos ?_
    rw [h.pos,← mul_add,Nat.add_comm,h.count]

theorem branch_of_pos (h : 0 < s.r) : s.branch bpf = s.advance bpf := by
  have hp : s.r ≠ epipe := by unfold epipe; omega
  have hs : s.r ≠ estrpipe := by unfold estrpipe; omega
  unfold Stream.branch
  rw [if_neg hp,if_neg hs,if_neg (not_lt.mpr h.le)]
  split_ifs <;> rfl

theorem branch_inv_of_nonpos (h : Account bpf total s) (hr : s.r ≤ 0) :
    Inv bpf total (s.branch bpf) := by
  unfold Stream.branch
  split_ifs
  · exact advance_inv_of_nonpos h hr
  · exact ⟨h.congr rfl rfl rfl,trivial⟩
  · exact ⟨h.congr rfl rfl rfl,hr⟩
  · exact leave_inv h
  · exact advance_inv_of_nonpos h hr

theorem resumed_inv (h : Account bpf total s) (hr : s.r ≤ 0) :
    Inv bpf total (s.resumed bpf) := by
  unfold Stream.resumed
  split_ifs
  · exact ⟨h.congr rfl rfl rfl,trivial⟩
  · exact advance_inv_of_nonpos h hr

structure Fits (j : Job) (total : ℕ) : Prop where
  bpf : 1 ≤ j.ptr.bytesPerFrame
  size : j.ptr.bytesPerFrame*total < sizeMod

/-- The loop is not at its entry, and lawful results leave it without a second transfer. -/
theorem Inv.pc (h : Inv bpf total s) : s.pc ≠ .entry ∧ ∀ n, s.pc ≠ .retry n := by
  have hin := h.inLoop
  unfold InLoop at hin
  constructor
  · intro hpc
    rw [hpc] at hin
    exact hin
  · intro n hpc
    rw [hpc] at hin
    exact hin

theorem Inv.result (h : Inv bpf total s) {ret : ℤ} (hret : s.pc = .done ret) :
    ret = toInt (bpf*received s.calls) := by
  have hin := h.inLoop
  unfold InLoop at hin
  rw [hret] at hin
  rw [← h.account.pos]
  exact hin

theorem step_inv {j : Job} {e : Event} (hj : Fits j total)
    (h : Inv j.ptr.bytesPerFrame total s) (hl : Lawful j s e) (ht : step j s e = .ok t) :
    Inv j.ptr.bytesPerFrame total t := by
  have ha := h.account
  cases step_does ht with
  | refuse hpc _ => exact (h.pc.1 hpc).elim
  | enter hpc _ => exact (h.pc.1 hpc).elim
  | goOn hpc =>
    refine ⟨ha.congr rfl rfl rfl,?_⟩
    rcases hpc with ⟨-,rfl⟩ | ⟨-,rfl⟩ | ⟨-,rfl⟩ <;> trivial
  | stop _ => exact leave_inv ha
  | giveUp hpc =>
    have hin := h.inLoop
    unfold InLoop at hin
    rw [hpc] at hin
    exact resumed_inv ha hin
  | @xfer r hpc =>
    obtain ⟨hnarrow,hle⟩ := hl
    rw [hpc] at hle
    rw [hnarrow]
    by_cases hr : 0 < r
    · rw [branch_of_pos hr]
      exact call_advance_inv ha hr hle hj.bpf hj.size
    · exact branch_inv_of_nonpos (call_account ha (not_lt.mp hr)) (not_lt.mp hr)
  | recovered _ hr => exact absurd hr (not_lt.mpr hl)
  | recover _ => exact advance_inv_of_nonpos (ha.congr rfl rfl rfl) hl
  | retry hpc => exact (h.pc.2 _ hpc).elim
  | again _ => exact ⟨ha.congr rfl rfl rfl,hl⟩
  | resume _ => exact resumed_inv (ha.congr rfl rfl rfl) hl
  | fail _ _ => exact leave_inv (ha.congr rfl rfl rfl)
  | prepare _ => exact top_inv (ha.congr rfl rfl rfl)

/-- The driver fails in a way that the loop does not go on from. -/
def Fatal : Event → Prop
  | .xfer r => r < 0 ∧ r ≠ eagain ∧ r ≠ epipe ∧ r ≠ estrpipe
  | .prepare r => r < 0
  | _ => False

def Calm (e : Event) : Prop := e ≠ .abortFlag true ∧ ¬ Fatal e

def Complete (s : Stream) : Prop := ∀ ret, s.pc = .done ret → s.c = 0

theorem top_complete : Complete s.top := by
  unfold Stream.top
  split_ifs with h
  · intro ret hret
    cases hret
  · intro ret _
    exact Nat.eq_zero_of_not_pos h

theorem advance_complete : Complete (s.advance bpf) := by
  unfold Stream.advance
  split_ifs
  · exact top_complete
  · exact top_complete

theorem resumed_complete : Complete (s.resumed bpf) := by
  unfold Stream.resumed
  split_ifs
  · intro ret hret
    cases hret
  · exact advance_complete

theorem branch_complete (h : ¬ Fatal (.xfer s.r)) : Complete (s.branch bpf) := by
  unfold Stream.branch
  split_ifs with hagain hpipe hstr hneg
  · exact advance_complete
  · intro ret hret
    cases hret
  · intro ret hret
    cases hret
  · exact (h ⟨hneg,fun he => hagain (Or.inl he),hpipe,hstr⟩).elim
  · exact advance_complete

theorem step_complete {j : Job} {e : Event} (h : Inv j.ptr.bytesPerFrame total s)
    (hl : Lawful j s e) (hcalm : Calm e) (ht : step j s e = .ok t) : Complete t := by
  have inside {u : Stream} (hu : ∀ ret, u.pc ≠ .done ret) : Complete u :=
    fun ret hret => (hu ret hret).elim
  cases step_does ht with
  | refuse hpc _ => exact (h.pc.1 hpc).elim
  | enter hpc _ => exact (h.pc.1 hpc).elim
  | goOn hpc =>
    rcases hpc with ⟨-,rfl⟩ | ⟨-,rfl⟩ | ⟨-,rfl⟩ <;> exact inside (by simp)
  | stop _ => exact (hcalm.1 rfl).elim
  | giveUp _ => exact (hcalm.1 rfl).elim
  | xfer _ =>
    obtain ⟨hnarrow,-⟩ := hl
    rw [hnarrow]
    exact branch_complete hcalm.2
  | recovered _ _ => exact inside (by simp)
  | recover _ => exact advance_complete
  | retry _ => exact advance_complete
  | again _ => exact inside (by simp)
  | resume _ => exact resumed_complete
  | fail _ hr => exact (hcalm.2 hr).elim
  | prepare _ => exact top_complete

end

/-- The call is turned down: the stream is closed or aborted when it begins. -/
def Refused (ptr : AlsaCtrl) (es : List Event) : Prop :=
  ∃ set, es = [.abortFlag set] ∧ (set = true ∨ ptr.opens = false)

theorem run_cases {j : Job} {bytes : ℕ} {es : List Event} {s : Stream}
    (h : exec (step j) (start j.ptr bytes) es = .ok s) :
    es = [] ∧ s = start j.ptr bytes ∨
    Refused j.ptr es ∧ s = { start j.ptr bytes with pc := .done (-1) } ∨
    ∃ rest, es = .abortFlag false::rest ∧ j.ptr.opens = true ∧
      exec (step j) (j.pad (start j.ptr bytes)).top rest = .ok s := by
  cases es with
  | nil =>
    cases h
    exact Or.inl ⟨rfl,rfl⟩
  | cons e es =>
    obtain ⟨u,hu,hs⟩ := exec_cons_ok.mp h
    cases e with
    | abortFlag set =>
      simp only [step,start] at hu
      split_ifs at hu with href
      · cases hu
        cases es with
        | nil =>
          cases hs
          refine Or.inr (Or.inl ⟨⟨set,rfl,?_⟩,rfl⟩)
          simpa using href
        | cons e es =>
          obtain ⟨v,hv,-⟩ := exec_cons_ok.mp hs
          simp [step] at hv
      · cases hu
        have hboth : set = false ∧ j.ptr.opens = true := by simpa using href
        exact Or.inr (Or.inr ⟨es,by rw [hboth.1],hboth.2,hs⟩)
    | xfer r | recover r | resume r | prepare r => cases hu

theorem entry_step {j : Job} (bytes : ℕ) (h : j.ptr.opens = true) :
    step j (start j.ptr bytes) (.abortFlag false) = .ok (j.pad (start j.ptr bytes)).top := by
  simp [step,start,h]

/-- What the loop keeps, and how it ends. -/
theorem loop_run {j : Job} {total : ℕ} {s t : Stream} {es : List Event} (hj : Fits j total)
    (hs : Inv j.ptr.bytesPerFrame total s) (hlaw : Along (step j) (Lawful j) s es)
    (ht : exec (step j) s es = .ok t) :
    Inv j.ptr.bytesPerFrame total t ∧ (Complete s → (∀ e ∈ es, Calm e) → Complete t) := by
  refine ⟨exec_invariant _ (fun u e v hu hl hv => step_inv hj hu hl hv) hs hlaw ht,?_⟩
  intro hcomplete hcalm
  have hboth : Along (step j) (fun u e => Lawful j u e ∧ Calm e) s es :=
    along_and.mpr ⟨hlaw,along_of_mem hcalm s⟩
  refine (exec_invariant (fun u => Inv j.ptr.bytesPerFrame total u ∧ Complete u) ?_
    ⟨hs,hcomplete⟩ hboth ht).2
  intro u e v hu he hv
  exact ⟨step_inv hj hu.1 he.1 hv,step_complete hu.1 he.1 he.2 hv⟩

theorem readJob_fits {ptr : AlsaCtrl} {bytes : ℕ} (hbpf : 1 ≤ ptr.bytesPerFrame)
    (hbytes : bytes < 2^31) : Fits (readJob ptr) (bytes/ptr.bytesPerFrame) := by
  have hmul : ptr.bytesPerFrame*(bytes/ptr.bytesPerFrame) ≤ bytes := Nat.mul_div_le _ _
  refine ⟨hbpf,?_⟩
  simp only [readJob]
  unfold sizeMod
  omega

theorem start_account (ptr : AlsaCtrl) (bytes : ℕ) :
    Account ptr.bytesPerFrame (bytes/ptr.bytesPerFrame) (start ptr bytes) :=
  ⟨rfl,rfl,gapless_nil _ _⟩

theorem Gapless.mono {bpf a b : ℕ} {calls : List Call} (h : Gapless bpf a calls) (hab : a ≤ b) :
    Gapless bpf b calls :=
  fun pre c post hs => ⟨(h pre c post hs).1,(h pre c post hs).2.trans hab⟩

/-- `_alsa_ctrl_read_stream` reads right after what it has received and within the buffer, the
frames left never wrap, and it returns the bytes of the frames received: all that fit where
neither an abort nor a fatal error comes in between. -/
theorem read_stream_gapless (ptr : AlsaCtrl) (bytes : ℕ) (es : List Event) (s : Stream)
    (hbpf : 1 ≤ ptr.bytesPerFrame) (hbytes : bytes < 2^31)
    (hlaw : Along (step (readJob ptr)) (Lawful (readJob ptr)) (start ptr bytes) es)
    (hrun : exec (step (readJob ptr)) (start ptr bytes) es = .ok s) :
    Gapless ptr.bytesPerFrame bytes s.calls ∧
    s.c+received s.calls = bytes/ptr.bytesPerFrame ∧
    ∀ ret, s.pc = .done ret →
      (ret = -1 ∨ ret = (ptr.bytesPerFrame*received s.calls : ℕ)) ∧
      (ptr.opens = true → (∀ e ∈ es, Calm e) →
        ret = (ptr.bytesPerFrame*(bytes/ptr.bytesPerFrame) : ℕ)) := by
  have hfits := readJob_fits hbpf hbytes
  have hle : ptr.bytesPerFrame*(bytes/ptr.bytesPerFrame) ≤ bytes := Nat.mul_div_le _ _
  rcases run_cases hrun with ⟨-,rfl⟩ | ⟨⟨set,rfl,href⟩,rfl⟩ | ⟨rest,rfl,hopen,hrest⟩
  · refine ⟨gapless_nil _ _,rfl,?_⟩
    intro ret hret
    cases hret
  · refine ⟨gapless_nil _ _,rfl,?_⟩
    intro ret hret
    cases hret
    refine ⟨Or.inl rfl,?_⟩
    intro hopen hcalm
    rcases href with rfl | hclosed
    · exact ((hcalm _ List.mem_cons_self).1 rfl).elim
    · have hfalse : ptr.opens = false := hclosed
      rw [hopen] at hfalse
      cases hfalse
  · have hinv : Inv ptr.bytesPerFrame (bytes/ptr.bytesPerFrame) (start ptr bytes).top :=
      top_inv (start_account ptr bytes)
    obtain ⟨(hdone : Inv ptr.bytesPerFrame _ s),hcomplete⟩ :=
      loop_run hfits hinv (hlaw.2 _ (entry_step bytes hopen)) hrest
    have hcount := hdone.account.count
    refine ⟨hdone.account.gapless.mono hle,hcount,?_⟩
    intro ret hret
    have hbound : ptr.bytesPerFrame*received s.calls ≤ bytes :=
      (Nat.mul_le_mul_left _ (by omega)).trans hle
    have hval : ret = (ptr.bytesPerFrame*received s.calls : ℕ) :=
      (hdone.result hret).trans (toInt_eq (by unfold intMax; omega))
    refine ⟨Or.inr hval,?_⟩
    intro _ hcalm
    have hzero := hcomplete top_complete (fun e he => hcalm e (List.mem_cons_of_mem _ he)) ret hret
    have hall : received s.calls = bytes/ptr.bytesPerFrame := by omega
    rw [hval,hall]

def twoFrames : List Event :=
  [.abortFlag false,.abortFlag false,.xfer (-32),.recover 0,.abortFlag false,.xfer 1,
    .abortFlag false,.xfer 1]

theorem read_stream_gapless_two :
    ∃ s, exec (step (readJob ⟨true,0,4⟩)) (start ⟨true,0,4⟩ 9) twoFrames = .ok s ∧
      s.pc = .done 8 ∧ Gapless 4 9 s.calls := by
  have hrun : ∃ s, exec (step (readJob ⟨true,0,4⟩)) (start ⟨true,0,4⟩ 9) twoFrames = .ok s ∧
      s.pc = .done 8 := ⟨_,rfl,rfl⟩
  obtain ⟨s,hs,hpc⟩ := hrun
  have h := read_stream_gapless ⟨true,0,4⟩ 9 twoFrames s (by decide) (by decide) (by decide) hs
  exact ⟨s,hs,hpc,h.1⟩

end Alsa
end PcEnv
