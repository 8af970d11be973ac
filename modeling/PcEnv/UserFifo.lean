import Mathlib.Data.List.TakeWhile
import PcEnv.FdOp
import PcEnv.Framing

/-! The command fifo of `user_fifo.c` over `un_fifo_ops.c`: the frames its writers send, what they
report, and the frames its reader takes out of what one read brings. -/
namespace PcEnv
namespace UserFifo

open FdOp Framing

def fmtPrefix : UInt8 := 94
def fmtSubffix : UInt8 := 10
def pipeBuf : ℕ := 4096
def bufSize : ℕ := 1024
def availableSize : ℕ := bufSize-1-1-1

/-- What a writer returns, what the fifo has accepted, and the answers not used. -/
structure Sent where
  ret : ℤ
  fifo : List UInt8
  answers : List Answer
  deriving DecidableEq, Repr

/-- `un_fifo_ops_write`: the result is that of the last chunk. -/
def unFifoOpsWrite (fifo buf : List UInt8) (as : List Answer) : Option Sent :=
  if pipeBuf < buf.length then do
    let w ← unWrite pipeBuf 0 as
    let fifo := fifo++buf.take w.count
    if (w.count : ℤ) < 0 then some { ret := w.count, fifo := fifo, answers := w.answers }
    else unFifoOpsWrite fifo (buf.drop pipeBuf) w.answers
  else do
    let w ← unWrite buf.length 0 as
    some { ret := w.count, fifo := fifo++buf.take w.count, answers := w.answers }
termination_by buf.length
decreasing_by
  rw [List.length_drop]
  have : 0 < pipeBuf := by decide
  omega

structure UnixFifoOps where
  fd : ℤ

def cString (contex : List UInt8) : List UInt8 := contex.takeWhile (fun b => b ≠ 0)

/-- `reopen` is what `un_fifo_ops_init` returns. -/
def userFifoWriteStr (ptr : Option UnixFifoOps) (contex : List UInt8) (reopen : ℤ)
    (as : List Answer) : Option Sent :=
  match ptr with
  | none => some { ret := -1, fifo := [], answers := as }
  | some _ => do
    let w ← unFifoOpsWrite [] (cString contex) as
    if w.ret < 0 then
      if reopen < 0 then some { w with ret := -2 }
      else do
        let w ← unFifoOpsWrite w.fifo (cString contex) w.answers
        if w.ret < 0 then some { w with ret := -3 } else some { w with ret := 0 }
    else some { w with ret := 0 }

def fmtFrame (text : List UInt8) : List UInt8 := fmtPrefix::cString text++[fmtSubffix]

/-- `text` is what the format comes out as (nothing when `vsnprintf` fails). -/
def userFifoWriteFmt (ptr : Option UnixFifoOps) (text : Option (List UInt8)) (reopen : ℤ)
    (as : List Answer) : Option Sent :=
  match text with
  | none => some { ret := -1, fifo := [], answers := as }
  | some text =>
    if (text.length : ℤ) ≤ 0 then some { ret := -1, fifo := [], answers := as }
    else if availableSize ≤ text.length then some { ret := -2, fifo := [], answers := as }
    else do
      let w ← userFifoWriteStr ptr (fmtFrame text) reopen as
      if w.ret < text.length then some { w with ret := -3 } else some { w with ret := 0 }

/-- The writer comes back, with `0` exactly when the fifo has the frame and with a negative
value otherwise. -/
def Truthful (frame : List UInt8) (r : Option Sent) : Prop :=
  ∃ x, r = some x ∧ (x.ret = 0 ↔ x.fifo = frame) ∧ (x.fifo ≠ frame → x.ret < 0)

inductive TakesAll : ℕ → List Answer → Prop
  | last {n as as'} (h : n ≤ pipeBuf) (ht : Takes n as as') : TakesAll n as
  | chunk {n as as'} (h : pipeBuf < n) (ht : Takes pipeBuf as as')
      (hrest : TakesAll (n-pipeBuf) as') : TakesAll n as

theorem unFifoOpsWrite_last {fifo buf : List UInt8} {as : List Answer}
    (h : buf.length ≤ pipeBuf) :
    unFifoOpsWrite fifo buf as = (unWrite buf.length 0 as).map (fun w =>
      { ret := w.count, fifo := fifo++buf.take w.count, answers := w.answers }) := by
  rw [unFifoOpsWrite,if_neg (by omega)]
  cases unWrite buf.length 0 as <;> rfl

theorem unFifoOpsWrite_chunk {fifo buf : List UInt8} {as : List Answer} {w : Written}
    (h : pipeBuf < buf.length) (hw : unWrite pipeBuf 0 as = some w) :
    unFifoOpsWrite fifo buf as =
      unFifoOpsWrite (fifo++buf.take w.count) (buf.drop pipeBuf) w.answers := by
  have hret : ¬ (w.count : ℤ) < 0 := not_lt.mpr (Int.natCast_nonneg _)
  rw [unFifoOpsWrite,if_pos h,hw]
  simp only [Option.bind_eq_bind,Option.bind_some,if_neg hret]

/-- Whatever the kernel answers, `un_fifo_ops_write` does not fail, and it sends the whole of
`buf` only if every chunk is taken. -/
theorem unFifoOpsWrite_outcome {fifo buf : List UInt8} {as : List Answer} {x : Sent}
    (h : unFifoOpsWrite fifo buf as = some x) :
    0 ≤ x.ret ∧ ∃ sent, x.fifo = fifo++sent ∧ sent.length ≤ buf.length ∧
      (sent.length = buf.length → TakesAll buf.length as) := by
  induction hn : buf.length using Nat.strong_induction_on generalizing fifo buf as with
  | h n ih =>
    rcases le_or_gt buf.length pipeBuf with hle | hlt
    · rw [unFifoOpsWrite_last hle,Option.map_eq_some_iff] at h
      obtain ⟨w,hw,rfl⟩ := h
      refine ⟨Int.natCast_nonneg _,_,rfl,by rw [List.length_take]; omega,?_⟩
      intro hall
      rcases unWrite_cases (Nat.zero_le _) hw with ⟨-,ht⟩ | ⟨hlt,-⟩
      · exact hn ▸ .last hle ht
      · rw [List.length_take] at hall
        omega
    · obtain ⟨w,hw⟩ : ∃ w, unWrite pipeBuf 0 as = some w := by
        rw [unFifoOpsWrite,if_pos hlt] at h
        cases hw : unWrite pipeBuf 0 as with
        | none => simp [hw] at h
        | some w => exact ⟨w,rfl⟩
      have hpos : 0 < pipeBuf := by decide
      rw [unFifoOpsWrite_chunk hlt hw] at h
      obtain ⟨hret,sent,hfifo,hlen,hall⟩ :=
        ih (n-pipeBuf) (by omega) h (by rw [List.length_drop,hn])
      refine ⟨hret,buf.take w.count++sent,by rw [hfifo,List.append_assoc],?_,?_⟩
      · rcases unWrite_cases (Nat.zero_le _) hw with ⟨hc,-⟩ | ⟨hc,-⟩
        all_goals
          rw [List.length_append,List.length_take]
          omega
      · intro hsent
        rw [List.length_append,List.length_take] at hsent
        rcases unWrite_cases (Nat.zero_le _) hw with ⟨hc,ht⟩ | ⟨hc,-⟩
        · exact .chunk (by omega) ht (hall (by omega))
        · omega

theorem unFifoOpsWrite_takes {n : ℕ} {fifo buf : List UInt8} {as : List Answer}
    (h : TakesAll n as) (hn : buf.length = n) :
    ∃ x, unFifoOpsWrite fifo buf as = some x ∧ x.fifo = fifo++buf := by
  induction h generalizing fifo buf with
  | last hle ht =>
    subst hn
    rw [unFifoOpsWrite_last hle,unWrite_takes (Nat.zero_le _) ht]
    exact ⟨_,rfl,congrArg (fifo++·) List.take_length⟩
  | chunk hlt ht _ ih =>
    subst hn
    rw [unFifoOpsWrite_chunk hlt (unWrite_takes (Nat.zero_le _) ht)]
    obtain ⟨x,hx,hfifo⟩ : ∃ x, unFifoOpsWrite (fifo++buf.take pipeBuf) _ _ = some x ∧ _ :=
      ih (List.length_drop ..)
    exact ⟨x,hx,by rw [hfifo,List.append_assoc,List.take_append_drop]⟩

/-- The branches that open the fifo again are never taken. -/
theorem userFifoWriteStr_eq (p : UnixFifoOps) (contex : List UInt8) (reopen : ℤ)
    (as : List Answer) :
    userFifoWriteStr (some p) contex reopen as =
      (unFifoOpsWrite [] (cString contex) as).map (fun w => { w with ret := 0 }) := by
  cases h : unFifoOpsWrite [] (cString contex) as with
  | none => simp [userFifoWriteStr,h]
  | some w =>
    have hret := (unFifoOpsWrite_outcome h).1
    simp [userFifoWriteStr,h,not_lt.mpr hret]

theorem cString_fmtFrame (text : List UInt8) : cString (fmtFrame text) = fmtFrame text := by
  rw [cString,List.takeWhile_eq_self_iff]
  intro b hb
  simp only [fmtFrame,List.cons_append,List.mem_cons,List.mem_append,List.not_mem_nil,
    or_false] at hb
  rcases hb with rfl | hb | rfl
  · decide
  · have hb' := List.mem_takeWhile_imp hb
    exact hb'
  · decide

theorem fmtFrame_length (text : List UInt8) :
    0 < (fmtFrame text).length ∧ (fmtFrame text).length ≤ text.length+2 := by
  have h : (cString text).length ≤ text.length := (List.takeWhile_sublist _).length_le
  simp only [fmtFrame,List.cons_append,List.length_cons,List.length_append,List.length_nil]
  omega

theorem userFifoWriteFmt_eq (p : UnixFifoOps) {text : List UInt8} (reopen : ℤ)
    (as : List Answer) (hpos : 0 < text.length) (hlt : text.length < availableSize) :
    userFifoWriteFmt (some p) (some text) reopen as =
      (unFifoOpsWrite [] (fmtFrame text) as).map (fun w => { w with ret := -3 }) := by
  have hlen : ¬ (text.length : ℤ) ≤ 0 := by omega
  rw [userFifoWriteFmt,if_neg hlen,if_neg (by omega),userFifoWriteStr_eq,cString_fmtFrame]
  cases unFifoOpsWrite [] (fmtFrame text) as with
  | none => rfl
  | some w => exact if_pos (by simpa using hpos)

theorem writeStr_truthful_iff (p : UnixFifoOps) (contex : List UInt8) (reopen : ℤ)
    (as : List Answer) :
    Truthful (cString contex) (userFifoWriteStr (some p) contex reopen as) ↔
      TakesAll (cString contex).length as := by
  rw [userFifoWriteStr_eq]
  constructor
  · rintro ⟨x,hx,hret,-⟩
    obtain ⟨w,hw,rfl⟩ := Option.map_eq_some_iff.mp hx
    obtain ⟨-,sent,hfifo,-,hall⟩ := unFifoOpsWrite_outcome hw
    have hframe : w.fifo = cString contex := hret.mp rfl
    rw [List.nil_append] at hfifo
    exact hall (by rw [← hfifo,hframe])
  · intro h
    obtain ⟨w,hw,hfifo⟩ : ∃ w, unFifoOpsWrite [] (cString contex) as = some w ∧ _ :=
      unFifoOpsWrite_takes h rfl
    rw [hw]
    exact ⟨_,rfl,iff_of_true rfl hfifo,fun hne => absurd hfifo hne⟩

theorem writeFmt_truthful_iff (p : UnixFifoOps) (text : List UInt8) (reopen : ℤ)
    (as : List Answer) (hpos : 0 < text.length) (hlt : text.length < availableSize) :
    Truthful (fmtFrame text) (userFifoWriteFmt (some p) (some text) reopen as) ↔
      ∃ as', Refuses (fmtFrame text).length as as' := by
  have hsize := fmtFrame_length text
  have hlast : (fmtFrame text).length ≤ pipeBuf := by
    simp only [availableSize,bufSize] at hlt
    rw [pipeBuf]
    omega
  rw [userFifoWriteFmt_eq p reopen as hpos hlt,unFifoOpsWrite_last hlast]
  constructor
  · rintro ⟨x,hx,hret,-⟩
    obtain ⟨y,hy,rfl⟩ := Option.map_eq_some_iff.mp hx
    obtain ⟨w,hw,rfl⟩ := Option.map_eq_some_iff.mp hy
    rcases unWrite_cases (Nat.zero_le _) hw with ⟨hc,-⟩ | ⟨-,hr⟩
    · have hfalse : (-3 : ℤ) = 0 := hret.mpr (by rw [hc,List.take_length,List.nil_append])
      omega
    · exact ⟨_,hr⟩
  · rintro ⟨as',hr⟩
    obtain ⟨n,hn,hw⟩ : ∃ n < (fmtFrame text).length, unWrite (fmtFrame text).length 0 as = _ :=
      unWrite_refuses (Nat.zero_le _) hr
    have hne : []++(fmtFrame text).take n ≠ fmtFrame text := by
      intro h
      have hlen := congrArg List.length h
      rw [List.nil_append,List.length_take,Nat.min_eq_left hn.le] at hlen
      omega
    rw [hw]
    exact ⟨_,rfl,iff_of_false (by simp) hne,fun _ => by simp⟩

/-- What the writers report is true exactly when `user_fifo_write_str` met with a kernel that
takes everything, and `user_fifo_write_fmt` with one that does not. -/
theorem writers_truthful_iff (p : UnixFifoOps) (reopen : ℤ) (as : List Answer) :
    (∀ contex, Truthful (cString contex) (userFifoWriteStr (some p) contex reopen as) ↔
      TakesAll (cString contex).length as) ∧
    ∀ text, 1 ≤ text.length → text.length ≤ 1020 →
      (Truthful (fmtFrame text) (userFifoWriteFmt (some p) (some text) reopen as) ↔
        ∃ as', Refuses (fmtFrame text).length as as') := by
  refine ⟨fun contex => writeStr_truthful_iff p contex reopen as,?_⟩
  intro text hpos hle
  exact writeFmt_truthful_iff p text reopen as hpos (Nat.lt_succ_of_le hle)

theorem writers_truthful_iff_two :
    ¬ Truthful [94,97,10] (userFifoWriteStr (some ⟨3⟩) [94,97,10] 0 [⟨2,0⟩]) ∧
    Truthful (fmtFrame [97]) (userFifoWriteFmt (some ⟨3⟩) (some [97]) 0 [⟨2,0⟩]) := by
  have h := writers_truthful_iff ⟨3⟩ 0 [⟨2,0⟩]
  constructor
  · intro ht
    have htakes := (h.1 [94,97,10]).mp ht
    cases htakes with
    | last hle ht =>
      cases ht with
      | whole h => simp [cString] at h
      | part h he => simp [eintr] at he
    | chunk hlt => exact absurd hlt (by decide)
  · exact (h.2 [97] (by decide) (by decide)).mpr ⟨[],.short (by decide) (by decide)⟩

/-- `user_fifo_write_str` returns `0` with a byte missing, `user_fifo_write_fmt` returns `-3`
with the whole frame sent. -/
theorem writers_lie :
    (∃ x, userFifoWriteStr (some ⟨3⟩) [94,97,10] 0 [⟨2,0⟩] = some x ∧ x.ret = 0 ∧
      x.fifo = [94,97]) ∧
    ¬ Truthful [94,97,10] (userFifoWriteStr (some ⟨3⟩) [94,97,10] 0 [⟨2,0⟩]) ∧
    (∃ x, userFifoWriteFmt (some ⟨3⟩) (some [97]) 0 [⟨3,0⟩] = some x ∧ x.ret = -3 ∧
      x.fifo = fmtFrame [97]) ∧
    ¬ Truthful (fmtFrame [97]) (userFifoWriteFmt (some ⟨3⟩) (some [97]) 0 [⟨3,0⟩]) := by
  have hstr : userFifoWriteStr (some ⟨3⟩) [94,97,10] 0 [⟨2,0⟩] =
      some { ret := 0, fifo := [94,97], answers := [] } := by
    rw [userFifoWriteStr_eq,unFifoOpsWrite_last (by decide)]
    rfl
  have hfmt : userFifoWriteFmt (some ⟨3⟩) (some [97]) 0 [⟨3,0⟩] =
      some { ret := -3, fifo := fmtFrame [97], answers := [] } := by
    rw [userFifoWriteFmt_eq _ _ _ (by decide) (by decide),unFifoOpsWrite_last (by decide)]
    rfl
  rw [hstr,hfmt]
  refine ⟨⟨_,rfl,rfl,rfl⟩,?_,⟨_,rfl,rfl,rfl⟩,?_⟩
  · rintro ⟨x,hx,hret,-⟩
    cases hx
    exact absurd (hret.mp rfl) (by decide)
  · rintro ⟨x,hx,hret,-⟩
    cases hx
    exact absurd (hret.mpr rfl) (by decide)

/-- A call of `handle`: what its first argument points at, to the end of what was read, and its
second argument. -/
structure Call where
  buf : List UInt8
  len : ℕ
  deriving DecidableEq, Repr

def Call.text (c : Call) : List UInt8 := c.buf.take c.len

/-- The calls of `handle` for what one read has brought; `s` is what follows
`idx+FMT_SUBFFIX_LEN`. -/
def handlePiece (s : List UInt8) : List Call :=
  match _h : s.idxOf? fmtPrefix with
  | none => []
  | some cmd =>
    let buf := s.drop (cmd+1)
    match buf.idxOf? fmtSubffix with
    | none => []
    | some len => { buf := buf, len := len }::handlePiece (buf.drop (len+1))
termination_by s.length
decreasing_by
  have hpos : 0 < s.length := List.length_pos_iff.mpr (fun hnil => by simp [hnil] at _h)
  simp only [List.length_drop]
  omega

/-- `user_fifo_read_proc` on what the calls of `un_read` bring. -/
def userFifoReadProc (stream : List UInt8) (as : List Answer) : List Call :=
  (unReads bufSize [] stream as).pieces.flatMap handlePiece

theorem handlePiece_text (s : List UInt8) :
    (handlePiece s).map (fun c => fmtPrefix::c.text) = frames fmtPrefix fmtSubffix s := by
  fun_induction handlePiece s with
  | case1 s h =>
    have hskip : frames fmtPrefix fmtSubffix (s++[]) = _ :=
      frames_skip [] (List.idxOf?_eq_none_iff.mp h)
    rw [List.append_nil] at hskip
    exact hskip.symm
  | case2 s cmd h buf hlen =>
    obtain ⟨-,hs,hnot⟩ := split_idxOf? h
    have hopen : frames fmtPrefix fmtSubffix (fmtPrefix::buf) = [] :=
      frames_open (List.idxOf?_eq_none_iff.mp hlen)
    rw [hs,frames_skip _ hnot,hopen]
    rfl
  | case3 s cmd h buf len hlen ih =>
    obtain ⟨-,hs,hnot⟩ := split_idxOf? h
    obtain ⟨-,hbuf,hend⟩ := split_idxOf? hlen
    have hframe : frames fmtPrefix fmtSubffix (fmtPrefix::buf) =
        (fmtPrefix::buf.take len)::frames fmtPrefix fmtSubffix (buf.drop (len+1)) := by
      rw [← frames_frame _ hend,List.cons_append,← hbuf]
    rw [hs,frames_skip _ hnot,hframe,← ih]
    rfl

theorem handlePiece_len (s : List UInt8) : ∀ c ∈ handlePiece s, c.text.length = c.len := by
  fun_induction handlePiece s with
  | case1 s h => simp
  | case2 s cmd h buf hlen => simp
  | case3 s cmd h buf len hlen ih =>
    have hlt : len < buf.length := (List.idxOf?_eq_some_iff.mp hlen).1
    simp only [List.mem_cons,forall_eq_or_imp]
    exact ⟨List.length_take_of_le hlt.le,ih⟩

def HandledAll (msgs : List (List UInt8)) (calls : List Call) : Prop :=
  calls.map (fun c => (c.text,c.len)) = msgs.map (fun m => (m,m.length))

theorem handledAll_iff (msgs pieces : List (List UInt8)) :
    HandledAll msgs (pieces.flatMap handlePiece) ↔
      pieces.flatMap (frames fmtPrefix fmtSubffix) = msgs.map (fun m => fmtPrefix::m) := by
  have hframes : pieces.flatMap (frames fmtPrefix fmtSubffix) =
      ((pieces.flatMap handlePiece).map Call.text).map (fun t => fmtPrefix::t) := by
    rw [List.map_map,List.map_flatMap]
    exact congrArg (pieces.flatMap) (funext (fun p => (handlePiece_text p).symm))
  have hlen : ∀ c ∈ pieces.flatMap handlePiece, c.text.length = c.len := by
    intro c hc
    obtain ⟨p,-,hp⟩ := List.mem_flatMap.mp hc
    exact handlePiece_len p c hp
  have hpairs : (pieces.flatMap handlePiece).map (fun c => (c.text,c.len)) =
      ((pieces.flatMap handlePiece).map Call.text).map (fun t => (t,t.length)) := by
    rw [List.map_map]
    exact List.map_congr_left (fun c hc => by simp [hlen c hc])
  have hcons : Function.Injective (fun t : List UInt8 => fmtPrefix::t) :=
    fun t u h => (List.cons.inj h).2
  have hpair : Function.Injective (fun t : List UInt8 => (t,t.length)) :=
    fun t u h => (Prod.mk.inj h).1
  rw [HandledAll,hpairs,hframes,(List.map_injective_iff.mpr hpair).eq_iff,
    (List.map_injective_iff.mpr hcons).eq_iff]

/-- Every message is handled, once, in order and with its text and length, exactly when each
call of `un_read` brings whole frames. -/
theorem delivers_iff (msgs : List (List UInt8)) (as : List Answer)
    (hm : ∀ m ∈ msgs, fmtPrefix ∉ m ∧ fmtSubffix ∉ m)
    (hread : (unReads bufSize [] (stream fmtPrefix fmtSubffix msgs) as).rest = []) :
    HandledAll msgs (userFifoReadProc (stream fmtPrefix fmtSubffix msgs) as) ↔
      (unReads bufSize [] (stream fmtPrefix fmtSubffix msgs) as).buf = [] ∧
      ∃ groups : List (List (List UInt8)), groups.flatten = msgs ∧
        (unReads bufSize [] (stream fmtPrefix fmtSubffix msgs) as).pieces =
          groups.map (stream fmtPrefix fmtSubffix) := by
  rw [userFifoReadProc,handledAll_iff]
  constructor
  · intro hall
    have hcut := unReads_flatten bufSize [] (stream fmtPrefix fmtSubffix msgs) as
    rw [hread,List.append_nil,List.nil_append] at hcut
    exact pieces_whole (by decide) hm hcut.symm hall
  · rintro ⟨-,groups,rfl,hpieces⟩
    rw [hpieces]
    exact frames_groups (fun m h => (hm m h).2)

theorem delivers_iff_two :
    HandledAll [[97],[98]] (userFifoReadProc (stream fmtPrefix fmtSubffix [[97],[98]])
      [⟨3,0⟩,⟨3,0⟩]) :=
  (delivers_iff [[97],[98]] [⟨3,0⟩,⟨3,0⟩] (by decide) (by decide)).mpr
    ⟨by decide,[[[97]],[[98]]],by decide,by decide⟩

/-- A frame that is cut in two is not handled. -/
theorem cut_frame_is_lost :
    (unReads bufSize [] (stream fmtPrefix fmtSubffix [[97],[98]]) [⟨4,0⟩,⟨2,0⟩]).pieces =
      [[94,97,10,94],[98,10]] ∧
    userFifoReadProc (stream fmtPrefix fmtSubffix [[97],[98]]) [⟨4,0⟩,⟨2,0⟩] =
      [{ buf := [97,10,94], len := 1 }] ∧
    ¬ HandledAll [[97],[98]]
      (userFifoReadProc (stream fmtPrefix fmtSubffix [[97],[98]]) [⟨4,0⟩,⟨2,0⟩]) := by
  have hpieces : (unReads bufSize [] (stream fmtPrefix fmtSubffix [[97],[98]])
      [⟨4,0⟩,⟨2,0⟩]).pieces = [[94,97,10,94],[98,10]] := by decide
  have hcalls : userFifoReadProc (stream fmtPrefix fmtSubffix [[97],[98]]) [⟨4,0⟩,⟨2,0⟩] =
      [{ buf := [97,10,94], len := 1 }] := by
    rw [userFifoReadProc,hpieces]
    decide +kernel
  refine ⟨hpieces,hcalls,?_⟩
  rw [hcalls]
  simp [HandledAll]

end UserFifo
end PcEnv
