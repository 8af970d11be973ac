import PcEnv.FdOp
import PcEnv.Text

/-! The two file copies, `fp_copy_file` of `fp_op.c` and `fd_cpoy_file` of `fd_op.c`. A function
that writes takes what the destination holds and returns what it holds then. -/
namespace PcEnv
namespace FileCopy

open FdOp Text Word

/-- What the calls of `fp_copy_file` come to; `fread` and `fwrite` move up to so many bytes. -/
structure FpIo where
  srcOpens : Bool
  stats : Bool
  callocs : Bool
  reads : ℕ
  dstOpens : Bool
  writes : ℕ
  deriving DecidableEq, Repr

def cString (data : List UInt8) : List UInt8 := before 0 data

/-- The block that `fp_read_file` allocates and fills, or `none` for `-1`. -/
def fpReadFile (io : FpIo) (content : List UInt8) : Option (List UInt8) :=
  if !io.srcOpens || !io.stats || !io.callocs then none
  else
    let size := content.length
    let n := min io.reads size
    if toInt n < size then none
    else some (content.take n++List.replicate (size+1-n) 0)

/-- `mode` is `"w"`, so that the destination is empty once it is open. -/
def fpWriteFile (io : FpIo) (dst data : List UInt8) : ℤ × List UInt8 :=
  if !io.dstOpens then (-1,dst)
  else
    let len := toInt (cString data).length
    if len < 1 then (-1,[])
    else
      let n := min io.writes (sizeOfInt len)
      if toInt n < len then (-1,data.take n) else (0,data.take n)

def fpCopyFile (io : FpIo) (dst content : List UInt8) : ℤ × List UInt8 :=
  match fpReadFile io content with
  | none => (-1,dst)
  | some data =>
    let (ret,dst) := fpWriteFile io dst data
    if ret < 0 then (-1,dst) else (0,dst)

structure FdIo where
  srcOpens : Bool
  callocs : Bool
  reads : List Answer
  dstOpens : Bool
  writes : List Answer
  closes : Bool
  deriving DecidableEq, Repr

/-- `un_read` counts as `un_write` does. -/
def unRead (size : ℕ) (as : List Answer) : Option Written := unWrite size 0 as

/-- The result of `fd_read_file`, and the block when it is not negative; `none` where `un_read`
does not come back. -/
def fdReadFile (io : FdIo) (content : List UInt8) : Option (ℤ × List UInt8) :=
  if !io.srcOpens || !io.callocs then some (-1,[])
  else do
    let size := content.length
    let w ← unRead size io.reads
    let ret := toInt w.count
    if ret < 0 then some (-1,[])
    else some (ret,content.take w.count++List.replicate (size+1-w.count) 0)

def written (op : Char) (dst bytes : List UInt8) : List UInt8 :=
  if op = 'a' then dst++bytes
  else if op = 'w' then bytes
  else bytes++dst.drop bytes.length

def fdWriteFile (io : FdIo) (dst buf : List UInt8) (size : ℕ) (op : Char) :
    Option (ℤ × List UInt8) :=
  if !io.dstOpens then some (-1,dst)
  else do
    let w ← unWrite size 0 io.writes
    let dst := written op dst (buf.take w.count)
    if !io.closes || w.count < size then some (-1,dst)
    else some (toInt w.count,dst)

def fdCpoyFile (io : FdIo) (dst content : List UInt8) : Option (ℤ × List UInt8) := do
  let (retSize,data) ← fdReadFile io content
  if retSize < 0 then some (-1,dst)
  else
    let (retSize,dst) ← fdWriteFile io dst data (sizeOfInt retSize) 'w'
    if retSize < 0 then some (-2,dst) else some (0,dst)

structure FpIo.Full (io : FpIo) (n : ℕ) : Prop where
  srcOpens : io.srcOpens = true
  stats : io.stats = true
  callocs : io.callocs = true
  reads : n ≤ io.reads
  dstOpens : io.dstOpens = true
  writes : n ≤ io.writes

structure FdIo.Full (io : FdIo) (n : ℕ) : Prop where
  srcOpens : io.srcOpens = true
  callocs : io.callocs = true
  reads : ∃ a as, io.reads = a::as ∧ n ≤ a.moved
  dstOpens : io.dstOpens = true
  writes : ∃ a as, io.writes = a::as ∧ n ≤ a.moved
  closes : io.closes = true

theorem unWrite_full {size n : ℕ} {as : List Answer} (h : ∃ a bs, as = a::bs ∧ n ≤ a.moved)
    (hle : size ≤ n) : ∃ bs, unWrite size 0 as = some { count := size, answers := bs } := by
  obtain ⟨a,bs,rfl,hmoved⟩ := h
  exact ⟨bs,unWrite_whole (Nat.zero_le _) (hle.trans hmoved)⟩

theorem toInt_lt {x : ℕ} (h : intMax < x) : toInt x < x := by
  have hle := toInt_le_intMax x
  omega

theorem cString_length_le (s : List UInt8) : (cString s).length ≤ s.length :=
  (List.takeWhile_sublist _).length_le

theorem cString_begins (s : List UInt8) : cString s <+: s := List.takeWhile_prefix _

theorem cString_terminated (s : List UInt8) (t : List UInt8) :
    cString (s++0::t) = cString s := before_append_cons 0 s t

theorem cString_eq_iff {s : List UInt8} : cString s = s ↔ 0 ∉ s := by
  refine ⟨?_,before_not_mem⟩
  intro h hmem
  rw [← h] at hmem
  exact not_mem_before hmem

section

variable {content : List UInt8}

theorem fpReadFile_full {io : FpIo} (h : io.Full content.length) :
    fpReadFile io content = if content.length ≤ intMax then some (content++[0]) else none := by
  have hmin : min io.reads content.length = content.length := min_eq_right h.reads
  have hone : content.length+1-content.length = 1 := by omega
  simp only [fpReadFile,h.srcOpens,h.stats,h.callocs,Bool.not_true,Bool.or_self,hmin,
    Bool.false_eq_true,if_false,List.take_length,hone,List.replicate_one]
  by_cases hle : content.length ≤ intMax
  · rw [if_pos hle,toInt_eq hle,if_neg (lt_irrefl _)]
  · rw [if_neg hle,if_pos (toInt_lt (not_le.mp hle))]

/-- `fp_copy_file` copies up to the first zero byte, and fails when there is nothing before it. -/
theorem fpCopyFile_full {io : FpIo} (h : io.Full content.length) (dst : List UInt8) :
    fpCopyFile io dst content =
      if intMax < content.length then (-1,dst)
      else if cString content = [] then (-1,[])
      else (0,cString content) := by
  rw [fpCopyFile,fpReadFile_full h]
  by_cases hbig : intMax < content.length
  · rw [if_pos hbig,if_neg (by omega)]
  · have hlen := cString_length_le content
    have hint : toInt (cString content).length = (cString content).length := toInt_eq (by omega)
    have hsize : sizeOfInt (cString content).length = (cString content).length :=
      sizeOfInt_natCast (by unfold sizeMod; unfold intMax at hbig; omega)
    have hmin : min io.writes (cString content).length = (cString content).length :=
      min_eq_right (hlen.trans h.writes)
    have htake : (content++[0]).take (cString content).length = cString content :=
      (List.prefix_iff_eq_take.mp
        ((cString_begins content).trans (List.prefix_append content [0]))).symm
    rw [if_neg hbig,if_pos (not_lt.mp hbig)]
    simp only [fpWriteFile,h.dstOpens,Bool.not_true,Bool.false_eq_true,if_false,
      cString_terminated,hint,hsize,hmin,htake,lt_irrefl]
    by_cases hnil : cString content = []
    · rw [if_pos hnil,hnil,List.length_nil,if_pos (by decide),if_pos (by decide)]
    · have hpos : 0 < (cString content).length := List.length_pos_iff.mpr hnil
      have hone : ¬ ((cString content).length : ℤ) < 1 := by omega
      rw [if_neg hnil,if_neg hone,if_neg (lt_irrefl _)]

theorem fdCpoyFile_full {io : FdIo} (h : io.Full content.length) (dst : List UInt8) :
    fdCpoyFile io dst content =
      if toInt content.length < 0 then some (-1,dst)
      else some (0,content.take (sizeOfInt (toInt content.length))) := by
  obtain ⟨rs,hread⟩ := unWrite_full h.reads (Nat.le_refl _)
  have hfile : fdReadFile io content =
      if toInt content.length < 0 then some (-1,[])
      else some (toInt content.length,content++[0]) := by
    have hone : content.length+1-content.length = 1 := by omega
    simp only [fdReadFile,h.srcOpens,h.callocs,unRead,hread,Bool.not_true,Bool.or_self,
      Bool.false_eq_true,if_false,Option.bind_eq_bind,Option.bind_some,List.take_length,hone,
      List.replicate_one]
  by_cases hneg : toInt content.length < 0
  · rw [fdCpoyFile,hfile,if_pos hneg,if_pos hneg]
    rfl
  · obtain ⟨k,hk⟩ := Int.eq_ofNat_of_zero_le (not_lt.mp hneg)
    have hle := toInt_le content.length
    have hmax := toInt_le_intMax content.length
    rw [hk] at hle hmax
    have hsize : sizeOfInt (k : ℤ) = k :=
      sizeOfInt_natCast (by unfold intMax at hmax; unfold sizeMod; omega)
    obtain ⟨ws,hwrite⟩ := unWrite_full h.writes (Int.ofNat_le.mp hle)
    have htake : (content++[0]).take k = content.take k :=
      List.take_append_of_le_length (Int.ofNat_le.mp hle)
    have hpos : ¬ (k : ℤ) < 0 := by omega
    rw [fdCpoyFile,hfile,if_neg hneg,if_neg hneg,hk]
    simp only [Option.bind_eq_bind,Option.bind_some,if_neg hpos,hsize,fdWriteFile,h.dstOpens,
      hwrite,h.closes,htake,written,Bool.not_true,Bool.false_or,Bool.false_eq_true,
      lt_irrefl,decide_false,if_false,toInt_eq (Int.ofNat_le.mp hmax)]
    rw [if_neg (by decide),if_pos trivial]

theorem fpCopyFile_faithful_iff {io : FpIo} (h : io.Full content.length) (dst : List UInt8) :
    fpCopyFile io dst content = (0,content) ↔
      content ≠ [] ∧ 0 ∉ content ∧ content.length ≤ intMax := by
  rw [fpCopyFile_full h]
  by_cases hbig : intMax < content.length
  · rw [if_pos hbig]
    exact iff_of_false (by simp) (fun h => absurd h.2.2 (by omega))
  · rw [if_neg hbig,← cString_eq_iff]
    by_cases hnil : cString content = []
    · rw [if_pos hnil]
      refine iff_of_false (by simp) ?_
      rintro ⟨hne,heq,-⟩
      exact hne (heq.symm.trans hnil)
    · rw [if_neg hnil,Prod.mk.injEq,and_iff_right rfl]
      constructor
      · intro heq
        exact ⟨heq ▸ hnil,heq,not_lt.mp hbig⟩
      · exact fun h => h.2.1

theorem fdCpoyFile_faithful_iff {io : FdIo} (h : io.Full content.length) (dst : List UInt8) :
    fdCpoyFile io dst content = some (0,content) ↔ content.length ≤ intMax := by
  rw [fdCpoyFile_full h]
  by_cases hbig : intMax < content.length
  · refine iff_of_false ?_ (by omega)
    have hlt := toInt_lt hbig
    split_ifs with hneg
    · simp
    · intro heq
      have hlen := congrArg List.length (Prod.mk.inj (Option.some.inj heq)).2
      obtain ⟨k,hk⟩ := Int.eq_ofNat_of_zero_le (not_lt.mp hneg)
      have hmax := toInt_le_intMax content.length
      rw [hk] at hlt hmax
      rw [hk,sizeOfInt_natCast (by unfold intMax at hmax; unfold sizeMod; omega),
        List.length_take] at hlen
      omega
  · have hint := toInt_eq (not_lt.mp hbig)
    have hsize : sizeOfInt content.length = content.length :=
      sizeOfInt_natCast (by unfold intMax at hbig; unfold sizeMod; omega)
    rw [hint,if_neg (by omega),hsize,List.take_length]
    exact iff_of_true rfl (not_lt.mp hbig)

end

/-- With all calls succeeding in full the two copies are faithful exactly for the contents of at
most `INT_MAX` bytes, none of them zero, that are not empty. -/
theorem copies_faithful_iff (fp : FpIo) (fd : FdIo) (content dst : List UInt8)
    (hfp : fp.Full content.length) (hfd : fd.Full content.length) :
    (fpCopyFile fp dst content = (0,content) ∧ fdCpoyFile fd dst content = some (0,content)) ↔
      content ≠ [] ∧ 0 ∉ content ∧ content.length ≤ intMax := by
  rw [fpCopyFile_faithful_iff hfp,fdCpoyFile_faithful_iff hfd]
  exact ⟨fun h => h.1,fun h => ⟨h,h.2.2⟩⟩

def fpIo : FpIo := ⟨true,true,true,8,true,8⟩
def fdIo : FdIo := ⟨true,true,[⟨8,0⟩],true,[⟨8,0⟩],true⟩

theorem fpIo_full {n : ℕ} (h : n ≤ 8) : fpIo.Full n := ⟨rfl,rfl,rfl,h,rfl,h⟩

theorem fdIo_full {n : ℕ} (h : n ≤ 8) : fdIo.Full n :=
  ⟨rfl,rfl,⟨_,_,rfl,h⟩,rfl,⟨_,_,rfl,h⟩,rfl⟩

theorem copies_faithful_iff_abc :
    fpCopyFile fpIo [] [97,98,99] = (0,[97,98,99]) ∧
      fdCpoyFile fdIo [] [97,98,99] = some (0,[97,98,99]) :=
  (copies_faithful_iff fpIo fdIo [97,98,99] [] (fpIo_full (by decide))
    (fdIo_full (by decide))).mpr (by decide)

/-- A zero byte cuts the copy of `fp_copy_file` short, and an empty file makes it fail. -/
theorem fp_copy_stops_at_nul :
    fpCopyFile fpIo [] [97,0,98] = (0,[97]) ∧
    fdCpoyFile fdIo [] [97,0,98] = some (0,[97,0,98]) ∧
    fpCopyFile fpIo [1] [] = (-1,[]) ∧ fdCpoyFile fdIo [1] [] = some (0,[]) := by decide

end FileCopy
end PcEnv
