import PcEnv.Block
import PcEnv.Word

/-! `BinSplit`, which cuts a stream of NAL units at their headers.
The file is read in parts of `bytesPerRead` bytes to `mBuf`, whose fresh bytes are whatever the
heap held. -/
namespace PcEnv
namespace BinSplit

open Runs Circular Word

structure NaluHead where
  data : List UInt8
  preSize : ℕ
  deriving DecidableEq, Repr

/-- `{0,0,0,1}` and then `{0,0,1}`, as `BinSplit_main` sets them up. -/
def longNh : List UInt8 := [0,0,0,1]
def shortNh : List UInt8 := [0,0,1]
def mNuhVct : List NaluHead := [⟨longNh,0⟩,⟨shortNh,0⟩]

def getMaxNaluhSzie (nuhVct : List NaluHead) : ℕ :=
  nuhVct.foldl (fun max nuh => if max < nuh.data.length then nuh.data.length else max) 0

/-- The variables of `RunSplit` and the members it changes; `findStartAddr` is an offset in
`mBuf`. -/
structure Split where
  mBuf : Block
  nuhVct : List NaluHead
  mOldNuh : NaluHead
  mNewNuh : NaluHead
  mMaxNuh : NaluHead
  mFileIdx : ℕ
  findStartIdx : ℕ
  foundBytes : ℕ
  findStartAddr : ℕ
  nuSizeVct : List ℕ

/-- `checkAndPreread`: the first header that the file begins with. A file shorter than the
longest header leaves the rest of `buf` as it was. -/
def checkAndPreread (nuhVct : List NaluHead) (file : List UInt8) (heap : ℕ → UInt8) :
    Option NaluHead :=
  let buf := patch heap 0 (file.take (getMaxNaluhSzie nuhVct))
  nuhVct.find? (fun nuh => span buf 0 nuh.data.length = nuh.data)

inductive MatchEnd
  | found (count : ℕ)
  | stopped (i : ℤ) (count : ℕ)

def matchRun (mBuf : Block) (bufEnd : ℕ) : List UInt8 → ℤ → ℕ → Except Halt MatchEnd
  | [],_,_ => .error .fault
  | d::data,i,count =>
    match mBuf.load (bufEnd-i).toNat with
    | .error h => .error h
    | .ok b =>
      if d = b then
        if i = 1 then .ok (.found (count+1)) else matchRun mBuf bufEnd data (i-1) (count+1)
      else .ok (.stopped i count)

/-- The outer loop; `i` falls in each of its at most `nuh->size` turns. -/
def preSizeFrom (mBuf : Block) (bufEnd : ℕ) (data : List UInt8) : ℕ → ℤ → ℕ → Except Halt ℕ
  | 0,_,_ => .ok 0
  | n+1,i,count =>
    if i < 0 then .ok 0
    else
      match matchRun mBuf bufEnd data i count with
      | .error h => .error h
      | .ok (.found count) => .ok count
      | .ok (.stopped i count) => preSizeFrom mBuf bufEnd data n (i-1) count

/-- `i` starts at `(int)(nuh->size-1)`. -/
def getPreSize (mBuf : Block) (bufEnd : ℕ) (nuh : NaluHead) : Except Halt NaluHead :=
  match preSizeFrom mBuf bufEnd nuh.data nuh.data.length (toInt (sizeSub nuh.data.length 1)) 0 with
  | .error h => .error h
  | .ok preSize => .ok { nuh with preSize := preSize }

def updateMaxNuh (mBuf : Block) (bufEnd : ℕ) (nuhVct : List NaluHead) :
    Except Halt (List NaluHead) :=
  nuhVct.mapM (getPreSize mBuf bufEnd)

/-- The first of the headers with the largest `preSize`. -/
def maxNuh (nuhVct : List NaluHead) (first : NaluHead) : NaluHead :=
  nuhVct.foldl (fun max nuh => if max.preSize < nuh.preSize then nuh else max) first

def memmem (data : List UInt8) : List UInt8 → Option ℕ
  | [] => if data = [] then some 0 else none
  | b::buf => if data <+: b::buf then some 0 else (memmem data buf).map (fun k => k+1)

/-- The first header, in the order of `nuhVct`, that occurs in `buf`, and its first place. -/
def findNextNalu (nuhVct : List NaluHead) (buf : List UInt8) : Option (ℕ × NaluHead) :=
  nuhVct.findSome? (fun nuh => (memmem nuh.data buf).map (fun k => (k,nuh)))

def buffered (s : Split) : Except Halt (List UInt8) :=
  let size := sizeSub s.mFileIdx s.findStartIdx
  if s.findStartAddr+size ≤ s.mBuf.size then .ok (span s.mBuf.byte s.findStartAddr size)
  else .error .fault

def found (s : Split) (k : ℕ) (nuh : NaluHead) : Split :=
  { s with
    mOldNuh := s.mNewNuh
    mNewNuh := nuh
    nuSizeVct := s.nuSizeVct++[sizeAdd (sizeAdd s.foundBytes k) s.mNewNuh.data.length]
    findStartIdx := sizeAdd s.findStartIdx (k+nuh.data.length)
    findStartAddr := s.findStartAddr+k+nuh.data.length
    foundBytes := 0 }

/-- No header is left in the buffer: what may be the beginning of one is carried over. -/
def carryOver (s : Split) (readedBytes : ℕ) : Except Halt Split :=
  match updateMaxNuh s.mBuf (s.findStartAddr+readedBytes) s.nuhVct with
  | .error h => .error h
  | .ok [] => .error .fault
  | .ok (first::nuhs) =>
    let mMaxNuh := maxNuh (first::nuhs) first
    let newFoundBytes := sizeSub (sizeSub s.mFileIdx s.findStartIdx) mMaxNuh.preSize
    .ok { s with
      mBuf := { s.mBuf with byte := patch s.mBuf.byte 0 (mMaxNuh.data.take mMaxNuh.preSize) }
      nuhVct := first::nuhs
      mMaxNuh := mMaxNuh
      foundBytes := sizeAdd s.foundBytes newFoundBytes
      findStartIdx := sizeAdd s.findStartIdx newFoundBytes
      findStartAddr := 0 }

def searchBuf (readedBytes : ℕ) : ℕ → Split → Except Halt Split
  | 0,_ => .error .blocked
  | fuel+1,s =>
    match buffered s with
    | .error h => .error h
    | .ok buf =>
      match findNextNalu s.nuhVct buf with
      | none => carryOver s readedBytes
      | some (k,nuh) => searchBuf readedBytes fuel (found s k nuh)

/-- `fread` to `mBuf+mMaxNuh->preSize`. -/
def fread (s : Split) (bytes : List UInt8) : Except Halt Split :=
  if s.mMaxNuh.preSize+bytes.length ≤ s.mBuf.size then
    .ok { s with
      mBuf := { s.mBuf with byte := patch s.mBuf.byte s.mMaxNuh.preSize bytes }
      mFileIdx := s.mFileIdx+bytes.length }
  else .error .fault

/-- `RunSplit`; a read that comes back short has met the end of the file. -/
def runSplit (bytesPerRead : ℕ) (file : List UInt8) : ℕ → Split → Except Halt (List ℕ)
  | 0,_ => .error .blocked
  | fuel+1,s =>
    let bytes := (file.drop s.mFileIdx).take bytesPerRead
    let readedBytes := intOf bytes.length
    match fread s bytes with
    | .error h => .error h
    | .ok s =>
      if bytes.length < bytesPerRead then
        let foundBytes := sizeAdd s.foundBytes (sizeSub s.mFileIdx s.findStartIdx)
        .ok (s.nuSizeVct++[sizeAdd foundBytes s.mNewNuh.data.length])
      else if readedBytes < bytesPerRead then .ok s.nuSizeVct
      else
        match searchBuf readedBytes (s.mBuf.size+1) s with
        | .error h => .error h
        | .ok s => runSplit bytesPerRead file fuel s

/-- What `RunSplit` starts with when the file begins with `nuh`. -/
def start (bytesPerRead : ℕ) (nuhVct : List NaluHead) (nuh : NaluHead) (heap : ℕ → UInt8) :
    Split :=
  { mBuf := { size := sizeAdd bytesPerRead (getMaxNaluhSzie nuhVct), byte := heap }
    nuhVct := nuhVct
    mOldNuh := nuh
    mNewNuh := nuh
    mMaxNuh := nuh
    mFileIdx := 0
    findStartIdx := nuh.data.length
    foundBytes := 0
    findStartAddr := nuh.data.length
    nuSizeVct := [] }

/-- The constructor: what is in `nuSizeVct` after it. `heap` and `fresh` are what the two
buffers hold when they are allocated. -/
def binSplit (bytesPerRead : ℕ) (nuhVct : List NaluHead) (file : List UInt8)
    (heap fresh : ℕ → UInt8) : Except Halt (List ℕ) :=
  match checkAndPreread nuhVct file fresh with
  | none => .ok []
  | some nuh => runSplit bytesPerRead file (file.length+1) (start bytesPerRead nuhVct nuh heap)

def MatchAt (nuhVct : List NaluHead) (file : List UInt8) (p : ℕ) (nuh : NaluHead) : Prop :=
  nuh ∈ nuhVct ∧ nuh.data <+: file.drop p

def LongestAt (nuhVct : List NaluHead) (file : List UInt8) (p : ℕ) (nuh : NaluHead) : Prop :=
  MatchAt nuhVct file p nuh ∧
    ∀ nuh', MatchAt nuhVct file p nuh' → nuh'.data.length ≤ nuh.data.length

/-- What follows a unit that begins at `p`: the beginnings of the later ones, each the smallest
place after the header before it at which there is a header, and the end of the file. -/
inductive Starts (nuhVct : List NaluHead) (file : List UInt8) : ℕ → List ℕ → Prop
  | last {p} {nuh : NaluHead} (hp : LongestAt nuhVct file p nuh)
      (hnone : ∀ q nuh', p+nuh.data.length ≤ q → ¬ MatchAt nuhVct file q nuh') :
      Starts nuhVct file p [file.length]
  | next {p q ps} {nuh nuh' : NaluHead} (hp : LongestAt nuhVct file p nuh) (hle : p+nuh.data.length ≤ q)
      (hq : MatchAt nuhVct file q nuh')
      (hmin : ∀ r nuh', p+nuh.data.length ≤ r → r < q → ¬ MatchAt nuhVct file r nuh')
      (hrest : Starts nuhVct file q ps) : Starts nuhVct file p (q::ps)

/-- The partial sums of the sizes are where the units begin, and the end of the file. -/
def Reports (nuhVct : List NaluHead) (file : List UInt8) (sizes : List ℕ) : Prop :=
  ∃ ps, Starts nuhVct file 0 ps ∧ sizes.scanl (fun a b => a+b) 0 = 0::ps

theorem memmem_place {data buf : List UInt8} {k : ℕ} (h : memmem data buf = some k) :
    data <+: buf.drop k := by
  induction buf generalizing k with
  | nil =>
    simp only [memmem] at h
    split_ifs at h with hd
    simp [hd]
  | cons b buf ih =>
    simp only [memmem] at h
    split_ifs at h with hd
    · cases h
      exact hd
    · obtain ⟨j,hj,rfl⟩ := Option.map_eq_some_iff.mp h
      exact ih hj

theorem findNextNalu_bound {nuhVct : List NaluHead} {buf : List UInt8} {k : ℕ} {nuh : NaluHead}
    (hpos : ∀ nuh ∈ nuhVct, nuh.data ≠ []) (h : findNextNalu nuhVct buf = some (k,nuh)) :
    nuh ∈ nuhVct ∧ k+nuh.data.length ≤ buf.length := by
  obtain ⟨nuh',hmem,hfind⟩ := List.exists_of_findSome?_eq_some h
  obtain ⟨j,hj,hjk⟩ := Option.map_eq_some_iff.mp hfind
  cases hjk
  refine ⟨hmem,?_⟩
  have hle := (memmem_place hj).length_le
  have hlen := List.length_pos_iff.mpr (hpos nuh hmem)
  rw [List.length_drop] at hle
  omega

/-- From the end `e` the search for a beginning of the long header runs past the block. -/
def Overruns (mBuf : Block) (e : ℕ) : Prop :=
  mBuf.size+2 ≤ e ∨
  (e = mBuf.size ∧ ∀ k < 3, mBuf.byte (e-3+k) ≠ 0) ∨
  (e+1 = mBuf.size ∧ (∀ k < 3, mBuf.byte (e-3+k) ≠ 0) ∧ mBuf.byte e = 0)

theorem load_fault {b : Block} {i : ℕ} (h : b.size ≤ i) : b.load i = .error .fault :=
  if_neg (by omega)

section

variable {mBuf : Block} {e n count : ℕ} {i : ℤ} {d d' : UInt8} {data : List UInt8}

theorem preSizeFrom_fault (hi : 0 ≤ i) (hle : mBuf.size ≤ (e-i).toNat) :
    preSizeFrom mBuf e (d::data) (n+1) i count = .error .fault := by
  simp only [preSizeFrom,if_neg (not_lt.mpr hi),matchRun,load_fault hle]

theorem preSizeFrom_stopped (hi : 0 ≤ i) (hlt : (e-i).toNat < mBuf.size)
    (hd : d ≠ mBuf.byte (e-i).toNat) :
    preSizeFrom mBuf e (d::data) (n+1) i count = preSizeFrom mBuf e (d::data) n (i-1) count := by
  simp only [preSizeFrom,if_neg (not_lt.mpr hi),matchRun,Block.load_ok hlt,if_neg hd]

theorem preSizeFrom_matched (hi : 0 ≤ i) (hone : i ≠ 1) (hlt : (e-i).toNat < mBuf.size)
    (hd : d = mBuf.byte (e-i).toNat) (hle : mBuf.size ≤ (e-(i-1)).toNat) :
    preSizeFrom mBuf e (d::d'::data) (n+1) i count = .error .fault := by
  simp only [preSizeFrom,if_neg (not_lt.mpr hi),matchRun,Block.load_ok hlt,if_pos hd,if_neg hone,
    load_fault hle]

end

theorem getPreSize_fault {mBuf : Block} {e preSize : ℕ} (h : Overruns mBuf e) (he : 4 ≤ e) :
    getPreSize mBuf e ⟨longNh,preSize⟩ = .error .fault := by
  have hall : preSizeFrom mBuf e longNh 4 3 0 = .error .fault := by
    have h3 : ((e : ℤ)-3).toNat = e-3+0 := by omega
    have h2 : ((e : ℤ)-(3-1)).toNat = e-3+1 := by omega
    have h1 : ((e : ℤ)-(3-1-1)).toNat = e-3+2 := by omega
    have h0 : ((e : ℤ)-(3-1-1-1)).toNat = e := by omega
    have hend : ((e : ℤ)-(3-1-1-1-1)).toNat = e+1 := by omega
    rw [longNh]
    rcases h with hfar | ⟨hsize,hne⟩ | ⟨hsize,hne,hzero⟩
    · rcases le_or_gt mBuf.size (e-3) with hle | hlt
      · exact preSizeFrom_fault (by omega) (by omega)
      · by_cases hb : 0 = mBuf.byte ((e : ℤ)-3).toNat
        · exact preSizeFrom_matched (by omega) (by omega) (by omega) hb (by omega)
        · rw [preSizeFrom_stopped (by omega) (by omega) hb]
          exact preSizeFrom_fault (by omega) (by omega)
    · rw [preSizeFrom_stopped (by omega) (by omega) (h3 ▸ (hne 0 (by omega)).symm),
        preSizeFrom_stopped (by omega) (by omega) (h2 ▸ (hne 1 (by omega)).symm),
        preSizeFrom_stopped (by omega) (by omega) (h1 ▸ (hne 2 (by omega)).symm)]
      exact preSizeFrom_fault (by omega) (by omega)
    · rw [preSizeFrom_stopped (by omega) (by omega) (h3 ▸ (hne 0 (by omega)).symm),
        preSizeFrom_stopped (by omega) (by omega) (h2 ▸ (hne 1 (by omega)).symm),
        preSizeFrom_stopped (by omega) (by omega) (h1 ▸ (hne 2 (by omega)).symm)]
      exact preSizeFrom_matched (by omega) (by omega) (by omega) (h0 ▸ hzero.symm) (by omega)
  have hstart : toInt (sizeSub longNh.length 1) = 3 := by decide
  have hfrom : preSizeFrom mBuf e longNh longNh.length 3 0 = .error .fault := hall
  simp only [getPreSize,hstart,hfrom]

theorem carryOver_fault {s : Split} {readedBytes : ℕ} (hvct : s.nuhVct = mNuhVct)
    (hover : Overruns s.mBuf (s.findStartAddr+readedBytes))
    (hend : 4 ≤ s.findStartAddr+readedBytes) : carryOver s readedBytes = .error .fault := by
  have hupdate : updateMaxNuh s.mBuf (s.findStartAddr+readedBytes) mNuhVct = .error .fault := by
    rw [updateMaxNuh,mNuhVct,List.mapM_cons,getPreSize_fault hover hend]
    rfl
  simp only [carryOver,hvct,hupdate]

theorem mem_mNuhVct {nuh : NaluHead} (h : nuh ∈ mNuhVct) :
    nuh = ⟨longNh,0⟩ ∨ nuh = ⟨shortNh,0⟩ := by
  simpa only [mNuhVct,List.mem_cons,List.not_mem_nil,or_false] using h

theorem mNuhVct_length {nuh : NaluHead} (h : nuh ∈ mNuhVct) :
    3 ≤ nuh.data.length ∧ nuh.data.length ≤ 4 := by
  rcases mem_mNuhVct h with rfl | rfl <;> decide

/-- Once a whole part has been read, the search ends at `updateMaxNuh`, which is told that
`readedBytes` bytes follow `findStartAddr`. -/
theorem searchBuf_fault {bytesPerRead readedBytes fuel : ℕ} {s : Split}
    (hvct : s.nuhVct = mNuhVct) (hsize : s.mBuf.size = bytesPerRead+4)
    (hidx : s.mFileIdx = bytesPerRead) (haddr : s.findStartAddr = s.findStartIdx)
    (hlow : 3 ≤ s.findStartIdx) (hhigh : s.findStartIdx ≤ bytesPerRead)
    (hmax : bytesPerRead < sizeMod) (hread : bytesPerRead ≤ readedBytes)
    (hover : Overruns s.mBuf (s.findStartAddr+readedBytes))
    (hfuel : bytesPerRead-s.findStartIdx < fuel) :
    searchBuf readedBytes fuel s = .error .fault := by
  induction fuel generalizing s with
  | zero => omega
  | succ fuel ih =>
    have hsub : sizeSub s.mFileIdx s.findStartIdx = bytesPerRead-s.findStartIdx := by
      rw [hidx,sizeSub_eq hhigh hmax]
    have hbuf : buffered s = .ok (span s.mBuf.byte s.findStartAddr
        (bytesPerRead-s.findStartIdx)) := by
      rw [buffered,hsub,if_pos (by omega)]
    simp only [searchBuf,hbuf]
    cases hfind : findNextNalu s.nuhVct (span s.mBuf.byte s.findStartAddr
        (bytesPerRead-s.findStartIdx)) with
    | none => exact carryOver_fault hvct hover (by omega)
    | some next =>
      obtain ⟨k,nuh⟩ := next
      have hne : ∀ nuh ∈ s.nuhVct, nuh.data ≠ [] := by
        rw [hvct]
        decide
      obtain ⟨hmem,hbound⟩ := findNextNalu_bound hne hfind
      rw [hvct] at hmem
      obtain ⟨hthree,-⟩ := mNuhVct_length hmem
      rw [span_length] at hbound
      have hstart : (found s k nuh).findStartIdx = s.findStartIdx+(k+nuh.data.length) :=
        sizeAdd_eq (by omega)
      have hstartAddr : (found s k nuh).findStartAddr = s.findStartAddr+k+nuh.data.length := rfl
      apply ih
      · exact hvct
      · exact hsize
      · exact hidx
      · omega
      · omega
      · omega
      · left
        rw [hstartAddr,show (found s k nuh).mBuf = s.mBuf from rfl]
        omega
      · omega

theorem checkAndPreread_eq {file : List UInt8} {nuh : NaluHead} (fresh : ℕ → UInt8)
    (h : MatchAt mNuhVct file 0 nuh) : checkAndPreread mNuhVct file fresh = some nuh := by
  obtain ⟨hmem,rest,hrest⟩ := h
  rw [List.drop_zero] at hrest
  subst hrest
  rcases mem_mNuhVct hmem with rfl | rfl
  all_goals
    simp [checkAndPreread,getMaxNaluhSzie,mNuhVct,longNh,shortNh,span,patch,List.range_succ]

theorem matchAt_length {file : List UInt8} {p : ℕ} {nuh : NaluHead}
    (h : MatchAt mNuhVct file p nuh) : p+nuh.data.length ≤ file.length := by
  have hle := h.2.length_le
  have hthree := (mNuhVct_length h.1).1
  rw [List.length_drop] at hle
  omega

theorem mNuhVct_preSize {nuh : NaluHead} (h : nuh ∈ mNuhVct) : nuh.preSize = 0 := by
  rcases mem_mNuhVct h with rfl | rfl <;> rfl

theorem start_size {bytesPerRead : ℕ} {nuhVct : List NaluHead} (nuh : NaluHead) (heap : ℕ → UInt8)
    (hroom : bytesPerRead+getMaxNaluhSzie nuhVct < sizeMod) :
    (start bytesPerRead nuhVct nuh heap).mBuf.size = bytesPerRead+getMaxNaluhSzie nuhVct :=
  sizeAdd_eq hroom

theorem fread_start {bytesPerRead : ℕ} {nuh : NaluHead} {heap : ℕ → UInt8} {bytes : List UInt8}
    (hroom : bytesPerRead+getMaxNaluhSzie mNuhVct < sizeMod) (hmem : nuh ∈ mNuhVct)
    (hle : bytes.length ≤ bytesPerRead) :
    fread (start bytesPerRead mNuhVct nuh heap) bytes =
      .ok { start bytesPerRead mNuhVct nuh (patch heap 0 bytes) with
            mFileIdx := bytes.length } := by
  have hpre := mNuhVct_preSize hmem
  have hroom : (start bytesPerRead mNuhVct nuh heap).mMaxNuh.preSize+bytes.length ≤
      (start bytesPerRead mNuhVct nuh heap).mBuf.size := by
    rw [start_size nuh heap hroom]
    simp only [start,hpre]
    omega
  rw [fread,if_pos hroom]
  simp only [start,hpre,Nat.zero_add]

theorem binSplit_short {bytesPerRead : ℕ} {file : List UInt8} {nuh : NaluHead}
    (heap fresh : ℕ → UInt8) (h : MatchAt mNuhVct file 0 nuh)
    (hlen : file.length < bytesPerRead) (hroom : bytesPerRead+getMaxNaluhSzie mNuhVct < sizeMod) :
    binSplit bytesPerRead mNuhVct file heap fresh = .ok [file.length] := by
  have hmax : file.length < sizeMod := by omega
  have hhead := matchAt_length h
  have htake : file.take bytesPerRead = file := List.take_of_length_le hlen.le
  have hread : fread (start bytesPerRead mNuhVct nuh heap) file = .ok _ :=
    fread_start hroom h.1 hlen.le
  have hsub : sizeSub file.length nuh.data.length = file.length-nuh.data.length :=
    sizeSub_eq (by omega) hmax
  have hadd : sizeAdd (sizeAdd 0 (file.length-nuh.data.length)) nuh.data.length =
      file.length := by
    rw [sizeAdd_eq (by omega : 0+(file.length-nuh.data.length) < sizeMod),
      sizeAdd_eq (by omega)]
    omega
  simp only [binSplit,checkAndPreread_eq fresh h,runSplit]
  rw [show (start bytesPerRead mNuhVct nuh heap).mFileIdx = 0 from rfl,List.drop_zero,htake,hread]
  simp only [if_pos hlen,start,hsub,hadd,List.nil_append]

theorem intOf_cases (n : ℕ) : intOf n < n ∨ intOf n = n ∨ n+3 ≤ intOf n := by
  have hcast : intOf n = n%2^32 ∨ intOf n = 2^64-2^32+n%2^32 := by
    rw [intOf,sizeMod]
    split_ifs
    · exact Or.inl rfl
    · exact Or.inr rfl
  omega

/-- What the heap has to hold after the part for the search from the first unit to leave
`mBuf`: with the short header its last byte has to continue the search. -/
theorem overruns_start {bytesPerRead n : ℕ} {byte : ℕ → UInt8} (hread : 4 ≤ bytesPerRead)
    (hthree : 3 ≤ n) (hfour : n ≤ 4)
    (hbyte : ∀ k, bytesPerRead ≤ k → byte k = if n = 3 ∧ k = bytesPerRead+3 then 0 else 1) :
    Overruns ⟨bytesPerRead+4,byte⟩ (n+bytesPerRead) := by
  have hone : ∀ k < 3, byte (n+bytesPerRead-3+k) ≠ 0 := by
    intro k hk
    rw [hbyte _ (by omega),if_neg (by omega)]
    decide
  rcases (by omega : n = 3 ∨ n = 4) with rfl | rfl
  · have hzero : byte (3+bytesPerRead) = 0 := by
      rw [hbyte _ (by omega),if_pos (by omega)]
    exact Or.inr (Or.inr ⟨by simp only; omega,hone,hzero⟩)
  · exact Or.inr (Or.inl ⟨Nat.add_comm _ _,hone⟩)

theorem firstPart_fault {bytesPerRead readedBytes : ℕ} {nuh : NaluHead} {mem : ℕ → UInt8}
    (hmem : nuh ∈ mNuhVct) (hread : 4 ≤ bytesPerRead)
    (hroom : bytesPerRead+getMaxNaluhSzie mNuhVct < sizeMod) (hle : bytesPerRead ≤ readedBytes)
    (hover : Overruns ⟨bytesPerRead+4,mem⟩ (nuh.data.length+readedBytes)) :
    searchBuf readedBytes (bytesPerRead+4+1)
      { start bytesPerRead mNuhVct nuh mem with mFileIdx := bytesPerRead } = .error .fault := by
  obtain ⟨hthree,hfour⟩ := mNuhVct_length hmem
  have hsize := start_size nuh mem hroom
  have hmod : bytesPerRead < sizeMod := by omega
  have hblock : (start bytesPerRead mNuhVct nuh mem).mBuf = ⟨bytesPerRead+4,mem⟩ :=
    congrArg (fun size => Block.mk size mem) hsize
  rw [← hblock] at hover
  refine searchBuf_fault rfl hsize rfl rfl hthree (hfour.trans hread) hmod hle hover ?_
  simp only
  omega

/-- With a whole part to read, some contents of the heap let `updateMaxNuh` run past `mBuf`; a
part of `2^31` bytes or more may end the split before that. -/
theorem binSplit_whole {bytesPerRead : ℕ} {file : List UInt8} {nuh : NaluHead}
    (h : MatchAt mNuhVct file 0 nuh) (hread : 4 ≤ bytesPerRead)
    (hlen : bytesPerRead ≤ file.length)
    (hroom : bytesPerRead+getMaxNaluhSzie mNuhVct < sizeMod) :
    ∃ heap, ∀ fresh, binSplit bytesPerRead mNuhVct file heap fresh = .error .fault ∨
      binSplit bytesPerRead mNuhVct file heap fresh = .ok [] := by
  obtain ⟨hthree,hfour⟩ := mNuhVct_length h.1
  have hbytes : (file.take bytesPerRead).length = bytesPerRead := List.length_take_of_le hlen
  obtain ⟨heap,hheap⟩ : ∃ heap : ℕ → UInt8, ∀ k, heap k =
      if nuh.data.length = 3 ∧ k = bytesPerRead+3 then 0 else 1 := ⟨_,fun k => rfl⟩
  have hbyte : ∀ k, bytesPerRead ≤ k → patch heap 0 (file.take bytesPerRead) k = _ :=
    fun k hk => (patch_outside (Or.inr (by omega))).trans (hheap k)
  refine ⟨heap,fun fresh => ?_⟩
  simp only [binSplit,checkAndPreread_eq fresh h,runSplit]
  rw [show (start bytesPerRead mNuhVct nuh heap).mFileIdx = 0 from rfl,List.drop_zero,
    fread_start hroom h.1 hbytes.le,hbytes]
  simp only [lt_irrefl,if_false]
  rcases intOf_cases bytesPerRead with hshort | hfar
  · exact Or.inr (by rw [if_pos hshort]; rfl)
  · left
    have hover : Overruns ⟨bytesPerRead+4,patch heap 0 (file.take bytesPerRead)⟩
        (nuh.data.length+intOf bytesPerRead) := by
      rcases hfar with heq | hlt
      · rw [heq]
        exact overruns_start hread hthree hfour hbyte
      · left
        simp only
        omega
    have hsearch := firstPart_fault h.1 hread hroom (by omega) hover
    have hsize : (start bytesPerRead mNuhVct nuh
      (patch heap 0 (file.take bytesPerRead))).mBuf.size+1 = bytesPerRead+4+1 :=
        congrArg (·+1) (start_size _ _ hroom)
    rw [if_neg (by omega)]
    simp only [hsize,hsearch]

theorem longestAt_of_matchAt {file : List UInt8} {p : ℕ} {nuh : NaluHead}
    (h : MatchAt mNuhVct file p nuh) : LongestAt mNuhVct file p nuh := by
  refine ⟨h,?_⟩
  intro nuh' h'
  by_contra hlt
  have hprefix := List.prefix_of_prefix_length_le h.2 h'.2 (by omega)
  rcases mem_mNuhVct h.1 with rfl | rfl
  · exact hlt (mNuhVct_length h'.1).2
  · rcases mem_mNuhVct h'.1 with rfl | rfl
    · exact absurd hprefix (by decide)
    · exact hlt le_rfl

theorem reports_one_iff {file : List UInt8} {nuh : NaluHead} (h : MatchAt mNuhVct file 0 nuh) :
    Reports mNuhVct file [file.length] ↔
      ∀ q nuh', nuh.data.length ≤ q → ¬ MatchAt mNuhVct file q nuh' := by
  constructor
  · rintro ⟨ps,hstarts,hscan⟩ q nuh' hq
    have hps : ps = [file.length] := by simpa using hscan.symm
    subst hps
    cases hstarts with
    | last hp hnone =>
      have hlen := (longestAt_of_matchAt h).2 _ hp.1
      exact hnone q nuh' (by omega)
    | next _ _ _ _ hrest => cases hrest
  · intro hnone
    refine ⟨[file.length],.last (longestAt_of_matchAt h) ?_,by simp⟩
    intro q nuh' hq
    exact hnone q nuh' (by omega)

theorem not_reports_nil {nuhVct : List NaluHead} {file : List UInt8} :
    ¬ Reports nuhVct file [] := by
  rintro ⟨ps,hstarts,hscan⟩
  have hps : ps = [] := by simpa using hscan.symm
  subst hps
  cases hstarts

/-- The sizes are the true ones, whatever the heap holds, exactly when the first read meets the
end of the file and no header comes after the first. -/
theorem boundaries_iff (bytesPerRead : ℕ) (file : List UInt8) (nuh : NaluHead)
    (h : MatchAt mNuhVct file 0 nuh) (hread : getMaxNaluhSzie mNuhVct ≤ bytesPerRead)
    (hroom : bytesPerRead+getMaxNaluhSzie mNuhVct < sizeMod) :
    (∀ heap fresh, ∃ sizes, binSplit bytesPerRead mNuhVct file heap fresh = .ok sizes ∧
      Reports mNuhVct file sizes) ↔
    file.length < bytesPerRead ∧
      ∀ q nuh', nuh.data.length ≤ q → ¬ MatchAt mNuhVct file q nuh' := by
  constructor
  · intro hall
    rcases lt_or_ge file.length bytesPerRead with hlt | hge
    · obtain ⟨sizes,hsizes,hreports⟩ := hall (fun _ => 0) (fun _ => 0)
      rw [binSplit_short _ _ h hlt hroom] at hsizes
      cases hsizes
      exact ⟨hlt,(reports_one_iff h).mp hreports⟩
    · obtain ⟨heap,hheap⟩ := binSplit_whole h hread hge hroom
      obtain ⟨sizes,hsizes,hreports⟩ := hall heap (fun _ => 0)
      rcases hheap (fun _ => 0) with hfault | hempty
      · rw [hfault] at hsizes
        cases hsizes
      · rw [hempty] at hsizes
        cases hsizes
        exact absurd hreports not_reports_nil
  · rintro ⟨hlt,hnone⟩ heap fresh
    exact ⟨_,binSplit_short heap fresh h hlt hroom,(reports_one_iff h).mpr hnone⟩

theorem boundaries_iff_four : ∃ sizes,
    binSplit 8 mNuhVct [0,0,1,5] (fun _ => 0) (fun _ => 0) = .ok sizes ∧
      Reports mNuhVct [0,0,1,5] sizes := by
  have hhead : MatchAt mNuhVct [0,0,1,5] 0 ⟨shortNh,0⟩ := ⟨by decide,by decide⟩
  refine (boundaries_iff 8 [0,0,1,5] ⟨shortNh,0⟩ hhead (by decide) (by decide)).mpr
    ⟨by decide,?_⟩ (fun _ => 0) (fun _ => 0)
  intro q nuh' hq h'
  have hlen := matchAt_length h'
  have hthree := (mNuhVct_length h'.1).1
  simp only [shortNh,List.length_cons,List.length_nil] at hq hlen
  omega

/-- Two units in a file shorter than one part are reported as one. -/
theorem second_header_missed :
    (∀ heap fresh, binSplit 32768 mNuhVct [0,0,1,0,0,0,1] heap fresh = .ok [7]) ∧
      ¬ Reports mNuhVct [0,0,1,0,0,0,1] [7] ∧ Reports mNuhVct [0,0,1,0,0,0,1] [3,4] := by
  have hfirst : MatchAt mNuhVct [0,0,1,0,0,0,1] 0 ⟨shortNh,0⟩ := ⟨by decide,by decide⟩
  have hsecond : MatchAt mNuhVct [0,0,1,0,0,0,1] 3 ⟨longNh,0⟩ := ⟨by decide,by decide⟩
  refine ⟨fun heap fresh => binSplit_short heap fresh hfirst (by decide) (by decide),?_,?_⟩
  · intro h
    exact (reports_one_iff hfirst).mp h 3 _ (by decide) hsecond
  · refine ⟨[3,7],.next (longestAt_of_matchAt hfirst) (by decide) hsecond ?_
      (.last (longestAt_of_matchAt hsecond) ?_),by simp⟩
    · intro r nuh' hle hlt
      simp only [shortNh,List.length_cons,List.length_nil] at hle
      omega
    · intro q nuh' hq h'
      have hlen := matchAt_length h'
      have hthree := (mNuhVct_length h'.1).1
      simp only [longNh,List.length_cons,List.length_nil] at hq hlen
      omega

end BinSplit
end PcEnv
