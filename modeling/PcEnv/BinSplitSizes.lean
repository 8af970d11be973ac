import PcEnv.BinSplit

/-! The sizes that `RunSplit` reports against the length of the file, whatever its searches for
headers answer. -/
namespace PcEnv
namespace BinSplit

open Runs Circular Word

/-- What `findNextNalu` and `getPreSize` answer, which may depend on all that has happened. -/
structure Searches where
  findNextNalu : Split → Except Halt (Option (ℕ × NaluHead))
  getPreSize : Split → ℕ → NaluHead → Except Halt NaluHead

/-- Those of the source. -/
def searches : Searches where
  findNextNalu s :=
    match buffered s with
    | .error h => .error h
    | .ok buf => .ok (BinSplit.findNextNalu s.nuhVct buf)
  getPreSize s readedBytes := BinSplit.getPreSize s.mBuf (s.findStartAddr+readedBytes)

def carried (s : Split) (nuhVct : List NaluHead) (mMaxNuh : NaluHead) : Split :=
  let newFoundBytes := sizeSub (sizeSub s.mFileIdx s.findStartIdx) mMaxNuh.preSize
  { s with
    mBuf := { s.mBuf with byte := patch s.mBuf.byte 0 (mMaxNuh.data.take mMaxNuh.preSize) }
    nuhVct := nuhVct
    mMaxNuh := mMaxNuh
    foundBytes := sizeAdd s.foundBytes newFoundBytes
    findStartIdx := sizeAdd s.findStartIdx newFoundBytes
    findStartAddr := 0 }

def carryOverWith (f : Searches) (s : Split) (readedBytes : ℕ) : Except Halt Split :=
  match s.nuhVct.mapM (f.getPreSize s readedBytes) with
  | .error h => .error h
  | .ok [] => .error .fault
  | .ok (first::nuhs) => .ok (carried s (first::nuhs) (maxNuh (first::nuhs) first))

def searchBufWith (f : Searches) (readedBytes : ℕ) : ℕ → Split → Except Halt Split
  | 0,_ => .error .blocked
  | fuel+1,s =>
    match f.findNextNalu s with
    | .error h => .error h
    | .ok none => carryOverWith f s readedBytes
    | .ok (some (k,nuh)) => searchBufWith f readedBytes fuel (found s k nuh)

/-- `RunSplit` with these answers; `extra` turns more than the source's searches take are allowed
in a buffer. -/
def runSplitWith (f : Searches) (bytesPerRead : ℕ) (file : List UInt8) (extra : ℕ) :
    ℕ → Split → Except Halt (List ℕ)
  | 0,_ => .error .blocked
  | fuel+1,s =>
    let bytes := (file.drop s.mFileIdx).take bytesPerRead
    let readedBytes := intOf bytes.length
    match fread s bytes with
    | .error h => .error h
    | .ok s =>
      if bytes.length < bytesPerRead then
        let foundBytes := sizeAdd s.foundBytes (sizeSub s.mFileIdx s.findStartIdx)
        .ok (s.nuSizeVct++[sizeAdd foundBytes s.mNewNuh.data.length])
      else if readedBytes < bytesPerRead then .ok s.nuSizeVct
      else
        match searchBufWith f readedBytes (s.mBuf.size+1+extra) s with
        | .error h => .error h
        | .ok s => runSplitWith f bytesPerRead file extra fuel s

def binSplitWith (f : Searches) (bytesPerRead : ℕ) (nuhVct : List NaluHead) (file : List UInt8)
    (heap fresh : ℕ → UInt8) (extra : ℕ) : Except Halt (List ℕ) :=
  match checkAndPreread nuhVct file fresh with
  | none => .ok []
  | some nuh =>
    runSplitWith f bytesPerRead file extra (file.length+1+extra) (start bytesPerRead nuhVct nuh heap)

theorem searchBufWith_searches (readedBytes fuel : ℕ) (s : Split) :
    searchBufWith searches readedBytes fuel s = searchBuf readedBytes fuel s := by
  induction fuel generalizing s with
  | zero => rfl
  | succ fuel ih =>
    simp only [searchBufWith,searchBuf,searches]
    cases buffered s with
    | error h => rfl
    | ok buf =>
      cases hfind : BinSplit.findNextNalu s.nuhVct buf with
      | none => simp only [hfind]; rfl
      | some next => simp only [hfind]; exact ih _

theorem runSplitWith_searches (bytesPerRead : ℕ) (file : List UInt8) (fuel : ℕ) (s : Split) :
    runSplitWith searches bytesPerRead file 0 fuel s = runSplit bytesPerRead file fuel s := by
  induction fuel generalizing s with
  | zero => rfl
  | succ fuel ih =>
    rw [runSplitWith,runSplit]
    cases fread s ((file.drop s.mFileIdx).take bytesPerRead) with
    | error h => rfl
    | ok t =>
      dsimp only
      split_ifs
      · rfl
      · rfl
      · cases hsearch : searchBuf (intOf ((file.drop s.mFileIdx).take bytesPerRead).length)
          (t.mBuf.size+1) t with
        | error h => simp only [searchBufWith_searches,Nat.add_zero,hsearch]
        | ok u =>
          simp only [searchBufWith_searches,Nat.add_zero,hsearch]
          exact ih u

theorem binSplitWith_searches (bytesPerRead : ℕ) (nuhVct : List NaluHead) (file : List UInt8)
    (heap fresh : ℕ → UInt8) :
    binSplitWith searches bytesPerRead nuhVct file heap fresh 0 =
      binSplit bytesPerRead nuhVct file heap fresh := by
  rw [binSplitWith,binSplit]
  cases checkAndPreread nuhVct file fresh with
  | none => rfl
  | some nuh => exact runSplitWith_searches _ _ _ _

/-- What has been reported, what has been found since and the pending header reach to
`findStartIdx`. -/
structure Accounts (s : Split) : Prop where
  sum : s.nuSizeVct.sum+s.foundBytes+s.mNewNuh.data.length ≡ s.findStartIdx [MOD sizeMod]
  idxLt : s.findStartIdx < sizeMod

theorem start_accounts {bytesPerRead : ℕ} {nuhVct : List NaluHead} {nuh : NaluHead}
    (heap : ℕ → UInt8) (h : nuh.data.length < sizeMod) :
    Accounts (start bytesPerRead nuhVct nuh heap) :=
  ⟨by simp [start,Nat.ModEq],h⟩

theorem sizeAdd_lt (a b : ℕ) : sizeAdd a b < sizeMod := Nat.mod_lt _ (by decide)

section

variable {f : Searches} {s t : Split} {readedBytes fuel : ℕ}

theorem Accounts.found (h : Accounts s) (k : ℕ) (nuh : NaluHead) :
    Accounts (BinSplit.found s k nuh) := by
  refine ⟨?_,sizeAdd_lt _ _⟩
  have hpush := (sizeAdd_modEq (sizeAdd s.foundBytes k) s.mNewNuh.data.length).trans
    ((sizeAdd_modEq s.foundBytes k).add_right _)
  calc (s.nuSizeVct++[sizeAdd (sizeAdd s.foundBytes k) s.mNewNuh.data.length]).sum+0+
        nuh.data.length
    _ = s.nuSizeVct.sum+sizeAdd (sizeAdd s.foundBytes k) s.mNewNuh.data.length+
        nuh.data.length := by simp
    _ ≡ s.nuSizeVct.sum+(s.foundBytes+k+s.mNewNuh.data.length)+nuh.data.length [MOD sizeMod] :=
        (hpush.add_left _).add_right _
    _ = s.nuSizeVct.sum+s.foundBytes+s.mNewNuh.data.length+(k+nuh.data.length) := by omega
    _ ≡ s.findStartIdx+(k+nuh.data.length) [MOD sizeMod] := h.sum.add_right _
    _ ≡ sizeAdd s.findStartIdx (k+nuh.data.length) [MOD sizeMod] := (sizeAdd_modEq _ _).symm

theorem Accounts.carryOver (h : Accounts s) (ht : carryOverWith f s readedBytes = .ok t) :
    Accounts t ∧ t.mFileIdx = s.mFileIdx := by
  unfold carryOverWith at ht
  split at ht
  · cases ht
  · cases ht
  · cases ht
    refine ⟨⟨?_,sizeAdd_lt _ _⟩,rfl⟩
    -- the same bytes are booked as found and as passed
    simp only [carried]
    generalize sizeSub _ _ = n
    calc s.nuSizeVct.sum+sizeAdd s.foundBytes n+s.mNewNuh.data.length
      _ ≡ s.nuSizeVct.sum+(s.foundBytes+n)+s.mNewNuh.data.length [MOD sizeMod] :=
          ((sizeAdd_modEq _ _).add_left _).add_right _
      _ = s.nuSizeVct.sum+s.foundBytes+s.mNewNuh.data.length+n := by omega
      _ ≡ s.findStartIdx+n [MOD sizeMod] := h.sum.add_right _
      _ ≡ sizeAdd s.findStartIdx n [MOD sizeMod] := (sizeAdd_modEq _ _).symm

theorem Accounts.searchBuf (h : Accounts s) (ht : searchBufWith f readedBytes fuel s = .ok t) :
    Accounts t ∧ t.mFileIdx = s.mFileIdx := by
  induction fuel generalizing s with
  | zero => cases ht
  | succ fuel ih =>
    simp only [searchBufWith] at ht
    split at ht
    · cases ht
    · exact h.carryOver ht
    · next k nuh _ =>
      obtain ⟨hnext,hidx⟩ := ih (h.found k nuh) ht
      exact ⟨hnext,hidx⟩

theorem Accounts.last (h : Accounts s) :
    (s.nuSizeVct++[sizeAdd (sizeAdd s.foundBytes (sizeSub s.mFileIdx s.findStartIdx))
      s.mNewNuh.data.length]).sum ≡ s.mFileIdx [MOD sizeMod] := by
  have hpush := (sizeAdd_modEq (sizeAdd s.foundBytes (sizeSub s.mFileIdx s.findStartIdx))
    s.mNewNuh.data.length).trans ((sizeAdd_modEq s.foundBytes _).add_right _)
  calc (s.nuSizeVct++[sizeAdd (sizeAdd s.foundBytes (sizeSub s.mFileIdx s.findStartIdx))
        s.mNewNuh.data.length]).sum
    _ = s.nuSizeVct.sum+sizeAdd (sizeAdd s.foundBytes (sizeSub s.mFileIdx s.findStartIdx))
        s.mNewNuh.data.length := by simp
    _ ≡ s.nuSizeVct.sum+(s.foundBytes+sizeSub s.mFileIdx s.findStartIdx+s.mNewNuh.data.length)
        [MOD sizeMod] := hpush.add_left _
    _ = s.nuSizeVct.sum+s.foundBytes+s.mNewNuh.data.length+sizeSub s.mFileIdx s.findStartIdx := by
        omega
    _ ≡ s.findStartIdx+sizeSub s.mFileIdx s.findStartIdx [MOD sizeMod] := h.sum.add_right _
    _ = sizeSub s.mFileIdx s.findStartIdx+s.findStartIdx := Nat.add_comm _ _
    _ ≡ s.mFileIdx [MOD sizeMod] := sizeSub_modEq _ h.idxLt.le

theorem fread_eq {bytes : List UInt8} (h : fread s bytes = .ok t) :
    t = { s with
      mBuf := { s.mBuf with byte := patch s.mBuf.byte s.mMaxNuh.preSize bytes }
      mFileIdx := s.mFileIdx+bytes.length } := by
  unfold fread at h
  split_ifs at h
  cases h
  rfl

/-- Where a part is not taken for a failed read, whatever is reported adds up. -/
theorem Accounts.runSplit {bytesPerRead extra : ℕ} {file : List UInt8} {sizes : List ℕ}
    (h : Accounts s) (hidx : s.mFileIdx ≤ file.length) (hlen : file.length < sizeMod)
    (hfits : file.length < s.mFileIdx+bytesPerRead ∨ bytesPerRead ≤ intOf bytesPerRead)
    (ht : runSplitWith f bytesPerRead file extra fuel s = .ok sizes) :
    sizes.sum % sizeMod = file.length := by
  induction fuel generalizing s with
  | zero => cases ht
  | succ fuel ih =>
    have hbytes : ((file.drop s.mFileIdx).take bytesPerRead).length =
        min bytesPerRead (file.length-s.mFileIdx) := by
      rw [List.length_take,List.length_drop]
    simp only [runSplitWith,hbytes] at ht
    cases hread : fread s ((file.drop s.mFileIdx).take bytesPerRead) with
    | error x => simp only [hread,reduceCtorEq] at ht
    | ok u =>
      have hu := fread_eq hread
      have hacc : Accounts u := by
        rw [hu]
        exact ⟨h.sum,h.idxLt⟩
      have huidx : u.mFileIdx = s.mFileIdx+min bytesPerRead (file.length-s.mFileIdx) := by
        rw [hu,← hbytes]
      simp only [hread] at ht
      split_ifs at ht with hshort hnarrow
      · -- the end of the file
        cases ht
        have hend : u.mFileIdx = file.length := by omega
        have hsum := hacc.last
        rw [hend] at hsum
        rw [hend]
        exact Nat.mod_eq_of_modEq hsum hlen
      · have hfull : min bytesPerRead (file.length-s.mFileIdx) = bytesPerRead := by omega
        rw [hfull] at hnarrow
        omega
      · split at ht
        · cases ht
        · next t hsearch =>
          obtain ⟨hnext,hsame⟩ := hacc.searchBuf hsearch
          exact ih hnext (by omega) (by omega) ht

/-- A whole part that is taken for a failed read ends the split before anything is reported. -/
theorem runSplit_narrowed {bytesPerRead extra : ℕ} {file : List UInt8} {u : Split}
    (hlen : s.mFileIdx+bytesPerRead ≤ file.length) (hnarrow : intOf bytesPerRead < bytesPerRead)
    (hread : fread s ((file.drop s.mFileIdx).take bytesPerRead) = .ok u) :
    runSplitWith f bytesPerRead file extra (fuel+1) s = .ok s.nuSizeVct := by
  have hbytes : ((file.drop s.mFileIdx).take bytesPerRead).length = bytesPerRead := by
    rw [List.length_take,List.length_drop]
    omega
  simp only [runSplitWith,hread,hbytes,lt_irrefl,if_false,if_pos hnarrow]
  rw [fread_eq hread]

/-- A header of the list that lies in the bytes searched, or none; and a beginning of the header
asked for. -/
structure Searches.Keeps (f : Searches) : Prop where
  find : ∀ s, ∃ r, f.findNextNalu s = .ok r ∧ ∀ k nuh, r = some (k,nuh) →
    nuh ∈ s.nuhVct ∧ k+nuh.data.length ≤ sizeSub s.mFileIdx s.findStartIdx
  pre : ∀ s readedBytes nuh, ∃ preSize ≤ nuh.data.length,
    f.getPreSize s readedBytes nuh = .ok { nuh with preSize := preSize }

/-- A header that can be searched for and that `mBuf` has room for. -/
structure NaluHead.Fits (max : ℕ) (nuh : NaluHead) : Prop where
  pos : 1 ≤ nuh.data.length
  le : nuh.data.length ≤ max
  preLe : nuh.preSize ≤ max

theorem mapM_getPreSize {max : ℕ} (hf : f.Keeps) (s : Split) (readedBytes : ℕ)
    {nuhVct : List NaluHead} (h : ∀ nuh ∈ nuhVct, nuh.Fits max) :
    ∃ nuhs, nuhVct.mapM (f.getPreSize s readedBytes) = .ok nuhs ∧ nuhs.length = nuhVct.length ∧
      ∀ nuh ∈ nuhs, nuh.Fits max := by
  induction nuhVct with
  | nil => exact ⟨[],rfl,rfl,by simp⟩
  | cons nuh nuhVct ih =>
    obtain ⟨nuhs,hnuhs,hlen,hfits⟩ := ih (fun n hn => h n (by simp [hn]))
    obtain ⟨preSize,hle,hpre⟩ := hf.pre s readedBytes nuh
    have hone := h nuh (by simp)
    refine ⟨{ nuh with preSize := preSize }::nuhs,?_,by simp [hlen],?_⟩
    · rw [List.mapM_cons,hpre]
      simp only [hnuhs]
      rfl
    · simp only [List.mem_cons,forall_eq_or_imp]
      exact ⟨⟨hone.pos,hone.le,hle.trans hone.le⟩,hfits⟩

theorem maxNuh_mem (nuhVct : List NaluHead) (first : NaluHead) :
    maxNuh nuhVct first = first ∨ maxNuh nuhVct first ∈ nuhVct := by
  induction nuhVct generalizing first with
  | nil => exact Or.inl rfl
  | cons nuh nuhVct ih =>
    rw [maxNuh,List.foldl_cons]
    rcases ih (if first.preSize < nuh.preSize then nuh else first) with hsame | hmem
    · rw [maxNuh] at hsame
      rw [hsame]
      split_ifs
      · exact Or.inr (by simp)
      · exact Or.inl rfl
    · exact Or.inr (List.mem_cons_of_mem _ hmem)

/-- Between two reads: what is carried over is at most a header, and `mBuf` has room for it and
for another part. -/
structure Ready (bytesPerRead max : ℕ) (s : Split) : Prop where
  size : s.mBuf.size = bytesPerRead+max
  heads : ∀ nuh ∈ s.nuhVct, nuh.Fits max
  some : s.nuhVct ≠ []
  preLe : s.mMaxNuh.preSize ≤ max
  low : s.mFileIdx ≤ s.findStartIdx+max
  high : s.findStartIdx ≤ s.mFileIdx+bytesPerRead

structure Filled (bytesPerRead max : ℕ) (s : Split) : Prop where
  size : s.mBuf.size = bytesPerRead+max
  heads : ∀ nuh ∈ s.nuhVct, nuh.Fits max
  some : s.nuhVct ≠ []
  maxLe : max ≤ s.mFileIdx
  fileLt : s.mFileIdx < sizeMod
  high : s.findStartIdx ≤ s.mFileIdx

theorem carryOver_ready {bytesPerRead max : ℕ} (hf : f.Keeps) (h : Filled bytesPerRead max s)
    (readedBytes : ℕ) :
    ∃ t, carryOverWith f s readedBytes = .ok t ∧ Ready bytesPerRead max t ∧
      t.mFileIdx = s.mFileIdx := by
  obtain ⟨nuhs,hnuhs,hlen,hfits⟩ := mapM_getPreSize hf s readedBytes h.heads
  cases nuhs with
  | nil => exact absurd (List.length_eq_zero_iff.mp hlen.symm) h.some
  | cons first nuhs =>
    have hmem : maxNuh (first::nuhs) first ∈ first::nuhs := by
      rcases maxNuh_mem (first::nuhs) first with hsame | hmem
      · rw [hsame]
        exact List.mem_cons_self
      · exact hmem
    have hpre := (hfits _ hmem).preLe
    have hmaxLe := h.maxLe
    have hhigh := h.high
    have hlt := h.fileLt
    -- the search goes on at what has been carried over
    have hidx : sizeAdd s.findStartIdx (sizeSub (sizeSub s.mFileIdx s.findStartIdx)
        (maxNuh (first::nuhs) first).preSize) =
        s.mFileIdx-(maxNuh (first::nuhs) first).preSize := by
      rw [sizeSub_eq hhigh hlt]
      simp only [sizeAdd,sizeSub,sizeMod] at hlt ⊢
      omega
    refine ⟨carried s (first::nuhs) (maxNuh (first::nuhs) first),
      by simp only [carryOverWith,hnuhs],⟨h.size,hfits,by simp [carried],hpre,?_,?_⟩,rfl⟩
    · simp only [carried,hidx]
      omega
    · simp only [carried,hidx]
      omega

theorem searchBuf_ready {bytesPerRead max : ℕ} (hf : f.Keeps) (h : Filled bytesPerRead max s)
    (readedBytes : ℕ) (hfuel : s.mFileIdx-s.findStartIdx < fuel) :
    ∃ t, searchBufWith f readedBytes fuel s = .ok t ∧ Ready bytesPerRead max t ∧
      t.mFileIdx = s.mFileIdx := by
  induction fuel generalizing s with
  | zero => omega
  | succ fuel ih =>
    obtain ⟨r,hr,hplace⟩ := hf.find s
    simp only [searchBufWith,hr]
    cases r with
    | none => exact carryOver_ready hf h readedBytes
    | some next =>
      obtain ⟨k,nuh⟩ := next
      obtain ⟨hmem,hle⟩ := hplace k nuh rfl
      have hpos := (h.heads nuh hmem).pos
      have hhigh := h.high
      have hlt := h.fileLt
      rw [sizeSub_eq hhigh hlt] at hle
      have hidx : sizeAdd s.findStartIdx (k+nuh.data.length) =
          s.findStartIdx+(k+nuh.data.length) := sizeAdd_eq (by omega)
      have hnext : Filled bytesPerRead max (found s k nuh) := by
        refine ⟨h.size,h.heads,h.some,h.maxLe,hlt,?_⟩
        simp only [found,hidx]
        omega
      obtain ⟨t,ht,hready,hsame⟩ := ih hnext (by simp only [found,hidx]; omega)
      exact ⟨t,ht,hready,hsame⟩

theorem runSplit_returns {bytesPerRead max extra : ℕ} {file : List UInt8} (hf : f.Keeps)
    (hread : max ≤ bytesPerRead) (hpos : 1 ≤ bytesPerRead) (hlen : file.length < sizeMod)
    (h : Ready bytesPerRead max s) (hle : s.mFileIdx ≤ file.length)
    (hfuel : file.length-s.mFileIdx < fuel) :
    ∃ sizes, runSplitWith f bytesPerRead file extra fuel s = .ok sizes := by
  induction fuel generalizing s with
  | zero => omega
  | succ fuel ih =>
    have hbytes : ((file.drop s.mFileIdx).take bytesPerRead).length =
        min bytesPerRead (file.length-s.mFileIdx) := by
      rw [List.length_take,List.length_drop]
    obtain ⟨u,hu⟩ : ∃ u, fread s ((file.drop s.mFileIdx).take bytesPerRead) = .ok u := by
      have hpre := h.preLe
      exact ⟨_,if_pos (by rw [hbytes,h.size]; omega)⟩
    simp only [runSplitWith,hu,hbytes]
    split_ifs with hshort hnarrow
    · exact ⟨_,rfl⟩
    · exact ⟨_,rfl⟩
    · have hfull : min bytesPerRead (file.length-s.mFileIdx) = bytesPerRead := by omega
      have hlow := h.low
      have hsize := h.size
      have hidx : u.mFileIdx = s.mFileIdx+bytesPerRead := by rw [fread_eq hu,hbytes,hfull]
      have hstart : u.findStartIdx = s.findStartIdx := by rw [fread_eq hu]
      have husize : u.mBuf.size = bytesPerRead+max := by rw [fread_eq hu,hsize]
      have hfilled : Filled bytesPerRead max u := by
        refine ⟨husize,?_,?_,by omega,by omega,?_⟩
        · rw [fread_eq hu]
          exact h.heads
        · rw [fread_eq hu]
          exact h.some
        · rw [hidx,hstart]
          exact h.high
      obtain ⟨t,ht,hready,hsame⟩ : ∃ t, searchBufWith f _ (u.mBuf.size+1+extra) u = .ok t ∧ _ :=
        searchBuf_ready hf hfilled (intOf bytesPerRead) (by omega)
      rw [hfull,ht]
      exact ih hready (by omega) (by omega)

end

theorem length_le_max {nuhVct : List NaluHead} {nuh : NaluHead} (h : nuh ∈ nuhVct) :
    nuh.data.length ≤ getMaxNaluhSzie nuhVct := by
  have hgrow : ∀ (l : List NaluHead) (max : ℕ), max ≤ l.foldl (fun max nuh =>
        if max < nuh.data.length then nuh.data.length else max) max ∧
      ∀ nuh ∈ l, nuh.data.length ≤ l.foldl (fun max nuh =>
        if max < nuh.data.length then nuh.data.length else max) max := by
    intro l
    induction l with
    | nil => simp
    | cons n l ih =>
      intro max
      rw [List.foldl_cons]
      obtain ⟨hmax,hall⟩ := ih (if max < n.data.length then n.data.length else max)
      have hstep : max ≤ (if max < n.data.length then n.data.length else max) ∧
          n.data.length ≤ (if max < n.data.length then n.data.length else max) := by
        split_ifs <;> omega
      refine ⟨hstep.1.trans hmax,?_⟩
      simp only [List.mem_cons,forall_eq_or_imp]
      exact ⟨hstep.2.trans hmax,hall⟩
  exact (hgrow nuhVct 0).2 nuh h

theorem checkAndPreread_some {nuhVct : List NaluHead} {file : List UInt8} {nuh : NaluHead}
    (fresh : ℕ → UInt8) (h : MatchAt nuhVct file 0 nuh) :
    ∃ nuh' ∈ nuhVct, checkAndPreread nuhVct file fresh = some nuh' := by
  have hle := length_le_max h.1
  have hpre := h.2
  rw [List.drop_zero] at hpre
  have hmatch : span (patch fresh 0 (file.take (getMaxNaluhSzie nuhVct))) 0 nuh.data.length =
      nuh.data := by
    rw [span_eq_iff rfl]
    intro k hk
    have hlen := hpre.length_le
    rw [Nat.zero_add,patch_inside (Nat.zero_le k) (by rw [List.length_take]; omega),Nat.sub_zero,
      List.getElem?_take_of_lt (by omega)]
    exact (List.prefix_iff_getElem?.mp hpre k hk).symm ▸ List.getElem?_eq_getElem hk
  cases hfind : checkAndPreread nuhVct file fresh with
  | none =>
    have hno := List.find?_eq_none.mp hfind nuh h.1
    simp [hmatch] at hno
  | some nuh' => exact ⟨nuh',List.mem_of_find?_eq_some hfind,rfl⟩

/-- A part whose length, narrowed to an `int`, is not less than itself. -/
def PartFits (bytesPerRead : ℕ) : Prop := bytesPerRead < 2^32 ∨ intMax < bytesPerRead % 2^32

instance (bytesPerRead : ℕ) : Decidable (PartFits bytesPerRead) :=
  inferInstanceAs (Decidable (_ ∨ _))

section

variable {f : Searches} {bytesPerRead : ℕ} {nuhVct : List NaluHead} {file : List UInt8}
  {nuh : NaluHead} {heap fresh : ℕ → UInt8} {extra : ℕ}

theorem start_mFileIdx : (start bytesPerRead nuhVct nuh heap).mFileIdx = 0 := rfl

theorem binSplitWith_accounts {sizes : List ℕ} (h : MatchAt nuhVct file 0 nuh)
    (hread : getMaxNaluhSzie nuhVct ≤ bytesPerRead) (hmod : bytesPerRead < sizeMod)
    (hlen : file.length < sizeMod)
    (ht : binSplitWith f bytesPerRead nuhVct file heap fresh extra = .ok sizes) :
    sizes.sum % sizeMod = file.length ↔ file.length < bytesPerRead ∨ PartFits bytesPerRead := by
  obtain ⟨nuh',hmem,hcheck⟩ := checkAndPreread_some fresh h
  have hhead := (length_le_max hmem).trans hread
  simp only [binSplitWith,hcheck] at ht
  rw [PartFits,← le_intOf_iff hmod]
  constructor
  · intro hsum
    by_contra hbad
    rw [not_or,not_lt,not_le] at hbad
    rw [Nat.add_right_comm] at ht
    cases hfread : fread (start bytesPerRead nuhVct nuh' heap) ((file.drop 0).take bytesPerRead) with
    | error x => simp only [runSplitWith,start_mFileIdx,hfread,reduceCtorEq] at ht
    | ok u =>
      rw [runSplit_narrowed (by rw [start_mFileIdx]; omega) hbad.2 hfread,Except.ok.injEq] at ht
      rw [← ht] at hsum
      simp only [start,List.sum_nil,Nat.zero_mod] at hsum
      omega
  · intro hfits
    exact (start_accounts heap (hhead.trans_lt hmod)).runSplit (Nat.zero_le _) hlen
      (by rw [start_mFileIdx]; omega) ht

theorem binSplitWith_returns (hf : f.Keeps) (h : MatchAt nuhVct file 0 nuh)
    (hread : getMaxNaluhSzie nuhVct ≤ bytesPerRead)
    (hroom : bytesPerRead+getMaxNaluhSzie nuhVct < sizeMod) (hlen : file.length < sizeMod)
    (hvct : ∀ nuh ∈ nuhVct, nuh.data ≠ [] ∧ nuh.preSize ≤ nuh.data.length) :
    ∃ sizes, binSplitWith f bytesPerRead nuhVct file heap fresh extra = .ok sizes := by
  have hfits : ∀ nuh ∈ nuhVct, nuh.Fits (getMaxNaluhSzie nuhVct) := fun n hn =>
    ⟨List.length_pos_iff.mpr (hvct n hn).1,length_le_max hn,(hvct n hn).2.trans (length_le_max hn)⟩
  obtain ⟨nuh',hmem,hcheck⟩ := checkAndPreread_some fresh h
  have hhead := hfits nuh' hmem
  have hready : Ready bytesPerRead (getMaxNaluhSzie nuhVct) (start bytesPerRead nuhVct nuh' heap) :=
    ⟨start_size nuh' heap hroom,hfits,List.ne_nil_of_mem hmem,hhead.preLe,Nat.zero_le _,
      (hhead.le.trans hread).trans (Nat.le_add_left _ _)⟩
  simp only [binSplitWith,hcheck]
  exact runSplit_returns hf hread (hhead.pos.trans (hhead.le.trans hread)) hlen hready
    (Nat.zero_le _) (by rw [start_mFileIdx]; omega)

/-- What the source itself reports adds up on the same condition. -/
theorem binSplit_accounts {sizes : List ℕ} (h : MatchAt nuhVct file 0 nuh)
    (hread : getMaxNaluhSzie nuhVct ≤ bytesPerRead) (hmod : bytesPerRead < sizeMod)
    (hlen : file.length < sizeMod)
    (ht : binSplit bytesPerRead nuhVct file heap fresh = .ok sizes) :
    sizes.sum % sizeMod = file.length ↔ file.length < bytesPerRead ∨ PartFits bytesPerRead := by
  rw [← binSplitWith_searches] at ht
  exact binSplitWith_accounts h hread hmod hlen ht

end

/-- Whatever the two searches answer, the sizes reported add up to the length of the file exactly
when the file ends in the first part or a whole part is not taken for a failed read; and searches
that keep to what they promise always lead to a report. The source's own are some of them. -/
theorem sizes_account_iff (f : Searches) (bytesPerRead : ℕ) (nuhVct : List NaluHead)
    (file : List UInt8) (nuh : NaluHead) (h : MatchAt nuhVct file 0 nuh)
    (hread : getMaxNaluhSzie nuhVct ≤ bytesPerRead)
    (hroom : bytesPerRead+getMaxNaluhSzie nuhVct < sizeMod) (hlen : file.length ≤ ptrdiffMax) :
    (∀ heap fresh extra sizes,
      binSplitWith f bytesPerRead nuhVct file heap fresh extra = .ok sizes →
      (sizes.sum % sizeMod = file.length ↔ file.length < bytesPerRead ∨ PartFits bytesPerRead)) ∧
    (f.Keeps → (∀ nuh ∈ nuhVct, nuh.data ≠ [] ∧ nuh.preSize ≤ nuh.data.length) →
      ∀ heap fresh extra, ∃ sizes,
        binSplitWith f bytesPerRead nuhVct file heap fresh extra = .ok sizes) ∧
    ∀ heap fresh sizes, binSplit bytesPerRead nuhVct file heap fresh = .ok sizes →
      (sizes.sum % sizeMod = file.length ↔ file.length < bytesPerRead ∨ PartFits bytesPerRead) := by
  have hmax : ptrdiffMax < sizeMod := by decide
  exact ⟨fun _ _ _ _ ht => binSplitWith_accounts h hread (by omega) (by omega) ht,
    fun hf hvct _ _ _ => binSplitWith_returns hf h hread hroom (by omega) hvct,
    fun _ _ _ ht => binSplit_accounts h hread (by omega) (by omega) ht⟩

def oneUnit : Searches := ⟨fun _ => .ok none,fun _ _ nuh => .ok { nuh with preSize := 0 }⟩

theorem sizes_account_two_parts : ∃ sizes,
    binSplitWith oneUnit 4 mNuhVct [0,0,1,5,6,7,8,9] (fun _ => 0) (fun _ => 0) 0 = .ok sizes ∧
      sizes.sum % sizeMod = 8 := by
  have hkeeps : oneUnit.Keeps :=
    ⟨fun _ => ⟨none,rfl,by simp⟩,fun _ _ nuh => ⟨0,Nat.zero_le _,rfl⟩⟩
  have hboth := sizes_account_iff oneUnit 4 mNuhVct [0,0,1,5,6,7,8,9] ⟨shortNh,0⟩
    ⟨by decide,by decide⟩ (by decide) (by decide) (by decide)
  obtain ⟨sizes,hsizes⟩ := hboth.2.1 hkeeps (by decide) (fun _ => 0) (fun _ => 0) 0
  exact ⟨sizes,hsizes,(hboth.1 _ _ _ _ hsizes).mpr (by decide)⟩

/-- A part of `2^32` bytes counts as `0` bytes read: nothing is reported. -/
theorem whole_part_fails :
    let file := shortNh++List.replicate (2^32-3) 0
    (∀ heap fresh, binSplit (2^32) mNuhVct file heap fresh = .ok []) ∧
      ([] : List ℕ).sum % sizeMod ≠ file.length := by
  intro file
  have hlen : file.length = 2^32 := by
    rw [List.length_append,List.length_replicate]
    rfl
  have hhead : MatchAt mNuhVct file 0 ⟨shortNh,0⟩ := ⟨by decide,List.prefix_append _ _⟩
  refine ⟨fun heap fresh => ?_,by rw [hlen]; decide⟩
  have hread : fread (start (2^32) mNuhVct ⟨shortNh,0⟩ heap) ((file.drop 0).take (2^32)) = .ok _ :=
    fread_start (by decide) hhead.1 (List.length_take_le _ _)
  simp only [binSplit,checkAndPreread_eq fresh hhead,← runSplitWith_searches]
  exact runSplit_narrowed (by rw [start_mFileIdx]; omega) (by decide) hread

end BinSplit
end PcEnv
