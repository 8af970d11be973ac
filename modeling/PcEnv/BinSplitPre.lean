import PcEnv.BinSplit
import PcEnv.Border

/-! `getPreSize`, which is to find the beginning of a header that a buffer ends with. -/
namespace PcEnv
namespace BinSplit

open Runs Circular Word Border

def blockOf (buf : List UInt8) : Block := { size := buf.length, byte := fun i => buf.getD i 0 }

/-- `preSize` becomes the length of the longest proper beginning of the header that the buffer
ends with, and nothing else is read. -/
def FindsPartial (nuh : NaluHead) (buf : List UInt8) : Prop :=
  getPreSize (blockOf buf) buf.length nuh =
    .ok { nuh with preSize := longest nuh.data buf }

def firstI (nuh : NaluHead) : ℤ := toInt (sizeSub nuh.data.length 1)

def window (nuh : NaluHead) (buf : List UInt8) : List UInt8 :=
  buf.drop (buf.length-(firstI nuh).toNat)

section

variable {buf data s w : List UInt8} {c : UInt8}

theorem load_suffix (h : c::w <:+ buf) :
    (blockOf buf).load ((buf.length : ℤ)-(c::w).length).toNat = .ok c := by
  obtain ⟨t,rfl⟩ := h
  have hat : (((t++c::w).length : ℤ)-(c::w).length).toNat = t.length := by
    rw [List.length_append]
    omega
  rw [hat,Block.load_ok (by simp [blockOf])]
  simp [blockOf]

theorem matchRun_cases (count : ℕ) (hw : w ≠ []) (hsuf : w <:+ buf) (hlen : w.length < s.length) :
    w <+: s ∧ matchRun (blockOf buf) buf.length s w.length count =
        .ok (.found (count+w.length)) ∨
      ∃ k c rest, k < s.length ∧ s[k]? ≠ some c ∧ w = s.take k++c::rest ∧
        matchRun (blockOf buf) buf.length s w.length count =
          .ok (.stopped (rest.length+1) (count+k)) := by
  induction w generalizing s count with
  | nil => exact (hw rfl).elim
  | cons c w ih =>
    cases s with
    | nil => simp at hlen
    | cons d s =>
      simp only [matchRun,load_suffix hsuf]
      by_cases hd : d = c
      · subst hd
        rw [if_pos rfl]
        by_cases hnil : w = []
        · subst hnil
          exact Or.inl ⟨by simp,rfl⟩
        · have hpos := List.length_pos_iff.mpr hnil
          have hne : ((d::w).length : ℤ) ≠ 1 := by
            rw [List.length_cons]
            omega
          have hi : ((d::w).length : ℤ)-1 = w.length := by
            rw [List.length_cons]
            omega
          have hsuf' : w <:+ buf := (List.suffix_cons d w).trans hsuf
          rw [if_neg hne,hi]
          rcases ih (count+1) hnil hsuf' (by simpa using hlen) with
            ⟨hpre,hrun⟩ | ⟨k,c,rest,hk,hc,hsplit,hrun⟩
          · refine Or.inl ⟨List.cons_prefix_cons.mpr ⟨rfl,hpre⟩,?_⟩
            rw [hrun,List.length_cons,Nat.add_assoc,Nat.add_comm 1]
          · refine Or.inr ⟨k+1,c,rest,by simpa using hk,by simpa using hc,by simp [hsplit],?_⟩
            rw [hrun,Nat.add_assoc,Nat.add_comm 1]
      · rw [if_neg hd]
        exact Or.inr ⟨0,c,w,Nat.succ_pos _,by simpa using hd,rfl,by simp⟩

/-- Both loops: what they come to is what failed tries and the last one match. -/
theorem preSizeFrom_ok_iff (n count m : ℕ) (hsuf : w <:+ buf) (hlen : w.length < data.length)
    (hn : w.length < n) :
    preSizeFrom (blockOf buf) buf.length data n w.length count = .ok m ↔
      ∃ m', m = count+m' ∧ Covers data w m' := by
  induction n generalizing w count with
  | zero => omega
  | succ n ih =>
    rw [preSizeFrom,if_neg (by omega)]
    by_cases hw : w = []
    · subst hw
      -- `i` is `0`, and `*bufEnd` is read
      obtain ⟨d,data,rfl⟩ := List.exists_cons_of_length_pos hlen
      have hload : (blockOf buf).load ((buf.length : ℤ)-([] : List UInt8).length).toNat =
          .error .fault := load_fault (by simp [blockOf])
      simp only [matchRun,hload]
      refine iff_of_false (by simp) ?_
      rintro ⟨m',-,h⟩
      exact not_covers_nil h
    · rcases matchRun_cases count hw hsuf hlen with ⟨hpre,hrun⟩ | ⟨k,c,rest,hk,hc,rfl,hrun⟩
      · rw [hrun]
        simp only [covers_begins hw hpre,exists_eq_right,Except.ok.injEq]
        exact eq_comm
      · have hi : (rest.length : ℤ)+1-1 = rest.length := add_sub_cancel_right _ _
        have hsuf' : rest <:+ buf :=
          ((List.suffix_cons c rest).trans (List.suffix_append _ _)).trans hsuf
        rw [List.length_append,List.length_cons] at hlen hn
        rw [hrun]
        simp only [hi]
        rw [ih (count+k) hsuf' (by omega) (by omega)]
        simp only [covers_try hk hc]
        constructor
        · rintro ⟨m',rfl,hm⟩
          exact ⟨k+m',Nat.add_assoc _ _ _,m',rfl,hm⟩
        · rintro ⟨_,rfl,m',rfl,hm⟩
          exact ⟨m',(Nat.add_assoc _ _ _).symm,hm⟩

end

section

variable {nuh : NaluHead} {buf : List UInt8}

theorem sizeSub_one_le {x : ℕ} (h : x ≠ 0) : sizeSub x 1 ≤ x-1 := by
  have hsum : x+(sizeMod-1) = x-1+sizeMod := by
    unfold sizeMod
    omega
  rw [sizeSub,hsum,Nat.add_mod_right]
  exact Nat.mod_le _ _

theorem firstI_lt (h : 0 ≤ firstI nuh) : (firstI nuh).toNat < nuh.data.length := by
  by_cases hzero : nuh.data.length = 0
  · rw [firstI,hzero] at h
    exact absurd h (by decide)
  · have hle := toInt_le (sizeSub nuh.data.length 1)
    have hsub := sizeSub_one_le hzero
    rw [firstI] at h ⊢
    omega

theorem window_length (h : 0 ≤ firstI nuh) (hbuf : nuh.data.length ≤ buf.length+1) :
    (window nuh buf).length = (firstI nuh).toNat := by
  have hlt := firstI_lt h
  rw [window,List.length_drop]
  omega

theorem preSizeFrom_neg {mBuf : Block} {e n count : ℕ} {data : List UInt8} {i : ℤ} (h : i < 0) :
    preSizeFrom mBuf e data n i count = .ok 0 := by
  cases n with
  | zero => rfl
  | succ n => rw [preSizeFrom,if_pos h]

theorem findsPartial_iff_preSizeFrom (nuh : NaluHead) (buf : List UInt8) :
    FindsPartial nuh buf ↔
      preSizeFrom (blockOf buf) buf.length nuh.data nuh.data.length (firstI nuh) 0 =
        .ok (longest nuh.data buf) := by
  rw [FindsPartial,getPreSize,← firstI]
  cases h : preSizeFrom (blockOf buf) buf.length nuh.data nuh.data.length (firstI nuh) 0 with
  | error x => simp
  | ok m => simp

theorem findsPartial_neg (hneg : firstI nuh < 0) :
    FindsPartial nuh buf ↔ longest nuh.data buf = 0 := by
  rw [findsPartial_iff_preSizeFrom,preSizeFrom_neg hneg,Except.ok.injEq]
  exact eq_comm

theorem findsPartial_nonneg (hpos : 0 ≤ firstI nuh) (hbuf : nuh.data.length ≤ buf.length+1) :
    FindsPartial nuh buf ↔ Covers nuh.data (window nuh buf) (longest nuh.data buf) := by
  have hlen := window_length hpos hbuf
  have hlt := firstI_lt hpos
  have hsuf : window nuh buf <:+ buf := List.drop_suffix _ _
  have hi : ((window nuh buf).length : ℤ) = firstI nuh := by rw [hlen,Int.toNat_of_nonneg hpos]
  have hrun := preSizeFrom_ok_iff nuh.data.length 0 (longest nuh.data buf) hsuf
    (hlen.trans_lt hlt) (hlen.trans_lt hlt)
  rw [hi] at hrun
  rw [findsPartial_iff_preSizeFrom,hrun]
  simp only [Nat.zero_add,exists_eq_left']

/-- There is a beginning of the header, and no byte before the longest one is its first. -/
theorem finds_of_quiet (hsize : nuh.data.length ≤ intMax) (hbuf : nuh.data.length ≤ buf.length+1)
    (hfound : longest nuh.data buf ≠ 0)
    (hquiet : ∀ b ∈ (buf.drop (buf.length+1-nuh.data.length)).take
      (nuh.data.length-1-longest nuh.data buf), nuh.data.head? ≠ some b) :
    FindsPartial nuh buf := by
  have hle := longest_le nuh.data buf
  have hpos : 0 < nuh.data.length := by omega
  have hsub : sizeSub nuh.data.length 1 = nuh.data.length-1 :=
    sizeSub_eq hpos (by unfold intMax at hsize; unfold sizeMod; omega)
  have hfirst : firstI nuh = (nuh.data.length-1 : ℕ) := by
    rw [firstI,hsub,toInt_eq (by omega)]
  have hnonneg : 0 ≤ firstI nuh := by omega
  have hlen := window_length hnonneg hbuf
  have hwin : window nuh buf = buf.drop (buf.length+1-nuh.data.length) := by
    have hdrop : buf.length-(nuh.data.length-1) = buf.length+1-nuh.data.length := by omega
    rw [window,hfirst,Int.toNat_natCast,hdrop]
  have hcut : (nuh.data.take (longest nuh.data buf)).length = longest nuh.data buf :=
    List.length_take_of_le (by omega)
  -- the window ends with that beginning
  have hsuf : nuh.data.take (longest nuh.data buf) <:+ window nuh buf :=
    List.suffix_of_suffix_length_le (longest_suffix _ _) (List.drop_suffix _ _) (by omega)
  obtain ⟨row,hrow⟩ := hsuf
  have hrowlen : row.length = nuh.data.length-1-longest nuh.data buf := by
    have hsum := congrArg List.length hrow
    rw [List.length_append,hcut,hlen,hfirst,Int.toNat_natCast] at hsum
    omega
  rw [← hwin,← hrow,← hrowlen,List.take_left] at hquiet
  refine (findsPartial_nonneg hnonneg hbuf).mpr ⟨row,_,0,hrow.symm,?_,?_,?_,?_⟩
  · exact row_of_quiet (List.length_pos_iff.mp hpos) hquiet
  · exact List.length_pos_iff.mp (by omega)
  · exact List.take_prefix _ _
  · rw [hcut,Nat.zero_add]

/-- `getPreSize` finds the longest beginning of the header exactly when the bytes before the end
of the buffer are failed tries and a beginning of the header, in which together as many bytes are
matched as that one has. It is enough that there is such a beginning and that no byte before the
longest one is the first of the header. -/
theorem getPreSize_iff (nuh : NaluHead) (buf : List UInt8)
    (hbuf : nuh.data.length ≤ buf.length+1) :
    (FindsPartial nuh buf ↔
      firstI nuh < 0 ∧ longest nuh.data buf = 0 ∨
      0 ≤ firstI nuh ∧ Covers nuh.data (window nuh buf) (longest nuh.data buf)) ∧
    (nuh.data.length ≤ intMax → longest nuh.data buf ≠ 0 →
      (∀ b ∈ (buf.drop (buf.length+1-nuh.data.length)).take
        (nuh.data.length-1-longest nuh.data buf), nuh.data.head? ≠ some b) →
      FindsPartial nuh buf) := by
  refine ⟨?_,fun hsize hfound hquiet => finds_of_quiet hsize hbuf hfound hquiet⟩
  rcases lt_or_ge (firstI nuh) 0 with hneg | hpos
  · rw [findsPartial_neg hneg,and_iff_right hneg]
    simp only [not_le.mpr hneg,false_and,or_false]
  · rw [findsPartial_nonneg hpos hbuf,and_iff_right hpos]
    simp only [not_lt.mpr hpos,false_and,false_or]

end

theorem getPreSize_iff_two : FindsPartial ⟨longNh,0⟩ [1,0,0] := by
  have hlongest : longest longNh [1,0,0] = 2 := by decide
  refine (getPreSize_iff ⟨longNh,0⟩ [1,0,0] (by decide)).1.mpr (Or.inr ⟨by decide,?_⟩)
  rw [hlongest]
  exact ⟨[1],[0,0],0,by decide,.cons (k := 0) (by decide) (by decide) .nil,by decide,by decide,rfl⟩

/-- With no beginning of the header `*bufEnd` is read, and what a failed try has matched is
counted for the next one. -/
theorem getPreSize_overreads :
    getPreSize (blockOf [1,1,1]) 3 ⟨longNh,0⟩ = .error .fault ∧
    getPreSize (blockOf [0,1,0]) 3 ⟨longNh,0⟩ = .ok ⟨longNh,2⟩ ∧ longest longNh [0,1,0] = 1 ∧
    ¬ FindsPartial ⟨longNh,0⟩ [1,1,1] ∧ ¬ FindsPartial ⟨longNh,0⟩ [0,1,0] := by
  have hover : getPreSize (blockOf [1,1,1]) 3 ⟨longNh,0⟩ = .error .fault := by rfl
  have hcount : getPreSize (blockOf [0,1,0]) 3 ⟨longNh,0⟩ = .ok ⟨longNh,2⟩ := by rfl
  have hone : longest longNh [0,1,0] = 1 := by decide
  refine ⟨hover,hcount,hone,?_,?_⟩
  · intro h
    have hsame := hover.symm.trans h
    cases hsame
  · intro h
    have hsame := hcount.symm.trans h
    rw [hone] at hsame
    cases hsame

end BinSplit
end PcEnv
