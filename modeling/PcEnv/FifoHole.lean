import PcEnv.UserFifo

/-! What one call of `un_fifo_ops_write` puts into the fifo, whatever its blocks meet with. -/
namespace PcEnv
namespace UserFifo

open FdOp

/-- The bytes that the calls of `write` in an `un_write` have moved, come back or not. -/
def unWritten (size count : ℕ) : List Answer → ℕ
  | [] => count
  | a::as =>
    let count := count+min a.moved (size-count)
    if count = size then count
    else if a.errno = eintr then unWritten size count as
    else count

/-- The bytes taken of each block of a buffer of `n` bytes, up to the one that has not come
back. -/
def blockCounts (n : ℕ) (as : List Answer) : List ℕ :=
  if pipeBuf < n then
    match unWrite pipeBuf 0 as with
    | none => [unWritten pipeBuf 0 as]
    | some w => w.count::blockCounts (n-pipeBuf) w.answers
  else [unWritten n 0 as]
termination_by n
decreasing_by
  have : 0 < pipeBuf := by decide
  omega

def accepted : List UInt8 → List ℕ → List UInt8
  | _, [] => []
  | buf, c::cs => buf.take c++accepted (buf.drop pipeBuf) cs

def fifoAccepts (buf : List UInt8) (as : List Answer) : List UInt8 :=
  accepted buf (blockCounts buf.length as)

/-- What follows the bytes taken of the first short block, and the bytes taken of the blocks
after it. -/
def afterShort : List UInt8 → List ℕ → List UInt8 × List UInt8
  | buf, [] => (buf,[])
  | buf, c::cs =>
    if c = pipeBuf then afterShort (buf.drop pipeBuf) cs
    else (buf.drop c,accepted (buf.drop pipeBuf) cs)

/-- Once a block is taken short nothing is taken of the ones after it. -/
def NoHole (n : ℕ) (as : List Answer) : Prop :=
  (blockCounts n as).Pairwise (fun c d => c = pipeBuf ∨ d = 0)

theorem unWrite_unWritten {size count : ℕ} {as : List Answer} {w : Written}
    (h : unWrite size count as = some w) : unWritten size count as = w.count := by
  induction as generalizing count with
  | nil => simp [unWrite] at h
  | cons a as ih =>
    simp only [unWrite,unWritten] at h ⊢
    split_ifs at h ⊢ with hfull heintr
    · cases h
      rfl
    · exact ih h
    · cases h
      rfl

theorem unWritten_le {size count : ℕ} (as : List Answer) (h : count ≤ size) :
    unWritten size count as ≤ size := by
  induction as generalizing count with
  | nil => exact h
  | cons a as ih =>
    simp only [unWritten]
    split_ifs with hfull heintr
    · omega
    · exact ih (by omega)
    · omega

theorem unFifoOpsWrite_accepted {fifo buf : List UInt8} {as : List Answer} {x : Sent}
    (h : unFifoOpsWrite fifo buf as = some x) : x.fifo = fifo++fifoAccepts buf as := by
  induction hn : buf.length using Nat.strong_induction_on generalizing fifo buf as with
  | h n ih =>
    rw [fifoAccepts,blockCounts]
    rcases le_or_gt buf.length pipeBuf with hle | hlt
    · rw [unFifoOpsWrite_last hle,Option.map_eq_some_iff] at h
      obtain ⟨w,hw,rfl⟩ := h
      rw [if_neg (by omega),unWrite_unWritten hw,accepted,accepted,List.append_nil]
    · cases hw : unWrite pipeBuf 0 as with
      | none =>
        rw [unFifoOpsWrite,if_pos hlt,hw] at h
        cases h
      | some w =>
        have hpos : 0 < pipeBuf := by decide
        rw [unFifoOpsWrite_chunk hlt hw] at h
        have hrest := ih (n-pipeBuf) (by omega) h (by rw [List.length_drop,hn])
        rw [if_pos hlt,hrest,fifoAccepts,List.length_drop,List.append_assoc,accepted]

theorem take_append_prefix_iff {α : Type} {a b : List α} (n : ℕ) :
    a.take n++b <+: a ↔ b <+: a.drop n := by
  have h : a.take n++b <+: a.take n++a.drop n ↔ b <+: a.drop n :=
    List.prefix_append_right_inj _
  rwa [List.take_append_drop] at h

/-- The blocks before the short one are whole, so that all depends on what comes after it. -/
theorem accepted_prefix_iff (buf : List UInt8) (cs : List ℕ) :
    accepted buf cs <+: buf ↔ (afterShort buf cs).2 <+: (afterShort buf cs).1 := by
  induction cs generalizing buf with
  | nil => rfl
  | cons c cs ih =>
    rw [accepted,afterShort,take_append_prefix_iff]
    split_ifs with h
    · rw [h,ih]
    · rfl

def Fits : ℕ → List ℕ → Prop
  | _, [] => True
  | n, c::cs => c ≤ n ∧ c ≤ pipeBuf ∧ (cs ≠ [] → pipeBuf < n) ∧ Fits (n-pipeBuf) cs

theorem blockCounts_fits (n : ℕ) (as : List Answer) : Fits n (blockCounts n as) := by
  fun_induction blockCounts n as with
  | case1 n as h hw =>
    have hle := unWritten_le as (Nat.zero_le pipeBuf)
    rw [Fits,Fits]
    exact ⟨hle.trans h.le,hle,fun hne => absurd rfl hne,trivial⟩
  | case2 n as h w hw ih =>
    have hle : w.count ≤ pipeBuf := unWrite_unWritten hw ▸ unWritten_le as (Nat.zero_le pipeBuf)
    rw [Fits]
    exact ⟨hle.trans h.le,hle,fun _ => h,ih⟩
  | case3 n as h =>
    have hle := unWritten_le as (Nat.zero_le n)
    rw [Fits,Fits]
    exact ⟨hle,hle.trans (not_lt.mp h),fun hne => absurd rfl hne,trivial⟩

theorem accepted_length {n : ℕ} {buf : List UInt8} {cs : List ℕ} (hlen : buf.length = n)
    (h : Fits n cs) : (accepted buf cs).length = cs.sum := by
  induction cs generalizing n buf with
  | nil => rfl
  | cons c cs ih =>
    rw [Fits] at h
    rw [accepted,List.length_append,List.length_take,List.sum_cons,
      ih (by rw [List.length_drop,hlen]) h.2.2.2]
    omega

theorem mem_of_mem_accepted {buf : List UInt8} {cs : List ℕ} {b : UInt8}
    (h : b ∈ accepted buf cs) : b ∈ buf := by
  induction cs generalizing buf with
  | nil => cases h
  | cons c cs ih =>
    rw [accepted,List.mem_append] at h
    rcases h with h | h
    · exact List.mem_of_mem_take h
    · exact List.mem_of_mem_drop (ih h)

theorem accepted_zeros {buf : List UInt8} {cs : List ℕ} (h : ∀ d ∈ cs, d = 0) :
    accepted buf cs = [] := by
  induction cs generalizing buf with
  | nil => rfl
  | cons c cs ih =>
    rw [accepted,h c List.mem_cons_self,List.take_zero,List.nil_append]
    exact ih (fun d hd => h d (List.mem_cons_of_mem c hd))

theorem accepted_prefix {buf : List UInt8} {cs : List ℕ}
    (h : cs.Pairwise (fun c d => c = pipeBuf ∨ d = 0)) : accepted buf cs <+: buf := by
  induction cs generalizing buf with
  | nil => exact List.nil_prefix
  | cons c cs ih =>
    rw [List.pairwise_cons] at h
    rw [accepted,take_append_prefix_iff]
    by_cases hc : c = pipeBuf
    · rw [hc]
      exact ih h.2
    · rw [accepted_zeros (fun d hd => (h.1 d hd).resolve_left hc)]
      exact List.nil_prefix

theorem hole_shows {n c : ℕ} {cs : List ℕ} (hfits : Fits n (c::cs)) (hc : c ≠ pipeBuf)
    (h : ∀ buf : List UInt8, buf.length = n → accepted buf (c::cs) <+: buf) :
    ∀ d ∈ cs, d = 0 := by
  rw [Fits] at hfits
  obtain ⟨-,hle,hlt,hfits⟩ := hfits
  rcases eq_or_ne cs [] with rfl | hne
  · simp
  · have hc' : c < pipeBuf := lt_of_le_of_ne hle hc
    have hcn : c < n := hc'.trans (hlt hne)
    have hpre := h ((List.replicate n 0).set c 1) (by simp)
    have hdrop : ((List.replicate n (0 : UInt8)).set c 1).drop pipeBuf =
        List.replicate (n-pipeBuf) 0 := by
      rw [List.drop_set_of_lt hc',List.drop_replicate]
    rw [accepted,take_append_prefix_iff,hdrop] at hpre
    -- what is accepted of the later blocks is zeros, and the byte left out is `1`
    have hnil : accepted (List.replicate (n-pipeBuf) 0) cs = [] := by
      cases hacc : accepted (List.replicate (n-pipeBuf) 0) cs with
      | nil => rfl
      | cons b bs =>
        have hb : b = 0 := List.eq_of_mem_replicate
          (mem_of_mem_accepted (hacc ▸ List.mem_cons_self))
        have hget : ((List.replicate n (0 : UInt8)).set c 1).drop c =
            1::((List.replicate n (0 : UInt8)).set c 1).drop (c+1) := by
          rw [List.drop_eq_getElem_cons (by simpa using hcn)]
          simp
        rw [hacc,hget,List.cons_prefix_cons,hb] at hpre
        exact absurd hpre.1 (by decide)
    have hlen : (List.replicate (n-pipeBuf) (0 : UInt8)).length = n-pipeBuf :=
      List.length_replicate
    have hsum := accepted_length hlen hfits
    rw [hnil,List.length_nil] at hsum
    exact fun d hd => List.sum_eq_zero_iff.mp hsum.symm d hd

theorem accepted_prefix_all_iff {n : ℕ} {cs : List ℕ} (hfits : Fits n cs) :
    (∀ buf : List UInt8, buf.length = n → accepted buf cs <+: buf) ↔
      cs.Pairwise (fun c d => c = pipeBuf ∨ d = 0) := by
  refine ⟨?_,fun h buf _ => accepted_prefix h⟩
  induction cs generalizing n with
  | nil => exact fun _ => .nil
  | cons c cs ih =>
    intro h
    rw [List.pairwise_cons]
    by_cases hc : c = pipeBuf
    · refine ⟨fun _ _ => Or.inl hc,?_⟩
      rw [Fits] at hfits
      rcases eq_or_ne cs [] with rfl | hne
      · exact .nil
      · refine ih hfits.2.2.2 ?_
        intro buf hlen
        have hlt := hfits.2.2.1 hne
        have hpre := h (List.replicate pipeBuf 0++buf) (by
          rw [List.length_append,List.length_replicate,hlen]
          omega)
        rwa [accepted,hc,take_append_prefix_iff,List.drop_left' List.length_replicate] at hpre
    · have hzero := hole_shows hfits hc h
      refine ⟨fun d hd => Or.inr (hzero d hd),?_⟩
      exact List.pairwise_of_forall_mem_list (fun _ _ d hd => Or.inr (hzero d hd))

/-- The bytes accepted are a prefix of the buffer exactly when those of the blocks after a short
one are what it left out; and they are one for every buffer of the size exactly when nothing is
taken of these blocks. -/
theorem fifo_accepts_prefix_iff (as : List Answer) :
    (∀ buf x, unFifoOpsWrite [] buf as = some x → x.fifo = fifoAccepts buf as) ∧
    (∀ buf, fifoAccepts buf as <+: buf ↔
      (afterShort buf (blockCounts buf.length as)).2 <+:
        (afterShort buf (blockCounts buf.length as)).1) ∧
    ∀ n, (∀ buf : List UInt8, buf.length = n → fifoAccepts buf as <+: buf) ↔ NoHole n as := by
  refine ⟨fun buf x h => unFifoOpsWrite_accepted h,fun buf => accepted_prefix_iff buf _,?_⟩
  intro n
  rw [NoHole,← accepted_prefix_all_iff (blockCounts_fits n as)]
  exact forall₂_congr fun buf hlen => by rw [fifoAccepts,hlen]

/-- A full pipe while the first block is sent, and room for one byte after that: the fifo has the
last byte of 4097 and none of the others. -/
theorem fifo_hole :
    (∃ x, unFifoOpsWrite [] (List.replicate pipeBuf 0++[1]) [⟨0,11⟩,⟨1,0⟩] = some x ∧
      x.ret = 1 ∧ x.fifo = [1]) ∧
    ¬ [1] <+: List.replicate pipeBuf (0 : UInt8)++[1] := by
  have hlen : (List.replicate pipeBuf (0 : UInt8)++[1]).length = pipeBuf+1 := by
    rw [List.length_append,List.length_replicate]
    rfl
  have hshort : unWrite pipeBuf 0 [⟨0,11⟩,⟨1,0⟩] = some { count := 0, answers := [⟨1,0⟩] } :=
    unWrite_short (by decide) (by decide)
  constructor
  · rw [unFifoOpsWrite_chunk (by rw [hlen]; exact Nat.lt_succ_self _) hshort,
      List.drop_left' List.length_replicate,unFifoOpsWrite_last (by decide)]
    exact ⟨_,rfl,rfl,rfl⟩
  · intro h
    have hpos : 0 < pipeBuf := by decide
    obtain ⟨n,hn⟩ : ∃ n, pipeBuf = n+1 := ⟨pipeBuf-1,by omega⟩
    rw [hn,List.replicate_succ,List.cons_append,List.cons_prefix_cons] at h
    exact absurd h.1 (by decide)

end UserFifo
end PcEnv
