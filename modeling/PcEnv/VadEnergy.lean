import PcEnv.RoundBits
import PcEnv.Timespec
import PcEnv.VadOp

/-! What `isChunkSpeaking` tells `get_vad_status` of a chunk: the energies of its units. -/
namespace PcEnv
namespace VadOp

open RoundBits Streak

def int (x : ℤ) : Option ℤ := if -2^31 ≤ x ∧ x ≤ 2^31-1 then some x else none

/-- The fields of `vad_args_t` that `isChunkSpeaking` reads. `sample` has `bytes` bytes. -/
structure Chunk where
  sample : List UInt8
  vadThreshold : ℕ
  unitBytes : ℕ
  bytes_lt : sample.length < 2^32
  vadThreshold_lt : vadThreshold < 2^32
  unitBytes_lt : unitBytes < 2^32

namespace Chunk

def bytes (args : Chunk) : ℕ := args.sample.length

end Chunk

/-- A `short` of these bytes, the low one first. -/
def shortOf (lo hi : UInt8) : ℤ :=
  let x := lo.toNat+256*hi.toNat
  if x < 2^15 then x else (x : ℤ)-2^16

/-- A read at a byte's address, undefined beyond the samples. -/
def shortAt (args : Chunk) (p : ℕ) : Option ℤ := do
  let lo ← args.sample[p]?
  let hi ← args.sample[p+1]?
  some (shortOf lo hi)

/-- `sum` and `sum2` after rounds of the loop, `sample` being `base` bytes on. -/
def sums (args : Chunk) (base : ℕ) : ℕ → Option (ℤ×ℤ)
  | 0 => some (0,0)
  | i+1 => do
    let (sum,sum2) ← sums args base i
    let s ← shortAt args (base+2*i)
    let product ← int (s*s)
    let sum ← long (sum+product)
    let sum2 ← long (sum2+args.vadThreshold)
    some (sum,sum2)

def chunkUnitCompare (args : Chunk) (idx : ℕ) : Option ℕ := do
  let (sum,sum2) ← sums args (idx*args.unitBytes % 2^32) (args.unitBytes/2)
  some (if sum > sum2 then 1 else 0)

/-- `(size_t)(x*0.1)`: the double nearest to a tenth is `3602879701896397/2^55`, and the product
is rounded to 53 bits. -/
def timesTenth (x : ℕ) : ℕ := roundBits 53 (x*3602879701896397)/2^55

def minOverTimes (x : ℕ) : ℕ :=
  let minVal := timesTenth x
  if minVal > 0 then minVal else 1

def overTimes (args : Chunk) : ℕ → Option ℕ
  | 0 => some 0
  | i+1 => do
    let times ← overTimes args i
    let r ← chunkUnitCompare args i
    some ((times+r) % 2^32)

/-- A division by zero is undefined. -/
def isChunkSpeaking (args : Chunk) : Option Bool := do
  if args.unitBytes = 0 then none
  let unitCount := args.bytes/args.unitBytes
  let times ← overTimes args unitCount
  some (decide (times ≥ minOverTimes unitCount))

/-- The chunk is looked at before the end only. -/
def getVadStatusOf (args : VadArgs) (chunk : Chunk) : Option VadArgs :=
  match args.savedStatus with
  | .finished | .done => some args
  | _ => (isChunkSpeaking chunk).map (getVadStatus args)

namespace Chunk

variable (args : Chunk)

def unitCount : ℕ := args.bytes/args.unitBytes

def samp (idx i : ℕ) : ℤ := (shortAt args (idx*args.unitBytes+2*i)).getD 0

/-- The sum of the first `n` squares of a unit. -/
def energy (idx n : ℕ) : ℤ := ∑ i ∈ Finset.range n,args.samp idx i^2

/-- Unit `idx` has more energy than the threshold gives its samples. -/
def Over (idx : ℕ) : Prop :=
  ((args.unitBytes/2*args.vadThreshold : ℕ) : ℤ) < args.energy idx (args.unitBytes/2)

instance (idx : ℕ) : Decidable (args.Over idx) := by unfold Over; infer_instance

def overs : Finset ℕ := (Finset.range args.unitCount).filter args.Over

def speaking : Bool := decide (max 1 (args.unitCount/10) ≤ args.overs.card)

end Chunk

theorem int_of_range {x : ℤ} (hl : -2^31 ≤ x) (hu : x ≤ 2^31-1) : int x = some x :=
  if_pos ⟨hl,hu⟩

theorem shortOf_sq_le (lo hi : UInt8) : shortOf lo hi^2 ≤ 2^30 := by
  have hlo := lo.toNat_lt
  have hhi := hi.toNat_lt
  have hrange : -2^15 ≤ shortOf lo hi ∧ shortOf lo hi ≤ 2^15 := by
    simp only [shortOf]
    split_ifs <;> omega
  exact (sq_le_sq' hrange.1 hrange.2).trans (by norm_num)

theorem shortAt_of_lt {args : Chunk} {p : ℕ} (h : p+1 < args.bytes) :
    ∃ lo hi, shortAt args p = some (shortOf lo hi) := by
  unfold Chunk.bytes at h
  refine ⟨args.sample[p],args.sample[p+1],?_⟩
  simp [shortAt,List.getElem?_eq_getElem h,List.getElem?_eq_getElem (Nat.lt_of_succ_lt h)]

namespace Chunk

variable {args : Chunk}

theorem unitCount_lt (args : Chunk) : args.unitCount < 2^32 :=
  (Nat.div_le_self _ _).trans_lt args.bytes_lt

theorem unit_le {idx : ℕ} (hidx : idx < args.unitCount) :
    idx*args.unitBytes+args.unitBytes ≤ args.bytes :=
  calc idx*args.unitBytes+args.unitBytes = (idx+1)*args.unitBytes := (add_one_mul _ _).symm
    _ ≤ args.unitCount*args.unitBytes := Nat.mul_le_mul_right _ hidx
    _ ≤ args.bytes := Nat.div_mul_le_self _ _

theorem shortAt_samp {idx i : ℕ} (hidx : idx < args.unitCount) (hi : i < args.unitBytes/2) :
    shortAt args (idx*args.unitBytes+2*i) = some (args.samp idx i) := by
  have hunit := unit_le hidx
  have hend : idx*args.unitBytes+2*i+1 < args.bytes := by omega
  obtain ⟨lo,hi',hread⟩ := shortAt_of_lt hend
  rw [samp,hread,Option.getD_some]

theorem samp_sq_le (args : Chunk) (idx i : ℕ) : args.samp idx i^2 ≤ 2^30 := by
  unfold samp shortAt
  cases hlo : args.sample[idx*args.unitBytes+2*i]? with
  | none => norm_num
  | some lo =>
    cases hhi : args.sample[idx*args.unitBytes+2*i+1]? with
    | none => norm_num
    | some hi => simpa [hhi] using shortOf_sq_le lo hi

@[simp] theorem energy_zero (idx : ℕ) : args.energy idx 0 = 0 := rfl

theorem energy_succ (idx n : ℕ) :
    args.energy idx (n+1) = args.energy idx n+args.samp idx n^2 :=
  Finset.sum_range_succ _ _

theorem energy_nonneg (idx n : ℕ) : 0 ≤ args.energy idx n :=
  Finset.sum_nonneg (fun _ _ => sq_nonneg _)

theorem energy_le (idx n : ℕ) : args.energy idx n ≤ n*2^30 := by
  induction n with
  | zero => simp
  | succ n ih =>
    have hsq := samp_sq_le args idx n
    rw [energy_succ]
    push_cast
    linarith

/-- Up to `2^31` terms of up to `2^32` are below `2^63`. -/
theorem terms_le {n t : ℕ} (hn : n ≤ args.unitBytes/2) (ht : t < 2^32) : (n*t : ℤ) ≤ longMax := by
  have hunit := args.unitBytes_lt
  have hprod : n*t ≤ (2^31-1)*(2^32-1) := Nat.mul_le_mul (by omega) (by omega)
  have hcast : (n*t : ℤ) ≤ ((2^31-1)*(2^32-1) : ℕ) := by exact_mod_cast hprod
  exact hcast.trans (by norm_num [longMax])

theorem energy_le_longMax {n : ℕ} (idx : ℕ) (hn : n ≤ args.unitBytes/2) :
    args.energy idx n ≤ longMax :=
  (energy_le idx n).trans (by exact_mod_cast terms_le (t := 2^30) hn (by norm_num))

theorem int_samp_sq (idx i : ℕ) :
    int (args.samp idx i*args.samp idx i) = some (args.samp idx i^2) := by
  have hsq := samp_sq_le args idx i
  have hnonneg := sq_nonneg (args.samp idx i)
  rw [← sq]
  exact int_of_range (by omega) (by omega)

theorem sums_eq {idx n : ℕ} (hidx : idx < args.unitCount) (hn : n ≤ args.unitBytes/2) :
    sums args (idx*args.unitBytes) n = some (args.energy idx n,(n : ℤ)*args.vadThreshold) := by
  induction n with
  | zero => simp [sums]
  | succ n ih =>
    have hsum : long (args.energy idx n+args.samp idx n^2) = some (args.energy idx (n+1)) := by
      have hnonneg : 0 ≤ args.energy idx (n+1) := energy_nonneg idx (n+1)
      have hle := energy_le_longMax idx hn
      rw [← energy_succ]
      exact long_of_range (by unfold longMax; omega) hle
    have hsum2 : long (n*args.vadThreshold+args.vadThreshold) =
        some (((n+1 : ℕ) : ℤ)*args.vadThreshold) := by
      have hle := terms_le hn args.vadThreshold_lt
      rw [← add_one_mul,← Nat.cast_add_one]
      exact long_of_range ((by unfold longMax; omega : -longMax-1 ≤ 0).trans (by positivity)) hle
    simp only [sums,ih (by omega),shortAt_samp hidx hn,int_samp_sq,hsum,hsum2,Option.bind_eq_bind,
      Option.bind_some]

theorem chunkUnitCompare_eq {idx : ℕ} (hidx : idx < args.unitCount) :
    chunkUnitCompare args idx = some (if args.Over idx then 1 else 0) := by
  have hmod : idx*args.unitBytes % 2^32 = idx*args.unitBytes := by
    have hunit := unit_le hidx
    have hbytes : args.bytes < 2^32 := args.bytes_lt
    exact Nat.mod_eq_of_lt (by omega)
  rw [chunkUnitCompare,hmod,sums_eq hidx le_rfl]
  simp [Over]

theorem overTimes_eq {n : ℕ} (hn : n ≤ args.unitCount) :
    overTimes args n = some ((Finset.range n).filter args.Over).card := by
  induction n with
  | zero => simp [overTimes]
  | succ n ih =>
    have hcard : ((Finset.range (n+1)).filter args.Over).card ≤ n+1 :=
      (Finset.card_filter_le _ _).trans_eq (Finset.card_range _)
    have hcount := args.unitCount_lt
    have hstep : ((Finset.range (n+1)).filter args.Over).card =
        ((Finset.range n).filter args.Over).card+(if args.Over n then 1 else 0) := by
      rw [Finset.range_add_one,Finset.filter_insert]
      split_ifs
      · rw [Finset.card_insert_of_notMem (by simp)]
      · rfl
    simp only [overTimes,ih (Nat.le_of_succ_le hn),chunkUnitCompare_eq hn,
      Option.bind_eq_bind,Option.bind_some]
    rw [← hstep,Nat.mod_eq_of_lt (by omega)]

/-- `args'` has the samples of `args` with greater or the same absolute values, and no higher a
threshold. -/
structure Louder (args args' : Chunk) : Prop where
  bytes : args'.bytes = args.bytes
  unitBytes : args'.unitBytes = args.unitBytes
  vadThreshold : args'.vadThreshold ≤ args.vadThreshold
  samp : ∀ idx < args.unitCount, ∀ i < args.unitBytes/2, |args.samp idx i| ≤ |args'.samp idx i|

namespace Louder

variable {args' : Chunk}

theorem unitCount (h : args.Louder args') : args'.unitCount = args.unitCount := by
  rw [Chunk.unitCount,Chunk.unitCount,h.bytes,h.unitBytes]

theorem energy_le (h : args.Louder args') {idx : ℕ} (hidx : idx < args.unitCount) :
    args.energy idx (args.unitBytes/2) ≤ args'.energy idx (args.unitBytes/2) := by
  apply Finset.sum_le_sum
  intro i hi
  exact sq_le_sq.mpr (h.samp idx hidx i (Finset.mem_range.mp hi))

theorem imp_over (h : args.Louder args') {idx : ℕ} (hidx : idx < args.unitCount)
    (hover : args.Over idx) : args'.Over idx := by
  have hthreshold : args.unitBytes/2*args'.vadThreshold ≤ args.unitBytes/2*args.vadThreshold :=
    Nat.mul_le_mul_left _ h.vadThreshold
  have henergy := h.energy_le hidx
  unfold Over at hover ⊢
  rw [h.unitBytes]
  omega

theorem overs_subset (h : args.Louder args') : args.overs ⊆ args'.overs := by
  intro idx hidx
  rw [overs,Finset.mem_filter,Finset.mem_range] at hidx ⊢
  rw [h.unitCount]
  exact ⟨hidx.1,h.imp_over hidx.1 hidx.2⟩

theorem speaking (h : args.Louder args') (hspeaking : args.speaking = true) :
    args'.speaking = true := by
  rw [Chunk.speaking,decide_eq_true_eq] at hspeaking ⊢
  rw [h.unitCount]
  exact hspeaking.trans (Finset.card_le_card h.overs_subset)

end Louder

def element (args : Chunk) (k : ℕ) : ℤ := (shortAt args (2*k)).getD 0

theorem samp_of_even {m : ℕ} (hm : args.unitBytes = 2*m) (idx i : ℕ) :
    args.samp idx i = args.element (idx*m+i) := by
  have hp : idx*args.unitBytes+2*i = 2*(idx*m+i) := by
    rw [hm]
    ring
  rw [samp,element,hp]

/-- The units are made of whole elements of the array, and these are greater or the same. -/
structure Raised (args args' : Chunk) : Prop where
  even : Even args.unitBytes
  bytes : args'.bytes = args.bytes
  unitBytes : args'.unitBytes = args.unitBytes
  vadThreshold : args'.vadThreshold ≤ args.vadThreshold
  element : ∀ k, |args.element k| ≤ |args'.element k|

theorem Raised.louder {args' : Chunk} (h : args.Raised args') : args.Louder args' where
  bytes := h.bytes
  unitBytes := h.unitBytes
  vadThreshold := h.vadThreshold
  samp idx _ i _ := by
    obtain ⟨m,hm⟩ := h.even.exists_two_nsmul
    rw [smul_eq_mul] at hm
    rw [samp_of_even hm,samp_of_even (h.unitBytes.trans hm)]
    exact h.element _

/-- What `chunkUnitCompare` computes of a unit, each `int` and each sum of the loop in range. -/
structure Exact (args : Chunk) (idx : ℕ) : Prop where
  product : ∀ i < args.unitBytes/2,
    shortAt args (idx*args.unitBytes+2*i) = some (args.samp idx i) ∧
      int (args.samp idx i*args.samp idx i) = some (args.samp idx i^2)
  sums : ∀ n ≤ args.unitBytes/2,
    sums args (idx*args.unitBytes) n = some (args.energy idx n,(n : ℤ)*args.vadThreshold)
  sum_range : ∀ n ≤ args.unitBytes/2, args.energy idx n ≤ longMax
  sum2_range : ∀ n ≤ args.unitBytes/2, (n*args.vadThreshold : ℤ) ≤ longMax
  verdict : chunkUnitCompare args idx = some (if args.Over idx then 1 else 0)

theorem exact_of_lt {idx : ℕ} (hidx : idx < args.unitCount) : args.Exact idx where
  product i hi := ⟨shortAt_samp hidx hi,int_samp_sq idx i⟩
  sums _ hn := sums_eq hidx hn
  sum_range _ hn := energy_le_longMax idx hn
  sum2_range _ hn := terms_le hn args.vadThreshold_lt
  verdict := chunkUnitCompare_eq hidx

end Chunk

theorem timesTenth_eq {x : ℕ} (h : x < 2^32) : timesTenth x = x/10 := by
  have hlow : 2^55*(x/10) ≤ roundBits 53 (x*3602879701896397) :=
    le_roundBits (e := 55) (dvd_mul_right _ _) (by omega) (by omega)
  have hupp := two_pow_mul_roundBits_le 53 (x*3602879701896397)
  unfold timesTenth
  omega

theorem minOverTimes_eq {x : ℕ} (h : x < 2^32) : minOverTimes x = max 1 (x/10) := by
  simp only [minOverTimes,timesTenth_eq h]
  split_ifs <;> omega

theorem isChunkSpeaking_eq {args : Chunk} (hunit : 1 ≤ args.unitBytes) :
    isChunkSpeaking args = some args.speaking := by
  have htimes : overTimes args (args.bytes/args.unitBytes) = some args.overs.card :=
    Chunk.overTimes_eq le_rfl
  have hmin : minOverTimes (args.bytes/args.unitBytes) = max 1 (args.unitCount/10) :=
    minOverTimes_eq args.unitCount_lt
  simp [isChunkSpeaking,htimes,hmin,Chunk.speaking,Nat.ne_of_gt hunit]

/-- The energy test is exact, and louder samples or a lower threshold do not silence a chunk; where
units are even the samples are the elements of the array. -/
theorem isChunkSpeaking_exact_mono {args : Chunk} (hunit : 1 ≤ args.unitBytes) :
    (∀ idx < args.unitCount, args.Exact idx) ∧
      (∀ args', args.Louder args' →
        isChunkSpeaking args = some true → isChunkSpeaking args' = some true) ∧
      ∀ args', args.Raised args' →
        isChunkSpeaking args = some true → isChunkSpeaking args' = some true := by
  have hmono {args' : Chunk} (hlouder : args.Louder args') (hspeaking : isChunkSpeaking args =
      some true) : isChunkSpeaking args' = some true := by
    rw [isChunkSpeaking_eq hunit,Option.some.injEq] at hspeaking
    rw [isChunkSpeaking_eq (hlouder.unitBytes ▸ hunit),hlouder.speaking hspeaking]
  exact ⟨fun idx hidx => Chunk.exact_of_lt hidx,fun _ => hmono,fun _ h => hmono h.louder⟩

/-- A unit of three bytes, whose sample is 256, and the bytes of one more. -/
def shout : Chunk where
  sample := [0,1,0,0]
  vadThreshold := 65535
  unitBytes := 3
  bytes_lt := by decide
  vadThreshold_lt := by decide
  unitBytes_lt := by decide

def shoutLouder : Chunk := { shout with sample := [255,254,0,0], bytes_lt := by decide }

theorem isChunkSpeaking_exact_mono_shout :
    shout.Exact 0 ∧ isChunkSpeaking shoutLouder = some true :=
  have hunit : 1 ≤ shout.unitBytes := by decide
  ⟨(isChunkSpeaking_exact_mono hunit).1 0 (by decide),
    (isChunkSpeaking_exact_mono hunit).2.1 shoutLouder
      ⟨rfl,rfl,le_rfl,by decide⟩ (by decide +kernel)⟩

theorem getVadStatusOf_eq {chunk : Chunk} (hunit : 1 ≤ chunk.unitBytes) (args : VadArgs) :
    getVadStatusOf args chunk = some (getVadStatus args chunk.speaking) := by
  unfold getVadStatusOf
  rw [isChunkSpeaking_eq hunit]
  cases hs : args.savedStatus <;> simp [getVadStatus,hs]

/-- A run over chunks is a run over their verdicts. -/
theorem foldlM_getVadStatusOf {chunks : List Chunk} (hunit : ∀ chunk ∈ chunks, 1 ≤ chunk.unitBytes)
    (args : VadArgs) :
    chunks.foldlM getVadStatusOf args = some (after args (chunks.map Chunk.speaking)) := by
  induction chunks generalizing args with
  | nil => rfl
  | cons chunk chunks ih =>
    rw [List.foldlM_cons,getVadStatusOf_eq (hunit chunk List.mem_cons_self)]
    exact ih (fun c hc => hunit c (List.mem_cons_of_mem _ hc)) _

/-- Over real chunks: after every call the status is the one that the energies of the chunks so far
call for, unless one silent chunk is to finish the speech and comes right after its start. -/
theorem chunk_status_iff {s f : ℕ} (hs₁ : 1 ≤ s) (hs : s ≤ 255) (hf₁ : 1 ≤ f) (hf : f ≤ 255)
    {chunks : List Chunk} (hunit : ∀ chunk ∈ chunks, 1 ≤ chunk.unitBytes) :
    (∀ h, h <+: chunks → h ≠ [] → ∃ args, h.foldlM getVadStatusOf (start s f) = some args ∧
      Expected s f (h.map Chunk.speaking) args.savedStatus) ↔
      2 ≤ f ∨ ∀ h, First s true h → ¬ h++[false] <+: chunks.map Chunk.speaking := by
  have hrun {h : List Chunk} (hp : h <+: chunks) :
      h.foldlM getVadStatusOf (start s f) = some (after (start s f) (h.map Chunk.speaking)) :=
    foldlM_getVadStatusOf (fun c hc => hunit c (hp.subset hc)) _
  constructor
  · intro hall
    by_contra hbad
    push Not at hbad
    obtain ⟨hlt,h,hfirst,hp⟩ := hbad
    obtain rfl : f = 1 := by omega
    obtain ⟨l,hl,hmap⟩ := List.prefix_map_iff.mp hp
    have hne : l ≠ [] := by
      rintro rfl
      simp at hmap
    obtain ⟨args,hargs,hexpected⟩ := hall l hl hne
    obtain rfl := Option.some.inj ((hrun hl).symm.trans hargs)
    rw [← hmap] at hexpected
    exact silent_not_expected hs₁ hs hfirst hexpected
  · intro hok h hp _
    refine ⟨_,hrun hp,(after_tracks hs₁ hs hf₁ hf ?_).expected⟩
    exact hok.imp_right fun hno p hfirst hp' => hno p hfirst (hp'.trans (hp.map _))

def hush : Chunk := { shout with sample := [0,0,0,0], bytes_lt := by decide }

theorem chunk_status_iff_shout : ∃ args,
    [shout,shout,hush].foldlM getVadStatusOf (start 2 2) = some args ∧
      Expected 2 2 ([shout,shout,hush].map Chunk.speaking) args.savedStatus := by
  have hunit : ∀ chunk ∈ [shout,shout,hush], 1 ≤ chunk.unitBytes := by simp [shout,hush]
  have hall := chunk_status_iff (s := 2) (f := 2) (by decide) (by decide) (by decide) (by decide)
    hunit
  exact hall.mpr (Or.inl (le_refl 2)) _ List.prefix_rfl (by simp)

end VadOp
end PcEnv
