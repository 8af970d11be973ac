import PcEnv.FdOp
import PcEnv.Runs
import PcEnv.Timespec

/-! The clocks of `px_timer.c`: elapsed time, the deadlines of a `trc_time_t` and the one of
`px_semtimedwait`, and the wait for a deadline. -/
namespace PcEnv
namespace PxTimer

open Runs Timespec

/-- `get_tsv`, with the difference it leaves in its first argument. -/
def getTsv (t2 t1 : Timespec) : Option (Timespec × ℤ) := do
  let sec ← long (t2.tvSec-t1.tvSec)
  let nsec ← long (t2.tvNsec-t1.tvNsec)
  some ({ tvSec := sec, tvNsec := nsec },if nsec < 0 then -1 else 0)

def scaled (tv : Timespec) (k u : ℤ) : Option ℤ := do
  let sec ← long (tv.tvSec*k)
  long (sec+tv.tvNsec.tdiv u)

def getTsd (t2 t1 : Timespec) (lev : Char) : Option ℤ := do
  let (tv,tsd) ← getTsv t2 t1
  if tsd < 0 then some (-1)
  else match lev with
    | 's' => some tv.tvSec
    | 'm' => scaled tv 1000 1000000
    | 'u' => scaled tv 1000000 1000
    | 'n' => scaled tv 1000000000 1
    | _ => some (-1)

def unitNs : Char → Option ℤ
  | 's' => some 1000000000
  | 'm' => some 1000000
  | 'u' => some 1000
  | 'n' => some 1
  | _ => none

theorem getTsv_eq {t1 t2 : Timespec} (h1 : t1.Normalised) (h2 : t2.Normalised)
    (hle : t1.tvSec ≤ t2.tvSec) (hfit : t2.tvSec-t1.tvSec ≤ longMax) :
    getTsv t2 t1 = some (⟨t2.tvSec-t1.tvSec,t2.tvNsec-t1.tvNsec⟩,
      if t2.tvNsec-t1.tvNsec < 0 then -1 else 0) := by
  have hlo₁ := h1.nonneg
  have hup₁ := h1.lt
  have hlo₂ := h2.nonneg
  have hup₂ := h2.lt
  have hsec : long (t2.tvSec-t1.tvSec) = some (t2.tvSec-t1.tvSec) :=
    long_of_range (by unfold longMax; omega) hfit
  have hnsec : long (t2.tvNsec-t1.tvNsec) = some (t2.tvNsec-t1.tvNsec) :=
    long_of_range (by unfold longMax; omega) (by unfold longMax; omega)
  simp only [getTsv,hsec,hnsec,Option.bind_eq_bind,Option.bind_some]

/-- A borrow is taken for a failure, whatever the unit. -/
theorem getTsd_borrow {t1 t2 : Timespec} (h1 : t1.Normalised) (h2 : t2.Normalised)
    (h : t2.tvNsec < t1.tvNsec) (lev : Char) {x : ℤ} (hx : getTsd t2 t1 lev = some x) :
    x = -1 := by
  have hneg : t2.tvNsec-t1.tvNsec < 0 := by omega
  cases hsec : long (t2.tvSec-t1.tvSec) with
  | none => simp [getTsd,getTsv,hsec] at hx
  | some sec =>
    have hlo := h2.nonneg
    have hup := h1.lt
    have hnsec : long (t2.tvNsec-t1.tvNsec) = some (t2.tvNsec-t1.tvNsec) :=
      long_of_range (by unfold longMax; omega) (by unfold longMax; omega)
    simp only [getTsd,getTsv,hsec,hnsec,Option.bind_eq_bind,Option.bind_some,if_pos hneg] at hx
    rw [if_pos (by decide)] at hx
    exact (Option.some.inj hx).symm

theorem scaled_eq {sec nsec k u : ℤ} (hsec : 0 ≤ sec) (hnsec : 0 ≤ nsec) (hk : 0 ≤ k)
    (hu : 0 < u) (hfit : sec*k+nsec/u ≤ longMax) :
    scaled ⟨sec,nsec⟩ k u = some (sec*k+nsec/u) := by
  have hprod : 0 ≤ sec*k := mul_nonneg hsec hk
  have hquot : 0 ≤ nsec/u := Int.ediv_nonneg hnsec hu.le
  have hlow : long (sec*k) = some (sec*k) :=
    long_of_range (by unfold longMax; omega) (by omega)
  simp only [scaled,hlow,Int.tdiv_eq_ediv_of_nonneg hnsec,Option.bind_eq_bind,Option.bind_some]
  exact long_of_range (by unfold longMax; omega) hfit

theorem getTsd_noBorrow {t1 t2 : Timespec} (h1 : t1.Normalised) (h2 : t2.Normalised)
    (hle : t1.tvSec ≤ t2.tvSec) (hfit : t2.tvSec-t1.tvSec ≤ longMax)
    (hnsec : t1.tvNsec ≤ t2.tvNsec) (lev : Char) :
    getTsd t2 t1 lev = match lev with
      | 's' => some (t2.tvSec-t1.tvSec)
      | 'm' => scaled ⟨t2.tvSec-t1.tvSec,t2.tvNsec-t1.tvNsec⟩ 1000 1000000
      | 'u' => scaled ⟨t2.tvSec-t1.tvSec,t2.tvNsec-t1.tvNsec⟩ 1000000 1000
      | 'n' => scaled ⟨t2.tvSec-t1.tvSec,t2.tvNsec-t1.tvNsec⟩ 1000000000 1
      | _ => some (-1) := by
  have hnot : ¬ t2.tvNsec-t1.tvNsec < 0 := by omega
  simp only [getTsd,getTsv_eq h1 h2 hle hfit,if_neg hnot,Option.bind_eq_bind,Option.bind_some,
    lt_irrefl,if_false]

theorem getTsd_eq {t1 t2 : Timespec} (h1 : t1.Normalised) (h2 : t2.Normalised)
    (hle : t1.ns ≤ t2.ns) (hnsec : t1.tvNsec ≤ t2.tvNsec) {lev : Char} {u : ℤ}
    (hu : unitNs lev = some u) (hfit : (t2.ns-t1.ns)/u ≤ longMax) :
    getTsd t2 t1 lev = some ((t2.ns-t1.ns)/u) := by
  have hsec := h1.le_sec h2 hle
  have hlow := h1.nonneg
  have hupp := h2.lt
  have hs : 0 ≤ t2.tvSec-t1.tvSec := by omega
  have hn : 0 ≤ t2.tvNsec-t1.tvNsec := by omega
  -- a second has `k` units, and the seconds alone are no more than the result
  obtain ⟨k,hk,hupos,hku⟩ : ∃ k, 0 < k ∧ 0 < u ∧ k*u = 1000000000 := by
    unfold unitNs at hu
    split at hu <;> cases hu
    exacts [⟨1,by decide⟩,⟨1000,by decide⟩,⟨1000000,by decide⟩,⟨1000000000,by decide⟩]
  have helapsed := sub_ediv (s := t1) (t := t2) hupos hku
  have hquot : 0 ≤ (t2.tvNsec-t1.tvNsec)/u := Int.ediv_nonneg hn hupos.le
  have hle' : t2.tvSec-t1.tvSec ≤ (t2.tvSec-t1.tvSec)*k := le_mul_of_one_le_right hs hk
  rw [getTsd_noBorrow h1 h2 hsec (by omega) hnsec]
  rw [helapsed] at hfit ⊢
  unfold unitNs at hu
  split at hu <;> cases hu
  · obtain rfl : k = 1 := by omega
    rw [Int.ediv_eq_zero_of_lt hn (by omega),mul_one,add_zero]
  · obtain rfl : k = 1000 := by omega
    exact scaled_eq hs hn (by decide) (by decide) hfit
  · obtain rfl : k = 1000000 := by omega
    exact scaled_eq hs hn (by decide) (by decide) hfit
  · obtain rfl : k = 1000000000 := by omega
    exact scaled_eq hs hn (by decide) (by decide) hfit

theorem unitNs_pos {lev : Char} {u : ℤ} (h : unitNs lev = some u) : 0 < u := by
  unfold unitNs at h
  split at h <;> cases h <;> decide

/-- `get_tsd` measures the time between two instants exactly when the nanoseconds of the later
one are no less than those of the earlier one. -/
theorem getTsd_elapsed_iff (t1 t2 : Timespec) (lev : Char) (u : ℤ) (h1 : t1.Normalised)
    (h2 : t2.Normalised) (hle : t1.ns ≤ t2.ns) (hu : unitNs lev = some u)
    (hfit : (t2.ns-t1.ns)/u ≤ longMax) :
    (getTsd t2 t1 lev = some ((t2.ns-t1.ns)/u) ∧
      (getTsd t2 t1 lev = some (-1) → t2.ns < t1.ns)) ↔ t1.tvNsec ≤ t2.tvNsec := by
  have hpos : 0 ≤ (t2.ns-t1.ns)/u := Int.ediv_nonneg (by omega) (unitNs_pos hu).le
  constructor
  · rintro ⟨hval,-⟩
    by_contra hlt
    have hfail := getTsd_borrow h1 h2 (not_le.mp hlt) lev hval
    omega
  · intro hnsec
    have hval := getTsd_eq h1 h2 hle hnsec hu hfit
    refine ⟨hval,?_⟩
    intro hfail
    rw [hval,Option.some.injEq] at hfail
    omega

theorem getTsd_elapsed_iff_half :
    getTsd ⟨2,500000000⟩ ⟨1,200000000⟩ 'm' = some 1300 ∧
      (getTsd ⟨2,500000000⟩ ⟨1,200000000⟩ 'm' = some (-1) →
        (⟨2,500000000⟩ : Timespec).ns < (⟨1,200000000⟩ : Timespec).ns) :=
  (getTsd_elapsed_iff ⟨1,200000000⟩ ⟨2,500000000⟩ 'm' 1000000 (by decide) (by decide)
    (by decide) rfl (by decide)).mpr (by decide)

/-- From 0.9 s to 1.1 s, which is 200 ms. -/
theorem getTsd_fails_on_borrow :
    (⟨0,900000000⟩ : Timespec).Normalised ∧ (⟨1,100000000⟩ : Timespec).Normalised ∧
    ((⟨1,100000000⟩ : Timespec).ns-(⟨0,900000000⟩ : Timespec).ns)/1000000 = 200 ∧
    getTsd ⟨1,100000000⟩ ⟨0,900000000⟩ 'm' = some (-1) := by decide

structure TrcTime where
  last : Timespec
  tv : Timespec
  deriving DecidableEq, Repr

/-- `px_gettime`, with what it leaves in its second argument; `none` where `clock_gettime`
fails. -/
def pxGettime (ts : Timespec) : Option Timespec → Timespec × ℤ
  | some now => (now,0)
  | none => (ts,-1)

def addTo (t u : Timespec) : Option Timespec := do
  let sec ← long (t.tvSec+u.tvSec)
  let nsec ← long (t.tvNsec+u.tvNsec)
  some { tvSec := sec, tvNsec := nsec }

def carry (t : Timespec) : Option Timespec :=
  if 999999999 < t.tvNsec then do
    let sec ← long (t.tvSec+1)
    let nsec ← long (t.tvNsec-1000000000)
    some { tvSec := sec, tvNsec := nsec }
  else some t

def trcTimeProcSync (ptr : TrcTime) (clock : Option Timespec) : Option (TrcTime × ℤ) :=
  let (last,ret) := pxGettime ptr.last clock
  if ret < 0 then some ({ ptr with last := last },-1)
  else do
    let last ← addTo last ptr.tv
    let last ← carry last
    some ({ ptr with last := last },0)

/-- A `_tv` of `NULL` is read all the same. -/
def trcTimeProcMsync (ptr : TrcTime) (tv clock : Option Timespec) : Option (TrcTime × ℤ) :=
  let (last,ret) := pxGettime ptr.last clock
  if ret < 0 then some ({ ptr with last := last },-1)
  else do
    let ptr := { ptr with tv := tv.getD ptr.tv }
    let tv ← tv
    let last ← addTo last tv
    let last ← carry last
    some ({ ptr with last := last },0)

/-- `wait` is `sem_timedwait` on the semaphore; the deadline it is given comes with the result. -/
def pxSemtimedwait (clock : Option Timespec) (tsv : Timespec) (wait : Timespec → ℤ) :
    Option (ℤ × Option Timespec) :=
  match clock with
  | none => some (-1,none)
  | some ts => do
    let ts ← addTo ts tsv
    some (wait ts,some ts)

def SecFits (t u : Timespec) : Prop :=
  -longMax-1 ≤ t.tvSec+u.tvSec ∧ t.tvSec+u.tvSec ≤ longMax

instance (t u : Timespec) : Decidable (SecFits t u) := inferInstanceAs (Decidable (_ ∧ _))

theorem addTo_eq_some {t u s : Timespec} (ht : t.Normalised) (hu : u.Normalised) :
    addTo t u = some s ↔ SecFits t u ∧ s = ⟨t.tvSec+u.tvSec,t.tvNsec+u.tvNsec⟩ := by
  have ht₀ := ht.nonneg
  have ht₁ := ht.lt
  have hu₀ := hu.nonneg
  have hu₁ := hu.lt
  have hnsec : long (t.tvNsec+u.tvNsec) = some (t.tvNsec+u.tvNsec) :=
    long_of_range (by unfold longMax; omega) (by unfold longMax; omega)
  unfold addTo SecFits
  rw [hnsec]
  by_cases hfit : -longMax-1 ≤ t.tvSec+u.tvSec ∧ t.tvSec+u.tvSec ≤ longMax
  · rw [long_of_range hfit.1 hfit.2]
    simp [hfit,eq_comm]
  · rw [long,if_neg hfit]
    exact iff_of_false (by simp) (fun h => hfit h.1)

theorem addTo_carry {t u : Timespec} (ht : t.Normalised) (hu : u.Normalised)
    (hfit : SecFits t u) (hsec : t.tvSec+u.tvSec+1 ≤ longMax ∨ t.tvNsec+u.tvNsec ≤ 999999999) :
    (addTo t u).bind carry = some (ofNs (t.ns+u.ns)) := by
  have hadd : addTo t u = some ⟨t.tvSec+u.tvSec,t.tvNsec+u.tvNsec⟩ :=
    (addTo_eq_some ht hu).mpr ⟨hfit,rfl⟩
  rw [hadd,Option.bind_some]
  by_cases h : 999999999 < t.tvNsec+u.tvNsec
  · have ht₁ := ht.lt
    have hu₁ := hu.lt
    have hlow := hfit.1
    have hupp : t.tvSec+u.tvSec+1 ≤ longMax := hsec.resolve_right (by omega)
    have hinc : long (t.tvSec+u.tvSec+1) = some (t.tvSec+u.tvSec+1) :=
      long_of_range (by omega) hupp
    have hdec : long (t.tvNsec+u.tvNsec-1000000000) = some (t.tvNsec+u.tvNsec-1000000000) :=
      long_of_range (by unfold longMax; omega) (by unfold longMax; omega)
    simp only [carry,if_pos h,hinc,hdec,Option.bind_eq_bind,Option.bind_some]
    rw [add_carry_eq_ofNs ht hu h]
  · rw [carry,if_neg h,(add_eq_ofNs_iff ht hu).mpr (not_lt.mp h)]

theorem trcTimeProcSync_eq (ptr : TrcTime) (now : Timespec) :
    trcTimeProcSync ptr (some now) =
      ((addTo now ptr.tv).bind carry).map (fun last => ({ ptr with last := last },0)) := by
  cases h : addTo now ptr.tv with
  | none => simp [trcTimeProcSync,pxGettime,h]
  | some d => cases hc : carry d <;> simp [trcTimeProcSync,pxGettime,h,hc]

theorem trcTimeProcMsync_eq (ptr : TrcTime) (tv now : Timespec) :
    trcTimeProcMsync ptr (some tv) (some now) =
      ((addTo now tv).bind carry).map (fun last => ({ last := last, tv := tv },0)) := by
  cases h : addTo now tv with
  | none => simp [trcTimeProcMsync,pxGettime,h]
  | some d => cases hc : carry d <;> simp [trcTimeProcMsync,pxGettime,h,hc]

/-- The three deadlines are the normalised form of the sum exactly when the nanoseconds carry
nothing into the seconds, and these add up within a `time_t`. -/
theorem deadlines_alike_iff (ptr : TrcTime) (now iv : Timespec) (wait : Timespec → ℤ)
    (hn : now.Normalised) (hi : iv.Normalised) :
    (∃ d : Timespec, d.Normalised ∧ d.ns = now.ns+iv.ns ∧
      trcTimeProcSync { ptr with tv := iv } (some now) = some ({ last := d, tv := iv },0) ∧
      trcTimeProcMsync ptr (some iv) (some now) = some ({ last := d, tv := iv },0) ∧
      pxSemtimedwait (some now) iv wait = some (wait d,some d)) ↔
    now.tvNsec+iv.tvNsec ≤ 999999999 ∧ SecFits now iv := by
  have hsem : ∀ d, pxSemtimedwait (some now) iv wait = some (wait d,some d) ↔
      addTo now iv = some d := by
    intro d
    cases h : addTo now iv with
    | none => simp [pxSemtimedwait,h]
    | some ts =>
      simp only [pxSemtimedwait,h,Option.bind_eq_bind,Option.bind_some,Option.some.injEq,
        Prod.mk.injEq]
      exact ⟨fun he => he.2,fun he => ⟨by rw [he],he⟩⟩
  constructor
  · rintro ⟨d,hnorm,hns,-,-,hwait⟩
    obtain ⟨hfit,hd⟩ := (addTo_eq_some hn hi).mp ((hsem d).mp hwait)
    have hsum : d = ofNs (now.ns+iv.ns) := eq_ofNs_iff.mpr ⟨hnorm,hns⟩
    exact ⟨(add_eq_ofNs_iff hn hi).mp (hd.symm.trans hsum),hfit⟩
  · rintro ⟨hnsec,hfit⟩
    have hcarry := addTo_carry hn hi hfit (Or.inr hnsec)
    have hadd : addTo now iv = some (ofNs (now.ns+iv.ns)) :=
      (addTo_eq_some hn hi).mpr ⟨hfit,((add_eq_ofNs_iff hn hi).mpr hnsec).symm⟩
    refine ⟨ofNs (now.ns+iv.ns),ofNs_normalised _,ns_ofNs _,?_,?_,(hsem _).mpr hadd⟩
    · rw [trcTimeProcSync_eq,hcarry]
      rfl
    · rw [trcTimeProcMsync_eq,hcarry]
      rfl

theorem deadlines_alike_iff_half :
    ∃ d : Timespec, d.Normalised ∧
      d.ns = (⟨5,200000000⟩ : Timespec).ns+(⟨1,300000000⟩ : Timespec).ns ∧
      trcTimeProcSync ⟨⟨0,0⟩,⟨1,300000000⟩⟩ (some ⟨5,200000000⟩) =
        some (⟨d,⟨1,300000000⟩⟩,0) ∧
      trcTimeProcMsync ⟨⟨0,0⟩,⟨0,0⟩⟩ (some ⟨1,300000000⟩) (some ⟨5,200000000⟩) =
        some (⟨d,⟨1,300000000⟩⟩,0) ∧
      pxSemtimedwait (some ⟨5,200000000⟩) ⟨1,300000000⟩ (fun _ => 0) = some (0,some d) :=
  (deadlines_alike_iff ⟨⟨0,0⟩,⟨0,0⟩⟩ ⟨5,200000000⟩ ⟨1,300000000⟩ (fun _ => 0) (by decide)
    (by decide)).mpr (by decide)

/-- Now 5.6 s, for 0.5 s: `px_semtimedwait` asks for 5 s and 1100000000 ns, and fails. -/
theorem px_semtimedwait_no_carry :
    trcTimeProcSync ⟨⟨0,0⟩,⟨0,500000000⟩⟩ (some ⟨5,600000000⟩) =
      some (⟨⟨6,100000000⟩,⟨0,500000000⟩⟩,0) ∧
    trcTimeProcMsync ⟨⟨0,0⟩,⟨0,0⟩⟩ (some ⟨0,500000000⟩) (some ⟨5,600000000⟩) =
      some (⟨⟨6,100000000⟩,⟨0,500000000⟩⟩,0) ∧
    pxSemtimedwait (some ⟨5,600000000⟩) ⟨0,500000000⟩ (fun d => if d.Normalised then 0 else -1) =
      some (-1,some ⟨5,1100000000⟩) ∧
    ¬ (⟨5,1100000000⟩ : Timespec).Normalised := by decide

/-- One call of `clock_nanosleep` and the reading of the clock after it: the result, what the
clock shows when the call comes back, and what `px_gettime` gets then. -/
structure Sleep where
  ret : ℕ
  wake : Timespec
  read : Option Timespec
  deriving DecidableEq, Repr

def Sleep.clock (a : Sleep) : Timespec := a.read.getD a.wake

/-- The result of `trc_time_proc_delay`, what the clock shows then, and the deadlines of the
calls of `clock_nanosleep`. -/
structure Delayed where
  ret : ℤ
  ptr : TrcTime
  clock : Timespec
  calls : List (Timespec × Sleep)
  deriving DecidableEq, Repr

/-- The loop; `ret` is the variable that `while` tests and that the one in the body hides. -/
def delayLoop (ret : ℤ) (rem : Timespec) (ptr : TrcTime) (calls : List (Timespec × Sleep)) :
    List Sleep → Except Halt Delayed
  | [] => .error .blocked
  | a::as =>
    let calls := calls++[(ptr.last,a)]
    if a.ret = 0 then .ok { ret := 0, ptr := ptr, clock := a.wake, calls := calls }
    else if a.ret = FdOp.eintr then
      match (addTo (pxGettime ptr.last a.read).1 rem).bind carry with
      | none => .error .fault
      | some last =>
        let ptr := { ptr with last := last }
        if ret ≠ 0 then delayLoop ret rem ptr calls as
        else .ok { ret := 0, ptr := ptr, clock := a.clock, calls := calls }
    else .ok { ret := -1, ptr := ptr, clock := a.wake, calls := calls }

/-- With `TIMER_ABSTIME` nothing is written to `rem`. -/
def trcTimeProcDelay (ptr : TrcTime) (as : List Sleep) : Except Halt Delayed :=
  delayLoop 0 ⟨0,0⟩ ptr [] as

def Obeys (calls : List (Timespec × Sleep)) : Prop :=
  ∀ c ∈ calls, c.2.ret = 0 → c.1.ns ≤ c.2.wake.ns

def Reaches (deadline : Timespec) (r : Except Halt Delayed) : Prop :=
  ∀ x, r = .ok x → x.ret = 0 → deadline.ns ≤ x.clock.ns

def DeadlineSet (ptr : TrcTime) : Prop :=
  ∃ ptr₀ clock, trcTimeProcSync ptr₀ clock = some (ptr,0) ∨
    ∃ tv, trcTimeProcMsync ptr₀ tv clock = some (ptr,0)

theorem addTo_carry_sec {t u d : Timespec} (h : (addTo t u).bind carry = some d) :
    -longMax-1 ≤ d.tvSec ∧ d.tvSec ≤ longMax := by
  obtain ⟨s,hs,hd⟩ := Option.bind_eq_some_iff.mp h
  unfold carry at hd
  split_ifs at hd with hc
  · obtain ⟨sec,hsec,hd⟩ := Option.bind_eq_some_iff.mp hd
    obtain ⟨nsec,-,hd⟩ := Option.bind_eq_some_iff.mp hd
    obtain ⟨hr,rfl⟩ := long_eq_some.mp hsec
    cases hd
    exact hr
  · cases hd
    obtain ⟨sec,hsec,hs⟩ := Option.bind_eq_some_iff.mp hs
    obtain ⟨nsec,-,hs⟩ := Option.bind_eq_some_iff.mp hs
    obtain ⟨hr,rfl⟩ := long_eq_some.mp hsec
    cases hs
    exact hr

theorem DeadlineSet.sec {ptr : TrcTime} (h : DeadlineSet ptr) :
    -longMax-1 ≤ ptr.last.tvSec ∧ ptr.last.tvSec ≤ longMax := by
  obtain ⟨ptr₀,clock,h⟩ := h
  cases clock with
  | none => simp [trcTimeProcSync,trcTimeProcMsync,pxGettime] at h
  | some now =>
    rcases h with h | ⟨tv,h⟩
    · rw [trcTimeProcSync_eq] at h
      obtain ⟨d,hd,h⟩ := Option.map_eq_some_iff.mp h
      cases h
      exact addTo_carry_sec hd
    · cases tv with
      | none => simp [trcTimeProcMsync,pxGettime] at h
      | some tv =>
        rw [trcTimeProcMsync_eq] at h
        obtain ⟨d,hd,h⟩ := Option.map_eq_some_iff.mp h
        cases h
        exact addTo_carry_sec hd

theorem addTo_zero {t : Timespec} (h : t.Valid) : (addTo t ⟨0,0⟩).bind carry = some t := by
  have hfit : SecFits t ⟨0,0⟩ := ⟨by simpa using h.low,by simpa using h.upp⟩
  have hnsec : t.tvNsec+(0 : ℤ) ≤ 999999999 := by simpa using h.lt
  have hns : t.ns+(⟨0,0⟩ : Timespec).ns = t.ns := by simp [ns]
  rw [addTo_carry h.toNormalised (by decide) hfit (Or.inr hnsec),hns,← h.eq_ofNs]

/-- After the first call the loop does not go round: an interruption ends the wait like the end
of it. -/
theorem trcTimeProcDelay_cons {ptr : TrcTime} {a : Sleep} (as : List Sleep)
    (hlast : a.ret = FdOp.eintr → ptr.last.Valid) (hread : ∀ t, a.read = some t → t.Valid) :
    ∃ x, trcTimeProcDelay ptr (a::as) = .ok x ∧ x.calls = [(ptr.last,a)] ∧
      (a.ret = 0 ∧ x.ret = 0 ∧ x.clock = a.wake ∨
        a.ret = FdOp.eintr ∧ x.ret = 0 ∧ x.clock = a.clock ∨
        a.ret ≠ 0 ∧ a.ret ≠ FdOp.eintr ∧ x.ret = -1) := by
  unfold trcTimeProcDelay delayLoop
  by_cases hzero : a.ret = 0
  · rw [if_pos hzero]
    exact ⟨_,rfl,rfl,Or.inl ⟨hzero,rfl,rfl⟩⟩
  · rw [if_neg hzero]
    by_cases hintr : a.ret = FdOp.eintr
    · have hvalid : (pxGettime ptr.last a.read).1.Valid := by
        cases h : a.read with
        | none => exact hlast hintr
        | some t => exact hread t h
      rw [if_pos hintr,addTo_zero hvalid]
      exact ⟨_,rfl,rfl,Or.inr (Or.inl ⟨hintr,rfl,rfl⟩)⟩
    · rw [if_neg hintr]
      exact ⟨_,rfl,rfl,Or.inr (Or.inr ⟨hzero,hintr,rfl⟩)⟩

/-- The delay lasts to its deadline exactly when no interruption of the first call of
`clock_nanosleep` finds the clock before it. A deadline that is not normalised is turned down. -/
theorem delay_reaches_iff (ptr : TrcTime) (as : List Sleep) (hset : DeadlineSet ptr)
    (hnorm : ∀ a, as.head? = some a → a.ret = FdOp.eintr → ptr.last.Normalised)
    (hread : ∀ a ∈ as, ∀ t, a.read = some t → t.Valid)
    (hobeys : ∀ x, trcTimeProcDelay ptr as = .ok x → Obeys x.calls) :
    Reaches ptr.last (trcTimeProcDelay ptr as) ↔
      ∀ a, as.head? = some a → a.ret = FdOp.eintr → ptr.last.ns ≤ a.clock.ns := by
  cases as with
  | nil =>
    refine iff_of_true ?_ (by simp)
    intro x hx
    cases hx
  | cons a as =>
    have hlast : a.ret = FdOp.eintr → ptr.last.Valid :=
      fun h => ⟨hnorm a rfl h,hset.sec.1,hset.sec.2⟩
    obtain ⟨x,hx,hcalls,hcases⟩ :=
      trcTimeProcDelay_cons as hlast (hread a List.mem_cons_self)
    have hsame : Reaches ptr.last (trcTimeProcDelay ptr (a::as)) ↔
        (x.ret = 0 → ptr.last.ns ≤ x.clock.ns) := by
      rw [Reaches,hx]
      simp
    rw [hsame]
    simp only [List.head?_cons,Option.some.injEq,forall_eq']
    rcases hcases with ⟨hret,-,hclock⟩ | ⟨hret,hzero,hclock⟩ | ⟨-,hne,hret⟩
    · have hle : ptr.last.ns ≤ a.wake.ns :=
        hobeys x hx (ptr.last,a) (by rw [hcalls]; exact List.mem_singleton_self _) hret
      refine iff_of_true (fun _ => by rwa [hclock]) ?_
      intro he
      rw [hret] at he
      cases he
    · rw [hclock]
      exact ⟨fun h _ => h hzero,fun h _ => h hret⟩
    · refine iff_of_true ?_ (fun he => absurd he hne)
      intro hzero
      rw [hret] at hzero
      cases hzero

/-- A wait for 10 s that a signal interrupts when they are over. -/
theorem delay_reaches_iff_ten :
    Reaches ⟨10,0⟩ (trcTimeProcDelay ⟨⟨10,0⟩,⟨10,0⟩⟩ [⟨4,⟨10,1⟩,some ⟨10,5⟩⟩]) := by
  have hset : DeadlineSet ⟨⟨10,0⟩,⟨10,0⟩⟩ := ⟨⟨⟨0,0⟩,⟨10,0⟩⟩,some ⟨0,0⟩,Or.inl (by decide)⟩
  refine (delay_reaches_iff ⟨⟨10,0⟩,⟨10,0⟩⟩ [⟨4,⟨10,1⟩,some ⟨10,5⟩⟩] hset ?_ ?_ ?_).mpr ?_
  · intro _ _ _
    decide
  · intro a ha t ht
    obtain rfl := List.mem_singleton.mp ha
    cases ht
    decide
  · intro x hx
    cases hx
    simp [Obeys]
  · intro a ha _
    cases ha
    decide

/-- A signal after 1 s ends a wait for 10 s. -/
theorem delay_is_cut_short :
    trcTimeProcSync ⟨⟨0,0⟩,⟨10,0⟩⟩ (some ⟨0,0⟩) = some (⟨⟨10,0⟩,⟨10,0⟩⟩,0) ∧
    trcTimeProcDelay ⟨⟨10,0⟩,⟨10,0⟩⟩ [⟨4,⟨1,0⟩,some ⟨1,2⟩⟩,⟨0,⟨10,0⟩,none⟩] =
      .ok { ret := 0, ptr := ⟨⟨1,2⟩,⟨10,0⟩⟩, clock := ⟨1,2⟩,
            calls := [(⟨10,0⟩,⟨4,⟨1,0⟩,some ⟨1,2⟩⟩)] } ∧
    ¬ Reaches ⟨10,0⟩
      (trcTimeProcDelay ⟨⟨10,0⟩,⟨10,0⟩⟩ [⟨4,⟨1,0⟩,some ⟨1,2⟩⟩,⟨0,⟨10,0⟩,none⟩]) := by
  have hdelay : trcTimeProcDelay ⟨⟨10,0⟩,⟨10,0⟩⟩ [⟨4,⟨1,0⟩,some ⟨1,2⟩⟩,⟨0,⟨10,0⟩,none⟩] =
      .ok { ret := 0, ptr := ⟨⟨1,2⟩,⟨10,0⟩⟩, clock := ⟨1,2⟩,
            calls := [(⟨10,0⟩,⟨4,⟨1,0⟩,some ⟨1,2⟩⟩)] } := by decide
  refine ⟨by decide,hdelay,?_⟩
  rw [hdelay]
  intro h
  have hle := h _ rfl rfl
  exact absurd hle (by decide)

end PxTimer
end PcEnv
