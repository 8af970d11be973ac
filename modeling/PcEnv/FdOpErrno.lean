import Mathlib.Data.Stream.Init
import PcEnv.FdOp

/-! `errno` across the calls of an `un_read` or `un_write`, which look at it after every call,
failed or not. -/
namespace PcEnv
namespace FdOp

/-- What a call of `read` or `write` returns: the bytes it moved, none at the end of the file, or
the error it fails with. -/
inductive Ret
  | moved (n : ℕ)
  | fail (errno : ℕ)
  deriving DecidableEq, Repr

def Ret.bytes : Ret → ℕ
  | .moved n => n
  | .fail _ => 0

/-- `errno` after the call; only one that fails sets it. -/
def Ret.errno (errno : ℕ) : Ret → ℕ
  | .moved _ => errno
  | .fail e => e

def Ret.Ends : Ret → Prop
  | .moved n => n = 0
  | .fail e => e ≠ eintr

/-- What the loop sees of the calls. The log line of `show_errno` leaves `errno` as it is. -/
def answers : ℕ → List Ret → List Answer
  | _, [] => []
  | errno, r::rs => ⟨r.bytes,r.errno errno⟩::answers (r.errno errno) rs

/-- `un_read` or `un_write`, of which `count` bytes are moved; `none` until it comes back. -/
def unIo (size count errno : ℕ) (rs : List Ret) : Option Written :=
  unWrite size count (answers errno rs)

def total (rs : Stream' Ret) (n : ℕ) : ℕ := ((rs.take n).map Ret.bytes).sum

/-- A call that is made moves no more than it is asked for. -/
def Lawful (size count errno : ℕ) (rs : Stream' Ret) : Prop :=
  ∀ n, unIo size count errno (rs.take n) = none → (rs.get n).bytes ≤ size-(count+total rs n)

/-- The loop comes back with the bytes moved, and with fewer than `size` only when its last call
was at the end of the file or failed with an error other than `EINTR`. -/
def TransfersAll (size count errno : ℕ) (rs : Stream' Ret) : Prop :=
  ∃ n, unIo size count errno (rs.take (n+1)) =
      some { count := count+total rs (n+1), answers := [] } ∧
    (count+total rs (n+1) < size → (rs.get n).Ends)

/-- The calls move `left` bytes, or come to an error other than `EINTR`. -/
def Settles (left : ℕ) (rs : Stream' Ret) : Prop :=
  ∃ n, left ≤ total rs n ∨ ∃ e, e ≠ eintr ∧ rs.get n = .fail e

def Short (size : ℕ) (r : Ret) : Prop := ∃ n, r = .moved n ∧ 0 < n ∧ n < size

@[simp] theorem total_zero (rs : Stream' Ret) : total rs 0 = 0 := rfl

theorem total_succ (rs : Stream' Ret) (n : ℕ) :
    total rs (n+1) = (rs.get 0).bytes+total rs.tail n := rfl

section

variable {size count errno left : ℕ} {r : Ret} {l : List Ret} {rs : Stream' Ret}

theorem unIo_whole (hle : count ≤ size) (h : count+r.bytes = size) :
    unIo size count errno (r::l) =
      some { count := size, answers := answers (r.errno errno) l } :=
  unWrite_whole hle (by simp only; omega)

theorem unIo_again (h : r.bytes < size-count) (he : r.errno errno = eintr) :
    unIo size count errno (r::l) = unIo size (count+r.bytes) eintr l := by
  rw [unIo,answers,unWrite_again h he,he]
  rfl

theorem unIo_short (h : r.bytes < size-count) (he : r.errno errno ≠ eintr) :
    unIo size count errno (r::l) =
      some { count := count+r.bytes, answers := answers (r.errno errno) l } :=
  unWrite_short h he

theorem Lawful.head (hlaw : Lawful size count errno rs) : (rs.get 0).bytes ≤ size-count := by
  have h := hlaw 0 rfl
  rwa [total_zero,add_zero] at h

theorem Lawful.tail (hlaw : Lawful size count errno rs)
    (h : (rs.get 0).bytes < size-count) (he : (rs.get 0).errno errno = eintr) :
    Lawful size (count+(rs.get 0).bytes) eintr rs.tail := by
  intro n hn
  have hle := hlaw (n+1) (by rw [Stream'.take_succ]; exact (unIo_again h he).trans hn)
  rwa [total_succ,← Nat.add_assoc] at hle

theorem transfersAll_whole (hle : count ≤ size) (h : count+(rs.get 0).bytes = size) :
    TransfersAll size count errno rs := by
  have hone : total rs 1 = (rs.get 0).bytes := rfl
  refine ⟨0,?_,?_⟩
  · rw [hone,h]
    exact unIo_whole hle h
  · intro hlt
    rw [hone,h] at hlt
    exact (lt_irrefl _ hlt).elim

theorem transfersAll_short (h : (rs.get 0).bytes < size-count)
    (he : (rs.get 0).errno errno ≠ eintr) :
    TransfersAll size count errno rs ↔ (rs.get 0).Ends := by
  have hone : total rs 1 = (rs.get 0).bytes := rfl
  constructor
  · rintro ⟨n,hn,hends⟩
    cases n with
    | zero => exact hends (by rw [hone]; omega)
    | succ n =>
      rw [Stream'.take_succ,Stream'.take_succ] at hn
      have hstop := (unIo_short h he).symm.trans hn
      rw [Option.some.injEq,Written.mk.injEq] at hstop
      exact (List.cons_ne_nil _ _ hstop.2).elim
  · intro hends
    refine ⟨0,?_,fun _ => hends⟩
    rw [hone]
    exact unIo_short h he

theorem transfersAll_again (h : (rs.get 0).bytes < size-count)
    (he : (rs.get 0).errno errno = eintr) :
    TransfersAll size count errno rs ↔
      TransfersAll size (count+(rs.get 0).bytes) eintr rs.tail := by
  have hstep (n : ℕ) : unIo size count errno (rs.take (n+1)) =
      unIo size (count+(rs.get 0).bytes) eintr (rs.tail.take n) := by
    rw [Stream'.take_succ]
    exact unIo_again h he
  constructor
  · rintro ⟨n,hn,hends⟩
    rw [hstep] at hn
    cases n with
    | zero => cases hn
    | succ n =>
      rw [total_succ,← Nat.add_assoc] at hn hends
      exact ⟨n,hn,hends⟩
  · rintro ⟨n,hn,hends⟩
    refine ⟨n+1,?_,?_⟩
    · rw [hstep,total_succ,← Nat.add_assoc]
      exact hn
    · rw [total_succ,← Nat.add_assoc]
      exact hends

theorem settles_again (h : (rs.get 0).bytes < left) (he : (rs.get 0).errno eintr = eintr) :
    Settles left rs ↔ Settles (left-(rs.get 0).bytes) rs.tail := by
  constructor
  · rintro ⟨n,hn⟩
    cases n with
    | zero =>
      rcases hn with hle | ⟨e,hne,hget⟩
      · rw [total_zero] at hle
        omega
      · rw [hget] at he
        exact (hne he).elim
    | succ n =>
      refine ⟨n,hn.imp (fun hle => ?_) id⟩
      rw [total_succ] at hle
      omega
  · rintro ⟨n,hn⟩
    refine ⟨n+1,hn.imp (fun hle => ?_) id⟩
    rw [total_succ]
    omega

theorem errno_ne_eintr (h : (rs.get 0).errno eintr ≠ eintr) :
    ∃ e, e ≠ eintr ∧ rs.get 0 = .fail e := by
  cases hr : rs.get 0 with
  | moved n =>
    rw [hr] at h
    exact (h rfl).elim
  | fail e =>
    rw [hr] at h
    exact ⟨e,h,rfl⟩

end

theorem settles_of_returns {size : ℕ} (n : ℕ) {count : ℕ} {rs : Stream' Ret} {w : Written}
    (hle : count ≤ size) (hlaw : Lawful size count eintr rs)
    (h : unIo size count eintr (rs.take n) = some w) : Settles (size-count) rs := by
  induction n generalizing count rs with
  | zero => cases h
  | succ n ih =>
    have hhead := hlaw.head
    rcases hhead.eq_or_lt with hwhole | hlt
    · exact ⟨1,Or.inl hwhole.ge⟩
    · by_cases he : (rs.get 0).errno eintr = eintr
      · rw [Stream'.take_succ] at h
        have hrest := ih (by omega) (hlaw.tail hlt he) ((unIo_again hlt he).symm.trans h)
        rw [settles_again hlt he]
        rwa [← Nat.sub_sub] at hrest
      · exact ⟨0,Or.inr (errno_ne_eintr he)⟩

theorem transfersAll_of_settled {size : ℕ} (n : ℕ) {count : ℕ} {rs : Stream' Ret}
    (hle : count ≤ size) (hlaw : Lawful size count eintr rs)
    (h : size-count ≤ total rs n ∨ ∃ e, e ≠ eintr ∧ rs.get n = .fail e) :
    TransfersAll size count eintr rs := by
  induction n generalizing count rs with
  | zero =>
    have hhead := hlaw.head
    rcases hhead.eq_or_lt with hwhole | hlt
    · exact transfersAll_whole hle (by omega)
    · rcases h with hzero | ⟨e,hne,hget⟩
      · rw [total_zero] at hzero
        omega
      · rw [transfersAll_short hlt (by rw [hget]; exact hne),hget]
        exact hne
  | succ n ih =>
    have hhead := hlaw.head
    rcases hhead.eq_or_lt with hwhole | hlt
    · exact transfersAll_whole hle (by omega)
    · by_cases he : (rs.get 0).errno eintr = eintr
      · rw [transfersAll_again hlt he]
        refine ih (by omega) (hlaw.tail hlt he) (h.imp (fun hsum => ?_) id)
        rw [total_succ] at hsum
        omega
      · obtain ⟨e,hne,hget⟩ := errno_ne_eintr he
        rw [transfersAll_short hlt he,hget]
        exact hne

theorem transfersAll_stale {size count : ℕ} {rs : Stream' Ret} (hle : count ≤ size)
    (hlaw : Lawful size count eintr rs) :
    TransfersAll size count eintr rs ↔ Settles (size-count) rs := by
  constructor
  · rintro ⟨n,hn,-⟩
    exact settles_of_returns (n+1) hle hlaw hn
  · rintro ⟨n,hn⟩
    exact transfersAll_of_settled n hle hlaw hn

theorem short_moved {size n : ℕ} (h : n < size) : Short size (.moved n) ↔ n ≠ 0 := by
  constructor
  · rintro ⟨m,hm,hpos,-⟩
    cases hm
    exact hpos.ne'
  · exact fun hne => ⟨n,rfl,Nat.pos_of_ne_zero hne,h⟩

theorem not_short_fail (size e : ℕ) : ¬ Short size (.fail e) := by
  rintro ⟨n,hn,-⟩
  cases hn

theorem not_short_of_whole {size : ℕ} {r : Ret} (h : r.bytes = size) :
    ¬ Short size r ∧ (r = .fail eintr → size = 0) := by
  constructor
  · rintro ⟨n,rfl,-,hlt⟩
    exact hlt.ne h
  · rintro rfl
    exact h.symm

theorem transfersAll_interrupted {size errno : ℕ} {rs : Stream' Ret}
    (hlaw : Lawful size 0 errno rs) (hsize : 0 < size) (hr : rs.get 0 = .fail eintr) :
    TransfersAll size 0 errno rs ↔ Settles size rs := by
  have hbytes : (rs.get 0).bytes = 0 := by rw [hr,Ret.bytes]
  have hlt : (rs.get 0).bytes < size-0 := by omega
  have hagain (e : ℕ) : (rs.get 0).errno e = eintr := by rw [hr,Ret.errno]
  rw [transfersAll_again hlt (hagain errno),
    transfersAll_stale (by omega) (hlaw.tail hlt (hagain errno)),
    settles_again (by omega) (hagain eintr),hbytes,Nat.sub_zero]

/-- `un_read` and `un_write` transfer everything they can and stop exactly when the first call is
not short, unless `errno` is at `EINTR` already, and, where it is or where that call is
interrupted, the calls go on to move everything or to fail with another error. -/
theorem transfersAll_iff (size errno : ℕ) (rs : Stream' Ret) (hlaw : Lawful size 0 errno rs) :
    TransfersAll size 0 errno rs ↔
      (errno = eintr ∨ ¬ Short size (rs.get 0)) ∧
      (errno = eintr ∨ rs.get 0 = .fail eintr → Settles size rs) := by
  by_cases herr : errno = eintr
  · subst herr
    rw [transfersAll_stale (Nat.zero_le _) hlaw,Nat.sub_zero]
    simp
  · rw [or_iff_right herr,or_iff_right herr]
    rcases hlaw.head.eq_or_lt with hwhole | hlt
    · obtain ⟨hshort,hsize⟩ := not_short_of_whole hwhole
      refine iff_of_true (transfersAll_whole (Nat.zero_le _) (by omega)) ⟨hshort,?_⟩
      exact fun hfail => ⟨0,Or.inl (hsize hfail).le⟩
    · cases hr : rs.get 0 with
      | moved n =>
        rw [hr,Ret.bytes] at hlt
        rw [Nat.sub_zero] at hlt
        rw [transfersAll_short (by rwa [hr]) (by rw [hr]; exact herr),hr,short_moved hlt,not_not]
        simp [Ret.Ends]
      | fail e =>
        rw [and_iff_right (not_short_fail size e),Ret.fail.injEq]
        by_cases he : e = eintr
        · subst he
          rw [transfersAll_interrupted hlaw (by omega) hr]
          simp
        · rw [transfersAll_short hlt (by rw [hr]; exact he),hr]
          simp [Ret.Ends,he]

def interrupted : Stream' Ret := .cons (.fail eintr) (.cons (.moved 2) (.const (.moved 0)))

theorem transfersAll_iff_interrupted : TransfersAll 2 0 0 interrupted := by
  refine (transfersAll_iff 2 0 interrupted ?_).mpr ⟨Or.inr ?_,fun _ => ⟨2,Or.inl (by decide)⟩⟩
  · intro n _
    match n with
    | 0 => exact Nat.zero_le _
    | 1 => exact le_refl 2
    | n+2 => exact Nat.zero_le _
  · rintro ⟨n,hn,-⟩
    cases hn

/-- A stale `EINTR` makes the loop read an end of file for ever. -/
theorem unIo_spins {size count : ℕ} (h : count < size) (n : ℕ) :
    unIo size count eintr ((Stream'.const (.moved 0)).take n) = none := by
  induction n with
  | zero => rfl
  | succ n ih =>
    rw [Stream'.take_succ]
    exact (unIo_again (Nat.sub_pos_of_lt h) rfl).trans ih

def trickle : Stream' Ret := .cons (.moved 1) (.cons (.moved 1) (.const (.moved 0)))

/-- The second byte is left in the pipe, and the end of an empty file is never taken for one. -/
theorem unIo_stops_and_spins :
    Lawful 2 0 0 trickle ∧ unIo 2 0 0 (trickle.take 1) = some { count := 1, answers := [] } ∧
    ¬ TransfersAll 2 0 0 trickle ∧
    Lawful 2 0 eintr (.const (.moved 0)) ∧ ¬ TransfersAll 2 0 eintr (.const (.moved 0)) := by
  have hlaw : Lawful 2 0 0 trickle := by
    intro n _
    match n with
    | 0 => exact one_le_two
    | 1 => exact le_refl 1
    | n+2 => exact Nat.zero_le _
  refine ⟨hlaw,by decide,?_,fun n _ => Nat.zero_le _,?_⟩
  · have hstop : TransfersAll 2 0 0 trickle ↔ Ret.Ends (.moved 1) :=
      transfersAll_short one_lt_two (by decide)
    rw [hstop]
    exact one_ne_zero
  · rintro ⟨n,hn,-⟩
    rw [unIo_spins Nat.zero_lt_two] at hn
    cases hn

end FdOp
end PcEnv
