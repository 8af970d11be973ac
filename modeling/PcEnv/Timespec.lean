import Mathlib.Tactic

/-! Instants as seconds and nanoseconds, over the signed 64-bit arithmetic of C. -/
namespace PcEnv

def longMax : ℤ := 2^63-1

/-- The value of a signed 64-bit expression, undefined where it overflows. -/
def long (x : ℤ) : Option ℤ := if -longMax-1 ≤ x ∧ x ≤ longMax then some x else none

theorem long_eq_some {x y : ℤ} : long x = some y ↔ (-longMax-1 ≤ x ∧ x ≤ longMax) ∧ x = y := by
  unfold long
  split_ifs with h
  · rw [Option.some.injEq,and_iff_right h]
  · exact iff_of_false (by simp) (fun h' => h h'.1)

theorem long_of_range {x : ℤ} (hl : -longMax-1 ≤ x) (hu : x ≤ longMax) : long x = some x :=
  if_pos ⟨hl,hu⟩

structure Timespec where
  tvSec : ℤ
  tvNsec : ℤ
  deriving DecidableEq, Repr

namespace Timespec

structure Normalised (t : Timespec) : Prop where
  nonneg : 0 ≤ t.tvNsec
  lt : t.tvNsec ≤ 999999999

instance (t : Timespec) : Decidable t.Normalised :=
  decidable_of_iff (0 ≤ t.tvNsec ∧ t.tvNsec ≤ 999999999) ⟨fun h => ⟨h.1,h.2⟩,fun h => ⟨h.1,h.2⟩⟩

/-- A normalised time whose seconds are a `time_t`. -/
structure Valid (t : Timespec) : Prop extends Normalised t where
  low : -longMax-1 ≤ t.tvSec
  upp : t.tvSec ≤ longMax

instance (t : Timespec) : Decidable t.Valid :=
  decidable_of_iff (t.Normalised ∧ -longMax-1 ≤ t.tvSec ∧ t.tvSec ≤ longMax)
    ⟨fun h => ⟨h.1,h.2.1,h.2.2⟩,fun h => ⟨h.toNormalised,h.low,h.upp⟩⟩

def ns (t : Timespec) : ℤ := t.tvSec*1000000000+t.tvNsec

/-- The normalised form of an instant. -/
def ofNs (x : ℤ) : Timespec := { tvSec := x/1000000000, tvNsec := x % 1000000000 }

theorem ofNs_normalised (x : ℤ) : (ofNs x).Normalised :=
  ⟨Int.emod_nonneg _ (by decide),Int.le_of_lt_add_one (Int.emod_lt_of_pos _ (by decide))⟩

@[simp] theorem ns_ofNs (x : ℤ) : (ofNs x).ns = x := by
  rw [ns,ofNs,mul_comm]
  exact Int.mul_ediv_add_emod x 1000000000

theorem Normalised.eq_ofNs {t : Timespec} (h : t.Normalised) : t = ofNs t.ns := by
  obtain ⟨sec,nsec⟩ := t
  obtain ⟨hnonneg,hlt⟩ := h
  simp only at hnonneg hlt
  simp only [ofNs,ns,mk.injEq]
  constructor <;> omega

theorem eq_ofNs_iff {t : Timespec} {x : ℤ} : t = ofNs x ↔ t.Normalised ∧ t.ns = x := by
  constructor
  · rintro rfl
    exact ⟨ofNs_normalised x,ns_ofNs x⟩
  · rintro ⟨h,rfl⟩
    exact h.eq_ofNs

/-- Between normalised instants the seconds decide, up to a borrow. -/
theorem Normalised.le_sec {s t : Timespec} (hs : s.Normalised) (ht : t.Normalised)
    (h : s.ns ≤ t.ns) : s.tvSec ≤ t.tvSec := by
  have hs₀ := hs.nonneg
  have ht₁ := ht.lt
  unfold ns at h
  omega

/-- The parts add up to the normalised form of the sum exactly when nothing is carried. -/
theorem add_eq_ofNs_iff {s t : Timespec} (hs : s.Normalised) (ht : t.Normalised) :
    (⟨s.tvSec+t.tvSec,s.tvNsec+t.tvNsec⟩ : Timespec) = ofNs (s.ns+t.ns) ↔
      s.tvNsec+t.tvNsec ≤ 999999999 := by
  have hs₀ := hs.nonneg
  have ht₀ := ht.nonneg
  rw [eq_ofNs_iff]
  constructor
  · intro h
    exact h.1.lt
  · intro h
    refine ⟨⟨by simp only; omega,h⟩,?_⟩
    simp only [ns]
    ring

theorem add_carry_eq_ofNs {s t : Timespec} (hs : s.Normalised) (ht : t.Normalised)
    (h : 999999999 < s.tvNsec+t.tvNsec) :
    (⟨s.tvSec+t.tvSec+1,s.tvNsec+t.tvNsec-1000000000⟩ : Timespec) = ofNs (s.ns+t.ns) := by
  have hs₁ := hs.lt
  have ht₁ := ht.lt
  rw [eq_ofNs_iff]
  refine ⟨⟨by simp only; omega,by simp only; omega⟩,?_⟩
  simp only [ns]
  ring

theorem sub_ediv {s t : Timespec} {u k : ℤ} (hu : 0 < u) (hk : k*u = 1000000000) :
    (t.ns-s.ns)/u = (t.tvSec-s.tvSec)*k+(t.tvNsec-s.tvNsec)/u := by
  have h : t.ns-s.ns = (t.tvNsec-s.tvNsec)+(t.tvSec-s.tvSec)*k*u := by
    unfold ns
    rw [mul_assoc,hk]
    ring
  rw [h,Int.add_mul_ediv_right _ _ hu.ne',add_comm]

end Timespec
end PcEnv
