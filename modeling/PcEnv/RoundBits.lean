import Mathlib.Tactic

/-! Naturals rounded to a number of significant binary digits, half to even. -/
namespace PcEnv
namespace RoundBits

/-- The multiple of `d` nearest to `m`; halfway, the even one. -/
def roundTo (d m : ℕ) : ℕ :=
  if 2*(m % d) < d ∨ 2*(m % d) = d ∧ m/d % 2 = 0 then m/d*d else (m/d+1)*d

/-- The `p` leading digits of `m`, rounded by those that follow. -/
def roundBits (p m : ℕ) : ℕ := roundTo (2^(Nat.log2 m+1-p)) m

@[simp] theorem roundTo_one (m : ℕ) : roundTo 1 m = m := by
  simp [roundTo,Nat.mod_one]

theorem two_mul_roundTo_le (d m : ℕ) : 2*roundTo d m ≤ 2*m+d := by
  have hdiv := Nat.div_add_mod' m d
  unfold roundTo
  split_ifs with h
  · omega
  · rw [not_or] at h
    rw [add_one_mul]
    omega

/-- What has a representation at `m`'s precision is not passed by rounding `m` down. -/
theorem le_roundTo {d k m : ℕ} (hk : d ∣ k) (h : k ≤ m) : k ≤ roundTo d m := by
  obtain ⟨j,rfl⟩ := hk
  have hfloor : d*j ≤ m/d*d := by
    obtain rfl | hd := d.eq_zero_or_pos
    · simp
    · rw [mul_comm]
      exact Nat.mul_le_mul_right d ((Nat.le_div_iff_mul_le hd).mpr (mul_comm j d ▸ h))
  unfold roundTo
  split_ifs
  · exact hfloor
  · exact hfloor.trans (Nat.mul_le_mul_right d (Nat.le_succ _))

theorem two_pow_mul_roundBits_le (p m : ℕ) : 2^p*roundBits p m ≤ (2^p+1)*m := by
  unfold roundBits
  obtain hexact | hround := Nat.le_total (Nat.log2 m+1) p
  · rw [Nat.sub_eq_zero_of_le hexact,pow_zero,roundTo_one]
    exact Nat.mul_le_mul_right m (Nat.le_succ _)
  · obtain rfl | hm := eq_or_ne m 0
    · simp [roundTo]
    have hlog : 2^Nat.log2 m ≤ m := Nat.log2_self_le hm
    have hunit : 2^p*2^(Nat.log2 m+1-p) ≤ 2*m := by
      rw [← pow_add,Nat.add_sub_cancel' hround,pow_succ']
      exact Nat.mul_le_mul_left 2 hlog
    have hhalf := Nat.mul_le_mul_left (2^p) (two_mul_roundTo_le (2^(Nat.log2 m+1-p)) m)
    rw [mul_add] at hhalf
    rw [add_one_mul]
    have hcomm : 2^p*(2*roundTo (2^(Nat.log2 m+1-p)) m) =
        2*(2^p*roundTo (2^(Nat.log2 m+1-p)) m) := mul_left_comm _ _ _
    have hcomm' : 2^p*(2*m) = 2*(2^p*m) := mul_left_comm _ _ _
    omega

theorem le_roundBits {p e k m : ℕ} (hk : 2^e ∣ k) (h : k ≤ m) (hm : m < 2^(e+p)) :
    k ≤ roundBits p m := by
  obtain rfl | hpos := m.eq_zero_or_pos
  · omega
  have hlog : Nat.log2 m < e+p := (Nat.log2_lt hpos.ne').mpr hm
  exact le_roundTo ((pow_dvd_pow 2 (by omega)).trans hk) h

end RoundBits
end PcEnv
