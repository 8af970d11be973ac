import Mathlib.Tactic

/-! Fixed-width C integers as naturals with explicit wrap-around.
A `size_t` is a natural below `2^64`; every operation that a program makes on one is one of
the functions below. -/
namespace PcEnv
namespace Word

def sizeMod : ℕ := 2^64

def intMax : ℕ := 2^31-1

/-- The largest object an allocator hands out. -/
def ptrdiffMax : ℕ := 2^63-1

def sizeAdd (a b : ℕ) : ℕ := (a+b) % sizeMod

def sizeSub (a b : ℕ) : ℕ := (a+(sizeMod-b)) % sizeMod

def sizeMul (a b : ℕ) : ℕ := a*b % sizeMod

/-- `x++` on an `unsigned char`. -/
def ucharInc (x : ℕ) : ℕ := (x+1) % 2^8

/-- `int i = x` for a `size_t` `x`, kept as the `size_t` that `i` converts to in a comparison
with an unsigned operand: the low 32 bits of `x`, sign-extended. -/
def intOf (x : ℕ) : ℕ := if x % 2^32 ≤ intMax then x % 2^32 else sizeMod-2^32+x % 2^32

/-- The same `int` as an integer. -/
def toInt (x : ℕ) : ℤ :=
  if x % 2^32 ≤ intMax then (x % 2^32 : ℕ) else ((x % 2^32 : ℕ) : ℤ)-2^32

theorem sizeAdd_eq {a b : ℕ} (h : a+b < sizeMod) : sizeAdd a b = a+b :=
  Nat.mod_eq_of_lt h

theorem ucharInc_eq {x : ℕ} (h : x < 255) : ucharInc x = x+1 :=
  Nat.mod_eq_of_lt (by omega)

theorem sizeMul_eq {a b : ℕ} (h : a*b < sizeMod) : sizeMul a b = a*b :=
  Nat.mod_eq_of_lt h

theorem sizeSub_eq {a b : ℕ} (hb : b ≤ a) (ha : a < sizeMod) : sizeSub a b = a-b := by
  have h : a+(sizeMod-b) = (a-b)+sizeMod := by omega
  rw [sizeSub,h,Nat.add_mod_right]
  exact Nat.mod_eq_of_lt (by omega)

theorem sizeSub_wrap {a b : ℕ} (h : a < b) (hb : b ≤ sizeMod) :
    sizeSub a b = sizeMod-(b-a) := by
  have he : a+(sizeMod-b) = sizeMod-(b-a) := by omega
  rw [sizeSub,he]
  exact Nat.mod_eq_of_lt (by omega)

theorem sizeAdd_modEq (a b : ℕ) : sizeAdd a b ≡ a+b [MOD sizeMod] := Nat.mod_modEq _ _

theorem sizeSub_modEq (a : ℕ) {b : ℕ} (hb : b ≤ sizeMod) : sizeSub a b+b ≡ a [MOD sizeMod] :=
  calc sizeSub a b+b ≡ a+(sizeMod-b)+b [MOD sizeMod] := (Nat.mod_modEq _ _).add_right b
    _ = a+sizeMod := by omega
    _ ≡ a [MOD sizeMod] := Nat.add_modEq_right

theorem intOf_eq {x : ℕ} (h : x ≤ intMax) : intOf x = x := by
  have hmod : x % 2^32 = x := Nat.mod_eq_of_lt (by simp only [intMax] at h; omega)
  rw [intOf,hmod,if_pos h]

/-- The `int` of a size is less than the size exactly when bits above the low 32 are lost. -/
theorem le_intOf_iff {x : ℕ} (h : x < sizeMod) : x ≤ intOf x ↔ x < 2^32 ∨ intMax < x % 2^32 := by
  by_cases hlow : x % 2^32 ≤ intMax
  · rw [intOf,if_pos hlow]
    omega
  · rw [intOf,if_neg hlow,sizeMod]
    rw [sizeMod] at h
    omega

theorem toInt_eq {x : ℕ} (h : x ≤ intMax) : toInt x = x := by
  have hmod : x % 2^32 = x := Nat.mod_eq_of_lt (by simp only [intMax] at h; omega)
  rw [toInt,hmod,if_pos h]

theorem toInt_le (x : ℕ) : toInt x ≤ x := by
  have hmod := Nat.mod_le x (2^32)
  unfold toInt
  split_ifs <;> omega

theorem toInt_le_intMax (x : ℕ) : toInt x ≤ intMax := by
  have hlt := Nat.mod_lt x (show 0 < 2^32 by decide)
  unfold toInt intMax
  split_ifs <;> omega

end Word
end PcEnv
