import Mathlib.Tactic
import Mathlib.Data.List.Lex

/-! Bytes in their unsigned order, and numbers as bytes with the most significant one first. -/
namespace PcEnv

instance uint8Order : LinearOrder UInt8 where
  le_refl := UInt8.le_refl
  le_trans _ _ _ := UInt8.le_trans
  le_antisymm _ _ := UInt8.le_antisymm
  le_total := UInt8.le_total
  toDecidableLE := inferInstance
  lt_iff_le_not_ge a b := by
    simp only [UInt8.lt_iff_toNat_lt,UInt8.le_iff_toNat_le]
    omega

namespace Bytes

/-- The last `k` digits of `n` to the base 256. -/
def toBe : ℕ → ℕ → List UInt8
  | 0, _ => []
  | k+1, n => toBe k (n/256)++[UInt8.ofNat n]

def ofBe (l : List UInt8) : ℕ := l.foldl (fun n b => 256*n+b.toNat) 0

@[simp] theorem length_toBe (k n : ℕ) : (toBe k n).length = k := by
  induction k generalizing n with
  | zero => rfl
  | succ k ih => simp [toBe,ih]

@[simp] theorem ofBe_nil : ofBe [] = 0 := rfl

@[simp] theorem ofBe_concat (l : List UInt8) (b : UInt8) : ofBe (l++[b]) = 256*ofBe l+b.toNat := by
  simp [ofBe]

theorem ofBe_toBe_mod (k n : ℕ) : ofBe (toBe k n) = n % 256^k := by
  induction k generalizing n with
  | zero => simp [toBe,Nat.mod_one]
  | succ k ih =>
    have hsplit : n % 256^(k+1) = n % 256+256*(n/256 % 256^k) := by rw [pow_succ',Nat.mod_mul]
    rw [toBe,ofBe_concat,ih,UInt8.toNat_ofNat',hsplit]
    omega

theorem ofBe_toBe {k n : ℕ} (h : n < 256^k) : ofBe (toBe k n) = n := by
  rw [ofBe_toBe_mod,Nat.mod_eq_of_lt h]

theorem ofBe_lt (l : List UInt8) : ofBe l < 256^l.length := by
  induction l using List.reverseRecOn with
  | nil => simp
  | append_singleton l b ih =>
    have hb := b.toNat_lt
    rw [ofBe_concat,List.length_append,List.length_singleton,pow_succ]
    omega

theorem toBe_ofBe (l : List UInt8) : toBe l.length (ofBe l) = l := by
  induction l using List.reverseRecOn with
  | nil => rfl
  | append_singleton l b ih =>
    have hb := b.toNat_lt
    have hdiv : (256*ofBe l+b.toNat)/256 = ofBe l := by omega
    have hlast : UInt8.ofNat (256*ofBe l+b.toNat) = b := by
      apply UInt8.toNat_inj.mp
      rw [UInt8.toNat_ofNat']
      omega
    rw [ofBe_concat,List.length_append,List.length_singleton,toBe,hdiv,hlast,ih]

theorem ofBe_append (l m : List UInt8) : ofBe (l++m) = 256^m.length*ofBe l+ofBe m := by
  induction m using List.reverseRecOn with
  | nil => simp
  | append_singleton m b ih =>
    rw [← List.append_assoc,ofBe_concat,ih,ofBe_concat,List.length_append,List.length_singleton]
    ring

theorem toBe_add (j k n : ℕ) : toBe (j+k) n = toBe j (n/256^k)++toBe k n := by
  induction k generalizing n with
  | zero => simp [toBe]
  | succ k ih =>
    rw [← Nat.add_assoc,toBe,ih,toBe,List.append_assoc,Nat.div_div_eq_div_mul,pow_succ']

end Bytes
end PcEnv
