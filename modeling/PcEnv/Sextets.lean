import Mathlib.Tactic

/-! Three octets as four sextets, and the search of a symbol in a table.
The last group of a text may hold one or two octets; the missing ones count as `0`. -/
namespace PcEnv
namespace Sextets

def sextet0 (a : UInt8) : UInt8 := (a >>> (2 : UInt8)) &&& (0x3F : UInt8)
def sextet1 (a b : UInt8) : UInt8 :=
  ((a <<< (4 : UInt8)) &&& (0x30 : UInt8)) ||| ((b >>> (4 : UInt8)) &&& (0x0F : UInt8))
def sextet2 (b c : UInt8) : UInt8 :=
  ((b <<< (2 : UInt8)) &&& (0x3C : UInt8)) ||| ((c >>> (6 : UInt8)) &&& (0x03 : UInt8))
def sextet3 (c : UInt8) : UInt8 := c &&& (0x3F : UInt8)

def octet0 (s t : UInt8) : UInt8 :=
  ((s <<< (2 : UInt8)) &&& (0xFC : UInt8)) ||| ((t >>> (4 : UInt8)) &&& (0x03 : UInt8))
def octet1 (t u : UInt8) : UInt8 :=
  ((t <<< (4 : UInt8)) &&& (0xF0 : UInt8)) ||| ((u >>> (2 : UInt8)) &&& (0x0F : UInt8))
def octet2 (u v : UInt8) : UInt8 :=
  ((u <<< (6 : UInt8)) &&& (0xF0 : UInt8)) ||| (v &&& (0x3F : UInt8))

variable (a b c : UInt8)

@[simp] theorem octet0_sextets : octet0 (sextet0 a) (sextet1 a b) = a := by
  apply UInt8.eq_of_toBitVec_eq
  simp only [octet0,sextet0,sextet1]
  ext i hi
  interval_cases i <;> simp

@[simp] theorem octet1_sextets : octet1 (sextet1 a b) (sextet2 b c) = b := by
  apply UInt8.eq_of_toBitVec_eq
  simp only [octet1,sextet1,sextet2]
  ext i hi
  interval_cases i <;> simp

@[simp] theorem octet2_sextets : octet2 (sextet2 b c) (sextet3 c) = c := by
  apply UInt8.eq_of_toBitVec_eq
  simp only [octet2,sextet2,sextet3]
  ext i hi
  interval_cases i <;> simp

theorem sextet1_zero : sextet1 a 0 = (a <<< (4 : UInt8)) &&& (0x30 : UInt8) := by
  simp [sextet1]

theorem sextet2_zero : sextet2 b 0 = (b <<< (2 : UInt8)) &&& (0x3C : UInt8) := by
  simp [sextet2]

theorem lt_of_masked {s : UInt8} (h : s = s &&& (0x3F : UInt8)) : s.toNat < 64 := by
  rw [h]
  exact Nat.lt_succ_of_le UInt8.and_le_right

theorem sextet0_lt : (sextet0 a).toNat < 64 := Nat.lt_succ_of_le UInt8.and_le_right

theorem sextet1_lt : (sextet1 a b).toNat < 64 := by
  apply lt_of_masked
  apply UInt8.eq_of_toBitVec_eq
  simp only [sextet1]
  ext i hi
  interval_cases i <;> simp

theorem sextet2_lt : (sextet2 b c).toNat < 64 := by
  apply lt_of_masked
  apply UInt8.eq_of_toBitVec_eq
  simp only [sextet2]
  ext i hi
  interval_cases i <;> simp

theorem sextet3_lt : (sextet3 c).toNat < 64 := Nat.lt_succ_of_le UInt8.and_le_right

theorem masked_shiftLeft_toNat (a : UInt8) :
    ((a <<< (4 : UInt8)) &&& (0x30 : UInt8)).toNat = 2^4*(a.toNat%4) ∧
      ((a <<< (2 : UInt8)) &&& (0x3C : UInt8)).toNat = 2^2*(a.toNat%16) := by
  have hall : ∀ x : BitVec 8,
      (((UInt8.ofBitVec x) <<< (4 : UInt8)) &&& (0x30 : UInt8)).toNat =
          2^4*((UInt8.ofBitVec x).toNat%4) ∧
        (((UInt8.ofBitVec x) <<< (2 : UInt8)) &&& (0x3C : UInt8)).toNat =
          2^2*((UInt8.ofBitVec x).toNat%16) := by
    decide +kernel
  exact hall a.toBitVec

theorem masked_shiftRight_toNat (a : UInt8) :
    ((a >>> (4 : UInt8)) &&& (0x0F : UInt8)).toNat = a.toNat/16 ∧
      ((a >>> (6 : UInt8)) &&& (0x03 : UInt8)).toNat = a.toNat/64 := by
  have hall : ∀ x : BitVec 8,
      (((UInt8.ofBitVec x) >>> (4 : UInt8)) &&& (0x0F : UInt8)).toNat =
          (UInt8.ofBitVec x).toNat/16 ∧
        (((UInt8.ofBitVec x) >>> (6 : UInt8)) &&& (0x03 : UInt8)).toNat =
          (UInt8.ofBitVec x).toNat/64 := by
    decide +kernel
  exact hall a.toBitVec

theorem sextet0_toNat : (sextet0 a).toNat = a.toNat/4 := by
  have hall : ∀ x : BitVec 8, (sextet0 (UInt8.ofBitVec x)).toNat = (UInt8.ofBitVec x).toNat/4 := by
    decide +kernel
  exact hall a.toBitVec

theorem sextet1_toNat : (sextet1 a b).toNat = a.toNat%4*16+b.toNat/16 := by
  have hb := b.toNat_lt
  rw [sextet1,UInt8.toNat_or,(masked_shiftLeft_toNat a).1,(masked_shiftRight_toNat b).1,
    ← Nat.two_pow_add_eq_or_of_lt (by omega)]
  omega

theorem sextet2_toNat : (sextet2 b c).toNat = b.toNat%16*4+c.toNat/64 := by
  have hc := c.toNat_lt
  rw [sextet2,UInt8.toNat_or,(masked_shiftLeft_toNat b).2,(masked_shiftRight_toNat c).2,
    ← Nat.two_pow_add_eq_or_of_lt (by omega)]
  omega

theorem sextet3_toNat : (sextet3 c).toNat = c.toNat%64 := by
  rw [sextet3,UInt8.toNat_and,show (0x3F : UInt8).toNat = 2^6-1 from rfl,
    Nat.and_two_pow_sub_one_eq_mod]

variable {a b c}

/-- The place of `c` in the table: the last one that matches, and `0xFF` without any. -/
def lookUp (table : List UInt8) (c : UInt8) : UInt8 :=
  (List.range 64).foldl (fun temp k => if table[k]? = some c then UInt8.ofNat k else temp) 0xFF

theorem foldl_match {p : ℕ → Prop} [DecidablePred p] {f : ℕ → UInt8} {i : ℕ} {l : List ℕ}
    (h : ∀ k ∈ l, p k ↔ k = i) (temp : UInt8) :
    l.foldl (fun temp k => if p k then f k else temp) temp = if i ∈ l then f i else temp := by
  induction l generalizing temp with
  | nil => rfl
  | cons k l ih =>
    have hk := h k (by simp)
    have hl := ih (fun j hj => h j (by simp [hj]))
    rw [List.foldl_cons,hl]
    by_cases hi : k = i
    · subst hi
      simp [hk.mpr rfl]
    · simp [mt hk.mp hi,Ne.symm hi]

theorem lookUp_of_mem {table : List UInt8} {i : ℕ} (hnodup : table.Nodup)
    (hlen : table.length = 64) (h : table[i]? = some c) : lookUp table c = UInt8.ofNat i := by
  obtain ⟨hi,hget⟩ := List.getElem?_eq_some_iff.mp h
  have hp : ∀ k ∈ List.range 64, table[k]? = some c ↔ k = i := by
    intro k hk
    constructor
    · intro hk'
      obtain ⟨hlt,hgetk⟩ := List.getElem?_eq_some_iff.mp hk'
      exact (hnodup.getElem_inj_iff).mp (hgetk.trans hget.symm)
    · rintro rfl
      exact h
  rw [lookUp,foldl_match hp,if_pos (List.mem_range.mpr (by omega))]

theorem lookUp_of_notMem {table : List UInt8} (h : c ∉ table) : lookUp table c = 0xFF := by
  have hp : ∀ k ∈ List.range 64, table[k]? = some c ↔ k = 64 := by
    intro k hk
    have hlt := List.mem_range.mp hk
    refine ⟨fun hk' => absurd (List.mem_of_getElem? hk') h,?_⟩
    omega
  rw [lookUp,foldl_match hp,if_neg (by simp)]

end Sextets
end PcEnv
