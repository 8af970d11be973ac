import Mathlib.Tactic

/-! Byte ranges of a memory and circular windows over its first `c` cells.
A memory is a function from addresses; `span` and `window` are the values a reader sees,
straight on and around the end, and are compared with lists through their elements. -/
namespace PcEnv
namespace Circular

variable {β : Type}

def span (mem : ℕ → β) (a n : ℕ) : List β := (List.range n).map fun k => mem (a+k)

/-- The cell `k` places after `r` in a circle of `c` cells. -/
def slot (c r k : ℕ) : ℕ := if r+k < c then r+k else r+k-c

/-- The `n` cells from `r` on, around the circle. -/
def window (mem : ℕ → β) (c r n : ℕ) : List β := (List.range n).map fun k => mem (slot c r k)

def patch (mem : ℕ → β) (a : ℕ) (l : List β) : ℕ → β :=
  fun i => if a ≤ i then (l[i-a]?).getD (mem i) else mem i

/-- `for (; n > 0; i++, n--) mem[dst+i] = mem[src+i]`, cell by cell. -/
def copyLoop (dst src : ℕ) : ℕ → ℕ → (ℕ → β) → (ℕ → β)
  | 0,_,mem => mem
  | n+1,i,mem => copyLoop dst src n (i+1) (Function.update mem (dst+i) (mem (src+i)))

theorem slot_lt {c r k : ℕ} (hr : r < c) (hk : k ≤ c) : slot c r k < c := by
  unfold slot; split_ifs <;> omega

theorem slot_of_lt {c r k : ℕ} (h : r+k < c) : slot c r k = r+k := by simp [slot,h]

theorem slot_of_le {c r k : ℕ} (h : c ≤ r+k) : slot c r k = r+k-c := by
  simp [slot,show ¬ r+k < c by omega]

@[simp] theorem slot_zero {c r : ℕ} (hr : r < c) : slot c r 0 = r := by simp [slot,hr]

theorem slot_add {c r a b : ℕ} (hr : r < c) (h : a+b ≤ c) :
    slot c (slot c r a) b = slot c r (a+b) := by
  unfold slot; split_ifs <;> omega

theorem slot_injective {c r i j : ℕ} (hi : i < c) (hj : j < c)
    (h : slot c r i = slot c r j) : i = j := by
  unfold slot at h; split_ifs at h <;> omega

theorem slot_modEq (c r k : ℕ) : slot c r k ≡ r+k [MOD c] := by
  unfold slot
  split_ifs with h
  · rfl
  · exact (Nat.mod_eq_sub_mod (not_lt.mp h)).symm

/-- The read and write positions of a circle of `c` cells, and its counts of used and free
cells, fit together. -/
structure Indexed (c ri wi used free : ℕ) : Prop where
  riLt : ri < c
  wiEq : wi = slot c ri used
  books : used+free = c

theorem Indexed.start {c : ℕ} (hc : 0 < c) : Indexed c 0 0 0 c :=
  ⟨hc,(slot_zero hc).symm,Nat.zero_add c⟩

theorem Indexed.wiLt {c ri wi used free : ℕ} (h : Indexed c ri wi used free) : wi < c := by
  have hb := h.books
  rw [h.wiEq]
  exact slot_lt h.riLt (by omega)

theorem Indexed.commit {c ri wi used free n : ℕ} (h : Indexed c ri wi used free)
    (hn : n ≤ free) : Indexed c ri (slot c wi n) (used+n) (free-n) := by
  have hb := h.books
  refine ⟨h.riLt,?_,by omega⟩
  rw [h.wiEq,slot_add h.riLt (by omega)]

theorem Indexed.release {c ri wi used free n : ℕ} (h : Indexed c ri wi used free)
    (hn : n ≤ used) : Indexed c (slot c ri n) wi (used-n) (free+n) := by
  have hb := h.books
  refine ⟨slot_lt h.riLt (by omega),?_,by omega⟩
  rw [h.wiEq,slot_add h.riLt (by omega),show n+(used-n) = used by omega]

@[simp] theorem span_length (mem : ℕ → β) (a n : ℕ) : (span mem a n).length = n := by simp [span]
@[simp] theorem window_length (mem : ℕ → β) (c r n : ℕ) : (window mem c r n).length = n := by
  simp [window]

theorem span_eq_iff {mem : ℕ → β} {a n : ℕ} {l : List β} (hl : l.length = n) :
    span mem a n = l ↔ ∀ k < n, l[k]? = some (mem (a+k)) := by
  constructor
  · rintro rfl k hk
    simp [span,hk]
  · intro h
    apply List.ext_getElem? 
    intro k
    by_cases hk : k < n
    · simp [span,hk,h k hk]
    · simp [span,hk,hl]

theorem window_eq_iff {mem : ℕ → β} {c r n : ℕ} {l : List β} (hl : l.length = n) :
    window mem c r n = l ↔ ∀ k < n, l[k]? = some (mem (slot c r k)) := by
  constructor
  · rintro rfl k hk
    simp [window,hk]
  · intro h
    apply List.ext_getElem?
    intro k
    by_cases hk : k < n
    · simp [window,hk,h k hk]
    · simp [window,hk,hl]

theorem span_take {mem : ℕ → β} {a n m : ℕ} (h : m ≤ n) : (span mem a n).take m = span mem a m := by
  rw [span,← List.map_take,List.take_range,Nat.min_eq_left h,span]

theorem window_add (mem : ℕ → β) {c r a b : ℕ} (hr : r < c) (h : a+b ≤ c) :
    window mem c r (a+b) = window mem c r a ++ window mem c (slot c r a) b := by
  simp only [window,List.range_add,List.map_append,List.map_map,List.append_cancel_left_eq]
  apply List.map_congr_left
  intro k hk
  rw [List.mem_range] at hk
  rw [Function.comp_apply,slot_add hr (by omega)]

theorem window_drop {mem : ℕ → β} {c r n m : ℕ} (hr : r < c) (hm : m ≤ n) (hn : n ≤ c) :
    (window mem c r n).drop m = window mem c (slot c r m) (n-m) := by
  have h : window mem c r n = window mem c r m ++ window mem c (slot c r m) (n-m) := by
    rw [← window_add mem hr (by omega)]
    congr 1
    omega
  rw [h]
  exact List.drop_left' (window_length mem c r m)

theorem window_congr {mem mem' : ℕ → β} {c r n : ℕ}
    (h : ∀ k < n, mem (slot c r k) = mem' (slot c r k)) : window mem c r n = window mem' c r n :=
  List.map_congr_left fun k hk => h k (List.mem_range.mp hk)

theorem window_eq_span {mem : ℕ → β} {c r n : ℕ} (h : r+n ≤ c) :
    window mem c r n = span mem r n := by
  apply List.map_congr_left
  intro k hk
  rw [List.mem_range] at hk
  rw [slot_of_lt (by omega)]

theorem patch_inside {mem : ℕ → β} {a i : ℕ} {l : List β} (hi : a ≤ i) (hl : i < a+l.length) :
    some (patch mem a l i) = l[i-a]? := by
  have h : i-a < l.length := by omega
  simp [patch,hi,h]

theorem patch_outside {mem : ℕ → β} {a i : ℕ} {l : List β} (h : i < a ∨ a+l.length ≤ i) :
    patch mem a l i = mem i := by
  unfold patch
  split_ifs with hi
  · rw [List.getElem?_eq_none (by omega)]
    rfl
  · rfl

/-- A copy loop whose ranges are apart moves its source range and nothing else. -/
theorem copyLoop_apply {dst src n i : ℕ} (hd : src+n ≤ dst ∨ dst+n ≤ src) (mem : ℕ → β) (j : ℕ) :
    copyLoop dst src n i mem j =
      if dst+i ≤ j ∧ j < dst+i+n then mem (src+(j-dst)) else mem j := by
  induction n generalizing i mem with
  | zero => simp [copyLoop]
  | succ n ih =>
    rw [copyLoop,ih (by omega)]
    by_cases hj : j = dst+i
    · subst j
      simp [show ¬ dst+(i+1) ≤ dst+i by omega]
    · by_cases hin : dst+(i+1) ≤ j ∧ j < dst+(i+1)+n
      · have hne : src+(j-dst) ≠ dst+i := by omega
        simp [hin,hne,show dst+i ≤ j by omega,show j < dst+i+(n+1) by omega]
      · have hout : ¬ (dst+i ≤ j ∧ j < dst+i+(n+1)) := by omega
        simp [hin,hout,hj]

end Circular
end PcEnv
