import Mathlib.Tactic

/-! Runs of one value at the end of a history, and the first history that completes a run of
a given length. -/
namespace PcEnv
namespace Streak

variable {β : Type}

/-- The last values of the history are `n` of `b` in a row. -/
def Completes (n : ℕ) (b : β) (l : List β) : Prop := List.replicate n b <:+ l

/-- No history up to this one completes a run. -/
def Before (n : ℕ) (b : β) (l : List β) : Prop := ∀ p, p <+: l → ¬ Completes n b p

/-- This history completes a run, and none before it does. -/
def First (n : ℕ) (b : β) (l : List β) : Prop :=
  Completes n b l ∧ ∀ p, p <+: l → Completes n b p → p = l

section

variable [DecidableEq β]

/-- How many of the last values of the history are `b` without a break. -/
def streak (b : β) (l : List β) : ℕ := (l.reverse.takeWhile (fun x => x = b)).length

@[simp] theorem streak_nil (b : β) : streak b [] = 0 := rfl

@[simp] theorem streak_same (b : β) (l : List β) : streak b (l++[b]) = streak b l+1 := by
  simp [streak]

theorem streak_other {b c : β} (h : c ≠ b) (l : List β) : streak b (l++[c]) = 0 := by
  simp [streak,h]

theorem completes_iff {n : ℕ} {b : β} {l : List β} : Completes n b l ↔ n ≤ streak b l := by
  unfold Completes
  induction l using List.reverseRecOn generalizing n with
  | nil => cases n <;> simp
  | append_singleton l c ih =>
    cases n with
    | zero => simp
    | succ n =>
      rw [List.replicate_succ',List.suffix_concat_iff]
      by_cases hc : c = b
      · subst c
        simp [← ih]
      · have hcb : ¬ b = c := fun h => hc h.symm
        simp [streak_other hc,hcb]

instance (n : ℕ) (b : β) (l : List β) : Decidable (Completes n b l) :=
  decidable_of_iff (n ≤ streak b l) completes_iff.symm

theorem completes_same {n : ℕ} {b : β} {l : List β} :
    Completes n b (l++[b]) ↔ n ≤ streak b l+1 := by
  rw [completes_iff,streak_same]

theorem not_completes_other {n : ℕ} {b c : β} (hn : 1 ≤ n) (h : c ≠ b) (l : List β) :
    ¬ Completes n b (l++[c]) := by
  rw [completes_iff,streak_other h]
  omega

theorem Before.streak_lt {n : ℕ} {b : β} {l : List β} (h : Before n b l) : streak b l < n := by
  have hlast := h l List.prefix_rfl
  rw [completes_iff] at hlast
  omega

end

theorem before_nil {n : ℕ} (hn : 1 ≤ n) (b : β) : Before n b [] := by
  intro p hp
  rw [List.prefix_nil.mp hp]
  intro hc
  have hlen := hc.length_le
  rw [List.length_replicate,List.length_nil] at hlen
  omega

theorem Before.snoc {n : ℕ} {b c : β} {l : List β} (h : Before n b l)
    (hc : ¬ Completes n b (l++[c])) : Before n b (l++[c]) := by
  intro p hp
  rcases List.prefix_concat_iff.mp hp with rfl | hp
  · exact hc
  · exact h p hp

theorem Before.first {n : ℕ} {b c : β} {l : List β} (h : Before n b l)
    (hc : Completes n b (l++[c])) : First n b (l++[c]) := by
  refine ⟨hc,?_⟩
  intro p hp hcp
  rcases List.prefix_concat_iff.mp hp with rfl | hp
  · rfl
  · exact (h p hp hcp).elim

theorem First.unique {n : ℕ} {b : β} {l p q : List β} (hp : First n b p) (hq : First n b q)
    (hpl : p <+: l) (hql : q <+: l) : p = q := by
  rcases List.prefix_or_prefix_of_prefix hpl hql with hpq | hqp
  · exact hq.2 p hpq hp.1
  · exact (hp.2 q hqp hq.1).symm

end Streak
end PcEnv
