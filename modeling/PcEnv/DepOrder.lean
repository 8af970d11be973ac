import Mathlib.Data.Set.Insert
import Mathlib.Logic.Relation
import Mathlib.Tactic

/-! Dependency orders over an arbitrary dependency function.
A finishing order is built by appending a name once everything it needs is either
listed already or still open; `Partial` is the state of such a list, and with nothing
open it is a build order of everything reachable from the listed names. -/
namespace PcEnv
namespace DepOrder

variable {α : Type} {deps : α → List α}

/-- Reachability through the dependency function in zero or more steps. -/
def Reaches (deps : α → List α) : α → α → Prop := Relation.ReflTransGen fun a b => b ∈ deps a

def Acyclic (deps : α → List α) : Prop := ∀ a, ¬ Relation.TransGen (fun a b => b ∈ deps a) a a

theorem Reaches.refl (a : α) : Reaches deps a a := Relation.ReflTransGen.refl

theorem Reaches.head {a b c : α} (hb : b ∈ deps a) (h : Reaches deps b c) : Reaches deps a c :=
  Relation.ReflTransGen.head hb h

theorem Reaches.tail {a b c : α} (h : Reaches deps a b) (hc : c ∈ deps b) : Reaches deps a c :=
  Relation.ReflTransGen.tail h hc

theorem Acyclic.not_reaches (h : Acyclic deps) {a b : α} (hb : b ∈ deps a) :
    ¬ Reaches deps b a := by
  intro hr
  exact h a (Relation.TransGen.head' hb hr)

def Before (l : List α) (b a : α) : Prop := ∃ l₁ l₂, l = l₁ ++ a::l₂ ∧ b ∈ l₁

theorem Before.append {l : List α} {b a : α} (h : Before l b a) (m : List α) :
    Before (l++m) b a := by
  obtain ⟨l₁,l₂,rfl,hb⟩ := h
  exact ⟨l₁,l₂++m,by simp,hb⟩

theorem before_snoc {l : List α} {b : α} (hb : b ∈ l) (a : α) : Before (l++[a]) b a :=
  ⟨l,[],rfl,hb⟩

theorem Before.mem_of_nodup {done todo : List α} {b a : α} (hnodup : (done++a::todo).Nodup)
    (h : Before (done++a::todo) b a) : b ∈ done := by
  obtain ⟨l₁,l₂,hsplit,hb⟩ := h
  have hmid := List.nodup_middle.mp hnodup
  rw [List.nodup_cons,List.mem_append,not_or] at hmid
  obtain ⟨⟨hdone,htodo⟩,-⟩ := hmid
  obtain ⟨rfl,-,-⟩ := (List.append_cons_inj_of_notMem hdone htodo).mp hsplit
  exact hb

theorem acyclic_of_rank (rank : α → ℕ) (h : ∀ a, ∀ b ∈ deps a, rank b < rank a) :
    Acyclic deps := by
  have hfall {a b : α} (hr : Relation.TransGen (fun a b => b ∈ deps a) a b) : rank b < rank a := by
    induction hr with
    | single hb => exact h _ _ hb
    | tail _ hc ih => exact (h _ _ hc).trans ih
  exact fun a hr => lt_irrefl _ (hfall hr)

/-- What a finishing order satisfies while the names in `P` are still open. -/
structure Partial (deps : α → List α) (P : Set α) (l : List α) : Prop where
  nodup : l.Nodup
  closed : ∀ a ∈ l, ∀ b ∈ deps a, b ∈ l ∨ b ∈ P
  ordered : ∀ a ∈ l, ∀ b ∈ deps a, Before l b a ∨ Reaches deps b a

theorem Partial.nil (P : Set α) : Partial deps P [] :=
  ⟨List.nodup_nil,by simp,by simp⟩

theorem Partial.mono {P Q : Set α} {l : List α} (h : Partial deps P l) (hPQ : P ⊆ Q) :
    Partial deps Q l :=
  ⟨h.nodup,fun a ha b hb => (h.closed a ha b hb).imp_right (fun hp => hPQ hp),h.ordered⟩

/-- Closing the open name `a` appends it: all it needs is listed, or is open and leads to `a`. -/
theorem Partial.snoc {P : Set α} {l : List α} {a : α} (h : Partial deps (insert a P) l)
    (ha : a ∉ l) (hd : ∀ b ∈ deps a, b ∈ l ∨ b ∈ insert a P)
    (hP : ∀ p ∈ P, Reaches deps p a) : Partial deps P (l++[a]) := by
  have close {b : α} (hb : b ∈ l ∨ b ∈ insert a P) : b ∈ l++[a] ∨ b ∈ P := by
    rcases hb with hb | rfl | hb
    · exact Or.inl (by simp [hb])
    · exact Or.inl (by simp)
    · exact Or.inr hb
  refine ⟨?_,?_,?_⟩
  · rw [List.nodup_append]
    refine ⟨h.nodup,List.nodup_singleton a,?_⟩
    intro x hx y hy hxy
    rw [List.mem_singleton] at hy
    exact ha (hy ▸ hxy ▸ hx)
  · intro c hc b hb
    rcases List.mem_append.mp hc with hc | hc
    · exact close (h.closed c hc b hb)
    · rw [List.mem_singleton] at hc
      exact close (hd b (hc ▸ hb))
  · intro c hc b hb
    rcases List.mem_append.mp hc with hc | hc
    · exact (h.ordered c hc b hb).imp_left (fun hh => hh.append [a])
    · rw [List.mem_singleton] at hc
      subst c
      rcases hd b hb with hl | rfl | hp
      · exact Or.inl (before_snoc hl a)
      · exact Or.inr (Reaches.refl b)
      · exact Or.inr (hP b hp)

/-- The purpose of a sort: each name once, exactly what the roots need, and needs first
except along a common cycle. -/
structure BuildOrder (deps : α → List α) (roots l : List α) : Prop where
  nodup : l.Nodup
  mem_iff : ∀ p, p ∈ l ↔ ∃ r ∈ roots, Reaches deps r p
  ordered : ∀ a ∈ l, ∀ b ∈ deps a, Before l b a ∨ Reaches deps b a

theorem Partial.mem_of_reaches {l : List α} (h : Partial deps ∅ l) {r p : α} (hr : r ∈ l)
    (hp : Reaches deps r p) : p ∈ l := by
  induction hp with
  | refl => exact hr
  | tail _ hc ih => exact (h.closed _ ih _ hc).resolve_right (by simp)

theorem Partial.buildOrder {roots l : List α} (h : Partial deps ∅ l)
    (hroots : ∀ r ∈ roots, r ∈ l) (hsound : ∀ p ∈ l, ∃ r ∈ roots, Reaches deps r p) :
    BuildOrder deps roots l := by
  refine ⟨h.nodup,fun p => ⟨hsound p,?_⟩,h.ordered⟩
  rintro ⟨r,hr,hp⟩
  exact h.mem_of_reaches (hroots r hr) hp

theorem Partial.topological {P : Set α} {l : List α} (h : Partial deps P l)
    (hac : Acyclic deps) : ∀ a ∈ l, ∀ b ∈ deps a, Before l b a := by
  intro a ha b hb
  exact (h.ordered a ha b hb).resolve_right (hac.not_reaches hb)

theorem BuildOrder.topological {roots l : List α} (h : BuildOrder deps roots l)
    (hac : Acyclic deps) : ∀ a ∈ l, ∀ b ∈ deps a, Before l b a := by
  intro a ha b hb
  exact (h.ordered a ha b hb).resolve_right (hac.not_reaches hb)

end DepOrder
end PcEnv
