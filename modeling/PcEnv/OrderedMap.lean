import Mathlib.Data.List.Pairwise
import Mathlib.Order.Basic
import Mathlib.Tactic

/-! Finite maps as lists in the order of their keys, where a key that is there keeps its value. -/
namespace PcEnv
namespace OrderedMap

variable {K V : Type} [LinearOrder K]

/-- Insertion of a new key; a key that is there already stays as it is. -/
def insert (k : K) (v : V) : List (K × V) → List (K × V)
  | [] => [(k,v)]
  | p::m => if k < p.1 then (k,v)::p::m else if k = p.1 then p::m else p::insert k v m

def find (k : K) (m : List (K × V)) : Option V := (m.find? (fun p => p.1 = k)).map Prod.snd

def Sorted (m : List (K × V)) : Prop := m.Pairwise (fun p q => p.1 < q.1)

theorem sorted_nil : Sorted ([] : List (K × V)) := List.Pairwise.nil

theorem mem_insert {k : K} {v : V} {m : List (K × V)} {p : K × V} (h : p ∈ insert k v m) :
    p = (k,v) ∨ p ∈ m := by
  induction m with
  | nil => exact Or.inl (List.mem_singleton.mp h)
  | cons q m ih =>
    rw [insert] at h
    split_ifs at h
    · exact List.mem_cons.mp h
    · exact Or.inr h
    · rcases List.mem_cons.mp h with rfl | h
      · exact Or.inr List.mem_cons_self
      · exact (ih h).imp_right (List.mem_cons_of_mem q)

theorem sorted_insert {m : List (K × V)} (k : K) (v : V) (h : Sorted m) : Sorted (insert k v m) := by
  induction m with
  | nil => exact List.pairwise_singleton _ _
  | cons q m ih =>
    obtain ⟨hq,hm⟩ := List.pairwise_cons.mp h
    rw [insert]
    split_ifs with hlt heq
    · refine List.pairwise_cons.mpr ⟨?_,h⟩
      intro p hp
      rcases List.mem_cons.mp hp with rfl | hp
      · exact hlt
      · exact hlt.trans (hq p hp)
    · exact h
    · refine List.pairwise_cons.mpr ⟨?_,ih hm⟩
      intro p hp
      rcases mem_insert hp with rfl | hp
      · exact lt_of_le_of_ne (not_lt.mp hlt) (Ne.symm heq)
      · exact hq p hp

theorem insert_of_forall_lt {k : K} {v : V} {m : List (K × V)} (h : ∀ p ∈ m, p.1 < k) :
    insert k v m = m++[(k,v)] := by
  induction m with
  | nil => rfl
  | cons q m ih =>
    have hq := h q List.mem_cons_self
    rw [insert,if_neg hq.not_gt,if_neg hq.ne',ih (fun p hp => h p (List.mem_cons_of_mem q hp))]
    rfl

theorem foldl_insert_append {m n : List (K × V)} (h : Sorted (m++n)) :
    n.foldl (fun m p => insert p.1 p.2 m) m = m++n := by
  induction n generalizing m with
  | nil => simp
  | cons p n ih =>
    have hlt : ∀ q ∈ m, q.1 < p.1 :=
      fun q hq => (List.pairwise_append.mp h).2.2 q hq p List.mem_cons_self
    have hassoc : m++p::n = (m++[p])++n := by simp
    rw [List.foldl_cons,insert_of_forall_lt hlt,ih (hassoc ▸ h),← hassoc]

theorem foldl_insert {m : List (K × V)} (h : Sorted m) :
    m.foldl (fun m p => insert p.1 p.2 m) [] = m :=
  foldl_insert_append (m:=[]) h

theorem sorted_foldl_insert {m : List (K × V)} (h : Sorted m) (n : List (K × V)) :
    Sorted (n.foldl (fun m p => insert p.1 p.2 m) m) := by
  induction n generalizing m with
  | nil => exact h
  | cons p n ih => exact ih (sorted_insert p.1 p.2 h)

theorem mem_foldl_insert {m n : List (K × V)} {q : K × V}
    (h : q ∈ n.foldl (fun m p => insert p.1 p.2 m) m) : q ∈ m ∨ q ∈ n := by
  induction n generalizing m with
  | nil => exact Or.inl h
  | cons p n ih =>
    rcases ih h with hq | hq
    · rcases mem_insert hq with rfl | hq
      · exact Or.inr List.mem_cons_self
      · exact Or.inl hq
    · exact Or.inr (List.mem_cons_of_mem p hq)

@[simp] theorem find_nil (k : K) : find k ([] : List (K × V)) = none := rfl

theorem find_cons (k : K) (p : K × V) (m : List (K × V)) :
    find k (p::m) = if p.1 = k then some p.2 else find k m := by
  unfold find
  rw [List.find?_cons]
  by_cases h : p.1 = k <;> simp [h]

theorem mem_of_find {k : K} {v : V} {m : List (K × V)} (h : find k m = some v) : (k,v) ∈ m := by
  induction m with
  | nil => cases h
  | cons p m ih =>
    rw [find_cons] at h
    split_ifs at h with hk
    · cases h
      cases hk
      exact List.mem_cons_self
    · exact List.mem_cons_of_mem p (ih h)

theorem find_insert_of_some {k l : K} {v w : V} {m : List (K × V)} (hm : Sorted m)
    (h : find k m = some v) : find k (insert l w m) = some v := by
  induction m with
  | nil => cases h
  | cons p m ih =>
    obtain ⟨hp,hm⟩ := List.pairwise_cons.mp hm
    rw [insert]
    split_ifs with hlt heq
    · have hne : l ≠ k := by
        rintro rfl
        rcases List.mem_cons.mp (mem_of_find h) with rfl | hmem
        · exact lt_irrefl _ hlt
        · exact lt_asymm hlt (hp _ hmem)
      rw [find_cons,if_neg hne,h]
    · exact h
    · rw [find_cons] at h ⊢
      split_ifs at h ⊢ with hk
      · exact h
      · exact ih hm h

theorem find_insert_self {k : K} {v : V} {m : List (K × V)} (h : find k m = none) :
    find k (insert k v m) = some v := by
  induction m with
  | nil => simp [insert,find_cons]
  | cons p m ih =>
    rw [find_cons] at h
    rw [insert]
    split_ifs at h with hk
    split_ifs with hlt heq
    · rw [find_cons,if_pos rfl]
    · exact absurd heq.symm hk
    · rw [find_cons,if_neg hk]
      exact ih h

end OrderedMap
end PcEnv
