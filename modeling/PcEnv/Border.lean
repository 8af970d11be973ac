import Mathlib.Tactic

/-! Beginnings of a pattern at the end of a text, and the search that never goes back. -/
namespace PcEnv
namespace Border

variable {α : Type}

/-- The length of the longest proper beginning of `p` that `s` ends with. -/
def longest [DecidableEq α] (p s : List α) : ℕ :=
  Nat.findGreatest (fun k => p.take k <:+ s) (p.length-1)

theorem longest_suffix [DecidableEq α] (p s : List α) : p.take (longest p s) <:+ s := by
  have h := Nat.findGreatest_spec (P := fun k => p.take k <:+ s) (Nat.zero_le (p.length-1))
    List.nil_suffix
  exact h

theorem longest_le [DecidableEq α] (p s : List α) : longest p s ≤ p.length-1 :=
  Nat.findGreatest_le _

/-- Failed tries one after the other: each goes along `p` for some symbols and not with the next
one. `m` symbols are matched in all of them. -/
inductive Row (p : List α) : List α → ℕ → Prop
  | nil : Row p [] 0
  | cons {k c rest m} (hk : k < p.length) (hc : p[k]? ≠ some c) (hrest : Row p rest m) :
      Row p (p.take k++c::rest) (k+m)

/-- `w` is a row of failed tries and a beginning of `p` that is not empty, and `m` symbols of it
are matched. -/
def Covers (p w : List α) (m : ℕ) : Prop :=
  ∃ row y t, w = row++y ∧ Row p row t ∧ y ≠ [] ∧ y <+: p ∧ m = t+y.length

variable {p w rest : List α} {c : α} {k m : ℕ}

theorem try_getElem (hk : k < p.length) (rest : List α) : (p.take k++c::rest)[k]? = some c := by
  have hlen : (p.take k).length = k := List.length_take_of_le hk.le
  rw [List.getElem?_append_right (by omega),hlen,Nat.sub_self]
  rfl

theorem failed_not_begins (hk : k < p.length) (hc : p[k]? ≠ some c) :
    ¬ p.take k++c::rest <+: p := by
  rintro ⟨t,ht⟩
  rw [List.append_assoc,List.cons_append] at ht
  have hget : (p.take k++c::(rest++t))[k]? = some c := try_getElem hk _
  rw [ht] at hget
  exact hc hget

theorem try_le {k' : ℕ} {c' : α} {rest' : List α} (hk : k < p.length) (hc : p[k]? ≠ some c)
    (h : p.take k++c::rest = p.take k'++c'::rest') : k' ≤ k := by
  by_contra hlt
  have hget : (p.take k'++c'::rest')[k]? = some c := h ▸ try_getElem hk rest
  rw [List.getElem?_append_left (by rw [List.length_take]; omega),
    List.getElem?_take_of_lt (by omega)] at hget
  exact hc hget

theorem try_unique {k' : ℕ} {c' : α} {rest' : List α} (hk : k < p.length) (hc : p[k]? ≠ some c)
    (hk' : k' < p.length) (hc' : p[k']? ≠ some c')
    (h : p.take k++c::rest = p.take k'++c'::rest') : k = k' ∧ rest = rest' := by
  obtain rfl : k = k' := le_antisymm (try_le hk' hc' h.symm) (try_le hk hc h)
  have htail := List.append_cancel_left h
  rw [List.cons.injEq] at htail
  exact ⟨rfl,htail.2⟩

theorem not_covers_nil : ¬ Covers p [] m := by
  rintro ⟨row,y,t,h,-,hy,-⟩
  exact hy (List.append_eq_nil_iff.mp h.symm).2

theorem covers_begins (hw : w ≠ []) (h : w <+: p) : Covers p w m ↔ m = w.length := by
  constructor
  · rintro ⟨row,y,t,rfl,hrow,-,-,rfl⟩
    cases hrow with
    | nil => rw [List.nil_append,Nat.zero_add]
    | cons hk hc hrest =>
      rw [List.append_assoc,List.cons_append] at h
      exact (failed_not_begins hk hc h).elim
  · rintro rfl
    exact ⟨[],w,0,rfl,.nil,hw,h,(Nat.zero_add _).symm⟩

theorem covers_try (hk : k < p.length) (hc : p[k]? ≠ some c) :
    Covers p (p.take k++c::rest) m ↔ ∃ m', m = k+m' ∧ Covers p rest m' := by
  constructor
  · rintro ⟨row,y,t,h,hrow,hy,hpre,rfl⟩
    cases hrow with
    | nil =>
      rw [List.nil_append] at h
      exact (failed_not_begins hk hc (h ▸ hpre)).elim
    | @cons k' c' rest' t hk' hc' hrest =>
      rw [List.append_assoc,List.cons_append] at h
      obtain ⟨rfl,rfl⟩ := try_unique hk hc hk' hc' h
      exact ⟨t+y.length,Nat.add_assoc _ _ _,rest',y,t,rfl,hrest,hy,hpre,rfl⟩
  · rintro ⟨m',rfl,row,y,t,rfl,hrow,hy,hpre,rfl⟩
    refine ⟨p.take k++c::row,y,k+t,?_,.cons hk hc hrow,hy,hpre,(Nat.add_assoc _ _ _).symm⟩
    rw [List.append_assoc,List.cons_append]

theorem row_of_quiet {row : List α} (hp : p ≠ []) (h : ∀ c ∈ row, p.head? ≠ some c) :
    Row p row 0 := by
  induction row with
  | nil => exact .nil
  | cons c row ih =>
    have hc : p[0]? ≠ some c := by
      rw [← List.head?_eq_getElem?]
      exact h c List.mem_cons_self
    have hrest := ih (fun x hx => h x (List.mem_cons_of_mem c hx))
    exact .cons (List.length_pos_iff.mpr hp) hc hrest

end Border
end PcEnv
