import Mathlib.Tactic

/-! The descriptors of a process and who holds them.
A new descriptor gets the lowest free number; closing a descriptor frees its number, whoever
holds it. -/
namespace PcEnv
namespace FdTable

variable {O : Type}

def owner (t : List (Option O)) (fd : ℕ) : Option O := t[fd]?.join

/-- The lowest free number. -/
def lowest (t : List (Option O)) : ℕ := t.findIdx (·.isNone)

def openFd (t : List (Option O)) (o : O) : List (Option O) :=
  if lowest t < t.length then t.set (lowest t) (some o) else t++[some o]

def closeFd (t : List (Option O)) (fd : ℕ) : List (Option O) := t.set fd none

variable {t : List (Option O)} {o : O} {fd : ℕ}

theorem lowest_le : lowest t ≤ t.length := List.findIdx_le_length

theorem owner_lowest : owner t (lowest t) = none := by
  rcases lt_or_ge (lowest t) t.length with hlt | hge
  · have hnone : t[lowest t].isNone = true := List.findIdx_getElem (w:=hlt)
    rw [owner,List.getElem?_eq_getElem hlt]
    exact Option.isNone_iff_eq_none.mp hnone
  · rw [owner,List.getElem?_eq_none hge]
    rfl

theorem owner_openFd (t : List (Option O)) (o : O) (fd : ℕ) :
    owner (openFd t o) fd = if fd = lowest t then some o else owner t fd := by
  have hle := lowest_le (t:=t)
  unfold openFd owner
  split_ifs with hlt heq heq
  · rw [heq,List.getElem?_set_self hlt]
    rfl
  · rw [List.getElem?_set_ne (Ne.symm heq)]
  · rw [heq,show lowest t = t.length by omega,List.getElem?_concat_length]
    rfl
  · rcases lt_or_ge fd t.length with hfd | hfd
    · rw [List.getElem?_append_left hfd]
    · rw [List.getElem?_eq_none (by simp; omega),List.getElem?_eq_none hfd]

theorem owner_closeFd (t : List (Option O)) (fd fd' : ℕ) :
    owner (closeFd t fd') fd = if fd = fd' then none else owner t fd := by
  unfold closeFd owner
  split_ifs with h
  · subst fd'
    rw [List.getElem?_set_self']
    cases t[fd]? <;> rfl
  · rw [List.getElem?_set_ne (Ne.symm h)]

end FdTable
end PcEnv
