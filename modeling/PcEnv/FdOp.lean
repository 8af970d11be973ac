import Mathlib.Tactic

/-! `un_write` and `un_read`, the loops around `write` and `read` of `fd_op.h`.
What the kernel answers to the calls is a list; a loop that needs more answers than there are
has not come back. -/
namespace PcEnv
namespace FdOp

def eintr : ℕ := 4

/-- One call of `write` or `read`: the bytes it could move (none when it fails) and what `errno`
is when the loop looks at it, which after a success is a value left by something earlier. -/
structure Answer where
  moved : ℕ
  errno : ℕ
  deriving DecidableEq, Repr

structure Written where
  count : ℕ
  answers : List Answer
  deriving DecidableEq, Repr

/-- `un_write(fd,buf,size)` with `count` of the bytes written. -/
def unWrite (size count : ℕ) : List Answer → Option Written
  | [] => none
  | a::as =>
    let count := count+min a.moved (size-count)
    if count = size then some { count := count, answers := as }
    else if a.errno = eintr then unWrite size count as
    else some { count := count, answers := as }

/-- What the calls of `un_read(fd,buf,size)` return one after the other, what the one that has
not come back has in its buffer, and what is still in the descriptor. -/
structure Reads (α : Type) where
  pieces : List (List α)
  buf : List α
  rest : List α
  deriving DecidableEq, Repr

def unReads {α : Type} (size : ℕ) (buf stream : List α) : List Answer → Reads α
  | [] => { pieces := [], buf := buf, rest := stream }
  | a::as =>
    let n := min a.moved (size-buf.length)
    let buf := buf++stream.take n
    if buf.length = size ∨ a.errno ≠ eintr then
      let r := unReads size [] (stream.drop n) as
      { r with pieces := buf::r.pieces }
    else unReads size buf (stream.drop n) as

/-- The kernel takes all of `n` bytes, and until then only lets calls end with `errno` at
`EINTR`; the answers after that. -/
inductive Takes : ℕ → List Answer → List Answer → Prop
  | whole {n a as} (h : n ≤ a.moved) : Takes n (a::as) as
  | part {n a as as'} (h : a.moved < n) (he : a.errno = eintr)
      (hrest : Takes (n-a.moved) as as') : Takes n (a::as) as'

/-- The kernel lets a call end with some of the `n` bytes not taken and `errno` not at `EINTR`. -/
inductive Refuses : ℕ → List Answer → List Answer → Prop
  | short {n a as} (h : a.moved < n) (he : a.errno ≠ eintr) : Refuses n (a::as) as
  | part {n a as as'} (h : a.moved < n) (he : a.errno = eintr)
      (hrest : Refuses (n-a.moved) as as') : Refuses n (a::as) as'

section

variable {size count : ℕ} {a : Answer} {as as' : List Answer}

theorem unWrite_whole (hle : count ≤ size) (h : size-count ≤ a.moved) :
    unWrite size count (a::as) = some { count := size, answers := as } := by
  have hcount : count+min a.moved (size-count) = size := by
    rw [Nat.min_eq_right h]
    omega
  simp only [unWrite,hcount,if_true]

theorem unWrite_again (h : a.moved < size-count) (he : a.errno = eintr) :
    unWrite size count (a::as) = unWrite size (count+a.moved) as := by
  have hcount : count+a.moved ≠ size := by omega
  simp only [unWrite,Nat.min_eq_left h.le,if_neg hcount,if_pos he]

theorem unWrite_short (h : a.moved < size-count) (he : a.errno ≠ eintr) :
    unWrite size count (a::as) = some { count := count+a.moved, answers := as } := by
  have hcount : count+a.moved ≠ size := by omega
  simp only [unWrite,Nat.min_eq_left h.le,if_neg hcount,if_neg he]

theorem unWrite_takes (hle : count ≤ size) (h : Takes (size-count) as as') :
    unWrite size count as = some { count := size, answers := as' } := by
  induction as generalizing count with
  | nil => cases h
  | cons a as ih =>
    cases h with
    | whole h => exact unWrite_whole hle h
    | part h he hrest =>
      rw [unWrite_again h he]
      exact ih (by omega) (by rwa [← Nat.sub_sub])

theorem unWrite_refuses (hle : count ≤ size) (h : Refuses (size-count) as as') :
    ∃ n < size, unWrite size count as = some { count := n, answers := as' } := by
  induction as generalizing count with
  | nil => cases h
  | cons a as ih =>
    cases h with
    | short h he => exact ⟨_,by omega,unWrite_short h he⟩
    | part h he hrest =>
      rw [unWrite_again h he]
      exact ih (by omega) (by rwa [← Nat.sub_sub])

theorem unWrite_cases {w : Written} (hle : count ≤ size)
    (h : unWrite size count as = some w) :
    w.count = size ∧ Takes (size-count) as w.answers ∨
      w.count < size ∧ Refuses (size-count) as w.answers := by
  induction as generalizing count with
  | nil => simp [unWrite] at h
  | cons a as ih =>
    by_cases ha : size-count ≤ a.moved
    · rw [unWrite_whole hle ha] at h
      cases h
      exact Or.inl ⟨rfl,.whole ha⟩
    · rw [not_le] at ha
      by_cases he : a.errno = eintr
      · rw [unWrite_again ha he] at h
        have hih := ih (by omega) h
        rw [← Nat.sub_sub] at hih
        exact hih.imp (fun h' => ⟨h'.1,.part ha he h'.2⟩) (fun h' => ⟨h'.1,.part ha he h'.2⟩)
      · rw [unWrite_short ha he] at h
        cases h
        have hlt : count+a.moved < size := by omega
        exact Or.inr ⟨hlt,.short ha he⟩

end

/-- The reads cut the stream up, and nothing of it is lost. -/
theorem unReads_flatten {α : Type} (size : ℕ) (buf stream : List α) (as : List Answer) :
    (unReads size buf stream as).pieces.flatten++(unReads size buf stream as).buf++
      (unReads size buf stream as).rest = buf++stream := by
  induction as generalizing buf stream with
  | nil => rfl
  | cons a as ih =>
    simp only [unReads]
    split_ifs
    · have hih := ih [] (stream.drop (min a.moved (size-buf.length)))
      simp only [List.flatten_cons,List.append_assoc,List.nil_append] at hih ⊢
      rw [hih,List.take_append_drop]
    · rw [ih,List.append_assoc,List.take_append_drop]

end FdOp
end PcEnv
