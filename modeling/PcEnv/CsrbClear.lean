import PcEnv.Csrb

/-! Clearing the ring `csrb` while a producer and a consumer are at work.
`csrb_clear` may come between any two steps of the two parties; a query's answer outlives it. -/
namespace PcEnv
namespace RingClear

open Runs Word Circular

/-- What the indices and counters of a ring of `c` cells are to say. -/
structure Books (c ri wi contex empty : ℕ) : Prop where
  contexLe : contex ≤ c
  emptyLe : empty ≤ c
  sum : contex+empty = c
  wiLt : wi < c
  riLt : ri < c

instance (c ri wi contex empty : ℕ) : Decidable (Books c ri wi contex empty) :=
  decidable_of_iff (contex ≤ c ∧ empty ≤ c ∧ contex+empty = c ∧ wi < c ∧ ri < c)
    ⟨fun ⟨h₁,h₂,h₃,h₄,h₅⟩ => ⟨h₁,h₂,h₃,h₄,h₅⟩,
      fun ⟨h₁,h₂,h₃,h₄,h₅⟩ => ⟨h₁,h₂,h₃,h₄,h₅⟩⟩

theorem Books.start {c : ℕ} (hc : 1 ≤ c) : Books c 0 0 0 c := ⟨Nat.zero_le c,le_rfl,by omega,hc,hc⟩

inductive Party (A : Type)
  | idle
  | holding (size : ℕ) (addr : A)
  deriving DecidableEq

section

open Csrb

/-- The second argument is not used. -/
def csrbClear (r : Csrb.Ring) (_side : UInt8) : Csrb.Ring :=
  { r with wi := 0, ri := 0, contex := 0, empty := r.capacity }

structure CsrbSys where
  ring : Csrb.Ring
  prod : Party ℕ
  cons : Party ℕ

inductive CsrbEvent
  | writeQuery (size : ℕ)
  | fill (i : ℕ) (v : UInt8)
  | writeSync
  | readQuery (size : ℕ)
  | look (i : ℕ)
  | readSync
  | clear (side : UInt8)

def csrbStep (s : CsrbSys) : CsrbEvent → Except Halt CsrbSys
  | .writeQuery size =>
    match s.prod with
    | .idle =>
      match csrbWriteQuery s.ring size with
      | some a => .ok { s with prod := .holding size a }
      | none => .ok s
    | .holding _ _ => .error .blocked
  | .fill i v =>
    match s.prod with
    | .idle => .error .blocked
    | .holding size a =>
      if i < size then
        match Csrb.fill s.ring (a+i) [v] with
        | .ok r => .ok { s with ring := r }
        | .error h => .error h
      else .error .blocked
  | .writeSync =>
    match s.prod with
    | .idle => .error .blocked
    | .holding size _ =>
      match csrbWriteSync s.ring size with
      | .ok r => .ok { s with ring := r, prod := .idle }
      | .error h => .error h
  | .readQuery size =>
    match s.cons with
    | .idle =>
      match csrbReadQuery s.ring size with
      | some a => .ok { s with cons := .holding size a }
      | none => .ok s
    | .holding _ _ => .error .blocked
  | .look i =>
    match s.cons with
    | .idle => .error .blocked
    | .holding size a =>
      if i < size then if a+i < 2*s.ring.capacity then .ok s else .error .fault
      else .error .blocked
  | .readSync =>
    match s.cons with
    | .idle => .error .blocked
    | .holding size _ => .ok { s with ring := csrbReadSync s.ring size, cons := .idle }
  | .clear side => .ok { s with ring := csrbClear s.ring side }

def csrbCopies (r : Csrb.Ring) (size : ℕ) : List ℕ :=
  let i := intOf r.wi
  if sizeAdd i size < r.capacity then [size-i]
  else [sizeSub r.capacity r.wi-i,sizeSub size (sizeSub r.capacity r.wi)]

def CsrbBooks (s : CsrbSys) : Prop :=
  Books s.ring.capacity s.ring.ri s.ring.wi s.ring.contex s.ring.empty

instance (s : CsrbSys) : Decidable (CsrbBooks s) :=
  inferInstanceAs (Decidable (Books _ _ _ _ _))

/-- A step is defined, leaves the books in order, and copies no more than was asked for. -/
def CsrbKept (s : CsrbSys) (e : CsrbEvent) : Prop :=
  csrbStep s e ≠ .error .fault ∧ (∀ t, csrbStep s e = .ok t → CsrbBooks t) ∧
    ∀ size a, e = .writeSync → s.prod = .holding size a → ∀ len ∈ csrbCopies s.ring size, len ≤ size

/-- The `int` that `csrb_write_sync` keeps the write index in does not change the branch taken
and does not overflow in its loops. -/
def CounterFits (r : Csrb.Ring) (size : ℕ) : Prop :=
  if sizeAdd (intOf r.wi) size < r.capacity then
    r.wi+size < r.capacity ∧ (size ≤ intOf r.wi ∨ size ≤ intMax)
  else
    r.capacity ≤ r.wi+size ∧ (r.capacity-r.wi ≤ intOf r.wi ∨ r.capacity-r.wi ≤ intMax) ∧
      r.wi+size-r.capacity ≤ intMax

/-- A read is synchronised while its bytes are still in the ring. -/
def CsrbFits (s : CsrbSys) : CsrbEvent → Prop
  | .writeSync =>
    match s.prod with
    | .idle => True
    | .holding size _ => CounterFits s.ring size
  | .readSync =>
    match s.cons with
    | .idle => True
    | .holding size _ => size ≤ s.ring.contex
  | _ => True

instance (r : Csrb.Ring) (size : ℕ) : Decidable (CounterFits r size) := by
  unfold CounterFits
  infer_instance

instance (s : CsrbSys) : DecidablePred (CsrbFits s)
  | .writeSync =>
    match h : s.prod with
    | .idle => .isTrue (by simp only [CsrbFits,h])
    | .holding size _ => decidable_of_iff (CounterFits s.ring size) (by simp only [CsrbFits,h])
  | .readSync =>
    match h : s.cons with
    | .idle => .isTrue (by simp only [CsrbFits,h])
    | .holding size _ => decidable_of_iff (size ≤ s.ring.contex) (by simp only [CsrbFits,h])
  | .writeQuery _ | .fill _ _ | .readQuery _ | .look _ | .clear _ => .isTrue trivial

theorem counterFits_of_small {r : Csrb.Ring} {size : ℕ} (hwi : r.wi < r.capacity)
    (hs : size ≤ r.capacity) (hc : r.capacity ≤ intMax) : CounterFits r size := by
  have hi : intOf r.wi = r.wi := intOf_eq (by omega)
  have hmax : 2*intMax < sizeMod := by decide
  have hadd : sizeAdd r.wi size = r.wi+size := sizeAdd_eq (by omega)
  unfold CounterFits
  rw [hi,hadd]
  split_ifs with hlt <;> omega

/-- What the two parties hold, whatever has been cleared since. -/
structure CsrbInv (s : CsrbSys) : Prop where
  books : CsrbBooks s
  capLe : 2*s.ring.capacity ≤ ptrdiffMax
  prod : ∀ n a, s.prod = .holding n a → n ≤ s.ring.empty ∧ a < s.ring.capacity
  cons : ∀ m a, s.cons = .holding m a → m ≤ s.ring.capacity ∧ a < s.ring.capacity

theorem forCopy_done {r : Csrb.Ring} {dst src i bound : ℕ} (h : bound ≤ i) :
    forCopy r dst src i bound = .ok r := if_pos h

theorem forCopy_overflow {r : Csrb.Ring} {dst src i bound : ℕ} (h : i < bound)
    (hb : intMax < bound ∨ r.capacity < bound) : forCopy r dst src i bound = .error .fault := by
  rw [forCopy,if_neg (by omega),if_pos hb]

theorem forCopy_fits {r : Csrb.Ring} {i bound : ℕ} (dst src : ℕ)
    (hb : bound ≤ i ∨ bound ≤ intMax) (hc : bound ≤ r.capacity) :
    ∃ head, forCopy r dst src i bound = .ok { r with head := head } := by
  rcases hb with hb | hb
  · exact ⟨r.head,forCopy_done hb⟩
  · exact ⟨_,forCopy_eq hb hc⟩

variable {r : Csrb.Ring} {n : ℕ}

theorem mirror_fits (hb : Books r.capacity r.ri r.wi r.contex r.empty)
    (hc : 2*r.capacity ≤ ptrdiffMax) (hn : n ≤ r.capacity) (hf : CounterFits r n) :
    (∃ head, mirror r n = .ok { r with wi := slot r.capacity r.wi n, head := head }) ∧
      ∀ len ∈ csrbCopies r n, len ≤ n := by
  have hwi := hb.wiLt
  have hmax : ptrdiffMax < sizeMod := by decide
  have hsub : sizeSub r.capacity r.wi = r.capacity-r.wi := sizeSub_eq (by omega) (by omega)
  have hadd : sizeAdd r.wi n = r.wi+n := sizeAdd_eq (by omega)
  unfold CounterFits at hf
  unfold mirror csrbCopies
  simp only [hsub]
  by_cases hlt : sizeAdd (intOf r.wi) n < r.capacity
  · simp only [if_pos hlt] at hf ⊢
    obtain ⟨head,hcopy⟩ := forCopy_fits r.capacity 0 hf.2 hn
    refine ⟨⟨head,?_⟩,by simp⟩
    simp only [hcopy,hadd,slot_of_lt hf.1]
  · simp only [if_neg hlt] at hf ⊢
    obtain ⟨hge,hfirst,hsecond⟩ := hf
    have hrest : sizeSub n (r.capacity-r.wi) = r.wi+n-r.capacity := by
      rw [sizeSub_eq (by omega) (by omega)]
      omega
    obtain ⟨head,hcopy⟩ := forCopy_fits (r:=r) r.capacity 0 hfirst (by omega)
    have hsecond' : r.wi+n-r.capacity ≤ 0 ∨ r.wi+n-r.capacity ≤ intMax := Or.inr hsecond
    obtain ⟨head',hcopy'⟩ := forCopy_fits (r:={ r with head := head }) 0 r.capacity hsecond'
      (by simp only; omega)
    refine ⟨⟨head',?_⟩,?_⟩
    · simp only [hcopy,hsub,hrest,hcopy',slot_of_le hge]
    · simp only [hrest,List.mem_cons,List.not_mem_nil,or_false]
      rintro len (rfl | rfl) <;> omega

/-- Otherwise a loop is undefined, or the new write index is past the end. -/
theorem mirror_unfit (hb : Books r.capacity r.ri r.wi r.contex r.empty)
    (hc : 2*r.capacity ≤ ptrdiffMax) (hn : n ≤ r.capacity) (hf : ¬ CounterFits r n) :
    mirror r n = .error .fault ∨ ∃ r', mirror r n = .ok r' ∧ r'.capacity = r.capacity ∧
      r.capacity ≤ r'.wi := by
  have hwi := hb.wiLt
  have hmax : 2*ptrdiffMax+1 < sizeMod := by decide
  have hsub : sizeSub r.capacity r.wi = r.capacity-r.wi := sizeSub_eq (by omega) (by omega)
  have hadd : sizeAdd r.wi n = r.wi+n := sizeAdd_eq (by omega)
  unfold CounterFits at hf
  unfold mirror
  simp only [hsub]
  by_cases hlt : sizeAdd (intOf r.wi) n < r.capacity
  · simp only [if_pos hlt] at hf ⊢
    by_cases hfirst : n ≤ intOf r.wi ∨ n ≤ intMax
    · right
      obtain ⟨head,hcopy⟩ := forCopy_fits r.capacity 0 hfirst hn
      simp only [hcopy,hadd]
      exact ⟨_,rfl,rfl,by simp only; omega⟩
    · left
      rw [forCopy_overflow (by omega) (by omega)]
  · simp only [if_neg hlt] at hf ⊢
    left
    by_cases hfirst : r.capacity-r.wi ≤ intOf r.wi ∨ r.capacity-r.wi ≤ intMax
    · obtain ⟨head,hcopy⟩ := forCopy_fits (r:=r) r.capacity 0 hfirst (by omega)
      simp only [hcopy,hsub]
      have hbig : intMax < sizeSub n (r.capacity-r.wi) := by
        have himax : intMax < ptrdiffMax := by decide
        by_cases hge : r.capacity-r.wi ≤ n
        · rw [sizeSub_eq hge (by omega)]
          omega
        · rw [sizeSub_wrap (by omega) (by omega)]
          omega
      rw [forCopy_overflow (by omega) (Or.inl hbig)]
    · rw [forCopy_overflow (by omega) (by omega)]

theorem Books.commit {c ri wi contex empty : ℕ} (h : Books c ri wi contex empty) {n : ℕ}
    (hn : n ≤ empty) : Books c ri (slot c wi n) (contex+n) (empty-n) := by
  obtain ⟨h₁,h₂,h₃,h₄,h₅⟩ := h
  exact ⟨by omega,by omega,by omega,slot_lt h₄ (by omega),h₅⟩

theorem Books.release {c ri wi contex empty : ℕ} (h : Books c ri wi contex empty) {m : ℕ}
    (hm : m ≤ contex) : Books c (slot c ri m) wi (contex-m) (empty+m) := by
  obtain ⟨h₁,h₂,h₃,h₄,h₅⟩ := h
  exact ⟨by omega,by omega,by omega,h₄,slot_lt h₅ (by omega)⟩

def csrbCommitted (r : Csrb.Ring) (n : ℕ) (head : ℕ → UInt8) : Csrb.Ring :=
  { r with wi := slot r.capacity r.wi n, head := head, contex := r.contex+n, empty := r.empty-n }

theorem csrbWriteSync_fits (hb : Books r.capacity r.ri r.wi r.contex r.empty)
    (hc : 2*r.capacity ≤ ptrdiffMax) (hn : n ≤ r.empty) (hf : CounterFits r n) :
    ∃ head, csrbWriteSync r n = .ok (csrbCommitted r n head) := by
  have hle := hb.emptyLe
  have hsum := hb.sum
  have hmax : ptrdiffMax < sizeMod := by decide
  obtain ⟨⟨head,hm⟩,-⟩ := mirror_fits hb hc (by omega) hf
  have hsub : sizeSub r.empty n = r.empty-n := sizeSub_eq hn (by omega)
  have hadd : sizeAdd r.contex n = r.contex+n := sizeAdd_eq (by omega)
  exact ⟨head,by simp only [csrbWriteSync,writeSync,hm,hsub,hadd,csrbCommitted]⟩

theorem csrbReadSync_eq (hb : Books r.capacity r.ri r.wi r.contex r.empty)
    (hc : 2*r.capacity ≤ ptrdiffMax) {m : ℕ} (hm : m ≤ r.contex) :
    csrbReadSync r m = taken r m := by
  obtain ⟨h₁,h₂,h₃,h₄,h₅⟩ := hb
  have hmax : ptrdiffMax < sizeMod := by decide
  have hri : sizeAdd r.ri m = r.ri+m := sizeAdd_eq (by omega)
  have hrest : sizeSub r.capacity r.ri = r.capacity-r.ri := sizeSub_eq (by omega) (by omega)
  have hsub : sizeSub r.contex m = r.contex-m := sizeSub_eq hm (by omega)
  have hadd : sizeAdd r.empty m = r.empty+m := sizeAdd_eq (by omega)
  simp only [csrbReadSync,readSync,taken,hri,hrest,hsub,hadd]
  congr 1
  by_cases hlt : r.ri+m < r.capacity
  · rw [if_pos hlt,slot_of_lt hlt]
  · rw [if_neg hlt,slot_of_le (by omega),sizeSub_eq (by omega) (by omega)]
    omega

/-- A read that is synchronised after its bytes have been cleared: the counter wraps. -/
theorem csrbReadSync_wraps {m : ℕ} (hc : 2*r.capacity ≤ ptrdiffMax)
    (hm : m ≤ r.capacity) (hlt : r.contex < m) : r.capacity < (csrbReadSync r m).contex := by
  have hmax : 2*ptrdiffMax+1 < sizeMod := by decide
  have hwrap : sizeSub r.contex m = sizeMod-(m-r.contex) := sizeSub_wrap hlt (by omega)
  simp only [csrbReadSync,readSync,hwrap]
  omega

variable {s : CsrbSys}

inductive CsrbMoved (s : CsrbSys) : CsrbEvent → CsrbSys → Prop
  | reserved (n : ℕ) (hp : s.prod = .idle) (hn : n ≤ s.ring.empty) :
      CsrbMoved s (.writeQuery n) { s with prod := .holding n s.ring.wi }
  | full (n : ℕ) (hp : s.prod = .idle) (hn : s.ring.empty < n) : CsrbMoved s (.writeQuery n) s
  | filled (i : ℕ) (v : UInt8) (n a : ℕ) (hp : s.prod = .holding n a) (hi : i < n) :
      CsrbMoved s (.fill i v)
        { s with ring := { s.ring with head := patch s.ring.head (a+i) [v] } }
  | committed (n a : ℕ) (head : ℕ → UInt8) (hp : s.prod = .holding n a) (hn : n ≤ s.ring.empty) :
      CsrbMoved s .writeSync { s with ring := csrbCommitted s.ring n head, prod := .idle }
  | held (m : ℕ) (hcs : s.cons = .idle) (hm : m ≤ s.ring.contex) :
      CsrbMoved s (.readQuery m) { s with cons := .holding m s.ring.ri }
  | short (m : ℕ) (hcs : s.cons = .idle) (hm : s.ring.contex < m) : CsrbMoved s (.readQuery m) s
  | looked (i m a : ℕ) (hcs : s.cons = .holding m a) (hi : i < m) : CsrbMoved s (.look i) s
  | released (m a : ℕ) (hcs : s.cons = .holding m a) (hm : m ≤ s.ring.contex) :
      CsrbMoved s .readSync { s with ring := taken s.ring m, cons := .idle }
  | cleared (side : UInt8) : CsrbMoved s (.clear side) { s with ring := csrbClear s.ring side }

theorem csrbStep_moved (h : CsrbInv s) {e : CsrbEvent} (hf : CsrbFits s e) :
    Keeps csrbStep (CsrbMoved s e) s e := by
  have hbooks := h.books
  have hcap := h.capLe
  cases e with
  | writeQuery size =>
    cases hp : s.prod with
    | holding n a => exact Or.inl (by simp only [csrbStep,hp])
    | idle =>
      by_cases hle : size ≤ s.ring.empty
      · have hq : csrbWriteQuery s.ring size = some s.ring.wi := if_neg (by omega)
        exact Or.inr ⟨_,by simp only [csrbStep,hp,hq],.reserved size hp hle⟩
      · have hq : csrbWriteQuery s.ring size = none := if_pos (by omega)
        exact Or.inr ⟨_,by simp only [csrbStep,hp,hq],.full size hp (by omega)⟩
  | fill i v =>
    cases hp : s.prod with
    | idle => exact Or.inl (by simp only [csrbStep,hp])
    | holding n a =>
      obtain ⟨hn,ha⟩ := h.prod n a hp
      have hle := hbooks.emptyLe
      by_cases hi : i < n
      · have hfill : Csrb.fill s.ring (a+i) [v] =
            .ok { s.ring with head := patch s.ring.head (a+i) [v] } :=
          if_pos (by rw [List.length_singleton]; omega)
        exact Or.inr ⟨_,by simp only [csrbStep,hp,if_pos hi,hfill],.filled i v n a hp hi⟩
      · exact Or.inl (by simp only [csrbStep,hp,if_neg hi])
  | writeSync =>
    cases hp : s.prod with
    | idle => exact Or.inl (by simp only [csrbStep,hp])
    | holding n a =>
      obtain ⟨hn,-⟩ := h.prod n a hp
      have hfit : CounterFits s.ring n := by simpa only [CsrbFits,hp] using hf
      obtain ⟨head,hw⟩ := csrbWriteSync_fits hbooks hcap hn hfit
      exact Or.inr ⟨_,by simp only [csrbStep,hp,hw],.committed n a head hp hn⟩
  | readQuery size =>
    cases hcs : s.cons with
    | holding m a => exact Or.inl (by simp only [csrbStep,hcs])
    | idle =>
      by_cases hle : size ≤ s.ring.contex
      · have hq : csrbReadQuery s.ring size = some s.ring.ri := if_neg (by omega)
        exact Or.inr ⟨_,by simp only [csrbStep,hcs,hq],.held size hcs hle⟩
      · have hq : csrbReadQuery s.ring size = none := if_pos (by omega)
        exact Or.inr ⟨_,by simp only [csrbStep,hcs,hq],.short size hcs (by omega)⟩
  | look i =>
    cases hcs : s.cons with
    | idle => exact Or.inl (by simp only [csrbStep,hcs])
    | holding m a =>
      obtain ⟨hm,ha⟩ := h.cons m a hcs
      by_cases hi : i < m
      · have hin : a+i < 2*s.ring.capacity := by omega
        exact Or.inr ⟨_,by simp only [csrbStep,hcs,if_pos hi,if_pos hin],.looked i m a hcs hi⟩
      · exact Or.inl (by simp only [csrbStep,hcs,if_neg hi])
  | readSync =>
    cases hcs : s.cons with
    | idle => exact Or.inl (by simp only [csrbStep,hcs])
    | holding m a =>
      have hfit : m ≤ s.ring.contex := by simpa only [CsrbFits,hcs] using hf
      have hr := csrbReadSync_eq hbooks hcap hfit
      exact Or.inr ⟨_,by simp only [csrbStep,hcs,hr],.released m a hcs hfit⟩
  | clear side => exact Or.inr ⟨_,rfl,.cleared side⟩

theorem CsrbMoved.inv {e : CsrbEvent} {t : CsrbSys} (hm : CsrbMoved s e t) (h : CsrbInv s) :
    CsrbInv t := by
  have hbooks := h.books
  have hcap := h.capLe
  cases hm with
  | reserved n hp hn =>
    refine ⟨hbooks,hcap,?_,h.cons⟩
    rintro _ _ ⟨⟩
    exact ⟨hn,hbooks.wiLt⟩
  | full | short | looked => exact h
  | filled => exact ⟨hbooks,hcap,h.prod,h.cons⟩
  | committed n a head hp hn => exact ⟨hbooks.commit hn,hcap,by simp,h.cons⟩
  | held m hcs hm =>
    refine ⟨hbooks,hcap,h.prod,?_⟩
    rintro _ _ ⟨⟩
    exact ⟨hm.trans hbooks.contexLe,hbooks.riLt⟩
  | released m a hcs hm =>
    refine ⟨hbooks.release hm,hcap,?_,by simp⟩
    intro n b hp
    obtain ⟨hn,hb⟩ := h.prod n b hp
    exact ⟨hn.trans (Nat.le_add_right _ _),hb⟩
  | cleared side =>
    refine ⟨Books.start (Nat.one_le_of_lt hbooks.wiLt),hcap,?_,h.cons⟩
    intro n a hp
    obtain ⟨hn,ha⟩ := h.prod n a hp
    exact ⟨hn.trans hbooks.emptyLe,ha⟩

theorem csrbStep_keeps (h : CsrbInv s) {e : CsrbEvent} (hf : CsrbFits s e) :
    Keeps csrbStep CsrbInv s e :=
  (csrbStep_moved h hf).mono (fun _ hm => hm.inv h)

theorem csrbKept_iff (h : CsrbInv s) (e : CsrbEvent) : CsrbKept s e ↔ CsrbFits s e := by
  have hbooks := h.books
  have hcap := h.capLe
  constructor
  · rintro ⟨hsafe,hafter,-⟩
    cases e with
    | writeSync =>
      cases hp : s.prod with
      | idle => simp only [CsrbFits,hp]
      | holding n a =>
        obtain ⟨hn,ha⟩ := h.prod n a hp
        simp only [CsrbFits,hp]
        by_contra hbad
        rcases mirror_unfit hbooks hcap (hn.trans hbooks.emptyLe) hbad with hm | ⟨r',hm,hc,hwi⟩
        · exact hsafe (by simp only [csrbStep,hp,csrbWriteSync,writeSync,hm])
        · have hwi' := (hafter _ (by simp only [csrbStep,hp,csrbWriteSync,writeSync,hm]; rfl)).wiLt
          simp only at hwi'
          omega
    | readSync =>
      cases hcs : s.cons with
      | idle => simp only [CsrbFits,hcs]
      | holding m a =>
        obtain ⟨hm,ha⟩ := h.cons m a hcs
        simp only [CsrbFits,hcs]
        by_contra hlt
        have hle := (hafter _ (by simp only [csrbStep,hcs]; rfl)).contexLe
        have hwrap := csrbReadSync_wraps hcap hm (not_le.mp hlt)
        exact absurd hle (not_le.mpr hwrap)
    | _ => trivial
  · intro hf
    have hkeeps := csrbStep_keeps h hf
    refine ⟨hkeeps.safe,fun t ht => (hkeeps.of_ok ht).books,?_⟩
    rintro n a rfl hp
    obtain ⟨hn,ha⟩ := h.prod n a hp
    have hfit : CounterFits s.ring n := by simpa only [CsrbFits,hp] using hf
    exact (mirror_fits hbooks hcap (hn.trans hbooks.emptyLe) hfit).2

theorem csrbCreate_inv {size : ℕ} {r : Csrb.Ring} (hs : 1 ≤ size) (hr : csrbCreate size = some r) :
    CsrbInv ⟨r,.idle,.idle⟩ := by
  unfold csrbCreate Csrb.create at hr
  split_ifs at hr with hle
  cases hr
  exact ⟨Books.start hs,hle,by simp,by simp⟩

end

end RingClear
end PcEnv
