import PcEnv.Circular
import PcEnv.Runs
import PcEnv.Word

/-! The mirrored rings `csrb` and `shrb`.
`head` holds `2*capacity` bytes; the second half is meant to mirror the first, so that a
window of up to `capacity` bytes is contiguous from any index. Both modules have the same
four functions, line for line; they differ in where the ring lives and in what the mutex
covers, which a whole transaction does not see. -/
namespace PcEnv
namespace Csrb

open Runs Word Circular

structure Ring where
  ri : ℕ
  wi : ℕ
  contex : ℕ
  empty : ℕ
  head : ℕ → UInt8
  capacity : ℕ

inductive Api
  | csrb | shrb
  deriving DecidableEq

def create (size : ℕ) : Option Ring :=
  if 2*size ≤ ptrdiffMax then
    some { ri := 0, wi := 0, contex := 0, empty := size, head := fun _ => 0, capacity := size }
  else none

def writeQuery (r : Ring) (size : ℕ) : Option ℕ := if size > r.empty then none else some r.wi

def readQuery (r : Ring) (size : ℕ) : Option ℕ := if size > r.contex then none else some r.ri

/-- `for (; i < bound; i++) head[dst+i] = head[src+i]` with an `int i`: a counter that has to
pass `INT_MAX` overflows, and a bound past `capacity` leaves the backing area. -/
def forCopy (r : Ring) (dst src i bound : ℕ) : Except Halt Ring :=
  if bound ≤ i then .ok r
  else if intMax < bound ∨ r.capacity < bound then .error .fault
  else .ok { r with head := copyLoop dst src (bound-i) i r.head }

/-- The copies of `write_sync` and the new write index. -/
def mirror (r : Ring) (size : ℕ) : Except Halt Ring :=
  let i := intOf r.wi
  if sizeAdd i size < r.capacity then
    match forCopy r r.capacity 0 i size with
    | .ok r₁ => .ok { r₁ with wi := sizeAdd r₁.wi size }
    | .error h => .error h
  else
    match forCopy r r.capacity 0 i (sizeSub r.capacity r.wi) with
    | .ok r₁ =>
      match forCopy r₁ 0 r₁.capacity 0 (sizeSub size (sizeSub r₁.capacity r₁.wi)) with
      | .ok r₂ => .ok { r₂ with wi := sizeSub size (sizeSub r₂.capacity r₂.wi) }
      | .error h => .error h
    | .error h => .error h

def writeSync (r : Ring) (size : ℕ) : Except Halt Ring :=
  match mirror r size with
  | .ok r => .ok { r with empty := sizeSub r.empty size, contex := sizeAdd r.contex size }
  | .error h => .error h

def readSync (r : Ring) (size : ℕ) : Ring :=
  let ri := if sizeAdd r.ri size < r.capacity then sizeAdd r.ri size
    else sizeSub size (sizeSub r.capacity r.ri)
  { r with ri := ri, contex := sizeSub r.contex size, empty := sizeAdd r.empty size }

def csrbCreate := create
def csrbWriteQuery := writeQuery
def csrbReadQuery := readQuery
def csrbWriteSync := writeSync
def csrbReadSync := readSync

def shrbCreate := create
def shrbWriteQuery := writeQuery
def shrbReadQuery := readQuery
def shrbWriteSync := writeSync
def shrbReadSync := readSync

def Api.create : Api → ℕ → Option Ring
  | .csrb => csrbCreate
  | .shrb => shrbCreate

def Api.writeQuery : Api → Ring → ℕ → Option ℕ
  | .csrb => csrbWriteQuery
  | .shrb => shrbWriteQuery

def Api.readQuery : Api → Ring → ℕ → Option ℕ
  | .csrb => csrbReadQuery
  | .shrb => shrbReadQuery

def Api.writeSync : Api → Ring → ℕ → Except Halt Ring
  | .csrb => csrbWriteSync
  | .shrb => shrbWriteSync

def Api.readSync : Api → Ring → ℕ → Ring
  | .csrb => csrbReadSync
  | .shrb => shrbReadSync

/-- A producer fills the window it was given and commits all of it; a consumer reads all
of the window it was given. -/
inductive Txn
  | write (bytes : List UInt8)
  | read (size : ℕ)
  deriving DecidableEq

structure Sys where
  ring : Ring
  produced : List UInt8
  consumed : List UInt8

def start (r : Ring) : Sys := ⟨r,[],[]⟩

/-- The caller fills the bytes at the returned address, which has to lie in the area. -/
def fill (r : Ring) (a : ℕ) (bytes : List UInt8) : Except Halt Ring :=
  if a+bytes.length ≤ 2*r.capacity then .ok { r with head := patch r.head a bytes }
  else .error .fault

def produce (api : Api) (r : Ring) (bytes : List UInt8) : Except Halt Ring :=
  match api.writeQuery r bytes.length with
  | none => .error .blocked
  | some a =>
    match fill r a bytes with
    | .ok r => api.writeSync r bytes.length
    | .error h => .error h

def consume (api : Api) (r : Ring) (size : ℕ) : Except Halt (Ring × List UInt8) :=
  match api.readQuery r size with
  | none => .error .blocked
  | some a =>
    if a+size ≤ 2*r.capacity then .ok (api.readSync r size,span r.head a size)
    else .error .fault

def txn (api : Api) (s : Sys) : Txn → Except Halt Sys
  | .write bytes =>
    match produce api s.ring bytes with
    | .ok r => .ok { s with ring := r, produced := s.produced++bytes }
    | .error h => .error h
  | .read size =>
    match consume api s.ring size with
    | .ok (r,bytes) => .ok { s with ring := r, consumed := s.consumed++bytes }
    | .error h => .error h

/-- The second half as the loops leave it: they stop at `size` and at `capacity - wi`, not at
`wi + size` and `capacity`. -/
def mirrored (head : ℕ → UInt8) (c wi n : ℕ) : ℕ → UInt8 :=
  if wi+n < c then copyLoop c 0 (n-wi) wi head
  else copyLoop 0 c (n-(c-wi)) 0 (copyLoop c 0 (c-wi-wi) wi head)

theorem mirrored_of_lt {head : ℕ → UInt8} {c wi n : ℕ} (h : wi+n < c) (j : ℕ) :
    mirrored head c wi n j = if c+wi ≤ j ∧ j < c+n then head (j-c) else head j := by
  rw [mirrored,if_pos h,copyLoop_apply (by omega),Nat.zero_add]
  by_cases hw : wi ≤ n
  · rw [show c+wi+(n-wi) = c+n by omega]
  · rw [if_neg (by omega),if_neg (by omega)]

theorem mirrored_of_ge {head : ℕ → UInt8} {c wi n : ℕ} (h : c ≤ wi+n) (hn : n ≤ c) (hw : wi < c)
    {j : ℕ} (hj : j < c+wi) :
    mirrored head c wi n j = if j < wi+n-c then head (c+j) else head j := by
  have inner {i : ℕ} (hi : i < c+wi) : copyLoop c 0 (c-wi-wi) wi head i = head i := by
    rw [copyLoop_apply (by omega),if_neg (by omega)]
  rw [mirrored,if_neg (by omega),copyLoop_apply (by omega),inner hj]
  by_cases hin : j < wi+n-c
  · rw [if_pos (by omega),if_pos hin,inner (by omega)]
    rfl
  · rw [if_neg (by omega),if_neg hin]

def loopBound (r : Ring) (n : ℕ) : ℕ := if r.wi+n < r.capacity then n else r.capacity-r.wi

theorem forCopy_eq {r : Ring} {dst src i bound : ℕ} (hb : bound ≤ intMax)
    (hc : bound ≤ r.capacity) :
    forCopy r dst src i bound = .ok { r with head := copyLoop dst src (bound-i) i r.head } := by
  rw [forCopy]
  split_ifs with h
  · rw [show bound-i = 0 by omega,copyLoop]
  · omega
  · rfl

theorem mirror_eq {r : Ring} {n : ℕ} (hw : r.wi < r.capacity) (hn : n ≤ r.capacity)
    (hc : 2*r.capacity ≤ ptrdiffMax) (hi : r.wi ≤ intMax) (hb : loopBound r n ≤ intMax) :
    mirror r n = .ok { r with wi := slot r.capacity r.wi n,
                              head := mirrored r.head r.capacity r.wi n } := by
  have hmax : 2*r.capacity < sizeMod := by simp only [ptrdiffMax,sizeMod] at *; omega
  have hadd : sizeAdd r.wi n = r.wi+n := sizeAdd_eq (by omega)
  have hsub : sizeSub r.capacity r.wi = r.capacity-r.wi := sizeSub_eq (by omega) (by omega)
  unfold mirror loopBound at *
  simp only [intOf_eq hi,hadd,hsub]
  split_ifs with h
  · rw [if_pos h] at hb
    rw [forCopy_eq hb hn]
    simp only [hadd,slot_of_lt h,mirrored,if_pos h]
  · rw [if_neg h] at hb
    have hrest : sizeSub n (r.capacity-r.wi) = n-(r.capacity-r.wi) :=
      sizeSub_eq (by omega) (by omega)
    have hwrap : n-(r.capacity-r.wi) = r.wi+n-r.capacity := by omega
    rw [forCopy_eq hb (by omega)]
    simp only [hsub,hrest]
    rw [forCopy_eq (by omega) (by simp only; omega)]
    simp only [hsub,hrest,slot_of_le (show r.capacity ≤ r.wi+n by omega),mirrored,if_neg h,
      Nat.sub_zero,hwrap]

structure Placed (r : Ring) : Prop extends
    Indexed r.capacity r.ri r.wi r.contex r.empty where
  capLe : 2*r.capacity ≤ ptrdiffMax

/-- The unread bytes are in the ring around the end and also straight on from `ri`. -/
structure Mirrored (r : Ring) (unread : List UInt8) : Prop extends Placed r where
  len : unread.length = r.contex
  around : window r.head r.capacity r.ri r.contex = unread
  straight : span r.head r.ri r.contex = unread

/-- A write whose `int` counters fit, and whose bytes need no mirroring (the unread bytes stop
short of the end) or are all mirrored (the write starts at index 0). -/
def MirrorOk (r : Ring) (n : ℕ) : Prop :=
  r.wi ≤ intMax ∧ loopBound r n ≤ intMax ∧ (n = 0 ∨ r.wi = 0 ∨ r.ri+r.contex < r.capacity)

instance (r : Ring) (n : ℕ) : Decidable (MirrorOk r n) := by unfold MirrorOk; infer_instance

theorem create_mirrored {size : ℕ} {r : Ring} (hs : 1 ≤ size) (hr : create size = some r) :
    Mirrored r [] := by
  unfold create at hr
  split_ifs at hr with h
  cases hr
  exact ⟨⟨Indexed.start hs,h⟩,rfl,rfl,rfl⟩

theorem Placed.capLt {r : Ring} (h : Placed r) : 2*r.capacity < sizeMod := by
  have hc := h.capLe
  simp only [ptrdiffMax,sizeMod] at *
  omega

def written (r : Ring) (bytes : List UInt8) : Ring :=
  { r with wi := slot r.capacity r.wi bytes.length
           empty := r.empty-bytes.length
           contex := r.contex+bytes.length
           head := mirrored (patch r.head r.wi bytes) r.capacity r.wi bytes.length }

theorem written_placed {r : Ring} {bytes : List UInt8} (h : Placed r)
    (hn : bytes.length ≤ r.empty) : Placed (written r bytes) :=
  ⟨h.toIndexed.commit hn,h.capLe⟩

theorem produce_eq (api : Api) {r : Ring} {bytes : List UInt8} (h : Placed r)
    (hn : bytes.length ≤ r.empty) (hi : r.wi ≤ intMax) (hb : loopBound r bytes.length ≤ intMax) :
    produce api r bytes = .ok (written r bytes) := by
  have hw := h.wiLt
  have hbk := h.books
  have hc := h.capLe
  have hmax := h.capLt
  have hq : writeQuery r bytes.length = some r.wi := if_neg (by omega)
  have hf : fill r r.wi bytes = .ok { r with head := patch r.head r.wi bytes } :=
    if_pos (by omega)
  have hm := mirror_eq (r:={ r with head := patch r.head r.wi bytes }) (n:=bytes.length)
    hw (by simp only; omega) hc hi hb
  have hsub : sizeSub r.empty bytes.length = r.empty-bytes.length := sizeSub_eq hn (by omega)
  have hadd : sizeAdd r.contex bytes.length = r.contex+bytes.length := sizeAdd_eq (by omega)
  have hs : writeSync { r with head := patch r.head r.wi bytes } bytes.length =
      .ok (written r bytes) := by
    rw [writeSync,hm]
    simp only [hsub,hadd,written]
  have hall : (match writeQuery r bytes.length with
      | none => Except.error Halt.blocked
      | some a =>
        match fill r a bytes with
        | .ok r => writeSync r bytes.length
        | .error h => .error h) = .ok (written r bytes) := by
    rw [hq]
    simp only [hf,hs]
  cases api <;> exact hall

theorem written_old {r : Ring} {unread bytes : List UInt8} (h : Mirrored r unread)
    (hn : bytes.length ≤ r.empty) {k : ℕ} (hk : k < r.contex) :
    (written r bytes).head (slot r.capacity r.ri k) = r.head (slot r.capacity r.ri k) := by
  have hw := h.wiEq
  have hwl := h.wiLt
  have hbk := h.books
  have hr := h.riLt
  have hlt : slot r.capacity r.ri k < r.capacity := slot_lt hr (by omega)
  have hout : slot r.capacity r.ri k < r.wi ∨ r.wi+bytes.length ≤ slot r.capacity r.ri k := by
    rw [hw]; unfold slot; split_ifs <;> omega
  by_cases hlast : r.wi+bytes.length < r.capacity
  · simp only [written,mirrored_of_lt hlast]
    rw [if_neg (by omega),patch_outside hout]
  · have hbefore : r.wi+bytes.length-r.capacity ≤ slot r.capacity r.ri k := by
      rw [hw] at hlast ⊢; unfold slot at hlast ⊢; split_ifs at hlast ⊢ <;> omega
    simp only [written]
    rw [mirrored_of_ge (by omega) (by omega) hwl (by omega),if_neg (by omega),patch_outside hout]

theorem written_new {r : Ring} {unread bytes : List UInt8} (h : Mirrored r unread)
    (hn : bytes.length ≤ r.empty) {k : ℕ} (hk : k < bytes.length) :
    bytes[k]? = some ((written r bytes).head (slot r.capacity r.wi k)) := by
  have hwl := h.wiLt
  have hbk := h.books
  by_cases hlast : r.wi+bytes.length < r.capacity
  · simp only [written,mirrored_of_lt hlast,slot_of_lt (show r.wi+k < r.capacity by omega)]
    rw [if_neg (by omega),patch_inside (by omega) (by omega),Nat.add_sub_cancel_left]
  · by_cases hwrap : r.wi+k < r.capacity
    · simp only [written,slot_of_lt hwrap]
      rw [mirrored_of_ge (by omega) (by omega) hwl (by omega),if_neg (by omega),
        patch_inside (by omega) (by omega),Nat.add_sub_cancel_left]
    · simp only [written,slot_of_le (show r.capacity ≤ r.wi+k by omega)]
      rw [mirrored_of_ge (by omega) (by omega) hwl (by omega),if_pos (by omega),
        patch_inside (by omega) (by omega)]
      congr 1
      omega

/-- An unread byte in the mirror half stays there: its ring is wrapped, so the write ends
before `ri`. -/
theorem written_mirror_old {r : Ring} {unread bytes : List UInt8} (h : Mirrored r unread)
    (hn : bytes.length ≤ r.empty) {k : ℕ} (hk : k < r.contex) (hm : r.capacity ≤ r.ri+k) :
    (written r bytes).head (r.ri+k) = r.head (r.ri+k) := by
  have hw := h.wiEq
  have hbk := h.books
  have hr := h.riLt
  rw [slot_of_le (by omega)] at hw
  simp only [written,mirrored_of_lt (show r.wi+bytes.length < r.capacity by omega)]
  rw [if_neg (by omega),patch_outside (by omega)]

theorem written_mirror_new {r : Ring} {unread bytes : List UInt8} (h : Mirrored r unread)
    (hn : bytes.length ≤ r.empty) (hok : r.wi = 0 ∨ r.ri+r.contex < r.capacity) {k : ℕ}
    (hk : k < bytes.length) (hm : r.capacity ≤ r.ri+(r.contex+k)) :
    bytes[k]? = some ((written r bytes).head (r.ri+(r.contex+k))) := by
  have hw := h.wiEq
  have hbk := h.books
  have hr := h.riLt
  by_cases hlast : r.ri+r.contex < r.capacity
  · -- the caller filled this mirror cell itself
    rw [slot_of_lt hlast] at hw
    simp only [written]
    rw [mirrored_of_ge (by omega) (by omega) (by omega) (by omega),if_neg (by omega),
      patch_inside (by omega) (by omega)]
    congr 1
    omega
  · -- index 0: the loop's bound is right here
    rw [slot_of_le (by omega)] at hw
    have h0 : r.wi = 0 := hok.resolve_right hlast
    simp only [written,mirrored_of_lt (show r.wi+bytes.length < r.capacity by omega)]
    rw [if_pos (by omega),patch_inside (by omega) (by omega)]
    congr 1
    omega

theorem written_around {r : Ring} {unread bytes : List UInt8} (h : Mirrored r unread)
    (hn : bytes.length ≤ r.empty) :
    window (written r bytes).head r.capacity r.ri (r.contex+bytes.length) = unread++bytes := by
  have hlen := h.len
  have hbk := h.books
  have hold := (window_eq_iff hlen).mp h.around
  rw [window_eq_iff (by simp [hlen])]
  intro k hk
  by_cases hkc : k < r.contex
  · rw [List.getElem?_append_left (by omega),hold k hkc,written_old h hn hkc]
  · rw [List.getElem?_append_right (by omega),hlen,written_new h hn (by omega),h.wiEq,
      slot_add h.riLt (by omega),show r.contex+(k-r.contex) = k by omega]

theorem written_mirrored {r : Ring} {unread bytes : List UInt8} (h : Mirrored r unread)
    (hn : bytes.length ≤ r.empty) (hok : MirrorOk r bytes.length) :
    Mirrored (written r bytes) (unread++bytes) := by
  have hlen := h.len
  have hbk := h.books
  have har := written_around h hn
  refine ⟨written_placed h.toPlaced hn,by simp [hlen,written],har,?_⟩
  · simp only [written] at *
    rw [span_eq_iff (by simp [hlen])]
    intro k hk
    by_cases hm : r.ri+k < r.capacity
    · have hk' := (window_eq_iff (by simp [hlen])).mp har k hk
      rwa [slot_of_lt hm] at hk'
    · by_cases hkc : k < r.contex
      · have hold := (span_eq_iff hlen).mp h.straight k hkc
        have hcell := written_mirror_old h hn hkc (by omega)
        rw [List.getElem?_append_left (by omega),hold]
        exact congrArg some hcell.symm
      · have hcell := written_mirror_new h hn (hok.2.2.resolve_left (by omega))
          (show k-r.contex < bytes.length by omega) (by omega)
        rw [show r.contex+(k-r.contex) = k by omega] at hcell
        rw [List.getElem?_append_right (by omega),hlen]
        exact hcell

def taken (r : Ring) (size : ℕ) : Ring :=
  { r with ri := slot r.capacity r.ri size, contex := r.contex-size, empty := r.empty+size }

theorem consume_eq (api : Api) {r : Ring} {size : ℕ} (h : Placed r) (hs : size ≤ r.contex) :
    consume api r size = .ok (taken r size,span r.head r.ri size) := by
  have hbk := h.books
  have hr := h.riLt
  have hmax := h.capLt
  have hq : readQuery r size = some r.ri := if_neg (by omega)
  have hri : sizeAdd r.ri size = r.ri+size := sizeAdd_eq (by omega)
  have hwrap : ¬ r.ri+size < r.capacity →
      sizeSub size (sizeSub r.capacity r.ri) = r.ri+size-r.capacity := by
    intro hge
    have hrest : sizeSub r.capacity r.ri = r.capacity-r.ri := sizeSub_eq (by omega) (by omega)
    rw [hrest,sizeSub_eq (by omega) (by omega)]
    omega
  have hsync : readSync r size = taken r size := by
    simp only [readSync,taken,hri,sizeSub_eq hs (show r.contex < sizeMod by omega),
      sizeAdd_eq (show r.empty+size < sizeMod by omega)]
    congr 1
    by_cases hlt : r.ri+size < r.capacity
    · rw [if_pos hlt,slot_of_lt hlt]
    · rw [if_neg hlt,hwrap hlt,slot_of_le (by omega)]
  have hin : r.ri+size ≤ 2*r.capacity := by omega
  cases api <;>
    simp only [consume,Api.readQuery,csrbReadQuery,shrbReadQuery,hq,if_pos hin,Api.readSync,
      csrbReadSync,shrbReadSync,hsync]

theorem taken_mirrored {r : Ring} {unread : List UInt8} {size : ℕ} (h : Mirrored r unread)
    (hs : size ≤ r.contex) : Mirrored (taken r size) (unread.drop size) := by
  have hbk := h.books
  have hr := h.riLt
  have hlen := h.len
  have har : window r.head r.capacity (slot r.capacity r.ri size) (r.contex-size) =
      unread.drop size := by
    rw [← h.around,window_drop hr hs (by omega)]
  refine ⟨⟨h.toIndexed.release hs,h.capLe⟩,?_,har,?_⟩
  · simp [taken,hlen]
  · simp only [taken]
    by_cases hlt : r.ri+size < r.capacity
    · rw [slot_of_lt hlt,← h.straight]
      apply (span_eq_iff (by simp)).mpr
      intro k hk
      rw [List.getElem?_drop,Nat.add_assoc]
      exact (span_eq_iff (span_length _ _ _)).mp rfl (size+k) (by omega)
    · -- the read passed the end: what is left lies straight on in the first half
      rw [← har,slot_of_le (by omega),window_eq_span (by omega)]

def TxnOk (s : Sys) : Txn → Prop
  | .write bytes => MirrorOk s.ring bytes.length
  | .read _ => True

instance (s : Sys) : DecidablePred (TxnOk s)
  | .write bytes => inferInstanceAs (Decidable (MirrorOk s.ring bytes.length))
  | .read _ => .isTrue trivial

def Inv (s : Sys) : Prop :=
  ∃ unread, Mirrored s.ring unread ∧ s.produced = s.consumed++unread

/-- One transaction: accepted writes append to the unread bytes, accepted reads take from their
front, and nothing leaves the backing area. -/
theorem txn_spec (api : Api) {s : Sys} {t : Txn} (hi : Inv s) (hok : TxnOk s t) :
    txn api s t = .error .blocked ∨ ∃ s', txn api s t = .ok s' ∧ Inv s' := by
  obtain ⟨unread,hm,hp⟩ := hi
  cases t with
  | write bytes =>
    by_cases hn : bytes.length ≤ s.ring.empty
    · have hw := produce_eq api hm.toPlaced hn hok.1 hok.2.1
      refine Or.inr ⟨{ s with ring := written s.ring bytes, produced := s.produced++bytes },?_,?_⟩
      · simp only [txn,hw]
      · exact ⟨unread++bytes,written_mirrored hm hn hok,by simp [hp]⟩
    · left
      have hq : writeQuery s.ring bytes.length = none := if_pos (by omega)
      cases api <;>
        simp only [txn,produce,Api.writeQuery,csrbWriteQuery,shrbWriteQuery,hq]
  | read size =>
    by_cases hs : size ≤ s.ring.contex
    · have hr := consume_eq api hm.toPlaced hs
      rw [← span_take hs,hm.straight] at hr
      refine Or.inr ⟨{ s with ring := taken s.ring size,
                              consumed := s.consumed++unread.take size },?_,?_⟩
      · simp only [txn,hr]
      · exact ⟨unread.drop size,taken_mirrored hm hs,by simp [hp]⟩
    · left
      have hq : readQuery s.ring size = none := if_pos (by omega)
      cases api <;>
        simp only [txn,consume,Api.readQuery,csrbReadQuery,shrbReadQuery,hq]

theorem txn_inv (api : Api) (s : Sys) (t : Txn) (s' : Sys) (hi : Inv s) (hok : TxnOk s t)
    (h : txn api s t = .ok s') : Inv s' := by
  rcases txn_spec api hi hok with hb | ⟨u,hu,hiu⟩
  · rw [hb] at h
    cases h
  · rw [hu] at h
    cases h
    exact hiu

theorem txn_safe (api : Api) (s : Sys) (t : Txn) (hi : Inv s) (hok : TxnOk s t) :
    txn api s t ≠ .error .fault := by
  rcases txn_spec api hi hok with hb | ⟨u,hu,-⟩
  · simp [hb]
  · simp [hu]

theorem start_inv (api : Api) {size : ℕ} {r : Ring} (hs : 1 ≤ size)
    (hr : api.create size = some r) : Inv (start r) := by
  have hr' : create size = some r := by cases api <;> exact hr
  exact ⟨[],create_mirrored hs hr',rfl⟩

/-- What the rings promise: the consumer has seen a prefix of the bytes produced, and the rest
lies in the window behind `ri`, straight on. -/
def Delivers (s : Sys) : Prop :=
  s.consumed <+: s.produced ∧
    ∀ k < s.ring.contex, s.produced[s.consumed.length+k]? = some (s.ring.head (s.ring.ri+k))

theorem Inv.delivers {s : Sys} (h : Inv s) : Delivers s := by
  obtain ⟨unread,hm,hp⟩ := h
  refine ⟨⟨unread,hp.symm⟩,?_⟩
  intro k hk
  rw [hp,List.getElem?_append_right (by omega),Nat.add_sub_cancel_left]
  exact (span_eq_iff hm.len).mp hm.straight k hk

theorem produce_fault (api : Api) {r : Ring} {bytes : List UInt8} (h : Placed r)
    (hn : bytes.length ≤ r.empty) (hi : r.wi ≤ intMax) (hb : intMax < loopBound r bytes.length) :
    produce api r bytes = .error .fault := by
  have hw := h.wiLt
  have hbk := h.books
  have hmax := h.capLt
  have hadd : sizeAdd r.wi bytes.length = r.wi+bytes.length := sizeAdd_eq (by omega)
  have hsub : sizeSub r.capacity r.wi = r.capacity-r.wi := sizeSub_eq (by omega) (by omega)
  have hq : writeQuery r bytes.length = some r.wi := if_neg (by omega)
  have hf : fill r r.wi bytes = .ok { r with head := patch r.head r.wi bytes } :=
    if_pos (by omega)
  have hcopy {bound : ℕ} (hlt : intMax < bound) :
      forCopy { r with head := patch r.head r.wi bytes } r.capacity 0 r.wi bound =
        .error .fault := by
    rw [forCopy,if_neg (by omega),if_pos (Or.inl hlt)]
  have hs : writeSync { r with head := patch r.head r.wi bytes } bytes.length = .error .fault := by
    unfold loopBound at hb
    simp only [writeSync,mirror,intOf_eq hi,hadd,hsub]
    split_ifs at hb ⊢ with hlt
    · simp only [hcopy hb]
    · simp only [hcopy hb]
  cases api <;>
    simp only [produce,Api.writeQuery,csrbWriteQuery,shrbWriteQuery,hq,hf,Api.writeSync,
      csrbWriteSync,shrbWriteSync,hs]

theorem written_stale {r : Ring} {bytes : List UInt8} (h : Placed r)
    (hn : bytes.length ≤ r.empty) (hpos : 0 < bytes.length) (hw0 : 0 < r.wi)
    (hwrap : r.capacity ≤ r.ri+r.contex) :
    (written r bytes).head (r.ri+(r.contex+(bytes.length-1))) =
      r.head (r.ri+(r.contex+(bytes.length-1))) := by
  have hw := h.wiEq
  have hbk := h.books
  have hr := h.riLt
  rw [slot_of_le hwrap] at hw
  simp only [written,mirrored_of_lt (show r.wi+bytes.length < r.capacity by omega)]
  rw [if_neg (by omega),patch_outside (by omega)]

theorem exec_write_read (api : Api) {s : Sys} (h : Placed s.ring) {bytes : List UInt8}
    (hn : bytes.length ≤ s.ring.empty) (hi : s.ring.wi ≤ intMax)
    (hb : loopBound s.ring bytes.length ≤ intMax) :
    exec (txn api) s [.write bytes,.read (s.ring.contex+bytes.length)] =
      .ok ⟨taken (written s.ring bytes) (s.ring.contex+bytes.length),s.produced++bytes,
        s.consumed++span (written s.ring bytes).head s.ring.ri (s.ring.contex+bytes.length)⟩ := by
  have hwrite := produce_eq api h hn hi hb
  have hread := consume_eq api (written_placed h hn) (le_refl (s.ring.contex+bytes.length))
  rw [show (written s.ring bytes).ri = s.ring.ri from rfl] at hread
  rw [exec_cons_ok]
  refine ⟨⟨written s.ring bytes,s.produced++bytes,s.consumed⟩,by simp only [txn,hwrite],?_⟩
  rw [exec_cons_ok]
  exact ⟨_,by simp only [txn,hread],rfl⟩

/-- Every other write goes wrong: its counter overflows, or it can be given bytes that the
consumer then does not see. -/
theorem txn_corrupts (api : Api) {s : Sys} (hinv : Inv s) {n : ℕ} (hn : n ≤ s.ring.empty)
    (hi : s.ring.wi ≤ intMax) (hbad : ¬ MirrorOk s.ring n) :
    (∀ bytes : List UInt8, bytes.length = n → txn api s (.write bytes) = .error .fault) ∨
    ∃ bytes s', bytes.length = n ∧
      exec (txn api) s [.write bytes,.read (s.ring.contex+n)] = .ok s' ∧
      ¬ s'.consumed <+: s'.produced := by
  obtain ⟨unread,hm,hp⟩ := hinv
  have hpl := hm.toPlaced
  by_cases hb : loopBound s.ring n ≤ intMax
  · right
    have hpos : 0 < n := by
      by_contra h0
      exact hbad ⟨hi,hb,Or.inl (by omega)⟩
    have hw0 : 0 < s.ring.wi := by
      by_contra h0
      exact hbad ⟨hi,hb,Or.inr (Or.inl (by omega))⟩
    have hwrap : s.ring.capacity ≤ s.ring.ri+s.ring.contex := by
      by_contra h0
      exact hbad ⟨hi,hb,Or.inr (Or.inr (by omega))⟩
    -- fill with a byte that differs from the stale one
    let stale := s.ring.head (s.ring.ri+(s.ring.contex+(n-1)))
    obtain ⟨bytes,hlen,hlast⟩ : ∃ bytes : List UInt8, bytes.length = n ∧
        bytes[n-1]? = some (stale+1) :=
      ⟨List.replicate n (stale+1),List.length_replicate,
        by rw [List.getElem?_replicate_of_lt (by omega)]⟩
    subst n
    refine ⟨bytes,_,rfl,exec_write_read api hpl hn hi hb,?_⟩
    intro hpre
    simp only [hp,List.append_assoc,List.prefix_append_right_inj] at hpre
    have heq := hpre.eq_of_length (by simp [hm.len])
    have hcell := (span_eq_iff (by simp [hm.len])).mp heq (s.ring.contex+(bytes.length-1))
      (by omega)
    rw [written_stale hpl hn hpos hw0 hwrap,List.getElem?_append_right (by rw [hm.len]; omega),
      hm.len,Nat.add_sub_cancel_left,hlast,Option.some_inj] at hcell
    simp [stale] at hcell
  · left
    intro bytes hlen
    subst n
    have hw := produce_fault api hpl hn hi (by omega)
    simp only [txn,hw]

/-- Runs whose writes are all mirrored deliver, and never fault; and each such run can be
continued by any other accepted write to one that faults or delivers a wrong byte. -/
theorem ring_delivers (api : Api) {size : ℕ} {r : Ring} (hs : 1 ≤ size)
    (hr : api.create size = some r) :
    (∀ txns, Along (txn api) TxnOk (start r) txns →
      exec (txn api) (start r) txns ≠ .error .fault ∧
      ∀ s, exec (txn api) (start r) txns = .ok s → Delivers s) ∧
    ∀ txns s n, Along (txn api) TxnOk (start r) txns → exec (txn api) (start r) txns = .ok s →
      n ≤ s.ring.empty → s.ring.wi ≤ intMax → ¬ MirrorOk s.ring n →
      (∀ bytes : List UInt8, bytes.length = n → txn api s (.write bytes) = .error .fault) ∨
      ∃ bytes s', bytes.length = n ∧
        exec (txn api) s [.write bytes,.read (s.ring.contex+n)] = .ok s' ∧
        ¬ s'.consumed <+: s'.produced := by
  have h0 := start_inv api hs hr
  refine ⟨fun txns ha => ⟨exec_safe Inv (txn_inv api) (txn_safe api) h0 ha,?_⟩,?_⟩
  · intro s hx
    exact (exec_invariant Inv (txn_inv api) h0 ha hx).delivers
  · intro txns s n ha hx hn hi hbad
    exact txn_corrupts api (exec_invariant Inv (txn_inv api) h0 ha hx) hn hi hbad

def ringOfFour : Ring :=
  { ri := 0, wi := 0, contex := 0, empty := 4, head := fun _ => 0, capacity := 4 }

def mirroredTxns : List Txn :=
  [.write [1,2,3],.read 2,.write [4,5],.read 3,.write [6],.read 1,.write [7,8]]

theorem ring_delivers_four :
    ∃ s, exec (txn .csrb) (start ringOfFour) mirroredTxns = .ok s ∧ Delivers s ∧
      s.consumed = [1,2,3,4,5,6] := by
  have hr : Api.create .csrb 4 = some ringOfFour := rfl
  have hrun := ((ring_delivers .csrb (by decide) hr).1 mirroredTxns (by decide +kernel)).2
  obtain ⟨s,hs,ho⟩ : ∃ s, exec (txn .csrb) (start ringOfFour) mirroredTxns = .ok s ∧
      s.consumed = [1,2,3,4,5,6] :=
    observe_eq_some.mp (by decide +kernel)
  exact ⟨s,hs,hrun s hs,ho⟩

/-- Six bytes through a ring of four: the last write wraps and is not mirrored. -/
def staleTxns : List Txn := [.write [1,2,3],.read 2,.write [4,5],.write [6],.read 4]

theorem staleTxns_corrupt :
    (Api.create .csrb 4 = some ringOfFour ∧ ∃ s,
      exec (txn .csrb) (start ringOfFour) staleTxns = .ok s ∧
      s.produced = [1,2,3,4,5,6] ∧ s.consumed = [1,2,3,4,5,2] ∧
      ¬ s.consumed <+: s.produced) ∧
    Api.create .shrb 4 = some ringOfFour ∧ ∃ s,
      exec (txn .shrb) (start ringOfFour) staleTxns = .ok s ∧
      s.produced = [1,2,3,4,5,6] ∧ s.consumed = [1,2,3,4,5,2] ∧
      ¬ s.consumed <+: s.produced := by
  have seen (api : Api)
      (h : observe (fun s => (s.produced,s.consumed))
        (exec (txn api) (start ringOfFour) staleTxns) = some ([1,2,3,4,5,6],[1,2,3,4,5,2])) :
      ∃ s, exec (txn api) (start ringOfFour) staleTxns = .ok s ∧
        s.produced = [1,2,3,4,5,6] ∧ s.consumed = [1,2,3,4,5,2] ∧
        ¬ s.consumed <+: s.produced := by
    obtain ⟨s,hs,ho⟩ := observe_eq_some.mp h
    obtain ⟨hp,hc⟩ := Prod.mk.inj ho
    exact ⟨s,hs,hp,hc,by rw [hp,hc]; decide⟩
  exact ⟨⟨rfl,seen .csrb (by decide +kernel)⟩,rfl,seen .shrb (by decide +kernel)⟩

end Csrb
end PcEnv
