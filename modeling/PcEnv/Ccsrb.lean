import PcEnv.Block
import PcEnv.Word

/-! The chunk ring `ccsrb`.
A query hands out the ring memory itself where the chunk ends before the end of the ring,
and otherwise a temporary block: `wcm` is scattered around the end by `write_sync`, `rcm` is
gathered by `read_query`. Allocations within `PTRDIFF_MAX` are taken to succeed. -/
namespace PcEnv
namespace Ccsrb

open Runs Word Circular

structure Ring where
  ri : ℕ
  contex : ℕ
  rcm : Option Block
  wi : ℕ
  empty : ℕ
  wcm : Option Block
  cBytes : ℕ
  mm : Block

/-- Where a returned address points. -/
inductive Addr
  | mm (off : ℕ) | wcm | rcm
  deriving DecidableEq

/-- `junk` is what `malloc` finds in the block. -/
def create (junk : ℕ → UInt8) (size : ℕ) : Option Ring :=
  if size ≤ ptrdiffMax then
    some { ri := 0, contex := 0, rcm := none, wi := 0, empty := size, wcm := none,
           cBytes := size, mm := ⟨size,junk⟩ }
  else none

def writeQuery (junk : ℕ → UInt8) (r : Ring) (size : ℕ) : Ring × Option Addr :=
  if size ≤ r.empty then
    if sizeAdd r.wi size < r.cBytes then (r,some (.mm r.wi))
    else ({ r with wcm := some ⟨size,junk⟩ },some .wcm)
  else (r,none)

/-- The scatter of `wcm`: the second copy's length is computed from the committed size. -/
def scatter (r : Ring) (w : Block) (size : ℕ) : Except Halt Block :=
  match Block.memcpy r.mm r.wi w 0 (sizeSub r.cBytes r.wi) with
  | .ok mm => Block.memcpy mm 0 w (sizeSub r.cBytes r.wi) (sizeSub size (sizeSub r.cBytes r.wi))
  | .error h => .error h

def writeSync (r : Ring) (size : ℕ) : Except Halt Ring :=
  match r.wcm with
  | some w =>
    match scatter r w size with
    | .ok mm =>
      .ok { r with mm := mm, wcm := none, wi := sizeSub size (sizeSub r.cBytes r.wi),
                   empty := sizeSub r.empty size, contex := sizeAdd r.contex size }
    | .error h => .error h
  | none =>
    .ok { r with wi := sizeAdd r.wi size, empty := sizeSub r.empty size,
                 contex := sizeAdd r.contex size }

/-- The decision of `read_query`, with the `calloc` of `rcm`; its two `memcpy` calls follow
byte by byte in `gather`, since the producer may step in between. -/
def readQuery (r : Ring) (size : ℕ) : Ring × Option Addr :=
  if size ≤ r.contex then
    if sizeAdd r.ri size < r.cBytes then (r,some (.mm r.ri))
    else ({ r with rcm := some ⟨size,fun _ => 0⟩ },some .rcm)
  else (r,none)

/-- Byte `j` of the two copies into `rcm`: first up to the end of the ring, then from its
start. -/
def gather (r : Ring) (j : ℕ) : Except Halt Ring :=
  match r.rcm with
  | none => .error .fault
  | some b =>
    match r.mm.load (if j < sizeSub r.cBytes r.ri then r.ri+j
      else j-sizeSub r.cBytes r.ri) with
    | .error h => .error h
    | .ok v =>
      match b.store j v with
      | .error h => .error h
      | .ok b => .ok { r with rcm := some b }

def readSync (r : Ring) (size : ℕ) : Ring :=
  let r := match r.rcm with
    | some _ => { r with ri := sizeSub size (sizeSub r.cBytes r.ri), rcm := none }
    | none => { r with ri := sizeAdd r.ri size }
  { r with contex := sizeSub r.contex size, empty := sizeAdd r.empty size }

def clear (r : Ring) : Ring := { r with wi := 0, ri := 0, contex := 0, empty := r.cBytes }

def storeAt (r : Ring) (a : Addr) (i : ℕ) (v : UInt8) : Except Halt Ring :=
  match a with
  | .mm off =>
    match r.mm.store (off+i) v with
    | .ok mm => .ok { r with mm := mm }
    | .error h => .error h
  | .wcm =>
    match r.wcm with
    | none => .error .fault
    | some w =>
      match w.store i v with
      | .ok w => .ok { r with wcm := some w }
      | .error h => .error h
  | .rcm => .error .fault

def loadAt (r : Ring) (a : Addr) (i : ℕ) : Except Halt UInt8 :=
  match a with
  | .mm off => r.mm.load (off+i)
  | .rcm =>
    match r.rcm with
    | none => .error .fault
    | some b => b.load i
  | .wcm => .error .fault

def fifo (r : Ring) : List UInt8 := window r.mm.byte r.cBytes r.ri r.contex

structure Placed (r : Ring) : Prop extends
    Indexed r.cBytes r.ri r.wi r.contex r.empty where
  capLe : r.cBytes ≤ ptrdiffMax
  mmSize : r.mm.size = r.cBytes

theorem Placed.capLt {r : Ring} (h : Placed r) : 2*r.cBytes < sizeMod := by
  have hc := h.capLe
  simp only [ptrdiffMax,sizeMod] at *
  omega

@[simp] theorem fifo_length (r : Ring) : (fifo r).length = r.contex := window_length _ _ _ _

theorem create_placed {junk : ℕ → UInt8} {size : ℕ} {r : Ring} (hs : 1 ≤ size)
    (hr : create junk size = some r) : Placed r := by
  unfold create at hr
  split_ifs at hr with h
  cases hr
  exact ⟨Indexed.start hs,h,rfl⟩

theorem fifo_congr {r : Ring} {mem : ℕ → UInt8} (h : Placed r) {n : ℕ} (hn : n ≤ r.empty)
    (hmem : ∀ i < r.cBytes, (∀ k < n, i ≠ slot r.cBytes r.wi k) → mem i = r.mm.byte i) :
    window mem r.cBytes r.ri r.contex = fifo r := by
  have hb := h.books
  apply window_congr
  intro k hk
  apply hmem _ (slot_lt h.riLt (by omega))
  intro t ht heq
  rw [h.wiEq,slot_add h.riLt (by omega)] at heq
  have hkt := slot_injective (by omega) (by omega) heq
  omega

theorem fifo_extend {r : Ring} {mem : ℕ → UInt8} {bs : List UInt8} (h : Placed r)
    (hn : bs.length ≤ r.empty)
    (hold : ∀ i < r.cBytes, (∀ k < bs.length, i ≠ slot r.cBytes r.wi k) → mem i = r.mm.byte i)
    (hnew : ∀ k < bs.length, bs[k]? = some (mem (slot r.cBytes r.wi k))) :
    window mem r.cBytes r.ri (r.contex+bs.length) = fifo r++bs := by
  have hb := h.books
  rw [window_add mem h.riLt (by omega),← h.wiEq,fifo_congr h hn hold,
    (window_eq_iff rfl).mpr hnew]

/-- A chunk of `n` reserved bytes; `filled` is what its owner has stored so far. -/
inductive Reserved (r : Ring) (n : ℕ) (filled : List (Option UInt8)) : Addr → Prop
  | direct (hwcm : r.wcm = none) (hin : r.wi+n < r.cBytes)
      (hcell : ∀ i b, filled[i]? = some (some b) → r.mm.byte (r.wi+i) = b) :
      Reserved r n filled (.mm r.wi)
  | block (w : Block) (hwcm : r.wcm = some w) (hsize : w.size = n) (hout : r.cBytes ≤ r.wi+n)
      (hcell : ∀ i b, filled[i]? = some (some b) → w.byte i = b) :
      Reserved r n filled .wcm

def committed (r : Ring) (n : ℕ) (mem : ℕ → UInt8) : Ring :=
  { r with mm := ⟨r.mm.size,mem⟩, wcm := none, wi := slot r.cBytes r.wi n,
           empty := r.empty-n, contex := r.contex+n }

theorem committed_placed {r : Ring} (h : Placed r) {n : ℕ} (hn : n ≤ r.empty)
    (mem : ℕ → UInt8) : Placed (committed r n mem) :=
  ⟨h.toIndexed.commit hn,h.capLe,h.mmSize⟩

theorem writeQuery_reserved {junk : ℕ → UInt8} {r r' : Ring} {n : ℕ} {a : Addr} (h : Placed r)
    (hw : r.wcm = none) (hq : writeQuery junk r n = (r',some a)) :
    n ≤ r.empty ∧ Reserved r' n (List.replicate n none) a ∧
      r' = { r with wcm := r'.wcm } := by
  have hb := h.books
  have hc := h.capLt
  have hwi := h.wiLt
  have hnone {i : ℕ} {b : UInt8} (hi : (List.replicate n none)[i]? = some (some b)) : False := by
    rw [List.getElem?_replicate] at hi
    split_ifs at hi with hlt
    cases hi
  unfold writeQuery at hq
  split_ifs at hq with hn hin
  · cases hq
    rw [sizeAdd_eq (by omega)] at hin
    exact ⟨hn,.direct hw hin (fun i b hi => (hnone hi).elim),rfl⟩
  · cases hq
    rw [sizeAdd_eq (by omega)] at hin
    exact ⟨hn,.block _ rfl rfl (by simp only; omega) (fun i b hi => (hnone hi).elim),rfl⟩
  · cases hq

theorem storeAt_reserved {r : Ring} {n i : ℕ} {filled : List (Option UInt8)} {a : Addr}
    (v : UInt8) (h : Placed r) (hn : n ≤ r.empty) (hl : filled.length = n) (hi : i < n)
    (hres : Reserved r n filled a) :
    ∃ mm wcm, storeAt r a i v = .ok { r with mm := mm, wcm := wcm } ∧ mm.size = r.mm.size ∧
      fifo { r with mm := mm, wcm := wcm } = fifo r ∧
      Reserved { r with mm := mm, wcm := wcm } n (filled.set i (some v)) a := by
  have hb := h.books
  have hsz := h.mmSize
  have hset (mem : ℕ → UInt8) (off : ℕ)
      (hcell : ∀ k b, filled[k]? = some (some b) → mem (off+k) = b) (k : ℕ) (b : UInt8)
      (hk : (filled.set i (some v))[k]? = some (some b)) :
      Function.update mem (off+i) v (off+k) = b := by
    by_cases hki : k = i
    · subst k
      rw [List.getElem?_set_self (by omega),Option.some_inj,Option.some_inj] at hk
      rw [Function.update_self,hk]
    · rw [List.getElem?_set_ne (Ne.symm hki)] at hk
      rw [Function.update_of_ne (by omega),hcell k b hk]
  cases hres with
  | direct hwcm hin hcell =>
    refine ⟨{ r.mm with byte := Function.update r.mm.byte (r.wi+i) v },r.wcm,?_,rfl,?_,
      .direct hwcm hin (hset r.mm.byte r.wi hcell)⟩
    · simp only [storeAt]
      rw [Block.store_ok (by omega)]
    · apply fifo_congr h hn
      intro k _ hne
      have hki := hne i hi
      rw [slot_of_lt (by omega)] at hki
      exact Function.update_of_ne hki _ _
  | block w hwcm hsize hout hcell =>
    refine ⟨r.mm,some { w with byte := Function.update w.byte i v },?_,rfl,rfl,
      .block _ rfl hsize hout ?_⟩
    · simp only [storeAt,hwcm]
      rw [Block.store_ok (by omega)]
    · have hcell₀ : ∀ k b, filled[k]? = some (some b) → w.byte (0+k) = b := by
        simpa only [Nat.zero_add] using hcell
      simpa only [Nat.zero_add] using hset w.byte 0 hcell₀

theorem filled_cell {filled : List (Option UInt8)} {bs : List UInt8}
    (hf : filled.take bs.length = bs.map some) {k : ℕ} (hk : k < bs.length) :
    filled[k]? = some (some bs[k]) := by
  have h := congrArg (fun l => l[k]?) hf
  simpa [List.getElem?_take,hk] using h

def scattered (r : Ring) (w : Block) (n : ℕ) : ℕ → UInt8 :=
  patch (patch r.mm.byte r.wi (span w.byte 0 (r.cBytes-r.wi))) 0
    (span w.byte (r.cBytes-r.wi) (n-(r.cBytes-r.wi)))

theorem scattered_old {r : Ring} {w : Block} {n i : ℕ} (hwi : r.wi < r.cBytes)
    (hwrap : r.cBytes ≤ r.wi+n) (hi : i < r.cBytes)
    (hne : ∀ k < n, i ≠ slot r.cBytes r.wi k) : scattered r w n i = r.mm.byte i := by
  have hlow : i < r.wi := by
    by_contra hge
    apply hne (i-r.wi) (by omega)
    rw [slot_of_lt (by omega)]
    omega
  have hhigh : r.wi+n-r.cBytes ≤ i := by
    by_contra hlt
    apply hne (r.cBytes-r.wi+i) (by omega)
    rw [slot_of_le (by omega)]
    omega
  rw [scattered,patch_outside (by rw [span_length]; omega),patch_outside (by omega)]

theorem scattered_new {r : Ring} {w : Block} {n k : ℕ} (hwi : r.wi < r.cBytes)
    (hn : n ≤ r.cBytes) (hwrap : r.cBytes ≤ r.wi+n) (hk : k < n) :
    some (scattered r w n (slot r.cBytes r.wi k)) = some (w.byte k) := by
  have hspan (a m : ℕ) {t : ℕ} (ht : t < m) : (span w.byte a m)[t]? = some (w.byte (a+t)) :=
    (span_eq_iff (span_length w.byte a m)).mp rfl t ht
  by_cases hin : r.wi+k < r.cBytes
  · rw [scattered,slot_of_lt hin,patch_outside (by rw [span_length]; omega),
      patch_inside (by omega) (by rw [span_length]; omega),hspan _ _ (by omega)]
    congr 2
    omega
  · rw [scattered,slot_of_le (by omega),patch_inside (by omega) (by rw [span_length]; omega),
      hspan _ _ (by omega)]
    congr 2
    omega

theorem scatter_eq {r : Ring} {w : Block} {m : ℕ} (h : Placed r) (hm : m ≤ r.empty)
    (hw : m ≤ w.size) (hwrap : r.cBytes ≤ r.wi+m) :
    scatter r w m = .ok ⟨r.mm.size,scattered r w m⟩ := by
  have hb := h.books
  have hc := h.capLt
  have hwi := h.wiLt
  have hsz := h.mmSize
  have hs : sizeSub r.cBytes r.wi = r.cBytes-r.wi := sizeSub_eq (by omega) (by omega)
  have hs₂ : sizeSub m (r.cBytes-r.wi) = m-(r.cBytes-r.wi) := sizeSub_eq (by omega) (by omega)
  simp only [scatter,hs,hs₂]
  rw [Block.memcpy_ok (by omega) (by omega)]
  simp only
  rw [Block.memcpy_ok (by simp only; omega) (by omega)]
  rfl

/-- A commit that does not end where `wcm` would have ended short: the committed bytes are
appended to the content and nothing else changes. -/
theorem writeSync_append {r : Ring} {n : ℕ} {filled : List (Option UInt8)} {a : Addr}
    {bs : List UInt8} (h : Placed r) (hn : n ≤ r.empty) (hl : filled.length = n)
    (hres : Reserved r n filled a) (hf : filled.take bs.length = bs.map some)
    (hok : r.wi+n < r.cBytes ∨ r.cBytes ≤ r.wi+bs.length) :
    ∃ mem, writeSync r bs.length = .ok (committed r bs.length mem) ∧
      fifo (committed r bs.length mem) = fifo r++bs := by
  have hb := h.books
  have hc := h.capLt
  have hwi := h.wiLt
  have hm : bs.length ≤ n := by
    have hlen := congrArg List.length hf
    rw [List.length_take,List.length_map] at hlen
    omega
  have he : sizeSub r.empty bs.length = r.empty-bs.length := sizeSub_eq (by omega) (by omega)
  have hx : sizeAdd r.contex bs.length = r.contex+bs.length := sizeAdd_eq (by omega)
  cases hres with
  | direct hwcm hin hcell =>
    have hadd : sizeAdd r.wi bs.length = r.wi+bs.length := sizeAdd_eq (by omega)
    refine ⟨r.mm.byte,?_,?_⟩
    · simp only [writeSync,hwcm,he,hx,hadd,committed,
        slot_of_lt (show r.wi+bs.length < r.cBytes by omega)]
    · apply fifo_extend h (by omega) (fun _ _ _ => rfl)
      intro k hk
      rw [slot_of_lt (by omega),hcell k _ (filled_cell hf hk),List.getElem?_eq_getElem hk]
  | block w hwcm hsize hout hcell =>
    have hwrap : r.cBytes ≤ r.wi+bs.length := hok.resolve_left (by omega)
    have hs : sizeSub r.cBytes r.wi = r.cBytes-r.wi := sizeSub_eq (by omega) (by omega)
    have hs₂ : sizeSub bs.length (r.cBytes-r.wi) = r.wi+bs.length-r.cBytes := by
      rw [sizeSub_eq (by omega) (by omega)]
      omega
    have hsc := scatter_eq h (show bs.length ≤ r.empty by omega) (w:=w) (by omega) hwrap
    refine ⟨scattered r w bs.length,?_,?_⟩
    · simp only [writeSync,hwcm,hsc,hs,hs₂,he,hx,committed,slot_of_le hwrap]
    · apply fifo_extend h (by omega)
      · exact fun i hi hne => scattered_old hwi hwrap hi hne
      · intro k hk
        have hbyte : w.byte k = bs[k] := hcell k _ (filled_cell hf hk)
        rw [List.getElem?_eq_getElem hk,← hbyte]
        exact (scattered_new hwi (by omega) hwrap hk).symm

/-- A commit out of `wcm` that ends before the end of the ring: the second copy's length
wraps below zero. -/
theorem writeSync_fault {r : Ring} {n m : ℕ} {filled : List (Option UInt8)} {a : Addr}
    (h : Placed r) (hn : n ≤ r.empty) (hres : Reserved r n filled a)
    (hout : r.cBytes ≤ r.wi+n) (hshort : r.wi+m < r.cBytes) :
    writeSync r m = .error .fault := by
  have hb := h.books
  have hc := h.capLt
  have hwi := h.wiLt
  have hsz := h.mmSize
  cases hres with
  | direct hwcm hin hcell => omega
  | block w hwcm hsize hout hcell =>
    have hs : sizeSub r.cBytes r.wi = r.cBytes-r.wi := sizeSub_eq (by omega) (by omega)
    have hs₂ : sizeSub m (r.cBytes-r.wi) = sizeMod-(r.cBytes-r.wi-m) :=
      sizeSub_wrap (by omega) (by omega)
    have hsc : scatter r w m = .error .fault := by
      simp only [scatter,hs,hs₂]
      rw [Block.memcpy_ok (by omega) (by omega)]
      simp only
      rw [Block.memcpy_fault (by omega)]
    simp only [writeSync,hwcm,hsc]

/-- A chunk of `m` readable bytes, of which the first `j` are where the consumer finds them. -/
inductive Held (r : Ring) (m : ℕ) : ℕ → Addr → Prop
  | direct (j : ℕ) (hrcm : r.rcm = none) (hin : r.ri+m < r.cBytes) : Held r m j (.mm r.ri)
  | block (j : ℕ) (b : Block) (hrcm : r.rcm = some b) (hsize : b.size = m)
      (hout : r.cBytes ≤ r.ri+m) (hcell : ∀ k < j, (fifo r)[k]? = some (b.byte k)) :
      Held r m j .rcm

theorem fifo_cell {r : Ring} {k : ℕ} (hk : k < r.contex) :
    (fifo r)[k]? = some (r.mm.byte (slot r.cBytes r.ri k)) :=
  (window_eq_iff (fifo_length r)).mp rfl k hk

theorem readQuery_held {r r' : Ring} {m : ℕ} {a : Addr} (h : Placed r) (hr : r.rcm = none)
    (hq : readQuery r m = (r',some a)) :
    m ≤ r.contex ∧ r' = { r with rcm := r'.rcm } ∧ Held r' m 0 a ∧
      (a = .mm r.ri ∧ Held r' m m a ∨ a = .rcm) := by
  have hb := h.books
  have hc := h.capLt
  have hri := h.riLt
  unfold readQuery at hq
  split_ifs at hq with hm hin
  · cases hq
    rw [sizeAdd_eq (by omega)] at hin
    exact ⟨hm,rfl,.direct 0 hr hin,Or.inl ⟨rfl,.direct m hr hin⟩⟩
  · cases hq
    rw [sizeAdd_eq (by omega)] at hin
    exact ⟨hm,rfl,.block 0 _ rfl rfl (by simp only; omega) (by omega),Or.inr rfl⟩
  · cases hq

theorem gather_held {r : Ring} {m j : ℕ} (h : Placed r) (hm : m ≤ r.contex) (hj : j < m)
    (hheld : Held r m j .rcm) :
    ∃ b, gather r j = .ok { r with rcm := some b } ∧
      Held { r with rcm := some b } m (j+1) .rcm := by
  have hb := h.books
  have hc := h.capLt
  have hri := h.riLt
  have hsz := h.mmSize
  cases hheld with
  | block b hrcm hsize hout hcell =>
    have hs : sizeSub r.cBytes r.ri = r.cBytes-r.ri := sizeSub_eq (by omega) (by omega)
    have haddr : (if j < r.cBytes-r.ri then r.ri+j else j-(r.cBytes-r.ri)) =
        slot r.cBytes r.ri j := by
      unfold slot
      split_ifs <;> omega
    have hlt := slot_lt hri (show j ≤ r.cBytes by omega)
    refine ⟨{ b with byte := Function.update b.byte j (r.mm.byte (slot r.cBytes r.ri j)) },?_,?_⟩
    · simp only [gather,hrcm,hs,haddr]
      rw [Block.load_ok (by omega)]
      simp only
      rw [Block.store_ok (by omega)]
    · refine .block (j+1) _ rfl hsize hout ?_
      intro k hk
      change (fifo r)[k]? =
        some (Function.update b.byte j (r.mm.byte (slot r.cBytes r.ri j)) k)
      by_cases hkj : k = j
      · subst k
        rw [fifo_cell (by omega),Function.update_self]
      · rw [hcell k (by omega),Function.update_of_ne hkj]

theorem loadAt_held {r : Ring} {m j : ℕ} {a : Addr} (h : Placed r) (hm : m ≤ r.contex)
    (hj : j < m) (hheld : Held r m m a) : ∃ v, loadAt r a j = .ok v ∧ (fifo r)[j]? = some v := by
  have hb := h.books
  have hsz := h.mmSize
  cases hheld with
  | direct hrcm hin =>
    refine ⟨r.mm.byte (r.ri+j),Block.load_ok (by omega),?_⟩
    rw [fifo_cell (by omega),slot_of_lt (by omega)]
  | block b hrcm hsize hout hcell =>
    refine ⟨b.byte j,?_,hcell j hj⟩
    simp only [loadAt,hrcm]
    exact Block.load_ok (by omega)

def released (r : Ring) (m : ℕ) : Ring :=
  { r with ri := slot r.cBytes r.ri m, rcm := none, contex := r.contex-m, empty := r.empty+m }

theorem readSync_eq {r : Ring} {m : ℕ} {a : Addr} (h : Placed r) (hm : m ≤ r.contex)
    (hheld : Held r m m a) : readSync r m = released r m := by
  have hb := h.books
  have hc := h.capLt
  have hri := h.riLt
  have hx : sizeSub r.contex m = r.contex-m := sizeSub_eq hm (by omega)
  have he : sizeAdd r.empty m = r.empty+m := sizeAdd_eq (by omega)
  cases hheld with
  | direct hrcm hin =>
    have hadd : sizeAdd r.ri m = r.ri+m := sizeAdd_eq (by omega)
    simp only [readSync,hrcm,hx,he,hadd,released,slot_of_lt hin]
  | block b hrcm hsize hout hcell =>
    have hs : sizeSub r.cBytes r.ri = r.cBytes-r.ri := sizeSub_eq (by omega) (by omega)
    have hs₂ : sizeSub m (r.cBytes-r.ri) = r.ri+m-r.cBytes := by
      rw [sizeSub_eq (by omega) (by omega)]
      omega
    simp only [readSync,hrcm,hx,he,hs,hs₂,released,slot_of_le hout]

theorem released_placed {r : Ring} (h : Placed r) {m : ℕ} (hm : m ≤ r.contex) :
    Placed (released r m) :=
  ⟨h.toIndexed.release hm,h.capLe,h.mmSize⟩

theorem released_fifo {r : Ring} (h : Placed r) {m : ℕ} (hm : m ≤ r.contex) :
    fifo (released r m) = (fifo r).drop m := by
  have hb := h.books
  rw [fifo,fifo,window_drop h.riLt hm (by omega)]
  rfl

end Ccsrb
end PcEnv
