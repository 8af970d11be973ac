import PcEnv.CcsrbRuns
import PcEnv.CsrbClear

/-! Clearing the ring `ccsrb` while a producer and a consumer are at work.
Not only a query's answer but also its temporary block outlives a `ccsrb_clear`. -/
namespace PcEnv
namespace RingClear

open Runs Word Circular

section

open Ccsrb

/-- A reader that was given `rcm` still has to copy into it, up to the end of the ring and then
from its start. -/
inductive Reader
  | idle
  | copyTail (size : ℕ)
  | copyHead (size : ℕ)
  | holding (size : ℕ) (addr : Addr)
  deriving DecidableEq

def copyTail (r : Ccsrb.Ring) : Except Halt Ccsrb.Ring :=
  match r.rcm with
  | none => .error .fault
  | some b =>
    match Block.memcpy b 0 r.mm r.ri (sizeSub r.cBytes r.ri) with
    | .ok b => .ok { r with rcm := some b }
    | .error h => .error h

def copyHead (r : Ccsrb.Ring) (size : ℕ) : Except Halt Ccsrb.Ring :=
  match r.rcm with
  | none => .error .fault
  | some b =>
    match Block.memcpy b (sizeSub r.cBytes r.ri) r.mm 0
      (sizeSub size (sizeSub r.cBytes r.ri)) with
    | .ok b => .ok { r with rcm := some b }
    | .error h => .error h

structure CcsrbSys where
  ring : Ccsrb.Ring
  prod : Party Addr
  cons : Reader

inductive CcsrbEvent
  | writeQuery (size : ℕ) (junk : ℕ → UInt8)
  | fill (i : ℕ) (v : UInt8)
  | writeSync
  | readQuery (size : ℕ)
  | copyTail
  | copyHead
  | look (i : ℕ)
  | readSync
  | clear

def ccsrbStep (s : CcsrbSys) : CcsrbEvent → Except Halt CcsrbSys
  | .writeQuery size junk =>
    match s.prod with
    | .idle =>
      match writeQuery junk s.ring size with
      | (r,some a) => .ok { s with ring := r, prod := .holding size a }
      | (r,none) => .ok { s with ring := r }
    | .holding _ _ => .error .blocked
  | .fill i v =>
    match s.prod with
    | .idle => .error .blocked
    | .holding size a =>
      if i < size then
        match storeAt s.ring a i v with
        | .ok r => .ok { s with ring := r }
        | .error h => .error h
      else .error .blocked
  | .writeSync =>
    match s.prod with
    | .idle => .error .blocked
    | .holding size _ =>
      match writeSync s.ring size with
      | .ok r => .ok { s with ring := r, prod := .idle }
      | .error h => .error h
  | .readQuery size =>
    match s.cons with
    | .idle =>
      match readQuery s.ring size with
      | (r,some .rcm) => .ok { s with ring := r, cons := .copyTail size }
      | (r,some a) => .ok { s with ring := r, cons := .holding size a }
      | (r,none) => .ok { s with ring := r }
    | _ => .error .blocked
  | .copyTail =>
    match s.cons with
    | .copyTail size =>
      match copyTail s.ring with
      | .ok r => .ok { s with ring := r, cons := .copyHead size }
      | .error h => .error h
    | _ => .error .blocked
  | .copyHead =>
    match s.cons with
    | .copyHead size =>
      match copyHead s.ring size with
      | .ok r => .ok { s with ring := r, cons := .holding size .rcm }
      | .error h => .error h
    | _ => .error .blocked
  | .look i =>
    match s.cons with
    | .holding size a =>
      if i < size then
        match loadAt s.ring a i with
        | .ok _ => .ok s
        | .error h => .error h
      else .error .blocked
    | _ => .error .blocked
  | .readSync =>
    match s.cons with
    | .holding size _ => .ok { s with ring := readSync s.ring size, cons := .idle }
    | _ => .error .blocked
  | .clear => .ok { s with ring := clear s.ring }

/-- The lengths of the copies of `ccsrb_write_sync`. -/
def ccsrbCopies (r : Ccsrb.Ring) (size : ℕ) : List ℕ :=
  match r.wcm with
  | some _ => [sizeSub r.cBytes r.wi,sizeSub size (sizeSub r.cBytes r.wi)]
  | none => []

def CcsrbBooks (s : CcsrbSys) : Prop :=
  Books s.ring.cBytes s.ring.ri s.ring.wi s.ring.contex s.ring.empty

def CcsrbKept (s : CcsrbSys) (e : CcsrbEvent) : Prop :=
  ccsrbStep s e ≠ .error .fault ∧ (∀ t, ccsrbStep s e = .ok t → CcsrbBooks t) ∧
    ∀ size a, e = .writeSync → s.prod = .holding size a →
      ∀ len ∈ ccsrbCopies s.ring size, len ≤ size

/-- A temporary block is used while the index is still one it reaches around the end from, and a
read is synchronised while its bytes are still in the ring. -/
def CcsrbFits (s : CcsrbSys) : CcsrbEvent → Prop
  | .writeSync =>
    match s.prod with
    | .idle => True
    | .holding size _ => s.ring.wcm.isSome = true → s.ring.cBytes ≤ s.ring.wi+size
  | .copyTail =>
    match s.cons with
    | .copyTail size => s.ring.cBytes ≤ s.ring.ri+size
    | _ => True
  | .copyHead =>
    match s.cons with
    | .copyHead size => s.ring.cBytes ≤ s.ring.ri+size
    | _ => True
  | .readSync =>
    match s.cons with
    | .holding size _ =>
      size ≤ s.ring.contex ∧ (s.ring.rcm.isSome = true → s.ring.cBytes ≤ s.ring.ri+size)
    | _ => True
  | _ => True

instance (s : CcsrbSys) : DecidablePred (CcsrbFits s)
  | .writeSync =>
    match h : s.prod with
    | .idle => .isTrue (by simp only [CcsrbFits,h])
    | .holding size _ =>
      decidable_of_iff (s.ring.wcm.isSome = true → s.ring.cBytes ≤ s.ring.wi+size)
        (by simp only [CcsrbFits,h])
  | .copyTail =>
    match h : s.cons with
    | .copyTail size => decidable_of_iff (s.ring.cBytes ≤ s.ring.ri+size)
        (by simp only [CcsrbFits,h])
    | .idle | .copyHead _ | .holding _ _ => .isTrue (by simp only [CcsrbFits,h])
  | .copyHead =>
    match h : s.cons with
    | .copyHead size => decidable_of_iff (s.ring.cBytes ≤ s.ring.ri+size)
        (by simp only [CcsrbFits,h])
    | .idle | .copyTail _ | .holding _ _ => .isTrue (by simp only [CcsrbFits,h])
  | .readSync =>
    match h : s.cons with
    | .holding size _ =>
      decidable_of_iff (size ≤ s.ring.contex ∧
        (s.ring.rcm.isSome = true → s.ring.cBytes ≤ s.ring.ri+size)) (by simp only [CcsrbFits,h])
    | .idle | .copyTail _ | .copyHead _ => .isTrue (by simp only [CcsrbFits,h])
  | .writeQuery _ _ | .fill _ _ | .readQuery _ | .look _ | .clear => .isTrue trivial

inductive Wants (r : Ccsrb.Ring) (n : ℕ) : Addr → Prop
  | mm (off : ℕ) (hwcm : r.wcm = none) (hin : off+n < r.cBytes) (hwi : r.wi+n < r.cBytes) :
      Wants r n (.mm off)
  | wcm (w : Block) (hwcm : r.wcm = some w) (hsize : w.size = n) : Wants r n .wcm

inductive Gets (r : Ccsrb.Ring) (m : ℕ) : Addr → Prop
  | mm (off : ℕ) (hrcm : r.rcm = none) (hin : off+m < r.cBytes) (hri : r.ri+m < r.cBytes) :
      Gets r m (.mm off)
  | rcm (b : Block) (hrcm : r.rcm = some b) (hsize : b.size = m) : Gets r m .rcm

inductive ProdInv (r : Ccsrb.Ring) : Party Addr → Prop
  | idle (hwcm : r.wcm = none) : ProdInv r .idle
  | holding {n : ℕ} {a : Addr} (hn : n ≤ r.empty) (hw : Wants r n a) : ProdInv r (.holding n a)

inductive ConsInv (r : Ccsrb.Ring) : Reader → Prop
  | idle (hrcm : r.rcm = none) : ConsInv r .idle
  | copyTail {m : ℕ} (b : Block) (hm : m ≤ r.cBytes) (hrcm : r.rcm = some b) (hsize : b.size = m) :
      ConsInv r (.copyTail m)
  | copyHead {m : ℕ} (b : Block) (hm : m ≤ r.cBytes) (hrcm : r.rcm = some b) (hsize : b.size = m) :
      ConsInv r (.copyHead m)
  | holding {m : ℕ} {a : Addr} (hm : m ≤ r.cBytes) (hg : Gets r m a) : ConsInv r (.holding m a)

structure CcsrbInv (s : CcsrbSys) : Prop where
  books : CcsrbBooks s
  capLe : s.ring.cBytes ≤ ptrdiffMax
  mmSize : s.ring.mm.size = s.ring.cBytes
  prod : ProdInv s.ring s.prod
  cons : ConsInv s.ring s.cons

theorem Gets.mono {r r' : Ccsrb.Ring} {m : ℕ} {a : Addr} (hri : r'.ri ≤ r.ri)
    (hc : r'.cBytes = r.cBytes) (hrcm : r'.rcm = r.rcm) (h : Gets r m a) : Gets r' m a := by
  cases h with
  | mm off hnone hin hlt => exact .mm off (hrcm.trans hnone) (by omega) (by omega)
  | rcm b hsome hsize => exact .rcm b (hrcm.trans hsome) hsize

theorem ConsInv.mono {r r' : Ccsrb.Ring} {cons : Reader} (hri : r'.ri ≤ r.ri)
    (hc : r'.cBytes = r.cBytes) (hrcm : r'.rcm = r.rcm) (h : ConsInv r cons) : ConsInv r' cons := by
  cases h with
  | idle hnone => exact .idle (hrcm.trans hnone)
  | copyTail b hm hsome hsize => exact .copyTail b (by omega) (hrcm.trans hsome) hsize
  | copyHead b hm hsome hsize => exact .copyHead b (by omega) (hrcm.trans hsome) hsize
  | holding hm hg => exact .holding (by omega) (hg.mono hri hc hrcm)

theorem Wants.mono {r r' : Ccsrb.Ring} {n : ℕ} {a : Addr} (hwi : r'.wi ≤ r.wi)
    (hc : r'.cBytes = r.cBytes) (hwcm : r'.wcm = r.wcm) (h : Wants r n a) : Wants r' n a := by
  cases h with
  | mm off hnone hin hlt => exact .mm off (hwcm.trans hnone) (by omega) (by omega)
  | wcm w hsome hsize => exact .wcm w (hwcm.trans hsome) hsize

theorem ProdInv.mono {r r' : Ccsrb.Ring} {prod : Party Addr} (hwi : r'.wi ≤ r.wi)
    (hc : r'.cBytes = r.cBytes) (hwcm : r'.wcm = r.wcm) (he : r.empty ≤ r'.empty)
    (h : ProdInv r prod) : ProdInv r' prod := by
  cases h with
  | idle hnone => exact .idle (hwcm.trans hnone)
  | holding hn hw => exact .holding (by omega) (hw.mono hwi hc hwcm)

variable {s : CcsrbSys} {r : Ccsrb.Ring} {n : ℕ}

theorem writeQuery_keeps (h : CcsrbInv s) (size : ℕ) (junk : ℕ → UInt8) :
    Keeps ccsrbStep CcsrbInv s (.writeQuery size junk) := by
  cases hp : s.prod with
  | holding n a => exact Or.inl (by simp only [ccsrbStep,hp])
  | idle =>
    right
    have hmax : 2*ptrdiffMax+1 < sizeMod := by decide
    have hcap := h.capLe
    obtain ⟨h₁,h₂,h₃,h₄,h₅⟩ := id h.books
    have hprod := h.prod
    rw [hp] at hprod
    cases hprod with
    | idle hwcm =>
      by_cases hle : size ≤ s.ring.empty
      · have hadd : sizeAdd s.ring.wi size = s.ring.wi+size := sizeAdd_eq (by omega)
        by_cases hin : s.ring.wi+size < s.ring.cBytes
        · refine ⟨{ s with prod := .holding size (.mm s.ring.wi) },?_,h.books,hcap,h.mmSize,
            .holding hle (.mm s.ring.wi hwcm hin hin),h.cons⟩
          simp only [ccsrbStep,hp,writeQuery,if_pos hle,hadd,if_pos hin]
        · refine ⟨{ s with ring := { s.ring with wcm := some ⟨size,junk⟩ },
                           prod := .holding size .wcm },?_,h.books,hcap,h.mmSize,
            .holding hle (.wcm ⟨size,junk⟩ rfl rfl),
            ConsInv.mono (r:=s.ring) le_rfl rfl rfl h.cons⟩
          simp only [ccsrbStep,hp,writeQuery,if_pos hle,hadd,if_neg hin]
      · exact ⟨s,by simp only [ccsrbStep,hp,writeQuery,if_neg hle]; rw [← hp],h⟩

theorem fill_keeps (h : CcsrbInv s) (i : ℕ) (v : UInt8) :
    Keeps ccsrbStep CcsrbInv s (.fill i v) := by
  cases hp : s.prod with
  | idle => exact Or.inl (by simp only [ccsrbStep,hp])
  | holding n a =>
    by_cases hi : i < n
    · right
      have hsize := h.mmSize
      have hprod := h.prod
      rw [hp] at hprod
      cases hprod with
      | holding hn hw =>
        cases hw with
        | mm off hwcm hin hwi =>
          refine ⟨{ s with ring := { s.ring with
              mm := { s.ring.mm with byte := Function.update s.ring.mm.byte (off+i) v } } },?_,
            h.books,h.capLe,hsize,?_,ConsInv.mono (r:=s.ring) le_rfl rfl rfl h.cons⟩
          · simp only [ccsrbStep,hp,if_pos hi,storeAt]
            rw [Block.store_ok (by omega)]
          · exact ProdInv.mono (r:=s.ring) le_rfl rfl rfl le_rfl h.prod
        | wcm w hwcm hws =>
          refine ⟨{ s with ring := { s.ring with
              wcm := some { w with byte := Function.update w.byte i v } } },?_,
            h.books,h.capLe,hsize,?_,ConsInv.mono (r:=s.ring) le_rfl rfl rfl h.cons⟩
          · simp only [ccsrbStep,hp,if_pos hi,storeAt,hwcm]
            rw [Block.store_ok (by omega)]
          · simp only [hp]
            exact .holding hn (.wcm _ rfl hws)
    · exact Or.inl (by simp only [ccsrbStep,hp,if_neg hi])

/-- Both copies of `write_sync` are in range exactly when the chunk still reaches around the
end. -/
theorem scatter_fits {w : Block} (hmm : r.mm.size = r.cBytes) (hc : r.cBytes ≤ ptrdiffMax)
    (hwi : r.wi < r.cBytes) (hn : n ≤ r.cBytes) (hw : w.size = n) (hge : r.cBytes ≤ r.wi+n) :
    ∃ byte, scatter r w n = .ok ⟨r.mm.size,byte⟩ := by
  have hmax : 2*ptrdiffMax+1 < sizeMod := by decide
  have hs : sizeSub r.cBytes r.wi = r.cBytes-r.wi := sizeSub_eq (by omega) (by omega)
  have hs₂ : sizeSub n (r.cBytes-r.wi) = n-(r.cBytes-r.wi) := sizeSub_eq (by omega) (by omega)
  simp only [scatter,hs,hs₂]
  rw [Block.memcpy_ok (by omega) (by omega)]
  simp only
  rw [Block.memcpy_ok (by simp only; omega) (by omega)]
  exact ⟨_,rfl⟩

theorem scatter_unfit {w : Block} (hc : r.cBytes ≤ ptrdiffMax) (hwi : r.wi < r.cBytes)
    (hw : w.size = n) (hlt : r.wi+n < r.cBytes) : scatter r w n = .error .fault := by
  have hmax : 2*ptrdiffMax+1 < sizeMod := by decide
  have hs : sizeSub r.cBytes r.wi = r.cBytes-r.wi := sizeSub_eq (by omega) (by omega)
  rw [scatter,hs,Block.memcpy_fault (by omega)]

theorem writeSync_fits (hb : Books r.cBytes r.ri r.wi r.contex r.empty)
    (hc : r.cBytes ≤ ptrdiffMax) (hmm : r.mm.size = r.cBytes) {a : Addr} (hn : n ≤ r.empty)
    (hw : Wants r n a) (hf : r.wcm.isSome = true → r.cBytes ≤ r.wi+n) :
    (∃ mem, writeSync r n = .ok (committed r n mem)) ∧ ∀ len ∈ ccsrbCopies r n, len ≤ n := by
  obtain ⟨h₁,h₂,h₃,h₄,h₅⟩ := hb
  have hmax : 2*ptrdiffMax+1 < sizeMod := by decide
  have he : sizeSub r.empty n = r.empty-n := sizeSub_eq hn (by omega)
  have hx : sizeAdd r.contex n = r.contex+n := sizeAdd_eq (by omega)
  cases hw with
  | mm off hwcm hin hwi =>
    have hadd : sizeAdd r.wi n = r.wi+n := sizeAdd_eq (by omega)
    refine ⟨⟨r.mm.byte,?_⟩,by simp [ccsrbCopies,hwcm]⟩
    simp only [writeSync,hwcm,he,hx,hadd,committed,slot_of_lt hwi]
  | wcm w hwcm hsize =>
    have hge := hf (by rw [hwcm]; rfl)
    have hs : sizeSub r.cBytes r.wi = r.cBytes-r.wi := sizeSub_eq (by omega) (by omega)
    have hs₂ : sizeSub n (r.cBytes-r.wi) = r.wi+n-r.cBytes := by
      rw [sizeSub_eq (by omega) (by omega)]
      omega
    obtain ⟨byte,hsc⟩ := scatter_fits hmm hc h₄ (hn.trans h₂) hsize hge
    refine ⟨⟨byte,?_⟩,?_⟩
    · simp only [writeSync,hwcm,hsc,hs,hs₂,he,hx,committed,slot_of_le hge]
    · simp only [ccsrbCopies,hwcm,hs,hs₂,List.mem_cons,List.not_mem_nil,or_false]
      rintro len (rfl | rfl) <;> omega

theorem writeSync_keeps (h : CcsrbInv s) (hf : CcsrbFits s .writeSync) :
    Keeps ccsrbStep CcsrbInv s .writeSync := by
  cases hp : s.prod with
  | idle => exact Or.inl (by simp only [ccsrbStep,hp])
  | holding n a =>
    right
    have hfit : s.ring.wcm.isSome = true → s.ring.cBytes ≤ s.ring.wi+n := by
      simpa only [CcsrbFits,hp] using hf
    have hprod := h.prod
    rw [hp] at hprod
    cases hprod with
    | holding hn hw =>
      obtain ⟨⟨mem,hsync⟩,-⟩ := writeSync_fits h.books h.capLe h.mmSize hn hw hfit
      exact ⟨{ s with ring := committed s.ring n mem, prod := .idle },
        by simp only [ccsrbStep,hp,hsync],Books.commit h.books hn,h.capLe,h.mmSize,.idle rfl,
        ConsInv.mono (r:=s.ring) le_rfl rfl rfl h.cons⟩

theorem readQuery_keeps (h : CcsrbInv s) (size : ℕ) :
    Keeps ccsrbStep CcsrbInv s (.readQuery size) := by
  cases hcs : s.cons with
  | copyTail m => exact Or.inl (by simp only [ccsrbStep,hcs])
  | copyHead m => exact Or.inl (by simp only [ccsrbStep,hcs])
  | holding m a => exact Or.inl (by simp only [ccsrbStep,hcs])
  | idle =>
    right
    have hmax : 2*ptrdiffMax+1 < sizeMod := by decide
    have hcap := h.capLe
    obtain ⟨h₁,h₂,h₃,h₄,h₅⟩ := id h.books
    have hcons := h.cons
    rw [hcs] at hcons
    cases hcons with
    | idle hrcm =>
      by_cases hle : size ≤ s.ring.contex
      · have hadd : sizeAdd s.ring.ri size = s.ring.ri+size := sizeAdd_eq (by omega)
        by_cases hin : s.ring.ri+size < s.ring.cBytes
        · refine ⟨{ s with cons := .holding size (.mm s.ring.ri) },?_,h.books,hcap,h.mmSize,h.prod,
            .holding (hle.trans h₁) (.mm s.ring.ri hrcm hin hin)⟩
          simp only [ccsrbStep,hcs,readQuery,if_pos hle,hadd,if_pos hin]
        · refine ⟨{ s with ring := { s.ring with rcm := some ⟨size,fun _ => 0⟩ },
                           cons := .copyTail size },?_,h.books,hcap,h.mmSize,
            ProdInv.mono (r:=s.ring) le_rfl rfl rfl le_rfl h.prod,
            .copyTail ⟨size,fun _ => 0⟩ (hle.trans h₁) rfl rfl⟩
          simp only [ccsrbStep,hcs,readQuery,if_pos hle,hadd,if_neg hin]
      · exact ⟨s,by simp only [ccsrbStep,hcs,readQuery,if_neg hle]; rw [← hcs],h⟩

theorem copyTail_keeps (h : CcsrbInv s) (hf : CcsrbFits s .copyTail) :
    Keeps ccsrbStep CcsrbInv s .copyTail := by
  cases hcs : s.cons with
  | idle => exact Or.inl (by simp only [ccsrbStep,hcs])
  | copyHead m => exact Or.inl (by simp only [ccsrbStep,hcs])
  | holding m a => exact Or.inl (by simp only [ccsrbStep,hcs])
  | copyTail m =>
    right
    have hfit : s.ring.cBytes ≤ s.ring.ri+m := by simpa only [CcsrbFits,hcs] using hf
    have hmax : 2*ptrdiffMax+1 < sizeMod := by decide
    have hcap := h.capLe
    have hmm := h.mmSize
    have hri := h.books.riLt
    have hcons := h.cons
    rw [hcs] at hcons
    cases hcons with
    | copyTail b hm hrcm hsize =>
      have hs : sizeSub s.ring.cBytes s.ring.ri = s.ring.cBytes-s.ring.ri :=
        sizeSub_eq (by omega) (by omega)
      obtain ⟨b',hcopy,hsize'⟩ : ∃ b', Block.memcpy b 0 s.ring.mm s.ring.ri
          (s.ring.cBytes-s.ring.ri) = .ok b' ∧ b'.size = m :=
        ⟨_,Block.memcpy_ok (by omega) (by omega),hsize⟩
      exact ⟨{ s with ring := { s.ring with rcm := some b' }, cons := .copyHead m },
        by simp only [ccsrbStep,hcs,copyTail,hrcm,hs,hcopy],h.books,hcap,hmm,
        ProdInv.mono (r:=s.ring) le_rfl rfl rfl le_rfl h.prod,.copyHead b' hm rfl hsize'⟩

theorem copyHead_keeps (h : CcsrbInv s) (hf : CcsrbFits s .copyHead) :
    Keeps ccsrbStep CcsrbInv s .copyHead := by
  cases hcs : s.cons with
  | idle => exact Or.inl (by simp only [ccsrbStep,hcs])
  | copyTail m => exact Or.inl (by simp only [ccsrbStep,hcs])
  | holding m a => exact Or.inl (by simp only [ccsrbStep,hcs])
  | copyHead m =>
    right
    have hfit : s.ring.cBytes ≤ s.ring.ri+m := by simpa only [CcsrbFits,hcs] using hf
    have hmax : 2*ptrdiffMax+1 < sizeMod := by decide
    have hcap := h.capLe
    have hmm := h.mmSize
    have hri := h.books.riLt
    have hcons := h.cons
    rw [hcs] at hcons
    cases hcons with
    | copyHead b hm hrcm hsize =>
      have hs : sizeSub s.ring.cBytes s.ring.ri = s.ring.cBytes-s.ring.ri :=
        sizeSub_eq (by omega) (by omega)
      have hs₂ : sizeSub m (s.ring.cBytes-s.ring.ri) = m-(s.ring.cBytes-s.ring.ri) :=
        sizeSub_eq (by omega) (by omega)
      obtain ⟨b',hcopy,hsize'⟩ : ∃ b', Block.memcpy b (s.ring.cBytes-s.ring.ri) s.ring.mm 0
          (m-(s.ring.cBytes-s.ring.ri)) = .ok b' ∧ b'.size = m :=
        ⟨_,Block.memcpy_ok (by omega) (by omega),hsize⟩
      exact ⟨{ s with ring := { s.ring with rcm := some b' }, cons := .holding m .rcm },
        by simp only [ccsrbStep,hcs,copyHead,hrcm,hs,hs₂,hcopy],h.books,hcap,hmm,
        ProdInv.mono (r:=s.ring) le_rfl rfl rfl le_rfl h.prod,.holding hm (.rcm b' rfl hsize')⟩

theorem look_keeps (h : CcsrbInv s) (i : ℕ) : Keeps ccsrbStep CcsrbInv s (.look i) := by
  cases hcs : s.cons with
  | idle => exact Or.inl (by simp only [ccsrbStep,hcs])
  | copyTail m => exact Or.inl (by simp only [ccsrbStep,hcs])
  | copyHead m => exact Or.inl (by simp only [ccsrbStep,hcs])
  | holding m a =>
    by_cases hi : i < m
    · right
      have hmm := h.mmSize
      have hcons := h.cons
      rw [hcs] at hcons
      cases hcons with
      | holding hm hg =>
        cases hg with
        | mm off hrcm hin hri =>
          exact ⟨s,by simp only [ccsrbStep,hcs,if_pos hi,loadAt]; rw [Block.load_ok (by omega)],h⟩
        | rcm b hrcm hsize =>
          exact ⟨s,by simp only [ccsrbStep,hcs,if_pos hi,loadAt,hrcm]
                      rw [Block.load_ok (by omega)],h⟩
    · exact Or.inl (by simp only [ccsrbStep,hcs,if_neg hi])

theorem readSync_fits (hb : Books r.cBytes r.ri r.wi r.contex r.empty)
    (hc : r.cBytes ≤ ptrdiffMax) {m : ℕ} {a : Addr} (hg : Gets r m a) (hm : m ≤ r.contex)
    (hf : r.rcm.isSome = true → r.cBytes ≤ r.ri+m) : readSync r m = released r m := by
  obtain ⟨h₁,h₂,h₃,h₄,h₅⟩ := hb
  have hmax : 2*ptrdiffMax+1 < sizeMod := by decide
  have hx : sizeSub r.contex m = r.contex-m := sizeSub_eq hm (by omega)
  have he : sizeAdd r.empty m = r.empty+m := sizeAdd_eq (by omega)
  cases hg with
  | mm off hrcm hin hri =>
    have hadd : sizeAdd r.ri m = r.ri+m := sizeAdd_eq (by omega)
    simp only [readSync,hrcm,hx,he,hadd,released,slot_of_lt hri]
  | rcm b hrcm hsize =>
    have hge := hf (by rw [hrcm]; rfl)
    have hs : sizeSub r.cBytes r.ri = r.cBytes-r.ri := sizeSub_eq (by omega) (by omega)
    have hs₂ : sizeSub m (r.cBytes-r.ri) = r.ri+m-r.cBytes := by
      rw [sizeSub_eq (by omega) (by omega)]
      omega
    simp only [readSync,hrcm,hx,he,hs,hs₂,released,slot_of_le hge]

theorem readSync_keeps (h : CcsrbInv s) (hf : CcsrbFits s .readSync) :
    Keeps ccsrbStep CcsrbInv s .readSync := by
  cases hcs : s.cons with
  | idle => exact Or.inl (by simp only [ccsrbStep,hcs])
  | copyTail m => exact Or.inl (by simp only [ccsrbStep,hcs])
  | copyHead m => exact Or.inl (by simp only [ccsrbStep,hcs])
  | holding m a =>
    right
    obtain ⟨hm,hfit⟩ : m ≤ s.ring.contex ∧
        (s.ring.rcm.isSome = true → s.ring.cBytes ≤ s.ring.ri+m) := by
      simpa only [CcsrbFits,hcs] using hf
    have hcons := h.cons
    rw [hcs] at hcons
    cases hcons with
    | holding hmc hg =>
      have hsync := readSync_fits h.books h.capLe hg hm hfit
      exact ⟨{ s with ring := released s.ring m, cons := .idle },
        by simp only [ccsrbStep,hcs,hsync],Books.release h.books hm,h.capLe,h.mmSize,
        ProdInv.mono (r:=s.ring) le_rfl rfl rfl (Nat.le_add_right _ _) h.prod,.idle rfl⟩

theorem clear_keeps (h : CcsrbInv s) : Keeps ccsrbStep CcsrbInv s .clear := by
  have hb := h.books
  exact Or.inr ⟨{ s with ring := clear s.ring },rfl,Books.start (Nat.one_le_of_lt hb.wiLt),
    h.capLe,h.mmSize,ProdInv.mono (r:=s.ring) (Nat.zero_le _) rfl rfl hb.emptyLe h.prod,
    ConsInv.mono (r:=s.ring) (Nat.zero_le _) rfl rfl h.cons⟩

theorem ccsrbStep_keeps (h : CcsrbInv s) {e : CcsrbEvent} (hf : CcsrbFits s e) :
    Keeps ccsrbStep CcsrbInv s e := by
  cases e with
  | writeQuery size junk => exact writeQuery_keeps h size junk
  | fill i v => exact fill_keeps h i v
  | writeSync => exact writeSync_keeps h hf
  | readQuery size => exact readQuery_keeps h size
  | copyTail => exact copyTail_keeps h hf
  | copyHead => exact copyHead_keeps h hf
  | look i => exact look_keeps h i
  | readSync => exact readSync_keeps h hf
  | clear => exact clear_keeps h

theorem writeSync_unfit (h : CcsrbInv s) (hf : ¬ CcsrbFits s .writeSync) :
    ccsrbStep s .writeSync = .error .fault := by
  cases hp : s.prod with
  | idle => exact (hf (by simp only [CcsrbFits,hp])).elim
  | holding n a =>
    have hprod := h.prod
    rw [hp] at hprod
    simp only [CcsrbFits,hp] at hf
    cases hprod with
    | holding hn hw =>
      cases hw with
      | mm off hwcm hin hwi => simp [hwcm] at hf
      | wcm w hwcm hsize =>
        have hlt : s.ring.wi+n < s.ring.cBytes := by simpa [hwcm] using hf
        have hsc := scatter_unfit h.capLe h.books.wiLt hsize hlt
        simp only [ccsrbStep,hp,writeSync,hwcm,hsc]

theorem copyTail_unfit (h : CcsrbInv s) (hf : ¬ CcsrbFits s .copyTail) :
    ccsrbStep s .copyTail = .error .fault := by
  have hmax : ptrdiffMax < sizeMod := by decide
  have hcap := h.capLe
  have hri := h.books.riLt
  cases hcs : s.cons with
  | copyTail m =>
    have hcons := h.cons
    rw [hcs] at hcons
    simp only [CcsrbFits,hcs] at hf
    cases hcons with
    | copyTail b hm hrcm hsize =>
      have hs : sizeSub s.ring.cBytes s.ring.ri = s.ring.cBytes-s.ring.ri :=
        sizeSub_eq (by omega) (by omega)
      simp only [ccsrbStep,hcs,copyTail,hrcm,hs]
      rw [Block.memcpy_overruns (by omega)]
  | _ => exact (hf (by simp only [CcsrbFits,hcs])).elim

theorem copyHead_unfit (h : CcsrbInv s) (hf : ¬ CcsrbFits s .copyHead) :
    ccsrbStep s .copyHead = .error .fault := by
  have hmax : ptrdiffMax < sizeMod := by decide
  have hcap := h.capLe
  have hri := h.books.riLt
  cases hcs : s.cons with
  | copyHead m =>
    have hcons := h.cons
    rw [hcs] at hcons
    simp only [CcsrbFits,hcs] at hf
    cases hcons with
    | copyHead b hm hrcm hsize =>
      have hs : sizeSub s.ring.cBytes s.ring.ri = s.ring.cBytes-s.ring.ri :=
        sizeSub_eq (by omega) (by omega)
      simp only [ccsrbStep,hcs,copyHead,hrcm,hs]
      rw [Block.memcpy_overruns (by omega)]
  | _ => exact (hf (by simp only [CcsrbFits,hcs])).elim

/-- A read of cleared bytes wraps its counter, or the read index. -/
theorem readSync_unfit (h : CcsrbInv s) (hf : ¬ CcsrbFits s .readSync) :
    ∃ t, ccsrbStep s .readSync = .ok t ∧ ¬ CcsrbBooks t := by
  have hmax : 2*ptrdiffMax+1 < sizeMod := by decide
  have hcap := h.capLe
  obtain ⟨h₁,h₂,h₃,h₄,h₅⟩ := id h.books
  cases hcs : s.cons with
  | holding m a =>
    have hcons := h.cons
    rw [hcs] at hcons
    simp only [CcsrbFits,hcs] at hf
    refine ⟨{ s with ring := readSync s.ring m, cons := .idle },by simp only [ccsrbStep,hcs],?_⟩
    rintro ⟨hcontex,-,-,-,hri⟩
    have hc : (readSync s.ring m).cBytes = s.ring.cBytes := by
      unfold readSync
      cases s.ring.rcm <;> rfl
    have hx : (readSync s.ring m).contex = sizeSub s.ring.contex m := by
      unfold readSync
      cases s.ring.rcm <;> rfl
    simp only [hc,hx] at hcontex hri
    cases hcons with
    | holding hm hg =>
      by_cases hle : m ≤ s.ring.contex
      · cases hg with
        | mm off hrcm hin hlt => simp [hle,hrcm] at hf
        | rcm b hrcm hsize =>
          have hlt : s.ring.ri+m < s.ring.cBytes := by simpa [hle,hrcm] using hf
          have hs : sizeSub s.ring.cBytes s.ring.ri = s.ring.cBytes-s.ring.ri :=
            sizeSub_eq (by omega) (by omega)
          have hwrap : sizeSub m (s.ring.cBytes-s.ring.ri) =
              sizeMod-(s.ring.cBytes-s.ring.ri-m) := sizeSub_wrap (by omega) (by omega)
          simp only [readSync,hrcm,hs,hwrap] at hri
          omega
      · rw [sizeSub_wrap (by omega) (by omega)] at hcontex
        omega
  | _ => exact (hf (by simp only [CcsrbFits,hcs])).elim

theorem ccsrbKept_iff (h : CcsrbInv s) (e : CcsrbEvent) : CcsrbKept s e ↔ CcsrbFits s e := by
  constructor
  · rintro ⟨hsafe,hafter,-⟩
    by_contra hf
    cases e with
    | writeSync => exact hsafe (writeSync_unfit h hf)
    | copyTail => exact hsafe (copyTail_unfit h hf)
    | copyHead => exact hsafe (copyHead_unfit h hf)
    | readSync =>
      obtain ⟨t,ht,hbad⟩ := readSync_unfit h hf
      exact hbad (hafter t ht)
    | _ => exact hf trivial
  · intro hf
    have hkeeps := ccsrbStep_keeps h hf
    refine ⟨hkeeps.safe,fun t ht => (hkeeps.of_ok ht).books,?_⟩
    rintro n a rfl hp
    have hfit : s.ring.wcm.isSome = true → s.ring.cBytes ≤ s.ring.wi+n := by
      simpa only [CcsrbFits,hp] using hf
    have hprod := h.prod
    rw [hp] at hprod
    cases hprod with
    | holding hn hw => exact (writeSync_fits h.books h.capLe h.mmSize hn hw hfit).2

theorem ccsrbCreate_inv {junk : ℕ → UInt8} {size : ℕ} {r : Ccsrb.Ring} (hs : 1 ≤ size)
    (hr : create junk size = some r) : CcsrbInv ⟨r,.idle,.idle⟩ := by
  unfold create at hr
  split_ifs at hr with hle
  cases hr
  exact ⟨Books.start hs,hle,rfl,.idle rfl,.idle rfl⟩

end

def csrbStart (r : Csrb.Ring) : CsrbSys := ⟨r,.idle,.idle⟩
def ccsrbStart (r : Ccsrb.Ring) : CcsrbSys := ⟨r,.idle,.idle⟩

/-- Every step of a run keeps the books exactly when every sync of the run finds what its query
was given: the bytes of a read still in the ring, the index of a temporary block still one it
reaches around the end from. -/
theorem books_iff {size : ℕ} (hs : 1 ≤ size) :
    (∀ r, Csrb.csrbCreate size = some r → CsrbBooks (csrbStart r) ∧
      ∀ es, Along csrbStep CsrbKept (csrbStart r) es ↔ Along csrbStep CsrbFits (csrbStart r) es) ∧
    ∀ junk r, Ccsrb.create junk size = some r → CcsrbBooks (ccsrbStart r) ∧
      ∀ es, Along ccsrbStep CcsrbKept (ccsrbStart r) es ↔
        Along ccsrbStep CcsrbFits (ccsrbStart r) es := by
  constructor
  · intro r hr
    have hinv := csrbCreate_inv hs hr
    refine ⟨hinv.books,fun es => ?_⟩
    exact along_iff_of_invariant CsrbInv (fun _ e h => csrbKept_iff h e)
      (fun _ _ _ h hf ht => (csrbStep_keeps h hf).of_ok ht) hinv
  · intro junk r hr
    have hinv := ccsrbCreate_inv hs hr
    refine ⟨hinv.books,fun es => ?_⟩
    exact along_iff_of_invariant CcsrbInv (fun _ e h => ccsrbKept_iff h e)
      (fun _ _ _ h hf ht => (ccsrbStep_keeps h hf).of_ok ht) hinv

/-- A clear between the query and the sync of a write, and one that is made good by a write
before the read is synchronised. -/
def luckyClears : List CsrbEvent :=
  [.writeQuery 2,.clear 0,.fill 0 7,.writeSync,.readQuery 2,.look 0,.clear 1,.writeQuery 3,
   .writeSync,.readSync]

theorem books_iff_four :
    Along csrbStep CsrbKept (csrbStart Csrb.ringOfFour) luckyClears ∧
    Along ccsrbStep CcsrbKept (ccsrbStart Ccsrb.ringOfFour)
      [.writeQuery 2 (fun _ => 0),.clear,.writeSync] := by
  have hcsrb : Csrb.csrbCreate 4 = some Csrb.ringOfFour := rfl
  have hccsrb : Ccsrb.create (fun _ => 0) 4 = some Ccsrb.ringOfFour := rfl
  have hfour := books_iff (show 1 ≤ 4 by decide)
  exact ⟨((hfour.1 _ hcsrb).2 luckyClears).mpr (by decide +kernel),
    ((hfour.2 _ _ hccsrb).2 _).mpr (by decide +kernel)⟩

/-- Two bytes are cleared while a reader holds them. -/
def clearedRead : List CsrbEvent :=
  [.writeQuery 2,.writeSync,.readQuery 2,.clear 0,.readSync]

/-- Two bytes are reserved around the end of the ring when it is cleared. -/
def clearedWrite : List CcsrbEvent :=
  [.writeQuery 2 (fun _ => 0),.writeSync,.writeQuery 2 (fun _ => 0),.clear]

theorem clear_breaks_books :
    Csrb.csrbCreate 4 = some Csrb.ringOfFour ∧
    (∃ s, exec csrbStep (csrbStart Csrb.ringOfFour) clearedRead = .ok s ∧
      s.ring.contex = 2^64-2 ∧ s.ring.empty = 6 ∧ ¬ CsrbBooks s) ∧
    Ccsrb.create (fun _ => 0) 4 = some Ccsrb.ringOfFour ∧
    (∃ s, exec ccsrbStep (ccsrbStart Ccsrb.ringOfFour) clearedWrite = .ok s ∧
      s.prod = .holding 2 .wcm ∧ ccsrbCopies s.ring 2 = [4,2^64-2]) ∧
    exec ccsrbStep (ccsrbStart Ccsrb.ringOfFour) (clearedWrite++[.writeSync]) = .error .fault := by
  refine ⟨rfl,?_,rfl,?_,faults_iff.mp (by decide +kernel)⟩
  · obtain ⟨s,hx,hseen⟩ : ∃ s, exec csrbStep (csrbStart Csrb.ringOfFour) clearedRead = .ok s ∧
        (s.ring.contex,s.ring.empty,decide (CsrbBooks s)) = (2^64-2,6,false) :=
      observe_eq_some.mp (by decide +kernel)
    simp only [Prod.mk.injEq,decide_eq_false_iff_not] at hseen
    exact ⟨s,hx,hseen⟩
  · obtain ⟨s,hx,hseen⟩ : ∃ s, exec ccsrbStep (ccsrbStart Ccsrb.ringOfFour) clearedWrite = .ok s ∧
        (s.prod,ccsrbCopies s.ring 2) = (.holding 2 .wcm,[4,2^64-2]) :=
      observe_eq_some.mp (by decide +kernel)
    exact ⟨s,hx,Prod.mk.inj hseen⟩

end RingClear
end PcEnv
