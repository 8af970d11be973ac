import PcEnv.Block
import PcEnv.Word

/-! The growing byte buffer `autom`.
Its memory is one heap block at a time: `realloc` may move it, and an address into a block
that has been given back is no longer one to use. Allocations within `PTRDIFF_MAX` are taken
to succeed. -/
namespace PcEnv
namespace Autom

open Runs Word Circular

structure Ptr where
  block : ℕ
  off : ℕ
  deriving DecidableEq, Repr

def Ptr.add (p : Ptr) (n : ℕ) : Ptr := { p with off := p.off+n }

/-- The block in use and its identity. -/
structure Heap where
  id : ℕ
  block : Block

def Heap.base (h : Heap) : Ptr := ⟨h.id,0⟩

def Heap.store (h : Heap) (p : Ptr) (bytes : List UInt8) : Except Halt Heap :=
  if p.block = h.id ∧ p.off+bytes.length ≤ h.block.size then
    .ok { h with block := ⟨h.block.size,patch h.block.byte p.off bytes⟩ }
  else .error .fault

def Heap.look (h : Heap) (p : Ptr) (n : ℕ) : Except Halt (List UInt8) :=
  if p.block = h.id ∧ p.off+n ≤ h.block.size then .ok (span h.block.byte p.off n)
  else .error .fault

/-- The bytes that both blocks have are kept; `junk` is what the others come with. -/
def Heap.realloc (h : Heap) (p : Ptr) (n : ℕ) (moved : Bool) (junk : ℕ → UInt8) :
    Except Halt Heap :=
  if p = h.base then
    .ok { id := if moved then h.id+1 else h.id,
          block := ⟨n,fun i => if i < h.block.size then h.block.byte i else junk i⟩ }
  else .error .fault

/-- `autom_t`; `is_malloc` is set in every `autom_t` made from `NULL`. -/
structure Fields where
  preBytes : ℕ
  curBytes : ℕ
  head : Ptr
  tail : Ptr
  deriving DecidableEq, Repr

/-- The buffer, the heap, and the bytes written and read so far. -/
structure Sys where
  ptr : Fields
  heap : Heap
  written : List UInt8
  got : List UInt8

def automCreate (preBytes : ℕ) : Option Sys :=
  if preBytes ≤ ptrdiffMax then
    some { ptr := ⟨preBytes,0,⟨0,0⟩,⟨0,0⟩⟩, heap := ⟨0,preBytes,fun _ => 0⟩, written := [],
           got := [] }
  else none

/-- The first branch of `autom_write`. -/
def grow (s : Sys) (need : ℕ) (moved : Bool) (junk : ℕ → UInt8) : Except Halt Sys :=
  if s.ptr.preBytes < need then
    if ptrdiffMax < need then .error .blocked
    else
      match s.heap.realloc s.ptr.head need moved junk with
      | .ok h => .ok { s with heap := h, ptr := { s.ptr with preBytes := need, head := h.base } }
      | .error e => .error e
  else .ok s

/-- No caller has a buffer of more than `PTRDIFF_MAX` bytes. -/
def automWrite (s : Sys) (buf : List UInt8) (moved : Bool) (junk : ℕ → UInt8) : Except Halt Sys :=
  if ptrdiffMax < buf.length then .error .blocked
  else
    let need := sizeAdd (sizeAdd s.ptr.curBytes buf.length) 1
    match grow s need moved junk with
    | .error e => .error e
    | .ok s =>
      match s.heap.store (s.ptr.head.add s.ptr.curBytes) buf with
      | .error e => .error e
      | .ok h =>
        match h.store (s.ptr.head.add (sizeSub need 1)) [0] with
        | .error e => .error e
        | .ok h =>
          let cur := sizeAdd s.ptr.curBytes buf.length
          .ok { s with heap := h,
                       ptr := { s.ptr with curBytes := cur, tail := s.ptr.head.add cur } }

/-- The address returned; one before the block is not an address. -/
def automRead (s : Sys) (bytes : ℕ) : Except Halt (Sys × Option Ptr) :=
  if s.ptr.curBytes < bytes then .ok (s,none)
  else if s.ptr.tail.off < s.ptr.curBytes then .error .fault
  else
    let ri : Ptr := { s.ptr.tail with off := s.ptr.tail.off-s.ptr.curBytes }
    .ok ({ s with ptr := { s.ptr with curBytes := sizeSub s.ptr.curBytes bytes } },some ri)

/-- `ptr->tail - ptr->head`, for two addresses into one block. -/
def automReset (s : Sys) : Except Halt Sys :=
  if s.ptr.tail.block = s.ptr.head.block then
    .ok { s with ptr := { s.ptr with curBytes := sizeSub s.ptr.tail.off s.ptr.head.off } }
  else .error .fault

def automBreset (s : Sys) (bytes : ℕ) (moved : Bool) (junk : ℕ → UInt8) : Except Halt Sys :=
  match automReset s with
  | .error e => .error e
  | .ok s =>
    if bytes < s.ptr.preBytes then
      match s.heap.realloc s.ptr.head bytes moved junk with
      | .ok h => .ok { s with heap := h, ptr := { s.ptr with head := h.base } }
      | .error e => .error e
    else .ok s

def automClear (s : Sys) : Except Halt Sys :=
  match s.heap.store s.ptr.head (List.replicate s.ptr.curBytes 0) with
  | .error e => .error e
  | .ok h => .ok { s with heap := h, ptr := { s.ptr with curBytes := 0, tail := s.ptr.head } }

inductive Op
  | write (buf : List UInt8) (moved : Bool) (junk : ℕ → UInt8)
  | read (bytes : ℕ)
  | reset
  | breset (bytes : ℕ) (moved : Bool) (junk : ℕ → UInt8)
  | clear

/-- The caller of `autom_read` looks at its bytes when it returns. -/
def step (s : Sys) : Op → Except Halt Sys
  | .write buf moved junk =>
    match automWrite s buf moved junk with
    | .ok t => .ok { t with written := s.written++buf }
    | .error e => .error e
  | .read bytes =>
    match automRead s bytes with
    | .error e => .error e
    | .ok (t,none) => .ok t
    | .ok (t,some ri) =>
      match t.heap.look ri bytes with
      | .ok seen => .ok { t with got := s.got++seen }
      | .error e => .error e
  | .reset => automReset s
  | .breset bytes moved junk => automBreset s bytes moved junk
  | .clear => automClear s

/-- `head` is the start of the block in use, `pre_bytes` its length, and `tail` an address in
it that leaves the unread bytes behind it. -/
structure Intact (s : Sys) : Prop where
  head : s.ptr.head = s.heap.base
  pre : s.ptr.preBytes = s.heap.block.size
  tail : s.ptr.tail.block = s.heap.id
  unread : s.ptr.curBytes ≤ s.ptr.tail.off
  inside : s.ptr.tail.off ≤ s.ptr.preBytes

structure Rep (s : Sys) : Prop extends Intact s where
  alloc : s.ptr.preBytes ≤ ptrdiffMax

@[simp] theorem base_block (h : Heap) : h.base.block = h.id := rfl
@[simp] theorem base_off (h : Heap) : h.base.off = 0 := rfl
@[simp] theorem add_block (p : Ptr) (n : ℕ) : (p.add n).block = p.block := rfl
@[simp] theorem add_off (p : Ptr) (n : ℕ) : (p.add n).off = p.off+n := rfl

theorem Heap.store_base {h : Heap} {n : ℕ} {bytes : List UInt8}
    (hin : n+bytes.length ≤ h.block.size) :
    h.store (h.base.add n) bytes =
      .ok { h with block := ⟨h.block.size,patch h.block.byte n bytes⟩ } := by
  rw [Heap.store,if_pos ⟨rfl,by simpa using hin⟩]
  simp

theorem Heap.realloc_base (h : Heap) (n : ℕ) (moved : Bool) (junk : ℕ → UInt8) :
    ∃ h', h.realloc h.base n moved junk = .ok h' ∧ h'.block.size = n ∧
      ∀ i < h.block.size, h'.block.byte i = h.block.byte i := by
  refine ⟨_,if_pos rfl,rfl,?_⟩
  intro i hi
  simp only [if_pos hi]

theorem create_rep {preBytes : ℕ} {s : Sys} (hs : automCreate preBytes = some s) : Rep s := by
  unfold automCreate at hs
  split_ifs at hs with hle
  cases hs
  exact ⟨⟨rfl,rfl,rfl,le_rfl,Nat.zero_le _⟩,hle⟩

def unread (s : Sys) : List UInt8 :=
  span s.heap.block.byte (s.ptr.tail.off-s.ptr.curBytes) s.ptr.curBytes

structure Wrote (s t : Sys) (buf : List UInt8) : Prop where
  rep : Rep t
  cur : t.ptr.curBytes = s.ptr.curBytes+buf.length
  tail : t.ptr.tail.off = t.ptr.curBytes
  unread : unread t = span s.heap.block.byte 0 s.ptr.curBytes++buf
  written : t.written = s.written++buf
  got : t.got = s.got

theorem grow_rep {s : Sys} (h : Rep s) (need : ℕ) (moved : Bool) (junk : ℕ → UInt8) :
    grow s need moved junk = .error .blocked ∨
      ∃ t, grow s need moved junk = .ok t ∧ t.ptr.head = t.heap.base ∧
        t.ptr.preBytes = t.heap.block.size ∧ t.ptr.preBytes ≤ ptrdiffMax ∧
        need ≤ t.ptr.preBytes ∧ t.ptr.curBytes = s.ptr.curBytes ∧ t.got = s.got ∧
        ∀ i < s.heap.block.size, t.heap.block.byte i = s.heap.block.byte i := by
  unfold grow
  split_ifs with hlt hbig
  · exact Or.inl rfl
  · obtain ⟨h',hr,hsize,hkept⟩ := s.heap.realloc_base need moved junk
    rw [h.head,hr]
    exact Or.inr ⟨_,rfl,rfl,hsize.symm,by simpa using hbig,le_rfl,rfl,rfl,hkept⟩
  · exact Or.inr ⟨s,rfl,h.head,h.pre,h.alloc,by omega,rfl,rfl,fun _ _ => rfl⟩

theorem step_write {s : Sys} (h : Rep s) (buf : List UInt8) (moved : Bool)
    (junk : ℕ → UInt8) :
    step s (.write buf moved junk) = .error .blocked ∨
      ∃ t, step s (.write buf moved junk) = .ok t ∧ Wrote s t buf := by
  have hunread := h.unread
  have hinside := h.inside
  have halloc := h.alloc
  have hpre := h.pre
  simp only [step,automWrite]
  by_cases hlong : ptrdiffMax < buf.length
  · exact Or.inl (by simp only [if_pos hlong])
  · have hmax : 2*ptrdiffMax+1 < sizeMod := by decide
    have hcur : sizeAdd s.ptr.curBytes buf.length = s.ptr.curBytes+buf.length :=
      sizeAdd_eq (by omega)
    have hneed : sizeAdd (s.ptr.curBytes+buf.length) 1 = s.ptr.curBytes+buf.length+1 :=
      sizeAdd_eq (by omega)
    have hnul : sizeSub (s.ptr.curBytes+buf.length+1) 1 = s.ptr.curBytes+buf.length :=
      sizeSub_eq (by omega) (by omega)
    simp only [if_neg hlong,hcur,hneed,hnul]
    rcases grow_rep h (s.ptr.curBytes+buf.length+1) moved junk with
      hb | ⟨u,hu,hhead,hsize,hle,hroom,hcu,hgot,hkept⟩
    · exact Or.inl (by simp only [hb])
    · right
      simp only [hu,hhead,hcu,hcur]
      rw [Heap.store_base (by omega)]
      simp only
      rw [show u.heap.base = Heap.base { u.heap with block := ⟨u.heap.block.size,
        patch u.heap.block.byte s.ptr.curBytes buf⟩ } from rfl]
      rw [Heap.store_base (by simp only [List.length_singleton]; omega)]
      refine ⟨_,rfl,⟨⟨⟨rfl,hsize,rfl,?_,?_⟩,hle⟩,rfl,?_,?_,rfl,hgot⟩⟩
      · simp
      · simp only [add_off,base_off]
        omega
      · simp
      · simp only [unread,add_off,base_off,Nat.zero_add,Nat.sub_self]
        rw [span_eq_iff (by simp)]
        intro k hk
        rw [Nat.zero_add,patch_outside (by omega)]
        by_cases hold : k < s.ptr.curBytes
        · rw [List.getElem?_append_left (by simpa using hold),patch_outside (by omega),
            hkept k (by omega)]
          have hcell := (span_eq_iff (span_length s.heap.block.byte 0 s.ptr.curBytes)).mp rfl k hold
          rwa [Nat.zero_add] at hcell
        · rw [List.getElem?_append_right (by simpa using hold),span_length,
            patch_inside (by omega) (by omega)]

structure Took (s t : Sys) (bytes : ℕ) : Prop where
  rep : Rep t
  cur : t.ptr.curBytes = s.ptr.curBytes-bytes
  unread : unread t = (unread s).drop bytes
  written : t.written = s.written
  got : t.got = s.got++(Autom.unread s).take bytes

theorem automRead_some {s : Sys} (h : Rep s) {bytes : ℕ} (hb : bytes ≤ s.ptr.curBytes) :
    automRead s bytes =
      .ok ({ s with ptr := { s.ptr with curBytes := s.ptr.curBytes-bytes } },
        some ⟨s.heap.id,s.ptr.tail.off-s.ptr.curBytes⟩) := by
  have hunread := h.unread
  have hinside := h.inside
  have halloc := h.alloc
  have hmax : 2*ptrdiffMax+1 < sizeMod := by decide
  have hsub : sizeSub s.ptr.curBytes bytes = s.ptr.curBytes-bytes := sizeSub_eq hb (by omega)
  rw [automRead,if_neg (by omega),if_neg (by omega),hsub,← h.tail]

theorem automRead_none {s : Sys} {bytes : ℕ} (hb : s.ptr.curBytes < bytes) :
    automRead s bytes = .ok (s,none) := if_pos hb

theorem step_read {s : Sys} (h : Rep s) {bytes : ℕ} (hb : bytes ≤ s.ptr.curBytes) :
    ∃ t, step s (.read bytes) = .ok t ∧ Took s t bytes := by
  have hunread := h.unread
  have hinside := h.inside
  have hpre := h.pre
  have hlook : s.heap.look ⟨s.heap.id,s.ptr.tail.off-s.ptr.curBytes⟩ bytes =
      .ok ((unread s).take bytes) := by
    rw [Heap.look,if_pos ⟨rfl,by simp only; omega⟩,unread,span_take hb]
  refine ⟨_,by simp only [step,automRead_some h hb,hlook]; rfl,?_⟩
  refine ⟨⟨⟨h.head,h.pre,h.tail,by simp only; omega,h.inside⟩,h.alloc⟩,rfl,?_,rfl,rfl⟩
  simp only [unread]
  apply (span_eq_iff (by simp)).mpr
  intro k hk
  rw [List.getElem?_drop,(span_eq_iff (span_length _ _ _)).mp rfl (bytes+k) (by omega)]
  congr 2
  omega

theorem step_read_none {s : Sys} {bytes : ℕ} (hb : s.ptr.curBytes < bytes) :
    step s (.read bytes) = .ok s := by
  simp only [step,automRead_none hb]

theorem automReset_spec {s : Sys} (h : Rep s) :
    automReset s = .ok { s with ptr := { s.ptr with curBytes := s.ptr.tail.off } } ∧
      Rep { s with ptr := { s.ptr with curBytes := s.ptr.tail.off } } := by
  have hinside := h.inside
  have halloc := h.alloc
  have hmax : 2*ptrdiffMax+1 < sizeMod := by decide
  have hsub : sizeSub s.ptr.tail.off s.ptr.head.off = s.ptr.tail.off := by
    rw [h.head,base_off,sizeSub_eq (Nat.zero_le _) (by omega),Nat.sub_zero]
  refine ⟨?_,⟨⟨h.head,h.pre,h.tail,le_rfl,h.inside⟩,h.alloc⟩⟩
  rw [automReset,if_pos (by rw [h.head]; exact h.tail),hsub]

/-- A `breset` below `pre_bytes` shortens the block, and `pre_bytes` is left as it was. -/
theorem automBreset_spec {s : Sys} (h : Rep s) (bytes : ℕ) (moved : Bool) (junk : ℕ → UInt8) :
    ∃ t, automBreset s bytes moved junk = .ok t ∧ (s.ptr.preBytes ≤ bytes → Rep t) ∧
      (bytes < s.ptr.preBytes →
        t.heap.block.size = bytes ∧ t.ptr.preBytes = s.ptr.preBytes) := by
  obtain ⟨hreset,hrep⟩ := automReset_spec h
  obtain ⟨h',hr,hsize,-⟩ := s.heap.realloc_base bytes moved junk
  simp only [automBreset,hreset]
  by_cases hlt : bytes < s.ptr.preBytes
  · rw [h.head,if_pos hlt,hr]
    exact ⟨_,rfl,fun hle => (by omega),fun _ => ⟨hsize,rfl⟩⟩
  · exact ⟨_,if_neg hlt,fun _ => hrep,fun hlt' => (hlt hlt').elim⟩

theorem automClear_spec {s : Sys} (h : Rep s) : ∃ t, automClear s = .ok t ∧ Rep t := by
  have hunread := h.unread
  have hinside := h.inside
  have hpre := h.pre
  have hbase : s.ptr.head = s.heap.base.add 0 := h.head
  have hlen : 0+(List.replicate s.ptr.curBytes (0 : UInt8)).length ≤ s.heap.block.size := by
    rw [List.length_replicate]
    omega
  have hst := Heap.store_base hlen
  rw [← hbase] at hst
  simp only [automClear,hst]
  refine ⟨_,rfl,⟨⟨h.head,h.pre,?_,Nat.zero_le _,?_⟩,h.alloc⟩⟩
  · simp only [h.head,base_block]
  · simp only [h.head,base_off,Nat.zero_le]

/-- The block is never made shorter than `pre_bytes`. -/
def Fits (s : Sys) : Op → Prop
  | .breset bytes _ _ => s.ptr.preBytes ≤ bytes
  | _ => True

def Kept (s : Sys) (op : Op) : Prop :=
  step s op ≠ .error .fault ∧ ∀ t, step s op = .ok t → Intact t

instance (s : Sys) : DecidablePred (Fits s)
  | .breset bytes _ _ => inferInstanceAs (Decidable (s.ptr.preBytes ≤ bytes))
  | .write _ _ _ | .read _ | .reset | .clear => .isTrue trivial

theorem step_rep {s : Sys} (h : Rep s) {op : Op} (hf : Fits s op) : Keeps step Rep s op := by
  cases op with
  | write buf moved junk =>
    rcases step_write h buf moved junk with hb | ⟨t,ht,hw⟩
    · exact Or.inl hb
    · exact Or.inr ⟨t,ht,hw.rep⟩
  | read bytes =>
    right
    by_cases hb : bytes ≤ s.ptr.curBytes
    · obtain ⟨t,ht,hr⟩ := step_read h hb
      exact ⟨t,ht,hr.rep⟩
    · exact ⟨s,step_read_none (not_le.mp hb),h⟩
  | reset => exact Or.inr ⟨_,(automReset_spec h).1,(automReset_spec h).2⟩
  | breset bytes moved junk =>
    obtain ⟨t,ht,hrep,-⟩ := automBreset_spec h bytes moved junk
    exact Or.inr ⟨t,ht,hrep hf⟩
  | clear => exact Or.inr (automClear_spec h)

theorem kept_iff {s : Sys} (h : Rep s) (op : Op) : Kept s op ↔ Fits s op := by
  constructor
  · rintro ⟨-,hall⟩
    cases op with
    | breset bytes moved junk =>
      by_contra hlt
      obtain ⟨t,ht,-,hsmall⟩ := automBreset_spec h bytes moved junk
      obtain ⟨hsize,hpre⟩ := hsmall (not_le.mp hlt)
      have heq := (hall t ht).pre
      simp only [Fits] at hlt
      omega
    | _ => trivial
  · intro hf
    have hkeeps := step_rep h hf
    exact ⟨hkeeps.safe,fun t ht => (hkeeps.of_ok ht).toIntact⟩

/-- Every operation of a run keeps the fields and stays inside the block exactly when no
`breset` of the run is below `pre_bytes`. -/
theorem intact_iff {preBytes : ℕ} {s : Sys} (hs : automCreate preBytes = some s)
    (ops : List Op) : Along step Kept s ops ↔ Along step Fits s ops := by
  exact along_iff_of_invariant Rep (fun u op h => kept_iff h op)
    (fun u op v h hf hv => (step_rep h hf).of_ok hv) (create_rep hs)

def bufferOfFour : Sys :=
  { ptr := ⟨4,0,⟨0,0⟩,⟨0,0⟩⟩, heap := ⟨0,4,fun _ => 0⟩, written := [], got := [] }

def roomyOps : List Op :=
  [.write [1,2,3,4] true (fun _ => 0),.read 1,.breset 9 true (fun _ => 0),.clear,.reset]

theorem intact_iff_four : Along step Kept bufferOfFour roomyOps := by
  have hs : automCreate 4 = some bufferOfFour := rfl
  exact (intact_iff hs roomyOps).mpr (by decide +kernel)

/-- A block of four bytes made shorter: `pre_bytes` stays 4. -/
theorem breset_shortens :
    automCreate 4 = some bufferOfFour ∧
    ¬ Along step Kept bufferOfFour [.breset 2 false (fun _ => 0)] := by
  refine ⟨rfl,?_⟩
  rintro ⟨⟨-,hall⟩,-⟩
  have hpre := (hall _ rfl).pre
  cases hpre

def Transfers (_ : Sys) : Op → Prop
  | .write _ _ _ | .read _ => True
  | _ => False

def Appends (s : Sys) : Op → Prop
  | .write _ _ _ => unread s = span s.heap.block.byte 0 s.ptr.curBytes
  | .read _ => True
  | _ => False

instance (s : Sys) : DecidablePred (Transfers s)
  | .write _ _ _ | .read _ => .isTrue trivial
  | .reset | .breset _ _ _ | .clear => .isFalse id

instance (s : Sys) : DecidablePred (Appends s)
  | .write _ _ _ => inferInstanceAs (Decidable (_ = _))
  | .read _ => .isTrue trivial
  | .reset | .breset _ _ _ | .clear => .isFalse id

def Succeeds (s : Sys) (bytes : ℕ) : Prop := ∃ t ri, automRead s bytes = .ok (t,some ri)

theorem succeeds_iff {s : Sys} (h : Rep s) {bytes : ℕ} :
    Succeeds s bytes ↔ bytes ≤ s.ptr.curBytes := by
  constructor
  · rintro ⟨t,ri,hr⟩
    by_contra hlt
    rw [automRead_none (not_le.mp hlt)] at hr
    cases hr
  · intro hb
    exact ⟨_,_,automRead_some h hb⟩

/-- What has been written and not read is counted right, whatever it is. -/
structure Counted (s : Sys) : Prop extends Rep s where
  count : s.got.length+s.ptr.curBytes = s.written.length

@[simp] theorem unread_length (s : Sys) : (unread s).length = s.ptr.curBytes := span_length _ _ _

theorem step_counted {s : Sys} (h : Counted s) {op : Op} (ht : Transfers s op) :
    Keeps step Counted s op := by
  have hcount := h.count
  cases op with
  | write buf moved junk =>
    rcases step_write h.toRep buf moved junk with hb | ⟨t,ht,hw⟩
    · exact Or.inl hb
    · refine Or.inr ⟨t,ht,hw.rep,?_⟩
      rw [hw.cur,hw.written,hw.got,List.length_append]
      omega
  | read bytes =>
    right
    by_cases hb : bytes ≤ s.ptr.curBytes
    · obtain ⟨t,ht,hr⟩ := step_read h.toRep hb
      refine ⟨t,ht,hr.rep,?_⟩
      rw [hr.cur,hr.written,hr.got,List.length_append,List.length_take,unread_length]
      omega
    · exact ⟨s,step_read_none (not_le.mp hb),h⟩
  | _ => exact ht.elim

/-- The unread bytes are the ones written and not yet read. -/
structure Delivers (s : Sys) : Prop extends Rep s where
  content : s.got++Autom.unread s = s.written

theorem Delivers.counted {s : Sys} (h : Delivers s) : Counted s :=
  ⟨h.toRep,by rw [← h.content,List.length_append,unread_length]⟩

theorem step_delivers {s : Sys} (h : Delivers s) {op : Op} (ha : Appends s op) :
    Keeps step Delivers s op := by
  cases op with
  | write buf moved junk =>
    rcases step_write h.toRep buf moved junk with hb | ⟨t,ht,hw⟩
    · exact Or.inl hb
    · refine Or.inr ⟨t,ht,hw.rep,?_⟩
      have hfront : unread s = span s.heap.block.byte 0 s.ptr.curBytes := ha
      rw [hw.got,hw.unread,hw.written,← hfront,← List.append_assoc,h.content]
  | read bytes =>
    right
    by_cases hb : bytes ≤ s.ptr.curBytes
    · obtain ⟨t,ht,hr⟩ := step_read h.toRep hb
      refine ⟨t,ht,hr.rep,?_⟩
      rw [hr.got,hr.unread,hr.written,List.append_assoc,List.take_append_drop,h.content]
    · exact ⟨s,step_read_none (not_le.mp hb),h⟩
  | _ => exact ha.elim

theorem create_delivers {preBytes : ℕ} {s : Sys} (hs : automCreate preBytes = some s) :
    Delivers s := by
  have hrep := create_rep hs
  unfold automCreate at hs
  split_ifs at hs
  cases hs
  exact ⟨hrep,rfl⟩

/-- After any other write a read of everything does not give the bytes written. -/
theorem write_breaks {s : Sys} (h : Delivers s) {buf : List UInt8} {moved : Bool}
    {junk : ℕ → UInt8} (hbad : ¬ Appends s (.write buf moved junk)) :
    step s (.write buf moved junk) = .error .blocked ∨
      ∃ t, exec step s [.write buf moved junk,.read (s.ptr.curBytes+buf.length)] = .ok t ∧
        ¬ t.got <+: t.written := by
  rcases step_write h.toRep buf moved junk with hb | ⟨t,ht,hw⟩
  · exact Or.inl hb
  · right
    have hcur := hw.cur
    obtain ⟨u,hu,hr⟩ := step_read hw.rep (show s.ptr.curBytes+buf.length ≤ t.ptr.curBytes by omega)
    refine ⟨u,exec_cons_ok.mpr ⟨t,ht,exec_cons_ok.mpr ⟨u,hu,rfl⟩⟩,?_⟩
    rw [hr.got,hr.written,hw.got,hw.written,hw.unread,← h.content,List.append_assoc,
      List.prefix_append_right_inj,List.take_of_length_le (by simp)]
    intro hpre
    have heq := hpre.eq_of_length (by simp)
    exact hbad (List.append_cancel_right heq).symm

/-- Reads succeed on what has been written and not read, in every run. In runs whose writes all
append, what they give is a prefix of what was written; after such a run, any other write
breaks that. -/
theorem autom_fifo {preBytes : ℕ} {s : Sys} (hs : automCreate preBytes = some s) :
    (∀ ops, Along step Transfers s ops → exec step s ops ≠ .error .fault ∧
      ∀ t, exec step s ops = .ok t →
        ∀ bytes, Succeeds t bytes ↔ bytes ≤ t.written.length-t.got.length) ∧
    (∀ ops, Along step Appends s ops →
      ∀ t, exec step s ops = .ok t → t.got <+: t.written) ∧
    ∀ ops t buf moved junk, Along step Appends s ops → exec step s ops = .ok t →
      ¬ Appends t (.write buf moved junk) →
      step t (.write buf moved junk) = .error .blocked ∨
        ∃ u, exec step t [.write buf moved junk,.read (t.ptr.curBytes+buf.length)] = .ok u ∧
          ¬ u.got <+: u.written := by
  have hdel := create_delivers hs
  have hcounted := fun u op (hu : Counted u) (ht : Transfers u op) => step_counted hu ht
  have hdelivers := fun u op (hu : Delivers u) (ha : Appends u op) => step_delivers hu ha
  refine ⟨?_,?_,?_⟩
  · intro ops ha
    obtain ⟨hsafe,hinv⟩ := exec_keeps Counted hcounted hdel.counted ha
    refine ⟨hsafe,?_⟩
    intro t ht bytes
    have hcount := (hinv t ht).count
    rw [succeeds_iff (hinv t ht).toRep]
    omega
  · intro ops ha t ht
    exact ⟨unread t,((exec_keeps Delivers hdelivers hdel ha).2 t ht).content⟩
  · intro ops t buf moved junk ha ht hbad
    exact write_breaks ((exec_keeps Delivers hdelivers hdel ha).2 t ht) hbad

def emptiedOps : List Op :=
  [.write [1,2,3] false (fun _ => 0),.read 1,.read 2,.write [4,5] true (fun _ => 0),.read 1]

theorem autom_fifo_four :
    ∃ s, exec step bufferOfFour emptiedOps = .ok s ∧ s.got <+: s.written ∧
      s.got = [1,2,3,4] ∧ s.written = [1,2,3,4,5] := by
  have hs : automCreate 4 = some bufferOfFour := rfl
  have hrun := (autom_fifo hs).2.1 emptiedOps (by decide +kernel)
  obtain ⟨s,hx,hlogs⟩ : ∃ s, exec step bufferOfFour emptiedOps = .ok s ∧
      (s.got,s.written) = ([1,2,3,4],[1,2,3,4,5]) :=
    observe_eq_some.mp (by decide +kernel)
  exact ⟨s,hx,hrun s hx,congrArg Prod.fst hlogs,congrArg Prod.snd hlogs⟩

def halfReadOps : List Op :=
  [.write [1,2,3] false (fun _ => 0),.read 1,.write [4] true (fun _ => 0),.read 3]

theorem halfRead_breaks :
    automCreate 4 = some bufferOfFour ∧
    ∃ s, exec step bufferOfFour halfReadOps = .ok s ∧ s.written = [1,2,3,4] ∧
      s.got = [1,1,2,4] ∧ ¬ s.got <+: s.written := by
  obtain ⟨s,hx,hlogs⟩ : ∃ s, exec step bufferOfFour halfReadOps = .ok s ∧
      (s.got,s.written) = ([1,1,2,4],[1,2,3,4]) :=
    observe_eq_some.mp (by decide +kernel)
  obtain ⟨hg,hw⟩ := Prod.mk.inj hlogs
  exact ⟨rfl,s,hx,hw,hg,by rw [hg,hw]; decide⟩

end Autom
end PcEnv
