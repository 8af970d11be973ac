import PcEnv.CsrbClear

/-! Where the indices of `csrb` and `shrb` can be.
A producer and a consumer with a transaction each, whose steps may interleave; the ring is cleared
only while no transaction is open. -/
namespace PcEnv
namespace RingIndices

open Runs Word Circular Csrb RingClear

/-- The second argument is not used. -/
def shrbClear (r : Ring) (_side : UInt8) : Ring :=
  { r with wi := 0, ri := 0, contex := 0, empty := r.capacity }

def clear : Api → Ring → UInt8 → Ring
  | .csrb => csrbClear
  | .shrb => shrbClear

def step (api : Api) (s : CsrbSys) : CsrbEvent → Except Halt CsrbSys
  | .writeQuery size =>
    match s.prod with
    | .idle =>
      match api.writeQuery s.ring size with
      | some a => .ok { s with prod := .holding size a }
      | none => .ok s
    | .holding _ _ => .error .blocked
  | .fill i v =>
    match s.prod with
    | .idle => .error .blocked
    | .holding size a =>
      if i < size then
        match Csrb.fill s.ring (a+i) [v] with
        | .ok r => .ok { s with ring := r }
        | .error h => .error h
      else .error .blocked
  | .writeSync =>
    match s.prod with
    | .idle => .error .blocked
    | .holding size _ =>
      match api.writeSync s.ring size with
      | .ok r => .ok { s with ring := r, prod := .idle }
      | .error h => .error h
  | .readQuery size =>
    match s.cons with
    | .idle =>
      match api.readQuery s.ring size with
      | some a => .ok { s with cons := .holding size a }
      | none => .ok s
    | .holding _ _ => .error .blocked
  | .look i =>
    match s.cons with
    | .idle => .error .blocked
    | .holding size a =>
      if i < size then if a+i < 2*s.ring.capacity then .ok s else .error .fault
      else .error .blocked
  | .readSync =>
    match s.cons with
    | .idle => .error .blocked
    | .holding size _ => .ok { s with ring := api.readSync s.ring size, cons := .idle }
  | .clear side => .ok { s with ring := clear api s.ring side }

/-- No transaction is open when the ring is cleared. -/
def QuietClear (s : CsrbSys) : CsrbEvent → Prop
  | .clear _ => s.prod = .idle ∧ s.cons = .idle
  | _ => True

instance (s : CsrbSys) : DecidablePred (QuietClear s)
  | .clear _ => inferInstanceAs (Decidable (_ ∧ _))
  | .writeQuery _ | .fill _ _ | .writeSync | .readQuery _ | .look _ | .readSync => .isTrue trivial

/-- The indices of `head` in `for (; i < bound; i++) head[dst+i] = head[src+i]`. -/
def copyIndices (dst src i bound : ℕ) : List ℕ :=
  (List.range (bound-i)).flatMap (fun k => [dst+(i+k),src+(i+k)])

def mirrorIndices (r : Ring) (size : ℕ) : List ℕ :=
  let i := intOf r.wi
  if sizeAdd i size < r.capacity then copyIndices r.capacity 0 i size
  else copyIndices r.capacity 0 i (sizeSub r.capacity r.wi)++
    copyIndices 0 r.capacity 0 (sizeSub size (sizeSub r.capacity r.wi))

/-- The indices and counters of a ring of `c` bytes fit together, and what a query has answered
and what `write_sync` is to copy lie in the `2*c` bytes behind `head`. -/
structure Inside (c : ℕ) (s : CsrbSys) : Prop where
  capacity : s.ring.capacity = c
  wiLt : s.ring.wi < c
  riLt : s.ring.ri < c
  books : s.ring.contex+s.ring.empty = c
  congr : s.ring.wi ≡ s.ring.ri+s.ring.contex [MOD c]
  writeWindow : ∀ n a, s.prod = .holding n a → a+n ≤ 2*c
  readWindow : ∀ m a, s.cons = .holding m a → a+m ≤ 2*c
  loops : ∀ n a, s.prod = .holding n a → ∀ j ∈ mirrorIndices s.ring n, j < 2*c

/-- Both rings take the same steps. -/
theorem step_eq (api : Api) : step api = csrbStep := by
  funext s e
  cases api <;> cases e <;> rfl

/-- What a query has answered is still so when its transaction goes on. -/
structure Inv (c : ℕ) (s : CsrbSys) : Prop where
  placed : Placed s.ring
  capacity : s.ring.capacity = c
  small : c ≤ intMax
  prod : ∀ n a, s.prod = .holding n a → n ≤ s.ring.empty ∧ a = s.ring.wi
  cons : ∀ m a, s.cons = .holding m a → m ≤ s.ring.contex ∧ a = s.ring.ri

theorem books_of_placed {r : Ring} (h : Placed r) :
    Books r.capacity r.ri r.wi r.contex r.empty := by
  have hbk := h.books
  exact ⟨by omega,by omega,hbk,h.wiLt,h.riLt⟩

section

variable {c n m : ℕ} {s : CsrbSys} {r : Ring}

theorem copyIndices_lt {dst src i bound : ℕ} (hd : dst+bound ≤ 2*c) (hs : src+bound ≤ 2*c) :
    ∀ j ∈ copyIndices dst src i bound, j < 2*c := by
  intro j hj
  simp only [copyIndices,List.mem_flatMap,List.mem_range,List.mem_cons,List.not_mem_nil,
    or_false] at hj
  obtain ⟨k,hk,rfl | rfl⟩ := hj <;> omega

theorem mirrorIndices_lt (h : Placed r) (hsmall : r.capacity ≤ intMax) (hn : n ≤ r.empty) :
    ∀ j ∈ mirrorIndices r n, j < 2*r.capacity := by
  have hwi := h.wiLt
  have hbk := h.books
  have hmax := h.capLt
  have hi : intOf r.wi = r.wi := intOf_eq (by omega)
  have hadd : sizeAdd r.wi n = r.wi+n := sizeAdd_eq (by omega)
  have hsub : sizeSub r.capacity r.wi = r.capacity-r.wi := sizeSub_eq (by omega) (by omega)
  simp only [mirrorIndices,hi,hadd,hsub]
  split_ifs with hlt
  · exact copyIndices_lt (by omega) (by omega)
  · have hrest : sizeSub n (r.capacity-r.wi) = n-(r.capacity-r.wi) :=
      sizeSub_eq (by omega) (by omega)
    rw [hrest]
    intro j hj
    rcases List.mem_append.mp hj with hj | hj
    · exact copyIndices_lt (by omega) (by omega) j hj
    · exact copyIndices_lt (by omega) (by omega) j hj

theorem Inv.inside (h : Inv c s) : Inside c s := by
  obtain ⟨hplaced,rfl,hsmall,hprod,hcons⟩ := h
  have hbk := hplaced.books
  have hwi := hplaced.wiLt
  have hri := hplaced.riLt
  refine ⟨rfl,hwi,hri,hbk,?_,?_,?_,?_⟩
  · rw [hplaced.wiEq]
    exact slot_modEq _ _ _
  · intro n a hp
    obtain ⟨hn,rfl⟩ := hprod n a hp
    omega
  · intro m a hc
    obtain ⟨hm,rfl⟩ := hcons m a hc
    omega
  · intro n a hp
    exact mirrorIndices_lt hplaced hsmall (hprod n a hp).1

theorem Inv.csrbInv (h : Inv c s) : CsrbInv s := by
  have hbooks := books_of_placed h.placed
  refine ⟨hbooks,h.placed.capLe,?_,?_⟩
  · intro n a hp
    obtain ⟨hn,rfl⟩ := h.prod n a hp
    exact ⟨hn,hbooks.wiLt⟩
  · intro m a hcs
    obtain ⟨hm,rfl⟩ := h.cons m a hcs
    exact ⟨hm.trans hbooks.contexLe,hbooks.riLt⟩

theorem Inv.fits (h : Inv c s) (e : CsrbEvent) : CsrbFits s e := by
  have hbooks := books_of_placed h.placed
  cases e with
  | writeSync =>
    cases hp : s.prod with
    | idle => simp only [CsrbFits,hp]
    | holding n a =>
      have hn := (h.prod n a hp).1.trans hbooks.emptyLe
      simpa only [CsrbFits,hp] using
        counterFits_of_small hbooks.wiLt hn (h.capacity.trans_le h.small)
  | readSync =>
    cases hcs : s.cons with
    | idle => simp only [CsrbFits,hcs]
    | holding m a => simpa only [CsrbFits,hcs] using (h.cons m a hcs).1
  | _ => trivial

theorem Inv.moved (h : Inv c s) {e : CsrbEvent} {t : CsrbSys} (hm : CsrbMoved s e t)
    (hq : QuietClear s e) : Inv c t := by
  obtain ⟨hplaced,hcap,hsmall,hprod,hcons⟩ := h
  cases hm with
  | reserved n hp hn =>
    refine ⟨hplaced,hcap,hsmall,?_,hcons⟩
    rintro _ _ ⟨⟩
    exact ⟨hn,rfl⟩
  | full | short | looked => exact ⟨hplaced,hcap,hsmall,hprod,hcons⟩
  | filled => exact ⟨⟨hplaced.toIndexed,hplaced.capLe⟩,hcap,hsmall,hprod,hcons⟩
  | committed n a head hp hn =>
    refine ⟨⟨hplaced.toIndexed.commit hn,hplaced.capLe⟩,hcap,hsmall,by simp,?_⟩
    -- the bytes that the consumer holds are still there
    intro m b hcs
    obtain ⟨hm,hb⟩ := hcons m b hcs
    exact ⟨hm.trans (Nat.le_add_right _ _),hb⟩
  | held m hcs hm =>
    refine ⟨hplaced,hcap,hsmall,hprod,?_⟩
    rintro _ _ ⟨⟩
    exact ⟨hm,rfl⟩
  | released m a hcs hm =>
    refine ⟨⟨hplaced.toIndexed.release hm,hplaced.capLe⟩,hcap,hsmall,?_,by simp⟩
    intro n b hp
    obtain ⟨hn,hb⟩ := hprod n b hp
    exact ⟨hn.trans (Nat.le_add_right _ _),hb⟩
  | cleared side =>
    obtain ⟨hp,hcs⟩ := hq
    refine ⟨⟨Indexed.start (Nat.zero_lt_of_lt hplaced.riLt),hplaced.capLe⟩,hcap,hsmall,?_,?_⟩
    · simp [hp]
    · simp [hcs]

theorem step_keeps (e : CsrbEvent) (h : Inv c s) (hq : QuietClear s e) :
    Keeps csrbStep (Inv c) s e :=
  (csrbStep_moved h.csrbInv (h.fits e)).mono (fun _ hm => h.moved hm hq)

end

/-- Rings of at most `INT_MAX` bytes, over whatever their memory holds: in every state of every
run in which no transaction is open at a clear, the indices are in their bounds, and no step
leaves the memory. -/
theorem indices_inside (api : Api) {size : ℕ} (hs : 1 ≤ size) (hsmall : size ≤ intMax)
    (head : ℕ → UInt8) :
    ∃ r, api.create size = some r ∧
      ∀ events, Along (step api) QuietClear ⟨{ r with head := head },.idle,.idle⟩ events →
        exec (step api) ⟨{ r with head := head },.idle,.idle⟩ events ≠ .error .fault ∧
        ∀ s, exec (step api) ⟨{ r with head := head },.idle,.idle⟩ events = .ok s →
          Inside size s := by
  have hmax : 2*intMax ≤ ptrdiffMax := by decide
  have hcreate : create size = some _ := if_pos (by omega)
  have hstart : Inv size ⟨⟨0,0,0,size,head,size⟩,.idle,.idle⟩ :=
    ⟨⟨Indexed.start hs,by simp only; omega⟩,rfl,hsmall,by simp,by simp⟩
  refine ⟨_,by cases api <;> exact hcreate,?_⟩
  rw [step_eq api]
  intro events ha
  obtain ⟨hsafe,hinv⟩ := exec_keeps (Inv size) (fun u e hu hq => step_keeps e hu hq) hstart ha
  exact ⟨hsafe,fun s hx => (hinv s hx).inside⟩

def overlapping : List CsrbEvent :=
  [.writeQuery 3,.fill 0 7,.writeSync,.readQuery 2,.writeQuery 1,.look 1,.writeSync,.readSync,
    .clear 0,.writeQuery 4,.writeSync]

theorem indices_inside_four :
    ∃ s, exec (step .shrb) ⟨ringOfFour,.idle,.idle⟩ overlapping = .ok s ∧ Inside 4 s ∧
      s.ring.wi = 0 ∧ s.ring.contex = 4 := by
  obtain ⟨r,hr,hall⟩ := indices_inside .shrb (by decide : 1 ≤ 4) (by decide) (fun _ => 0)
  cases hr
  obtain ⟨-,hin⟩ := hall overlapping (by decide +kernel)
  obtain ⟨s,hs,ho⟩ : ∃ s, exec (step .shrb) ⟨ringOfFour,.idle,.idle⟩ overlapping = .ok s ∧
      (s.ring.wi,s.ring.contex) = (0,4) := observe_eq_some.mp (by decide +kernel)
  exact ⟨s,hs,hin s hs,congrArg Prod.fst ho,congrArg Prod.snd ho⟩

end RingIndices
end PcEnv
