import Mathlib.Data.List.ReduceOption
import PcEnv.Ccsrb

/-! One producer and one consumer of a `ccsrb` ring, step by step.
A query's decision and a sync are one step each; filling a chunk, gathering `rcm` and copying
out of a chunk go byte by byte, in any interleaving. -/
namespace PcEnv
namespace Ccsrb

open Runs Word Circular

inductive Producer
  | idle
  | filling (size : ℕ) (addr : Addr) (filled : List (Option UInt8))
  deriving DecidableEq

inductive Consumer
  | idle
  | gathering (size done : ℕ)
  | reading (size : ℕ) (addr : Addr) (done : ℕ)
  deriving DecidableEq

/-- The ring, both parties, the bytes committed and the bytes copied out since the last clear. -/
structure Sys where
  ring : Ring
  prod : Producer
  cons : Consumer
  sent : List UInt8
  obtained : List UInt8

def start (r : Ring) : Sys := ⟨r,.idle,.idle,[],[]⟩

inductive Event
  | writeQuery (size : ℕ) (junk : ℕ → UInt8)
  | fill (i : ℕ) (v : UInt8)
  | writeSync (size : ℕ)
  | readQuery (size : ℕ)
  | gather
  | copy
  | readSync
  | clear

/-- A query that answers `NULL` leaves its party idle, to ask again. A commit needs its first
`size` bytes filled, in whatever order that was done. -/
def step (s : Sys) : Event → Except Halt Sys
  | .writeQuery size junk =>
    match s.prod with
    | .idle =>
      match writeQuery junk s.ring size with
      | (r,some a) =>
        .ok { s with ring := r, prod := .filling size a (List.replicate size none) }
      | (r,none) => .ok { s with ring := r }
    | .filling _ _ _ => .error .blocked
  | .fill i v =>
    match s.prod with
    | .idle => .error .blocked
    | .filling size a filled =>
      if i < size then
        match storeAt s.ring a i v with
        | .ok r => .ok { s with ring := r, prod := .filling size a (filled.set i (some v)) }
        | .error h => .error h
      else .error .blocked
  | .writeSync size =>
    match s.prod with
    | .idle => .error .blocked
    | .filling n _ filled =>
      if size ≤ n ∧ (filled.take size).all Option.isSome then
        match writeSync s.ring size with
        | .ok r =>
          .ok { s with ring := r, prod := .idle,
                       sent := s.sent++(filled.take size).reduceOption }
        | .error h => .error h
      else .error .blocked
  | .readQuery size =>
    match s.cons with
    | .idle =>
      match readQuery s.ring size with
      | (r,some .rcm) => .ok { s with ring := r, cons := .gathering size 0 }
      | (r,some a) => .ok { s with ring := r, cons := .reading size a 0 }
      | (r,none) => .ok { s with ring := r }
    | _ => .error .blocked
  | .gather =>
    match s.cons with
    | .gathering size done =>
      if done < size then
        match gather s.ring done with
        | .ok r => .ok { s with ring := r, cons := .gathering size (done+1) }
        | .error h => .error h
      else .ok { s with cons := .reading size .rcm 0 }
    | _ => .error .blocked
  | .copy =>
    match s.cons with
    | .reading size a done =>
      if done < size then
        match loadAt s.ring a done with
        | .ok v => .ok { s with cons := .reading size a (done+1), obtained := s.obtained++[v] }
        | .error h => .error h
      else .error .blocked
    | _ => .error .blocked
  | .readSync =>
    match s.cons with
    | .reading size _ done =>
      if done = size then .ok { s with ring := readSync s.ring size, cons := .idle }
      else .error .blocked
    | _ => .error .blocked
  | .clear => .ok { s with ring := clear s.ring, sent := [], obtained := [] }

/-- The ring is cleared only between transactions. -/
def QuietClear (s : Sys) : Event → Prop
  | .clear => s.prod = .idle ∧ s.cons = .idle
  | _ => True

instance (s : Sys) : DecidablePred (QuietClear s)
  | .clear => inferInstanceAs (Decidable (_ ∧ _))
  | .writeQuery _ _ | .fill _ _ | .writeSync _ | .readQuery _ | .gather | .copy | .readSync =>
    .isTrue trivial

def FullCommit (s : Sys) : Event → Prop
  | .clear => False
  | .writeSync size =>
    match s.prod with
    | .idle => True
    | .filling n _ _ => size = n
  | _ => True

instance (s : Sys) : DecidablePred (FullCommit s)
  | .clear => inferInstanceAs (Decidable False)
  | .writeSync size =>
    match h : s.prod with
    | .idle => .isTrue (by simp only [FullCommit,h])
    | .filling n _ _ => decidable_of_iff (size = n) (by simp only [FullCommit,h])
  | .writeQuery _ _ | .fill _ _ | .readQuery _ | .gather | .copy | .readSync => .isTrue trivial

inductive ProducerOk (r : Ring) : Producer → Prop
  | idle (hwcm : r.wcm = none) : ProducerOk r .idle
  | filling {n : ℕ} {a : Addr} {filled : List (Option UInt8)} (hn : n ≤ r.empty)
      (hl : filled.length = n) (hres : Reserved r n filled a) :
      ProducerOk r (.filling n a filled)

/-- `taken` are the bytes of the consumer's finished transactions. -/
inductive ConsumerOk (r : Ring) (taken obtained : List UInt8) : Consumer → Prop
  | idle (hrcm : r.rcm = none) (ho : obtained = taken) : ConsumerOk r taken obtained .idle
  | gathering {m j : ℕ} (hm : m ≤ r.contex) (hj : j ≤ m) (hheld : Held r m j .rcm)
      (ho : obtained = taken) : ConsumerOk r taken obtained (.gathering m j)
  | reading {m j : ℕ} {a : Addr} (hm : m ≤ r.contex) (hj : j ≤ m) (hheld : Held r m m a)
      (ho : obtained = taken++(fifo r).take j) : ConsumerOk r taken obtained (.reading m a j)

structure Inv (c : ℕ) (taken : List UInt8) (s : Sys) : Prop where
  cap : s.ring.cBytes = c
  placed : Placed s.ring
  sent : s.sent = taken++fifo s.ring
  prod : ProducerOk s.ring s.prod
  cons : ConsumerOk s.ring taken s.obtained s.cons

theorem Held.mono {r r' : Ring} {m j : ℕ} {a : Addr} (hri : r'.ri = r.ri)
    (hc : r'.cBytes = r.cBytes) (hrcm : r'.rcm = r.rcm) (hf : fifo r <+: fifo r')
    (h : Held r m j a) : Held r' m j a := by
  cases h with
  | direct hrcm₀ hin =>
    rw [← hri]
    exact .direct j (hrcm.trans hrcm₀) (by omega)
  | block b hrcm₀ hsize hout hcell =>
    refine .block j b (hrcm.trans hrcm₀) hsize (by omega) ?_
    intro k hk
    obtain ⟨more,hmore⟩ := hf
    have hcell' := hcell k hk
    have hlt : k < (fifo r).length := (List.getElem?_eq_some_iff.mp hcell').1
    rw [← hmore,List.getElem?_append_left hlt,hcell']

/-- The producer's steps only add to the content, so the consumer keeps what it holds. -/
theorem ConsumerOk.mono {r r' : Ring} {taken obtained : List UInt8} {cons : Consumer}
    (hri : r'.ri = r.ri) (hc : r'.cBytes = r.cBytes) (hrcm : r'.rcm = r.rcm)
    (hf : fifo r <+: fifo r') (h : ConsumerOk r taken obtained cons) :
    ConsumerOk r' taken obtained cons := by
  have hlen := hf.length_le
  simp only [fifo_length] at hlen
  cases h with
  | idle hrcm₀ ho => exact .idle (hrcm.trans hrcm₀) ho
  | gathering hm hj hheld ho => exact .gathering (by omega) hj (hheld.mono hri hc hrcm hf) ho
  | @reading m j a hm hj hheld ho =>
    refine .reading (by omega) hj (hheld.mono hri hc hrcm hf) ?_
    obtain ⟨more,hmore⟩ := hf
    rw [← hmore,List.take_append_of_le_length (by rw [fifo_length]; omega)]
    exact ho

theorem Reserved.mono {r r' : Ring} {n : ℕ} {filled : List (Option UInt8)} {a : Addr}
    (hwi : r'.wi = r.wi) (hc : r'.cBytes = r.cBytes) (hwcm : r'.wcm = r.wcm)
    (hmm : r'.mm = r.mm) (h : Reserved r n filled a) : Reserved r' n filled a := by
  cases h with
  | direct hwcm₀ hin hcell =>
    rw [← hwi]
    exact .direct (hwcm.trans hwcm₀) (by omega) (by rw [hwi,hmm]; exact hcell)
  | block w hwcm₀ hsize hout hcell =>
    exact .block w (hwcm.trans hwcm₀) hsize (by omega) hcell

/-- The consumer's steps only add room, so the producer keeps what it reserved. -/
theorem ProducerOk.mono {r r' : Ring} {prod : Producer} (hwi : r'.wi = r.wi)
    (hc : r'.cBytes = r.cBytes) (hwcm : r'.wcm = r.wcm) (hmm : r'.mm = r.mm)
    (he : r.empty ≤ r'.empty) (h : ProducerOk r prod) : ProducerOk r' prod := by
  cases h with
  | idle hwcm₀ => exact .idle (hwcm.trans hwcm₀)
  | filling hn hl hres => exact .filling (by omega) hl (hres.mono hwi hc hwcm hmm)

/-- An event is not enabled, or leads to a state of the invariant. -/
def Keeps (c : ℕ) (s : Sys) (e : Event) : Prop :=
  step s e = .error .blocked ∨ ∃ t taken, step s e = .ok t ∧ Inv c taken t

variable {c : ℕ} {taken : List UInt8} {s : Sys}

theorem writeQuery_keeps (h : Inv c taken s) (size : ℕ) (junk : ℕ → UInt8) :
    Keeps c s (.writeQuery size junk) := by
  cases hp : s.prod with
  | filling n a filled => exact Or.inl (by simp only [step,hp])
  | idle =>
    right
    have hprod := h.prod
    rw [hp] at hprod
    cases hprod with
    | idle hwcm =>
      rcases hq : writeQuery junk s.ring size with ⟨r,_ | a⟩
      · have hr : r = s.ring := by
          unfold writeQuery at hq
          split_ifs at hq <;> cases hq
          rfl
        refine ⟨{ s with ring := r },taken,by simp only [step,hp,hq],?_⟩
        rw [hr]
        exact h
      · obtain ⟨hn,hres,hr⟩ := writeQuery_reserved h.placed hwcm hq
        refine ⟨{ s with ring := r, prod := .filling size a (List.replicate size none) },taken,
          by simp only [step,hp,hq],?_⟩
        rw [hr] at hres ⊢
        obtain ⟨hcap,⟨h₁,h₂,h₃⟩,hsent,-,hcons⟩ := h
        exact ⟨hcap,⟨h₁,h₂,h₃⟩,hsent,.filling hn List.length_replicate hres,
          ConsumerOk.mono (r:=s.ring) rfl rfl rfl List.prefix_rfl hcons⟩

theorem fill_keeps (h : Inv c taken s) (i : ℕ) (v : UInt8) : Keeps c s (.fill i v) := by
  cases hp : s.prod with
  | idle => exact Or.inl (by simp only [step,hp])
  | filling n a filled =>
    by_cases hi : i < n
    · right
      have hprod := h.prod
      rw [hp] at hprod
      cases hprod with
      | filling hn hl hres =>
        obtain ⟨mm,wcm,hst,hsz,hf,hres'⟩ := storeAt_reserved v h.placed hn hl hi hres
        refine ⟨{ s with ring := { s.ring with mm := mm, wcm := wcm },
                         prod := .filling n a (filled.set i (some v)) },taken,?_,?_⟩
        · simp only [step,hp,if_pos hi,hst]
        · obtain ⟨h₁,h₂,h₃⟩ := h.placed
          refine ⟨h.cap,⟨h₁,h₂,hsz.trans h₃⟩,?_,.filling hn (by simp [hl]) hres',?_⟩
          · exact h.sent.trans (congrArg (taken++·) hf.symm)
          · exact ConsumerOk.mono (r:=s.ring) rfl rfl rfl (by rw [hf]) h.cons
    · exact Or.inl (by simp only [step,hp,if_neg hi])

theorem reduceOption_of_filled {filled : List (Option UInt8)}
    (h : filled.all Option.isSome = true) : filled = filled.reduceOption.map some := by
  induction filled with
  | nil => rfl
  | cons a filled ih =>
    simp only [List.all_cons,Bool.and_eq_true] at h
    obtain ⟨b,rfl⟩ := Option.isSome_iff_exists.mp h.1
    rw [List.reduceOption_cons_of_some,List.map_cons,← ih h.2]

theorem writeSync_keeps (h : Inv c taken s) (m : ℕ)
    (hok : ∀ n a filled, s.prod = .filling n a filled → m ≤ n →
      s.ring.wi+n < c ∨ c ≤ s.ring.wi+m) : Keeps c s (.writeSync m) := by
  cases hp : s.prod with
  | idle => exact Or.inl (by simp only [step,hp])
  | filling n a filled =>
    by_cases hm : m ≤ n ∧ (filled.take m).all Option.isSome
    · right
      have hprod := h.prod
      rw [hp] at hprod
      cases hprod with
      | filling hn hl hres =>
        have hbs := reduceOption_of_filled hm.2
        have hlen : (filled.take m).reduceOption.length = m := by
          have hh := congrArg List.length hbs
          rw [List.length_map,List.length_take] at hh
          omega
        have hend := hok n a filled hp hm.1
        rw [← h.cap] at hend
        have hf : filled.take (filled.take m).reduceOption.length =
            (filled.take m).reduceOption.map some := by rw [hlen]; exact hbs
        obtain ⟨mem,hw,hf⟩ := writeSync_append h.placed hn hl hres hf (by rw [hlen]; exact hend)
        rw [hlen] at hw hf
        refine ⟨{ s with ring := committed s.ring m mem, prod := .idle,
                         sent := s.sent++(filled.take m).reduceOption },taken,?_,?_⟩
        · simp only [step,hp,if_pos hm,hw]
        · refine ⟨h.cap,committed_placed h.placed (by omega) mem,?_,.idle rfl,?_⟩
          · rw [hf,h.sent,List.append_assoc]
          · exact ConsumerOk.mono (r:=s.ring) rfl rfl rfl ⟨_,hf.symm⟩ h.cons
    · exact Or.inl (by simp only [step,hp,if_neg hm])

theorem readQuery_keeps (h : Inv c taken s) (size : ℕ) : Keeps c s (.readQuery size) := by
  cases hcs : s.cons with
  | gathering m j => exact Or.inl (by simp only [step,hcs])
  | reading m a j => exact Or.inl (by simp only [step,hcs])
  | idle =>
    right
    have hcons := h.cons
    rw [hcs] at hcons
    cases hcons with
    | idle hrcm ho =>
      rcases hq : readQuery s.ring size with ⟨r,_ | a⟩
      · have hr : r = s.ring := by
          unfold readQuery at hq
          split_ifs at hq <;> cases hq
          rfl
        refine ⟨{ s with ring := r },taken,by simp only [step,hcs,hq],?_⟩
        rw [hr]
        exact h
      · obtain ⟨hm,hr,hheld,ha⟩ := readQuery_held h.placed hrcm hq
        obtain ⟨h₁,h₂,h₃⟩ := h.placed
        rw [hr] at hheld ha
        have hprod : ProducerOk { s.ring with rcm := r.rcm } s.prod :=
          ProducerOk.mono (r:=s.ring) rfl rfl rfl rfl le_rfl h.prod
        rcases ha with ⟨rfl,hall⟩ | rfl
        · refine ⟨{ s with ring := r, cons := .reading size (.mm s.ring.ri) 0 },taken,
            by simp only [step,hcs,hq],?_⟩
          rw [hr]
          exact ⟨h.cap,⟨h₁,h₂,h₃⟩,h.sent,hprod,
            .reading hm (Nat.zero_le size) hall (by simp [ho])⟩
        · refine ⟨{ s with ring := r, cons := .gathering size 0 },taken,
            by simp only [step,hcs,hq],?_⟩
          rw [hr]
          exact ⟨h.cap,⟨h₁,h₂,h₃⟩,h.sent,hprod,
            .gathering hm (Nat.zero_le size) hheld ho⟩

theorem gather_keeps (h : Inv c taken s) : Keeps c s .gather := by
  cases hcs : s.cons with
  | idle => exact Or.inl (by simp only [step,hcs])
  | reading m a j => exact Or.inl (by simp only [step,hcs])
  | gathering m j =>
    right
    have hcons := h.cons
    rw [hcs] at hcons
    cases hcons with
    | gathering hm hj hheld ho =>
      by_cases hlt : j < m
      · obtain ⟨b,hg,hheld'⟩ := gather_held h.placed hm hlt hheld
        refine ⟨{ s with ring := { s.ring with rcm := some b }, cons := .gathering m (j+1) },taken,
          by simp only [step,hcs,if_pos hlt,hg],?_⟩
        obtain ⟨h₁,h₂,h₃⟩ := h.placed
        exact ⟨h.cap,⟨h₁,h₂,h₃⟩,h.sent,
          ProducerOk.mono (r:=s.ring) rfl rfl rfl rfl le_rfl h.prod,
          .gathering hm hlt hheld' ho⟩
      · have hjm : j = m := by omega
        subst j
        refine ⟨{ s with cons := .reading m .rcm 0 },taken,
          by simp only [step,hcs,if_neg hlt],?_⟩
        exact ⟨h.cap,h.placed,h.sent,h.prod,.reading hm (Nat.zero_le m) hheld (by simp [ho])⟩

theorem copy_keeps (h : Inv c taken s) : Keeps c s .copy := by
  cases hcs : s.cons with
  | idle => exact Or.inl (by simp only [step,hcs])
  | gathering m j => exact Or.inl (by simp only [step,hcs])
  | reading m a j =>
    by_cases hlt : j < m
    · right
      have hcons := h.cons
      rw [hcs] at hcons
      cases hcons with
      | reading hm hj hheld ho =>
        obtain ⟨v,hv,hcell⟩ := loadAt_held h.placed hm hlt hheld
        refine ⟨{ s with cons := .reading m a (j+1), obtained := s.obtained++[v] },taken,
          by simp only [step,hcs,if_pos hlt,hv],?_⟩
        refine ⟨h.cap,h.placed,h.sent,h.prod,.reading hm hlt hheld ?_⟩
        rw [ho,List.take_add_one,hcell,Option.toList_some,List.append_assoc]
    · exact Or.inl (by simp only [step,hcs,if_neg hlt])

theorem readSync_keeps (h : Inv c taken s) : Keeps c s .readSync := by
  cases hcs : s.cons with
  | idle => exact Or.inl (by simp only [step,hcs])
  | gathering m j => exact Or.inl (by simp only [step,hcs])
  | reading m a j =>
    by_cases hjm : j = m
    · right
      subst j
      have hcons := h.cons
      rw [hcs] at hcons
      cases hcons with
      | reading hm hj hheld ho =>
        have hsync := readSync_eq h.placed hm hheld
        refine ⟨{ s with ring := released s.ring m, cons := .idle },taken++(fifo s.ring).take m,
          by simp only [step,hcs,if_true,hsync],?_⟩
        refine ⟨h.cap,released_placed h.placed hm,?_,?_,.idle rfl ho⟩
        · rw [released_fifo h.placed hm,List.append_assoc,List.take_append_drop]
          exact h.sent
        · exact ProducerOk.mono (r:=s.ring) rfl rfl rfl rfl (Nat.le_add_right _ _) h.prod
    · exact Or.inl (by simp only [step,hcs,if_neg hjm])

theorem clear_keeps (h : Inv c taken s) (hp : s.prod = .idle) (hcs : s.cons = .idle) :
    Keeps c s .clear := by
  right
  have hprod := h.prod
  have hcons := h.cons
  have hpl := h.placed
  rw [hp] at hprod
  rw [hcs] at hcons
  cases hprod with
  | idle hwcm =>
    cases hcons with
    | idle hrcm ho =>
      refine ⟨{ s with ring := clear s.ring, sent := [], obtained := [] },[],rfl,h.cap,?_,rfl,?_,?_⟩
      · exact ⟨Indexed.start (Nat.zero_lt_of_lt hpl.riLt),hpl.capLe,hpl.mmSize⟩
      · simp only [hp]
        exact .idle hwcm
      · simp only [hcs]
        exact .idle hrcm rfl

/-- Every event but a short commit and a clear inside a transaction is safe and keeps the
invariant. -/
theorem step_keeps (h : Inv c taken s) {e : Event} (hclear : QuietClear s e)
    (hok : ∀ m n a filled, e = .writeSync m → s.prod = .filling n a filled → m ≤ n →
      s.ring.wi+n < c ∨ c ≤ s.ring.wi+m) : Keeps c s e := by
  cases e with
  | writeQuery size junk => exact writeQuery_keeps h size junk
  | fill i v => exact fill_keeps h i v
  | writeSync m => exact writeSync_keeps h m (fun n a filled => hok m n a filled rfl)
  | readQuery size => exact readQuery_keeps h size
  | gather => exact gather_keeps h
  | copy => exact copy_keeps h
  | readSync => exact readSync_keeps h
  | clear => exact clear_keeps h hclear.1 hclear.2

theorem writeSync_short (h : Inv c taken s) {m n : ℕ} {a : Addr} {filled : List (Option UInt8)}
    (hp : s.prod = .filling n a filled) (hout : c ≤ s.ring.wi+n) (hshort : s.ring.wi+m < c) :
    writeSync s.ring m = .error .fault := by
  have hcap := h.cap
  have hprod := h.prod
  rw [hp] at hprod
  cases hprod with
  | filling hn hl hres =>
    exact writeSync_fault h.placed hn hres (by omega) (by omega)

theorem step_inv (h : Inv c taken s) {e : Event} {t : Sys} (hclear : QuietClear s e)
    (ht : step s e = .ok t) : ∃ taken, Inv c taken t := by
  by_cases hok : ∀ m n a filled, e = .writeSync m → s.prod = .filling n a filled → m ≤ n →
      s.ring.wi+n < c ∨ c ≤ s.ring.wi+m
  · rcases step_keeps h hclear hok with hb | ⟨u,taken',hu,hi⟩
    · rw [hb] at ht
      cases ht
    · rw [hu] at ht
      cases ht
      exact ⟨taken',hi⟩
  · -- the only other step is the short commit, which has no successor
    push Not at hok
    obtain ⟨m,n,a,filled,rfl,hp,-,hout,hshort⟩ := hok
    have hf := writeSync_short h hp hout hshort
    simp only [step,hp,hf] at ht
    split_ifs at ht

theorem start_inv {junk : ℕ → UInt8} {r : Ring} (hc : 1 ≤ c) (hr : create junk c = some r) :
    Inv c [] (start r) := by
  have hp := create_placed hc hr
  unfold create at hr
  split_ifs at hr
  cases hr
  exact ⟨rfl,hp,rfl,.idle rfl,.idle rfl rfl⟩

theorem run_inv {junk : ℕ → UInt8} {r : Ring} (hc : 1 ≤ c) (hr : create junk c = some r)
    {es : List Event} (ha : Along step QuietClear (start r) es)
    (hs : exec step (start r) es = .ok s) : ∃ taken, Inv c taken s :=
  exec_invariant (fun s => ∃ taken, Inv c taken s)
    (fun _ _ _ ⟨_,hi⟩ hclear ht => step_inv hi hclear ht) ⟨[],start_inv hc hr⟩ ha hs

/-- What the consumer has is a prefix of what was committed; between its transactions the rest
is the content of the ring. -/
theorem Inv.delivers (h : Inv c taken s) :
    s.obtained <+: s.sent ∧ (s.cons = .idle → s.sent = s.obtained++fifo s.ring) := by
  have hcons := h.cons
  have hsent := h.sent
  rw [hsent]
  cases hcs : s.cons with
  | idle =>
    rw [hcs] at hcons
    cases hcons with
    | idle hrcm ho => exact ⟨by rw [ho]; exact List.prefix_append _ _,fun _ => by rw [ho]⟩
  | gathering m j =>
    rw [hcs] at hcons
    cases hcons with
    | gathering hm hj hheld ho =>
      exact ⟨by rw [ho]; exact List.prefix_append _ _,by simp⟩
  | reading m a j =>
    rw [hcs] at hcons
    cases hcons with
    | reading hm hj hheld ho =>
      refine ⟨?_,by simp⟩
      rw [ho,List.prefix_append_right_inj]
      exact List.take_prefix j (fifo s.ring)

theorem FullCommit.quietClear {e : Event} (h : FullCommit s e) : QuietClear s e := by
  cases e with
  | clear => exact h.elim
  | _ => trivial

def ringOfFour : Ring :=
  { ri := 0, contex := 0, rcm := none, wi := 0, empty := 4, wcm := none, cBytes := 4,
    mm := ⟨4,fun _ => 0⟩ }

/-- Every interleaving of full transactions is safe and delivers in order. -/
theorem full_commits_deliver {junk : ℕ → UInt8} {cBytes : ℕ} {r : Ring} (hc : 1 ≤ cBytes)
    (hr : create junk cBytes = some r) (es : List Event)
    (ha : Along step FullCommit (start r) es) :
    exec step (start r) es ≠ .error .fault ∧
    ∀ s, exec step (start r) es = .ok s →
      s.obtained <+: s.sent ∧ (s.cons = .idle → s.sent = s.obtained++fifo s.ring) ∧
      s.ring.wi < cBytes ∧ s.ring.ri < cBytes ∧ s.ring.contex+s.ring.empty = cBytes := by
  constructor
  · apply exec_safe (fun s => ∃ taken, Inv cBytes taken s) _ _ ⟨[],start_inv hc hr⟩ ha
    · rintro s e t ⟨taken,hi⟩ hfull ht
      exact step_inv hi hfull.quietClear ht
    · rintro s e ⟨taken,hi⟩ hfull
      have hkeep : Keeps cBytes s e := by
        apply step_keeps hi hfull.quietClear
        rintro m n a filled rfl hp -
        have hmn : m = n := by simpa only [FullCommit,hp] using hfull
        omega
      rcases hkeep with hb | ⟨t,-,ht,-⟩
      · simp [hb]
      · simp [ht]
  · intro s hs
    obtain ⟨taken,hi⟩ := run_inv hc hr (ha.mono (fun _ _ h => h.quietClear)) hs
    have hcap := hi.cap
    have hwi := hi.placed.wiLt
    have hri := hi.placed.riLt
    have hb := hi.placed.books
    exact ⟨hi.delivers.1,hi.delivers.2,by omega,by omega,by omega⟩

def fullEvents : List Event :=
  [.writeQuery 2 (fun _ => 0),.fill 1 6,.fill 0 5,.writeSync 2,
   .writeQuery 2 (fun _ => 0),.readQuery 2,.copy,.fill 0 7,.copy,.fill 1 8,.readSync,
   .writeSync 2]

theorem full_commits_deliver_four :
    ∃ s, exec step (start ringOfFour) fullEvents = .ok s ∧
      s.obtained <+: s.sent ∧ s.obtained = [5,6] ∧ s.sent = [5,6,7,8] := by
  have hr : create (fun _ => 0) 4 = some ringOfFour := rfl
  have hrun := (full_commits_deliver (by decide) hr fullEvents (by decide +kernel)).2
  obtain ⟨s,hs,hlogs⟩ : ∃ s, exec step (start ringOfFour) fullEvents = .ok s ∧
      (s.obtained,s.sent) = ([5,6],[5,6,7,8]) :=
    observe_eq_some.mp (by decide +kernel)
  exact ⟨s,hs,(hrun s hs).1,congrArg Prod.fst hlogs,congrArg Prod.snd hlogs⟩

/-- In every reachable state, a commit of the first `bs.length` of `n` reserved bytes does its
work exactly when the chunk lay in the ring memory, or the commit still reaches the end of
the ring. -/
theorem short_commit_iff {junk : ℕ → UInt8} {cBytes : ℕ} {r : Ring} (hc : 1 ≤ cBytes)
    (hr : create junk cBytes = some r) {es : List Event} (ha : Along step QuietClear (start r) es)
    {s : Sys} (hs : exec step (start r) es = .ok s) {n : ℕ} {a : Addr}
    {filled : List (Option UInt8)} (hp : s.prod = .filling n a filled) {bs : List UInt8}
    (hf : filled.take bs.length = bs.map some) :
    (∃ r', writeSync s.ring bs.length = .ok r' ∧ fifo r' = fifo s.ring++bs ∧
      r'.wi < cBytes ∧ r'.contex+r'.empty = cBytes ∧
      (s.ring.wcm ≠ none → s.ring.wi ≤ cBytes ∧ cBytes-s.ring.wi ≤ bs.length)) ↔
    s.ring.wi+n < cBytes ∨ cBytes ≤ s.ring.wi+bs.length := by
  obtain ⟨taken,hi⟩ := run_inv hc hr ha hs
  have hcap := hi.cap
  constructor
  · rintro ⟨r',hw,-⟩
    by_contra hbad
    rw [writeSync_short hi hp (by omega) (by omega)] at hw
    cases hw
  · intro hok
    have hprod := hi.prod
    rw [hp] at hprod
    cases hprod with
    | filling hn hl hres =>
      have hok' := hok
      rw [← hcap] at hok'
      obtain ⟨mem,hw,hfifo⟩ := writeSync_append hi.placed hn hl hres hf hok'
      have hlen := congrArg List.length hf
      rw [List.length_take,List.length_map] at hlen
      have hpl := committed_placed hi.placed (show bs.length ≤ s.ring.empty by omega) mem
      have hwi := hpl.wiLt
      have hb := hpl.books
      have hcap' : (committed s.ring bs.length mem).cBytes = s.ring.cBytes := rfl
      refine ⟨_,hw,hfifo,by omega,by omega,?_⟩
      intro hwcm
      have hlt := hi.placed.wiLt
      cases hres with
      | direct hnone hin hcell => exact (hwcm hnone).elim
      | block w hw₀ hsize hout hcell => omega

/-- Two bytes committed and read, then three reserved around the end and filled. -/
def aroundEvents : List Event :=
  [.writeQuery 2 (fun _ => 0),.fill 0 5,.fill 1 6,.writeSync 2,.readQuery 2,.copy,.copy,.readSync,
   .writeQuery 3 (fun _ => 0),.fill 0 7,.fill 1 8,.fill 2 9]

theorem short_commit_iff_four :
    ∃ s r, exec step (start ringOfFour) aroundEvents = .ok s ∧
      s.prod = .filling 3 .wcm [some 7,some 8,some 9] ∧
      writeSync s.ring 2 = .ok r ∧ fifo r = fifo s.ring++[7,8] := by
  obtain ⟨s,hs,hp⟩ : ∃ s, exec step (start ringOfFour) aroundEvents = .ok s ∧
      (s.prod,s.ring.wi) = (.filling 3 .wcm [some 7,some 8,some 9],2) :=
    observe_eq_some.mp (by decide +kernel)
  have hwi : s.ring.wi = 2 := congrArg Prod.snd hp
  have hr : create (fun _ => 0) 4 = some ringOfFour := rfl
  have hfilled (b : List UInt8) (hb : b = [7,8]) :
      [some 7,some 8,some 9].take b.length = b.map some := by rw [hb]; rfl
  obtain ⟨r,hw,hf,-⟩ := (short_commit_iff (by decide) hr (by decide +kernel) hs
    (congrArg Prod.fst hp) (hfilled [7,8] rfl)).mpr (Or.inr (by simp [hwi]))
  exact ⟨s,r,hs,congrArg Prod.fst hp,hw,hf⟩

def shortEvents : List Event :=
  [.writeQuery 2 (fun _ => 0),.fill 0 5,.fill 1 6,.writeSync 2,
   .writeQuery 2 (fun _ => 0),.fill 0 7,.fill 1 8]

theorem shortCommit_faults :
    create (fun _ => 0) 4 = some ringOfFour ∧
    (∃ s, exec step (start ringOfFour) shortEvents = .ok s ∧
      s.prod = .filling 2 .wcm [some 7,some 8]) ∧
    exec step (start ringOfFour) (shortEvents++[.writeSync 1]) = .error .fault :=
  ⟨rfl,observe_eq_some.mp (by decide +kernel),faults_iff.mp (by decide +kernel)⟩

end Ccsrb
end PcEnv
