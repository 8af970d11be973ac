import Mathlib.Data.Finset.Card
import PcEnv.Runs

/-! `un_select_tcp_server` and `in_select_tcp_server`: the connection table `conn_a`, where a free
entry is `-1` (`none`), and the loop around `select`. -/
namespace PcEnv
namespace SelectServer

open Runs

inductive Kind
  | un | inet
  deriving DecidableEq, Repr

def fdSetSize : ℕ := 1024

/-- The loop of `in_select_tcp_server` that stores `conn`. -/
def placeFirst (conn : ℕ) : List (Option ℕ) → List (Option ℕ)
  | [] => []
  | none::slots => some conn::slots
  | some fd::slots => some fd::placeFirst conn slots

/-- The same loop of `un_select_tcp_server`, which has no `break`. -/
def placeAll (conn : ℕ) : List (Option ℕ) → List (Option ℕ)
  | [] => []
  | none::slots => some conn::placeAll conn slots
  | some fd::slots => some fd::placeAll conn slots

def place : Kind → ℕ → List (Option ℕ) → List (Option ℕ)
  | .un => placeAll
  | .inet => placeFirst

/-- What the loop over `conn_a` leaves, with the descriptors that `pRcbk` is called with and what
it returns. -/
structure Served where
  allset : Finset ℕ
  slots : List (Option ℕ)
  calls : List (ℕ × ℤ)

/-- The loop over `conn_a` from slot `i` on; `rcbk i` is what `pRcbk` returns for that slot. -/
def serve (rset : Finset ℕ) (rcbk : ℕ → ℤ) :
    ℕ → ℤ → Finset ℕ → List (Option ℕ) → Served
  | _, _, allset, [] => ⟨allset,[],[]⟩
  | i, nready, allset, none::slots =>
    let r := serve rset rcbk (i+1) nready allset slots
    { r with slots := none::r.slots }
  | i, nready, allset, some fd::slots =>
    if fd ∈ rset then
      let slot := if rcbk i = 1 then none else some fd
      let allset := if rcbk i = 1 then allset.erase fd else allset
      if nready-1 = 0 then ⟨allset,slot::slots,[(fd,rcbk i)]⟩
      else
        let r := serve rset rcbk (i+1) (nready-1) allset slots
        { r with slots := slot::r.slots, calls := (fd,rcbk i)::r.calls }
    else if nready = 0 then ⟨allset,some fd::slots,[]⟩
    else
      let r := serve rset rcbk (i+1) nready allset slots
      { r with slots := some fd::r.slots }

inductive Select
  | interrupted | failed
  | ready (rset : Finset ℕ)

/-- What one pass of the loop meets: `select`, `accept` (if it comes to that) and `pRcbk`. -/
structure Pass where
  select : Select
  conn : Option ℕ
  rcbk : ℕ → ℤ

/-- The variables of the loop. `live` are the accepted connections for which `pRcbk` has not
returned `1` yet, `calls` the calls of the last pass. -/
structure Server where
  sfd : ℕ
  maxfd : ℕ
  allset : Finset ℕ
  conn_a : List (Option ℕ)
  live : Finset ℕ
  calls : List (ℕ × ℤ)

def Server.start (sfd : ℕ) : Server :=
  ⟨sfd,sfd,{sfd},List.replicate fdSetSize none,∅,[]⟩

/-- The body of `while(FD_ISSET(sfd,&rset))`, with what `accept` returns. -/
def accept (kind : Kind) (s : Server) : Option ℕ → Server
  | none => s
  | some conn =>
    { s with
      allset := insert conn s.allset
      maxfd := max s.maxfd conn
      conn_a := place kind conn s.conn_a
      live := insert conn s.live }

def closed (calls : List (ℕ × ℤ)) : Finset ℕ :=
  ((calls.filter (fun c => c.2 = 1)).map Prod.fst).toFinset

/-- One pass of the `do` loop; `exit` leaves no state. -/
def step (kind : Kind) (s : Server) (p : Pass) : Except Halt Server :=
  match p.select with
  | .interrupted => .ok { s with calls := [] }
  | .failed => .error .blocked
  | .ready rset =>
    if rset.card = 0 then .ok { s with calls := [] }
    else
      let t := if s.sfd ∈ rset then accept kind s p.conn else s
      let nready : ℤ := if s.sfd ∈ rset then rset.card-1 else rset.card
      if nready = 0 then .ok { t with calls := [] }
      else
        let r := serve rset p.rcbk 0 nready t.allset t.conn_a
        .ok { t with
          allset := r.allset
          conn_a := r.slots
          live := t.live \ closed r.calls
          calls := r.calls }

/-- `select` reports descriptors it was asked about, and `accept` returns a new one. -/
def Legal (s : Server) (p : Pass) : Prop :=
  ∀ rset, p.select = .ready rset →
    (∀ fd ∈ rset, fd ∈ s.allset ∧ fd ≤ s.maxfd) ∧
    (s.sfd ∈ rset → ∀ conn, p.conn = some conn →
      conn ≠ s.sfd ∧ conn ∉ s.live ∧ conn < fdSetSize)

instance (s : Server) (p : Pass) : Decidable (Legal s p) :=
  match h : p.select with
  | .interrupted | .failed => .isTrue (by simp [Legal,h])
  | .ready rset => decidable_of_iff
      ((∀ fd ∈ rset, fd ∈ s.allset ∧ fd ≤ s.maxfd) ∧
        (s.sfd ∈ rset → ∀ conn ∈ p.conn, conn ≠ s.sfd ∧ conn ∉ s.live ∧ conn < fdSetSize))
      (by simp [Legal,h,Option.mem_def])

def Accepts (sfd : ℕ) (p : Pass) : Prop :=
  ∃ rset conn, p.select = .ready rset ∧ sfd ∈ rset ∧ p.conn = some conn

def entries (slots : List (Option ℕ)) : List ℕ := slots.filterMap id

/-- The table holds the open connections, each once. -/
def Faithful (s : Server) : Prop :=
  (entries s.conn_a).Nodup ∧ ∀ fd, fd ∈ entries s.conn_a ↔ fd ∈ s.live

/-- The pass ends with a faithful table, and it has called `pRcbk` once for every connection of the
table that is ready. -/
def Good (kind : Kind) (s : Server) (p : Pass) : Prop :=
  ∀ t, step kind s p = .ok t → Faithful t ∧
    ∀ rset, p.select = .ready rset → ∀ fd ∈ entries s.conn_a, fd ∈ rset →
      (t.calls.map Prod.fst).count fd = 1

section

variable {conn fd i : ℕ} {slots : List (Option ℕ)} {rset allset : Finset ℕ} {rcbk : ℕ → ℤ}
  {calls : List (ℕ × ℤ)} {ret nready : ℤ}

@[simp] theorem entries_nil : entries [] = [] := rfl
@[simp] theorem entries_none : entries (none::slots) = entries slots := rfl
@[simp] theorem entries_some : entries (some fd::slots) = fd::entries slots := rfl

theorem length_placeFirst : (placeFirst conn slots).length = slots.length := by
  induction slots with
  | nil => rfl
  | cons c slots ih =>
    cases c with
    | none => rfl
    | some fd => exact congrArg (·+1) ih

theorem entries_placeFirst (h : none ∈ slots) :
    (entries (placeFirst conn slots)).Perm (conn::entries slots) := by
  induction slots with
  | nil => exact absurd h List.not_mem_nil
  | cons c slots ih =>
    cases c with
    | none => exact List.Perm.refl _
    | some fd =>
      have hrest : none ∈ slots := (List.mem_cons.mp h).resolve_left (by simp)
      exact ((ih hrest).cons fd).trans (List.Perm.swap conn fd _)

theorem length_entries (h : none ∉ slots) : (entries slots).length = slots.length := by
  induction slots with
  | nil => rfl
  | cons c slots ih =>
    cases c with
    | none => exact absurd List.mem_cons_self h
    | some fd => exact congrArg (·+1) (ih (fun hc => h (List.mem_cons_of_mem _ hc)))

theorem none_mem (hn : (entries slots).Nodup) (hlt : ∀ fd ∈ entries slots, fd < slots.length)
    (hc : conn < slots.length) (hnew : conn ∉ entries slots) : none ∈ slots := by
  by_contra hfull
  have hsub : (entries slots).toFinset ⊆ (Finset.range slots.length).erase conn := by
    intro fd hfd
    rw [List.mem_toFinset] at hfd
    exact Finset.mem_erase.mpr ⟨fun h => hnew (h ▸ hfd),Finset.mem_range.mpr (hlt fd hfd)⟩
  have hcard := Finset.card_le_card hsub
  rw [List.toFinset_card_of_nodup hn,length_entries hfull,
    Finset.card_erase_of_mem (Finset.mem_range.mpr hc),Finset.card_range] at hcard
  omega

theorem closed_cons : closed ((fd,ret)::calls) =
    if ret = 1 then insert fd (closed calls) else closed calls := by
  unfold closed
  split_ifs with h
  · rw [List.filter_cons_of_pos (by simpa using h),List.map_cons,List.toFinset_cons]
  · rw [List.filter_cons_of_neg (by simpa using h)]

theorem closed_subset (h : fd ∈ closed calls) : fd ∈ calls.map Prod.fst := by
  rw [closed,List.mem_toFinset] at h
  exact (List.filter_sublist.map Prod.fst).subset h

theorem serve_idle (h : ∀ fd ∈ entries slots, fd ∉ rset) :
    serve rset rcbk i nready allset slots = ⟨allset,slots,[]⟩ := by
  induction slots generalizing i with
  | nil => rfl
  | cons c slots ih =>
    cases c with
    | none =>
      have hrest := ih (i:=i+1) h
      simp only [serve,hrest]
    | some fd =>
      have hrest := ih (i:=i+1) (fun x hx => h x (List.mem_cons_of_mem fd hx))
      simp only [serve,if_neg (h fd List.mem_cons_self),hrest]
      split_ifs <;> rfl

def readyEntries (rset : Finset ℕ) (slots : List (Option ℕ)) : List ℕ :=
  (entries slots).filter (· ∈ rset)

theorem readyEntries_nil (h : (readyEntries rset slots).length = 0) :
    ∀ fd ∈ entries slots, fd ∉ rset := by
  intro fd hfd hin
  have hmem : fd ∈ readyEntries rset slots := List.mem_filter.mpr ⟨hfd,by simpa using hin⟩
  rw [List.length_eq_zero_iff.mp h] at hmem
  exact absurd hmem List.not_mem_nil

theorem serve_hit (hin : fd ∈ rset) (hready : nready-1 = (readyEntries rset slots).length) :
    serve rset rcbk i nready allset (some fd::slots) =
      let r := serve rset rcbk (i+1) (nready-1)
        (if rcbk i = 1 then allset.erase fd else allset) slots
      { allset := r.allset, slots := (if rcbk i = 1 then none else some fd)::r.slots,
        calls := (fd,rcbk i)::r.calls } := by
  simp only [serve,if_pos hin]
  by_cases hz : nready-1 = 0
  · rw [if_pos hz,serve_idle (readyEntries_nil (by omega))]
  · rw [if_neg hz]

theorem serve_miss (hin : fd ∉ rset) (hready : nready = (readyEntries rset slots).length) :
    serve rset rcbk i nready allset (some fd::slots) =
      let r := serve rset rcbk (i+1) nready allset slots
      { r with slots := some fd::r.slots } := by
  simp only [serve,if_neg hin]
  by_cases hz : nready = 0
  · rw [if_pos hz,serve_idle (readyEntries_nil (by omega))]
  · rw [if_neg hz]

theorem not_closed (h : fd ∉ entries slots)
    (hcalls : calls.map Prod.fst = readyEntries rset slots) : fd ∉ closed calls := by
  intro hc
  have hmem := closed_subset hc
  rw [hcalls] at hmem
  exact h (List.mem_filter.mp hmem).1

theorem entries_closed_cons {left : List (Option ℕ)} (hfd : fd ∉ entries slots)
    (hcalls : calls.map Prod.fst = readyEntries rset slots)
    (hslots : entries left = (entries slots).filter (· ∉ closed calls)) :
    entries ((if ret = 1 then none else some fd)::left) =
      (entries (some fd::slots)).filter (· ∉ closed ((fd,ret)::calls)) := by
  by_cases hret : ret = 1
  · have hkeep : ∀ x ∈ entries slots,
        decide (x ∉ insert fd (closed calls)) = decide (x ∉ closed calls) := by
      intro x hx
      have hne : x ≠ fd := ne_of_mem_of_not_mem hx hfd
      simp only [Finset.mem_insert,hne,false_or]
    simp only [closed_cons,if_pos hret,entries_none,entries_some]
    rw [hslots,List.filter_cons_of_neg (by simp),List.filter_congr hkeep]
  · have hopen := not_closed hfd hcalls
    simp only [closed_cons,if_neg hret,entries_some]
    rw [hslots,List.filter_cons_of_pos (by simpa using hopen)]

theorem sdiff_closed_cons :
    allset \ closed ((fd,ret)::calls) =
      (if ret = 1 then allset.erase fd else allset) \ closed calls := by
  rw [closed_cons]
  split_ifs
  · rw [Finset.sdiff_insert,Finset.erase_sdiff_comm]
  · rfl

/-- With the count of the ready entries the loop calls `pRcbk` for each of them, in order, and
takes the closed ones out of the table and of `allset`. -/
theorem serve_spec (rcbk : ℕ → ℤ) (i : ℕ) (allset : Finset ℕ) (hn : (entries slots).Nodup)
    (hready : nready = (readyEntries rset slots).length) :
    let r := serve rset rcbk i nready allset slots
    r.calls.map Prod.fst = readyEntries rset slots ∧
    entries r.slots = (entries slots).filter (· ∉ closed r.calls) ∧
    r.allset = allset \ closed r.calls ∧ r.slots.length = slots.length := by
  induction slots generalizing i nready allset with
  | nil => exact ⟨rfl,rfl,by simp [serve,closed],rfl⟩
  | cons c slots ih =>
    cases c with
    | none =>
      obtain ⟨hcalls,hslots,hall,hlen⟩ := ih (i+1) allset hn hready
      exact ⟨hcalls,hslots,hall,congrArg (·+1) hlen⟩
    | some fd =>
      obtain ⟨hfd,hrest⟩ := List.nodup_cons.mp hn
      by_cases hin : fd ∈ rset
      · have hcons : readyEntries rset (some fd::slots) = fd::readyEntries rset slots :=
          List.filter_cons_of_pos (by simpa using hin)
        rw [hcons,List.length_cons] at hready
        have hless : nready-1 = (readyEntries rset slots).length := by push_cast at hready; omega
        obtain ⟨hcalls,hslots,hall,hlen⟩ := ih (i+1)
          (if rcbk i = 1 then allset.erase fd else allset) hrest hless
        rw [serve_hit hin hless]
        generalize serve rset rcbk (i+1) (nready-1)
          (if rcbk i = 1 then allset.erase fd else allset) slots = r at *
        exact ⟨by rw [hcons,List.map_cons,hcalls],entries_closed_cons hfd hcalls hslots,
          hall.trans sdiff_closed_cons.symm,congrArg (·+1) hlen⟩
      · have hcons : readyEntries rset (some fd::slots) = readyEntries rset slots :=
          List.filter_cons_of_neg (by simpa using hin)
        rw [hcons] at hready ⊢
        obtain ⟨hcalls,hslots,hall,hlen⟩ := ih (i+1) allset hrest hready
        rw [serve_miss hin hready]
        generalize serve rset rcbk (i+1) nready allset slots = r at *
        have hopen := not_closed hfd hcalls
        refine ⟨hcalls,?_,hall,congrArg (·+1) hlen⟩
        rw [entries_some,entries_some,hslots,List.filter_cons_of_pos (by simpa using hopen)]

theorem nodup_readyEntries (h : (entries slots).Nodup) : (readyEntries rset slots).Nodup :=
  h.sublist List.filter_sublist

end

structure Inv (s : Server) : Prop where
  slots : s.conn_a.length = fdSetSize
  nodup : (entries s.conn_a).Nodup
  live : ∀ fd, fd ∈ entries s.conn_a ↔ fd ∈ s.live
  allset : s.allset = insert s.sfd s.live
  listener : s.sfd ∉ s.live
  below : ∀ fd ∈ s.live, fd < fdSetSize

section

variable {s t : Server} {p : Pass} {rset : Finset ℕ}

theorem Inv.start (sfd : ℕ) : Inv (Server.start sfd) where
  slots := List.length_replicate
  nodup := by simp [Server.start,entries]
  live := by simp [Server.start,entries]
  allset := rfl
  listener := Finset.notMem_empty sfd
  below := by simp [Server.start]

theorem Inv.accept {conn : ℕ} (h : Inv s) (hsfd : conn ≠ s.sfd) (hnew : conn ∉ s.live)
    (hlt : conn < fdSetSize) : Inv (accept .inet s (some conn)) := by
  have hfresh : conn ∉ entries s.conn_a := fun hc => hnew ((h.live conn).mp hc)
  have hfree : none ∈ s.conn_a := none_mem h.nodup
    (fun fd hfd => h.slots ▸ h.below fd ((h.live fd).mp hfd)) (h.slots ▸ hlt) hfresh
  have hperm : (entries (placeFirst conn s.conn_a)).Perm (conn::entries s.conn_a) :=
    entries_placeFirst hfree
  refine ⟨length_placeFirst.trans h.slots,
    hperm.nodup_iff.mpr (List.nodup_cons.mpr ⟨hfresh,h.nodup⟩),fun fd => ?_,?_,?_,?_⟩
  · rw [show (SelectServer.accept .inet s (some conn)).conn_a = placeFirst conn s.conn_a from rfl,
      hperm.mem_iff,List.mem_cons,h.live fd]
    exact Finset.mem_insert.symm
  · exact (congrArg (insert conn) h.allset).trans (Finset.insert_comm conn s.sfd s.live)
  · exact fun hin => (Finset.mem_insert.mp hin).elim (fun he => hsfd he.symm) h.listener
  · intro fd hfd
    rcases Finset.mem_insert.mp hfd with rfl | hfd
    · exact hlt
    · exact h.below fd hfd

theorem Inv.count (h : Inv s) (hsub : ∀ fd ∈ rset, fd ∈ s.allset) :
    (readyEntries rset s.conn_a).length = (rset.erase s.sfd).card := by
  rw [← List.toFinset_card_of_nodup (nodup_readyEntries h.nodup)]
  congr 1
  ext fd
  rw [List.mem_toFinset,readyEntries,List.mem_filter,h.live fd,Finset.mem_erase]
  constructor
  · rintro ⟨hlive,hin⟩
    exact ⟨fun he => h.listener (he ▸ hlive),of_decide_eq_true hin⟩
  · rintro ⟨hne,hin⟩
    have hall := hsub fd hin
    rw [h.allset] at hall
    exact ⟨(Finset.mem_insert.mp hall).resolve_left hne,decide_eq_true hin⟩

theorem Inv.withCalls (h : Inv s) (calls : List (ℕ × ℤ)) : Inv { s with calls := calls } :=
  ⟨h.slots,h.nodup,h.live,h.allset,h.listener,h.below⟩

theorem Inv.serve {nready : ℤ} (h : Inv s) (rcbk : ℕ → ℤ) (hsub : ∀ fd ∈ rset, fd ∈ s.allset)
    (hready : nready = (rset.erase s.sfd).card) :
    let r := serve rset rcbk 0 nready s.allset s.conn_a
    Inv { s with
      allset := r.allset
      conn_a := r.slots
      live := s.live \ closed r.calls
      calls := r.calls } ∧ r.calls.map Prod.fst = readyEntries rset s.conn_a := by
  obtain ⟨hcalls,hslots,hall,hlen⟩ := serve_spec rcbk 0 s.allset h.nodup
    (hready.trans (congrArg Nat.cast (h.count hsub).symm))
  generalize SelectServer.serve rset rcbk 0 nready s.allset s.conn_a = r at *
  have hlisten : s.sfd ∉ closed r.calls :=
    not_closed (fun hin => h.listener ((h.live s.sfd).mp hin)) hcalls
  refine ⟨⟨hlen.trans h.slots,?_,fun fd => ?_,?_,?_,?_⟩,hcalls⟩
  · rw [hslots]
    exact h.nodup.sublist List.filter_sublist
  · simp only [hslots,List.mem_filter,h.live fd,decide_eq_true_eq,Finset.mem_sdiff]
  · rw [hall,h.allset,Finset.insert_sdiff_of_notMem _ hlisten]
  · exact fun hin => h.listener (Finset.mem_sdiff.mp hin).1
  · exact fun fd hfd => h.below fd (Finset.mem_sdiff.mp hfd).1

theorem Inv.afterAccept (h : Inv s) (hlegal : Legal s p) (hsel : p.select = .ready rset) :
    let u := if s.sfd ∈ rset then SelectServer.accept .inet s p.conn else s
    Inv u ∧ u.sfd = s.sfd ∧ s.allset ⊆ u.allset ∧ s.live ⊆ u.live := by
  obtain ⟨-,hconn⟩ := hlegal rset hsel
  have hsame : Inv s ∧ s.sfd = s.sfd ∧ s.allset ⊆ s.allset ∧ s.live ⊆ s.live :=
    ⟨h,rfl,Finset.Subset.refl _,Finset.Subset.refl _⟩
  by_cases hin : s.sfd ∈ rset
  · rw [if_pos hin]
    cases hc : p.conn with
    | none => exact hsame
    | some conn =>
      obtain ⟨hsfd,hnew,hlt⟩ := hconn hin conn hc
      exact ⟨h.accept hsfd hnew hlt,rfl,Finset.subset_insert conn _,Finset.subset_insert conn _⟩
  · rw [if_neg hin]
    exact hsame

theorem card_erase (hc : rset.card ≠ 0) (sfd : ℕ) :
    (if sfd ∈ rset then (rset.card : ℤ)-1 else rset.card) = (rset.erase sfd).card := by
  split_ifs with hin
  · rw [Finset.card_erase_of_mem hin]
    omega
  · rw [Finset.erase_eq_of_notMem hin]

/-- A pass of `in_select_tcp_server`. -/
theorem Inv.step (h : Inv s) (hlegal : Legal s p) (hs : step .inet s p = .ok t) :
    Inv t ∧ ∀ rset, p.select = .ready rset → ∀ fd ∈ entries s.conn_a, fd ∈ rset →
      (t.calls.map Prod.fst).count fd = 1 := by
  unfold SelectServer.step at hs
  cases hsel : p.select with
  | interrupted =>
    simp only [hsel,Except.ok.injEq] at hs
    subst t
    exact ⟨h.withCalls [],by simp⟩
  | failed => simp only [hsel,reduceCtorEq] at hs
  | ready rset =>
    simp only [hsel,Select.ready.injEq,forall_eq'] at hs ⊢
    by_cases hz : rset.card = 0
    · rw [if_pos hz] at hs
      cases hs
      rw [Finset.card_eq_zero] at hz
      exact ⟨h.withCalls [],fun fd _ hin => absurd (hz ▸ hin) (Finset.notMem_empty fd)⟩
    rw [if_neg hz,card_erase hz] at hs
    obtain ⟨hu,hsfd,hall,hlive⟩ := h.afterAccept hlegal hsel
    generalize (if s.sfd ∈ rset then SelectServer.accept .inet s p.conn else s) = u at *
    have hsub : ∀ fd ∈ rset, fd ∈ u.allset := fun fd hfd => hall ((hlegal rset hsel).1 fd hfd).1
    have hmem : ∀ fd ∈ entries s.conn_a, fd ∈ rset → fd ∈ readyEntries rset u.conn_a := by
      intro fd hfd hin
      exact List.mem_filter.mpr ⟨(hu.live fd).mpr (hlive ((h.live fd).mp hfd)),decide_eq_true hin⟩
    by_cases hn : (((rset.erase s.sfd).card : ℕ) : ℤ) = 0
    · rw [if_pos hn] at hs
      cases hs
      refine ⟨hu.withCalls [],fun fd hfd hin => ?_⟩
      have hnone := hu.count hsub
      rw [hsfd] at hnone
      exact absurd hin (readyEntries_nil (by omega) fd (List.mem_filter.mp (hmem fd hfd hin)).1)
    · rw [if_neg hn] at hs
      cases hs
      obtain ⟨hinv,hcalls⟩ := hu.serve p.rcbk hsub (by rw [hsfd])
      refine ⟨hinv,fun fd hfd hin => ?_⟩
      simp only [hcalls]
      exact List.count_eq_one_of_mem (nodup_readyEntries hu.nodup) (hmem fd hfd hin)

structure Idle (s : Server) : Prop where
  conn_a : s.conn_a = List.replicate fdSetSize none
  live : s.live = ∅
  allset : s.allset = {s.sfd}

theorem placeAll_free (conn n : ℕ) :
    placeAll conn (List.replicate n none) = List.replicate n (some conn) := by
  induction n with
  | zero => rfl
  | succ n ih => exact congrArg (some conn::·) ih

theorem entries_free (n : ℕ) : entries (List.replicate n none) = [] := by
  induction n with
  | zero => rfl
  | succ n ih => exact ih

theorem entries_full (conn n : ℕ) :
    entries (List.replicate n (some conn)) = List.replicate n conn := by
  induction n with
  | zero => rfl
  | succ n ih => exact congrArg (conn::·) ih

theorem Idle.accept (h : Idle s) (conn : ℕ) :
    ¬Faithful { accept .un s (some conn) with calls := [] } := by
  rintro ⟨hn,-⟩
  have htable : entries (placeAll conn s.conn_a) = List.replicate fdSetSize conn := by
    rw [h.conn_a,placeAll_free,entries_full]
  have hdup : (List.replicate fdSetSize conn).Nodup := htable ▸ hn
  exact absurd (List.nodup_replicate.mp hdup) (by decide)

theorem Idle.faithful (h : Idle s) : Faithful s := by
  refine ⟨?_,fun fd => ?_⟩
  · rw [h.conn_a,entries_free]
    exact List.nodup_nil
  · rw [h.conn_a,entries_free,h.live]
    simp

/-- Nothing but the listening socket can be ready, so the pass is over after `accept`. -/
theorem Idle.step (h : Idle s) (hlegal : Legal s p) :
    step .un s p = .error .blocked ∧ ¬Accepts s.sfd p ∨
    step .un s p = .ok { s with calls := [] } ∧ ¬Accepts s.sfd p ∨
    ∃ conn, step .un s p = .ok { SelectServer.accept .un s (some conn) with calls := [] } ∧
      Accepts s.sfd p := by
  unfold SelectServer.step
  cases hsel : p.select with
  | interrupted => exact Or.inr (Or.inl ⟨rfl,by simp [Accepts,hsel]⟩)
  | failed => exact Or.inl ⟨rfl,by simp [Accepts,hsel]⟩
  | ready rset =>
    have hsub : rset ⊆ {s.sfd} := by
      intro fd hfd
      have hall := ((hlegal rset hsel).1 fd hfd).1
      rwa [h.allset] at hall
    rcases Finset.subset_singleton_iff.mp hsub with rfl | rfl
    · exact Or.inr (Or.inl ⟨by simp,by simp [Accepts,hsel]⟩)
    · have hin : s.sfd ∈ ({s.sfd} : Finset ℕ) := Finset.mem_singleton_self _
      simp only [Finset.card_singleton,one_ne_zero,if_false,if_pos hin]
      rw [if_pos (by decide : ((1 : ℕ) : ℤ)-1 = 0)]
      cases hconn : p.conn with
      | none => exact Or.inr (Or.inl ⟨rfl,by simp [Accepts,hconn]⟩)
      | some conn => exact Or.inr (Or.inr ⟨conn,rfl,_,conn,hsel,hin,hconn⟩)

theorem Idle.good_iff (h : Idle s) (hlegal : Legal s p) : Good .un s p ↔ ¬Accepts s.sfd p := by
  have hempty : ∀ fd, fd ∉ entries s.conn_a := by
    intro fd
    rw [h.conn_a,entries_free]
    exact List.not_mem_nil
  unfold Good
  rcases h.step hlegal with ⟨hs,hno⟩ | ⟨hs,hno⟩ | ⟨conn,hs,hyes⟩
  · refine iff_of_true (fun t ht => ?_) hno
    rw [hs] at ht
    cases ht
  · refine iff_of_true (fun t ht => ?_) hno
    rw [hs] at ht
    cases ht
    exact ⟨h.faithful,fun rset _ fd hfd => absurd hfd (hempty fd)⟩
  · exact iff_of_false (fun hgood => h.accept conn (hgood _ hs).1) (not_not_intro hyes)

theorem Idle.next (h : Idle s) (hlegal : Legal s p) (hno : ¬Accepts s.sfd p)
    (hs : SelectServer.step .un s p = .ok t) : Idle t := by
  rcases h.step hlegal with ⟨ht,-⟩ | ⟨ht,-⟩ | ⟨conn,-,hyes⟩
  · rw [ht] at hs
    cases hs
  · rw [ht] at hs
    cases hs
    exact ⟨h.conn_a,h.live,h.allset⟩
  · exact absurd hyes hno

end

/-- In every run the table of `in_select_tcp_server` is faithful at the end of every pass, and
every ready connection of it is served once; that of `un_select_tcp_server` is as long as no
connection is accepted. -/
theorem table_iff (kind : Kind) (sfd : ℕ) (ps : List Pass)
    (hlegal : Along (step kind) Legal (Server.start sfd) ps) :
    Along (step kind) (Good kind) (Server.start sfd) ps ↔
      kind = .inet ∨ Along (step kind) (fun s p => ¬Accepts s.sfd p) (Server.start sfd) ps := by
  cases kind with
  | inet =>
    refine iff_of_true ?_ (Or.inl rfl)
    have hboth : Along (step .inet) (fun s p => Legal s p ∧ Good .inet s p)
        (Server.start sfd) ps := (along_iff_of_invariant Inv
      (fun s p h => ⟨And.left,fun hl => ⟨hl,fun t ht =>
        have hstep := h.step hl ht
        ⟨⟨hstep.1.nodup,hstep.1.live⟩,hstep.2⟩⟩⟩)
      (fun s p t h hl ht => (h.step hl ht).1) (Inv.start sfd)).mpr hlegal
    exact (along_and.mp hboth).2
  | un =>
    have hidle : Idle (Server.start sfd) := ⟨rfl,rfl,rfl⟩
    have hboth : Along (step .un) (fun s p => Legal s p ∧ Good .un s p) (Server.start sfd) ps ↔
        Along (step .un) (fun s p => Legal s p ∧ ¬Accepts s.sfd p) (Server.start sfd) ps :=
      along_iff_of_invariant Idle
      (fun s p h => and_congr_right (fun hl => h.good_iff hl))
      (fun s p t h hl ht => h.next hl.1 hl.2 ht) hidle
    rw [along_and,along_and] at hboth
    simp only [hlegal,true_and] at hboth
    rw [hboth]
    simp

def reuse : List Pass :=
  [⟨.ready {3},some 4,fun _ => 0⟩,⟨.ready {3,4},some 5,fun _ => 1⟩,⟨.ready {3,5},some 4,fun _ => 0⟩]

theorem table_iff_reuse : Along (step .inet) (Good .inet) (Server.start 3) reuse :=
  (table_iff .inet 3 reuse (by decide)).mpr (Or.inl rfl)

/-- The first connection is stored in every entry of the table. -/
theorem first_fills_table :
    Along (step .un) Legal (Server.start 3) [⟨.ready {3},some 4,fun _ => 0⟩] ∧
      ¬Along (step .un) (Good .un) (Server.start 3) [⟨.ready {3},some 4,fun _ => 0⟩] := by
  have hlegal : Along (step .un) Legal (Server.start 3) [⟨.ready {3},some 4,fun _ => 0⟩] := by
    decide
  have hidle : Idle (Server.start 3) := ⟨rfl,rfl,rfl⟩
  exact ⟨hlegal,fun hgood => (hidle.good_iff hlegal.1).mp hgood.1
    ⟨_,4,rfl,Finset.mem_singleton_self 3,rfl⟩⟩

end SelectServer
end PcEnv
