import Mathlib.Data.List.ReduceOption
import PcEnv.Monitor

/-! `MTQueue`, a bounded deque of owned elements behind a mutex and a condition variable.
An element is a pointer other than `NULL`. The milliseconds of the timed calls are left out:
a deadline may pass at any time. -/
namespace PcEnv

/-- `q` starts with its front, the newest element. -/
structure MTQueue (α : Type) where
  q : List α
  maxCount : ℕ
  mIsWaitWasExited : Bool
  deriving DecidableEq

namespace MTQueue

open Runs Monitor

variable {α : Type}

/-- `maxSize` is `q.max_size()`. -/
def create (α : Type) (maxSize mMax : ℕ) : MTQueue α :=
  { q := [], maxCount := if mMax < maxSize then mMax else maxSize, mIsWaitWasExited := false }

def back (m : MTQueue α) : Option α := m.q.getLast?
def popBack (m : MTQueue α) : MTQueue α := { m with q := m.q.dropLast }
def pushFront (m : MTQueue α) (one : α) : MTQueue α := { m with q := one::m.q }

/-- The queued elements, oldest first. -/
def content (m : MTQueue α) : List α := m.q.reverse

@[simp] theorem content_pushFront (m : MTQueue α) (one : α) :
    (m.pushFront one).content = m.content++[one] := List.reverse_cons
@[simp] theorem content_length (m : MTQueue α) : m.content.length = m.q.length :=
  List.length_reverse

theorem content_popBack {m : MTQueue α} {one : α} (h : m.back = some one) :
    m.content = one::m.popBack.content := by
  have hq : m.q.dropLast++[one] = m.q := List.dropLast_append_getLast? one h
  simp only [content,popBack]
  nth_rewrite 1 [← hq]
  simp

inductive Ret (α : Type)
  | read (one : Option α)
  | write (res : ℤ)
  | cycWrite (fullFlag : Bool)
  | getSize (size : ℕ)
  | get (one : Option α)
  | done
  deriving DecidableEq

/-- How an element leaves the deque. -/
inductive Fate
  | returned | evicted | dropped
  deriving DecidableEq

structure Section (α : Type) where
  queue : MTQueue α
  out : Outcome (Ret α)
  accepted : List α := []
  removed : List (α × Fate) := []
  destroyed : List α := []

/-- `while (q.empty()) cond.wait(locker)`, then the oldest element. -/
def read (m : MTQueue α) : Section α :=
  match m.back with
  | none => { queue := m, out := .wait }
  | some one =>
    { queue := m.popBack, out := .ret (.read (some one)), removed := [(one,.returned)] }

/-- The predicate of `wait_for` is tested first, after every wake-up and at the deadline; the
exit flag only when it fails there. -/
def readTd (expired : Bool) (m : MTQueue α) : Section α :=
  match m.back with
  | none =>
    if expired && m.mIsWaitWasExited then { queue := m, out := .ret (.read none) }
    else { queue := m, out := .wait }
  | some one =>
    { queue := m.popBack, out := .ret (.read (some one)), removed := [(one,.returned)] }

def writeTd (one : α) (expired : Bool) (m : MTQueue α) : Section α :=
  if m.maxCount ≤ m.q.length then
    if expired && m.mIsWaitWasExited then { queue := m, out := .ret (.write (-1)) }
    else { queue := m, out := .wait }
  else { queue := m.pushFront one, out := .signal (.write 0), accepted := [one] }

def write (one : α) (m : MTQueue α) : Section α :=
  if m.maxCount ≤ m.q.length then { queue := m, out := .ret (.write (-1)) }
  else { queue := m.pushFront one, out := .signal (.write 0), accepted := [one] }

/-- `back` and `pop_back` of an empty deque are undefined. -/
def cycWrite (one : α) (m : MTQueue α) : Except Halt (Section α) :=
  if m.maxCount ≤ m.q.length then
    match m.back with
    | none => .error .fault
    | some old =>
      .ok { queue := m.popBack.pushFront one, out := .signal (.cycWrite true),
            accepted := [one], removed := [(old,.evicted)], destroyed := [old] }
  else
    .ok { queue := m.pushFront one, out := .signal (.cycWrite false), accepted := [one] }

/-- `q.clear()` runs no `destroyOne`. -/
def clear (m : MTQueue α) : Section α :=
  { queue := { m with q := [] }, out := .ret .done,
    removed := m.content.map (fun one => (one,.dropped)) }

def getSize (m : MTQueue α) : Section α := { queue := m, out := .ret (.getSize m.q.length) }

def get (m : MTQueue α) : Section α := { queue := m, out := .ret (.get m.back) }

/-- The flag is set outside the lock; a critical section reads it at most once. -/
def setWaitExitState (m : MTQueue α) : Section α :=
  { queue := { m with mIsWaitWasExited := true }, out := .ret .done }

/-- `~MTQueue` is `q.clear()` again. -/
def dtor (m : MTQueue α) : Section α := m.clear

inductive Call (α : Type)
  | read
  | readTd
  | writeTd (one : α)
  | write (one : α)
  | cycWrite (one : α)
  | clear
  | getSize
  | get
  | setWaitExitState
  deriving DecidableEq

def critical (c : Call α) (expired : Bool) (m : MTQueue α) : Except Halt (Section α) :=
  match c with
  | .read => .ok m.read
  | .readTd => .ok (m.readTd expired)
  | .writeTd one => .ok (m.writeTd one expired)
  | .write one => .ok (m.write one)
  | .cycWrite one => m.cycWrite one
  | .clear => .ok m.clear
  | .getSize => .ok m.getSize
  | .get => .ok m.get
  | .setWaitExitState => .ok m.setWaitExitState

def isRead : Call α → Bool
  | .read | .readTd => true
  | _ => false

def isWrite : Call α → Bool
  | .writeTd _ | .write _ | .cycWrite _ => true
  | _ => false

inductive Does (m : MTQueue α) : Call α → Section α → Prop
  | wait {c} (hc : c ≠ .clear) (h : isRead c = true → m.q = []) :
      Does m c { queue := m, out := .wait }
  | same {c r} (hc : isRead c = false) (hclear : c ≠ .clear)
      (hr : ∀ one, r ≠ .read one) : Does m c { queue := m, out := .ret r }
  | null (hb : m.back = none) (hx : m.mIsWaitWasExited = true) :
      Does m .readTd { queue := m, out := .ret (.read none) }
  | take {c one} (hc : isRead c = true) (hb : m.back = some one) :
      Does m c { queue := m.popBack, out := .ret (.read (some one)),
                 removed := [(one,.returned)] }
  | push {c r one} (hc : isWrite c = true) (h : ¬ m.maxCount ≤ m.q.length)
      (hr : ∀ one, r ≠ .read one) :
      Does m c { queue := m.pushFront one, out := .signal r, accepted := [one] }
  | evict {one old} (hb : m.back = some old) :
      Does m (.cycWrite one) { queue := m.popBack.pushFront one,
                               out := .signal (.cycWrite true), accepted := [one],
                               removed := [(old,.evicted)], destroyed := [old] }
  | forget : Does m .clear m.clear
  | exit : Does m .setWaitExitState m.setWaitExitState

theorem critical_does {m : MTQueue α} {c : Call α} {expired : Bool} {sec : Section α}
    (h : critical c expired m = .ok sec) : Does m c sec := by
  cases c with
  | read =>
    cases h
    unfold read
    split
    · next hb => exact .wait (by simp) (fun _ => by simpa [back] using hb)
    · next one hb => exact .take rfl hb
  | readTd =>
    cases h
    unfold readTd
    split
    · next hb =>
      split_ifs with hx
      · exact .null hb (by simp at hx; exact hx.2)
      · exact .wait (by simp) (fun _ => by simpa [back] using hb)
    · next one hb => exact .take rfl hb
  | writeTd one =>
    cases h
    unfold writeTd
    split_ifs with hfull hx
    · exact .same rfl (by simp) (by simp)
    · exact .wait (by simp) (by simp [isRead])
    · exact .push rfl hfull (by simp)
  | write one =>
    cases h
    unfold write
    split_ifs with hfull
    · exact .same rfl (by simp) (by simp)
    · exact .push rfl hfull (by simp)
  | cycWrite one =>
    simp only [critical,cycWrite] at h
    split_ifs at h with hfull
    · cases hb : m.back with
      | none => simp [hb] at h
      | some old =>
        simp only [hb,Except.ok.injEq] at h
        exact h ▸ .evict hb
    · cases h
      exact .push rfl hfull (by simp)
  | clear =>
    cases h
    exact .forget
  | getSize | get =>
    cases h
    exact .same rfl (by simp) (by simp)
  | setWaitExitState =>
    cases h
    exact .exit

/-- The queue with everything that has happened to its elements, and the results of the calls,
each in the order of the critical sections. -/
structure Ledger (α : Type) where
  queue : MTQueue α
  accepted : List α
  removed : List (α × Fate)
  destroyed : List α
  rets : List (Ret α)
  deriving DecidableEq

def openLedger (m : MTQueue α) : Ledger α := ⟨m,[],[],[],[]⟩

def Ledger.record (l : Ledger α) (sec : Section α) : Ledger α :=
  { queue := sec.queue, accepted := l.accepted++sec.accepted,
    removed := l.removed++sec.removed, destroyed := l.destroyed++sec.destroyed,
    rets := l.rets++sec.out.results }

def timed : Call α → Bool
  | .readTd | .writeTd _ => true
  | _ => false

def code (α : Type) : Code (Call α) (Ret α) (Ledger α) where
  timed := timed
  body c expired l :=
    match critical c expired l.queue with
    | .ok sec => .ok (l.record sec,sec.out)
    | .error h => .error h

def start {T : Type} (m : MTQueue α) : Sys T (Call α) (Ret α) (Ledger α) :=
  { shared := openLedger m, pc := fun _ => .idle }

def fate (f : Fate) (removed : List (α × Fate)) : List α :=
  removed.filterMap (fun x => if x.2 = f then some x.1 else none)

@[simp] theorem fate_append (f : Fate) (xs ys : List (α × Fate)) :
    fate f (xs++ys) = fate f xs++fate f ys := List.filterMap_append
@[simp] theorem fate_nil (f : Fate) : fate f ([] : List (α × Fate)) = [] := rfl

theorem fate_cons (f : Fate) (x : α × Fate) (xs : List (α × Fate)) :
    fate f (x::xs) = if x.2 = f then x.1::fate f xs else fate f xs := by
  unfold fate
  split_ifs with h <;> simp [h]

theorem fate_all (f g : Fate) (xs : List α) :
    fate f (xs.map (fun x => (x,g))) = if g = f then xs else [] := by
  induction xs with
  | nil => simp
  | cons x xs ih =>
    rw [List.map_cons,fate_cons,ih]
    split_ifs <;> rfl

theorem fates_perm (removed : List (α × Fate)) :
    (fate .returned removed++fate .evicted removed++fate .dropped removed).Perm
      (removed.map Prod.fst) := by
  induction removed with
  | nil => rfl
  | cons x removed ih =>
    obtain ⟨one,f⟩ := x
    have hmid (xs ys zs : List α) : (xs++one::ys++zs).Perm (one::(xs++ys++zs)) := by
      rw [List.append_assoc,List.append_assoc]
      exact List.perm_middle
    simp only [fate_cons,List.map_cons]
    cases f with
    | returned => simpa using ih
    | evicted => simpa using (hmid _ _ _).trans (ih.cons one)
    | dropped => simpa using List.perm_middle.trans (ih.cons one)

def reads (rets : List (Ret α)) : List (Option α) :=
  rets.filterMap (fun r => match r with
    | .read one => some one
    | _ => none)

@[simp] theorem reads_append (xs ys : List (Ret α)) : reads (xs++ys) = reads xs++reads ys :=
  List.filterMap_append

structure Accounted (m : MTQueue α) (sec : Section α) : Prop where
  content : m.content++sec.accepted = sec.removed.map Prod.fst++sec.queue.content
  max : sec.queue.maxCount = m.maxCount
  bound : m.q.length ≤ m.maxCount → sec.queue.q.length ≤ m.maxCount
  destroyed : sec.destroyed = fate .evicted sec.removed
  returned : (reads sec.out.results).reduceOption = fate .returned sec.removed

theorem reads_other {r : Ret α} (h : ∀ one, r ≠ .read one) : reads [r] = [] := by
  cases r with
  | read one => exact (h one rfl).elim
  | _ => rfl

theorem popBack_length {m : MTQueue α} {one : α} (h : m.back = some one) :
    m.popBack.q.length+1 = m.q.length := by
  have hc := congrArg List.length (content_popBack h)
  simpa using hc.symm

theorem Does.accounted {m : MTQueue α} {c : Call α} {sec : Section α} (h : Does m c sec) :
    Accounted m sec := by
  cases h with
  | wait _ _ => exact ⟨by simp,rfl,id,rfl,rfl⟩
  | same _ _ hr => exact ⟨by simp,rfl,id,rfl,by simp [Outcome.results,reads_other hr]⟩
  | null _ _ => exact ⟨by simp,rfl,id,rfl,rfl⟩
  | take _ hb =>
    have hlen := popBack_length hb
    refine ⟨by simpa using content_popBack hb,rfl,?_,rfl,rfl⟩
    intro hle
    simp only
    omega
  | push _ hfull hr =>
    refine ⟨by simp,rfl,?_,rfl,by simp [Outcome.results,reads_other hr]⟩
    intro hle
    simp only [pushFront,List.length_cons]
    omega
  | evict hb =>
    have hlen := popBack_length hb
    refine ⟨by simp [content_popBack hb],rfl,?_,rfl,rfl⟩
    intro hle
    simp only [pushFront,List.length_cons]
    omega
  | forget =>
    refine ⟨by simp [clear,content,Function.comp_def],rfl,fun _ => Nat.zero_le _,?_,?_⟩
    · simp [clear,fate_all]
    · simp [clear,fate_all,Outcome.results,reads]
  | exit => exact ⟨by simp [setWaitExitState,content],rfl,id,rfl,rfl⟩

theorem clear_dropped (m : MTQueue α) : fate .dropped m.clear.removed = m.content := by
  simp only [clear]
  rw [fate_all,if_pos rfl]

theorem Does.dropped {m : MTQueue α} {c : Call α} {sec : Section α} (h : Does m c sec) :
    fate .dropped sec.removed = [] ↔ (c = .clear → m.q = []) := by
  cases h with
  | wait hclear _ => simp [hclear]
  | same _ hclear _ => simp [hclear]
  | null _ _ => simp
  | take hc _ =>
    have hne : c ≠ .clear := by
      rintro rfl
      cases hc
    simp [fate_cons,hne]
  | push hc _ _ =>
    have hne : c ≠ .clear := by
      rintro rfl
      cases hc
    simp [hne]
  | evict _ => simp [fate_cons]
  | forget =>
    rw [clear_dropped]
    simp [content]
  | exit => simp [setWaitExitState]

theorem critical_safe {m : MTQueue α} (h : 1 ≤ m.maxCount) (c : Call α) (expired : Bool) :
    critical c expired m ≠ .error .fault := by
  cases c with
  | cycWrite one =>
    simp only [critical,cycWrite]
    split_ifs with hfull
    · cases hb : m.back with
      | none =>
        have hq : m.q = [] := by simpa [back] using hb
        simp [hq] at hfull
        omega
      | some old => simp
    · simp
  | _ => simp [critical]

structure Balanced (maxCount : ℕ) (l : Ledger α) : Prop where
  max : l.queue.maxCount = maxCount
  bound : l.queue.q.length ≤ maxCount
  account : l.accepted = l.removed.map Prod.fst++l.queue.content
  destroyed : l.destroyed = fate .evicted l.removed
  returned : (reads l.rets).reduceOption = fate .returned l.removed

theorem Balanced.record {n : ℕ} {l : Ledger α} {sec : Section α} (h : Balanced n l)
    (hsec : Accounted l.queue sec) : Balanced n (l.record sec) where
  max := hsec.max.trans h.max
  bound := by
    have hb := hsec.bound
    rw [h.max] at hb
    exact hb h.bound
  account := by
    have hc := hsec.content
    simp only [Ledger.record,List.map_append,List.append_assoc]
    rw [← hc,h.account,List.append_assoc]
  destroyed := by simp [Ledger.record,h.destroyed,hsec.destroyed]
  returned := by
    simp only [Ledger.record,reads_append,List.reduceOption_append,fate_append]
    rw [h.returned,hsec.returned]

theorem body_ok {c : Call α} {expired : Bool} {l l' : Ledger α} {out : Outcome (Ret α)}
    (h : (code α).body c expired l = .ok (l',out)) :
    ∃ sec, critical c expired l.queue = .ok sec ∧ l' = l.record sec ∧ out = sec.out := by
  cases hc : critical c expired l.queue with
  | error x => simp [code,hc] at h
  | ok sec =>
    simp only [code,hc,Except.ok.injEq,Prod.mk.injEq] at h
    exact ⟨sec,rfl,h.1.symm,h.2.symm⟩

theorem body_balanced {n : ℕ} {c : Call α} {expired : Bool} {l l' : Ledger α}
    {out : Outcome (Ret α)} (hl : Balanced n l) (h : (code α).body c expired l = .ok (l',out)) :
    Balanced n l' := by
  obtain ⟨sec,hsec,rfl,-⟩ := body_ok h
  exact hl.record (critical_does hsec).accounted

theorem openLedger_balanced (m : MTQueue α) (h : m.q = []) :
    Balanced m.maxCount (openLedger m) := by
  refine ⟨rfl,?_,?_,rfl,rfl⟩
  · simp [openLedger,h]
  · simp [openLedger,content,h]

theorem create_maxCount {maxSize mMax : ℕ} (hs : 1 ≤ maxSize) (hm : 1 ≤ mMax) :
    1 ≤ (create α maxSize mMax).maxCount := by
  unfold create
  split_ifs <;> assumption

section Runs

variable {T : Type} [Fintype T] [DecidableEq T]

theorem run_balanced {m : MTQueue α} (hq : m.q = []) {es : List (Event T (Call α))}
    {s : Sys T (Call α) (Ret α) (Ledger α)} (hs : exec (step (code α)) (start m) es = .ok s) :
    Balanced m.maxCount s.shared := by
  refine (shared_invariant (fun _ => True) (Balanced m.maxCount) ?_ ?_ ?_ ?_ hs).2
  · exact fun c expired l l' out _ hl h => body_balanced hl h
  · exact fun _ _ _ => trivial
  · exact openLedger_balanced m hq
  · exact along_of_forall (fun _ e => by cases e <;> trivial) _ _

theorem run_safe {m : MTQueue α} (hq : m.q = []) (hm : 1 ≤ m.maxCount)
    (es : List (Event T (Call α))) :
    exec (step (code α)) (start m) es ≠ .error .fault := by
  apply shared_safe (fun _ => True) (Balanced m.maxCount)
  · exact fun c expired l l' out _ hl h => body_balanced hl h
  · intro c expired l _ hl h
    cases hc : critical c expired l.queue with
    | ok sec => simp [code,hc] at h
    | error x =>
      simp only [code,hc,Except.error.injEq] at h
      exact critical_safe (by rw [hl.max]; exact hm) c expired (hc.trans (congrArg _ h))
  · exact fun _ _ h => by simp [start,Pc.call?] at h
  · exact openLedger_balanced m hq
  · exact along_of_forall (fun _ e => by cases e <;> trivial) _ _

theorem run_accepted {s u : Sys T (Call α) (Ret α) (Ledger α)} {es : List (Event T (Call α))}
    (hu : exec (step (code α)) s es = .ok u) : s.shared.accepted <+: u.shared.accepted := by
  refine (shared_invariant (fun _ => True) (fun l => s.shared.accepted <+: l.accepted)
    ?_ (fun _ _ _ => trivial) List.prefix_rfl ?_ hu).2
  · intro c expired l l' out _ hl h
    obtain ⟨sec,-,rfl,-⟩ := body_ok h
    exact hl.trans (List.prefix_append _ _)
  · exact along_of_forall (fun _ e => by cases e <;> trivial) _ _

def ClearsEmpty (s : Sys T (Call α) (Ret α) (Ledger α)) : Event T (Call α) → Prop
  | .lock t => (s.pc t).call? = some .clear → s.shared.queue.q = []
  | _ => True

instance [DecidableEq α] (s : Sys T (Call α) (Ret α) (Ledger α)) : DecidablePred (ClearsEmpty s)
  | .lock t => inferInstanceAs (Decidable ((s.pc t).call? = some .clear → s.shared.queue.q = []))
  | .call _ _ | .notify _ _ | .timeout _ | .spurious _ => .isTrue trivial

def NoClear : Sys T (Call α) (Ret α) (Ledger α) → Event T (Call α) → Prop :=
  CallOk (fun c => c ≠ .clear)

instance [DecidableEq α] (s : Sys T (Call α) (Ret α) (Ledger α)) : DecidablePred (NoClear s) :=
  inferInstanceAs (DecidablePred (CallOk (fun c => c ≠ .clear) s))

theorem step_dropped {s u : Sys T (Call α) (Ret α) (Ledger α)} {e : Event T (Call α)}
    (h : step (code α) s e = .ok u) :
    fate .dropped u.shared.removed = [] ↔
      fate .dropped s.shared.removed = [] ∧ ClearsEmpty s e := by
  cases step_move h with
  | @lock t c expired l out hpc hb =>
    obtain ⟨sec,hsec,rfl,-⟩ := body_ok hb
    have hcall := Pc.call_of_entered hpc
    simp only [Sys.moved_shared,Ledger.record,fate_append,List.append_eq_nil_iff,
      (critical_does hsec).dropped,ClearsEmpty,hcall,Option.some_inj]
  | _ => simp [ClearsEmpty]

theorem run_dropped {m : MTQueue α} {es : List (Event T (Call α))}
    {s : Sys T (Call α) (Ret α) (Ledger α)} (hs : exec (step (code α)) (start m) es = .ok s) :
    fate .dropped s.shared.removed = [] ↔ Along (step (code α)) ClearsEmpty (start m) es := by
  rw [exec_iff_along (fun _ _ _ h => step_dropped h) hs]
  simp [start,openLedger]

theorem run_noClear {m : MTQueue α} {es : List (Event T (Call α))}
    {s : Sys T (Call α) (Ret α) (Ledger α)} (ha : Along (step (code α)) NoClear (start m) es)
    (hs : exec (step (code α)) (start m) es = .ok s) : fate .dropped s.shared.removed = [] := by
  refine (shared_invariant (fun c => c ≠ .clear) (fun l => fate .dropped l.removed = [])
    ?_ ?_ rfl ha hs).2
  · intro c expired l l' out hc hl h
    obtain ⟨sec,hsec,rfl,-⟩ := body_ok h
    have hnone := ((critical_does hsec).dropped).mpr (fun h => absurd h hc)
    simp only [Ledger.record,fate_append,hl,hnone,List.append_nil]
  · exact fun _ _ h => by simp [start,Pc.call?] at h

def evictEvents : List (Event (Fin 3) (Call ℕ)) :=
  [.call 0 (.cycWrite 5),.call 1 (.cycWrite 6),.lock 1,.lock 0,.notify 0 none,.call 2 .readTd,
   .notify 1 none,.lock 2]

/-- The account of ownership after `~MTQueue`: every accepted element was returned by one read
or destroyed once. -/
def Owned (l : Ledger α) : Prop :=
  ((reads (l.record l.queue.dtor).rets).reduceOption++(l.record l.queue.dtor).destroyed).Perm
    (l.record l.queue.dtor).accepted

theorem Balanced.owned {n : ℕ} {l : Ledger α} (h : Balanced n l) :
    Owned l ↔ fate .dropped l.removed = [] ∧ l.queue.q = [] := by
  have hd : Balanced n (l.record l.queue.dtor) := h.record (Does.forget (m:=l.queue)).accounted
  have hdropped : fate .dropped (l.record l.queue.dtor).removed =
      fate .dropped l.removed++l.queue.content := by
    rw [← clear_dropped l.queue]
    exact fate_append _ _ _
  have hall := fates_perm (l.record l.queue.dtor).removed
  have hacc : (l.record l.queue.dtor).accepted =
      (l.record l.queue.dtor).removed.map Prod.fst := by
    rw [hd.account]
    exact List.append_nil _
  rw [Owned,hd.returned,hd.destroyed,hacc]
  constructor
  · intro hp
    have hlen := (hall.trans hp.symm).length_eq
    rw [List.length_append,Nat.add_eq_left,List.length_eq_zero_iff,hdropped,
      List.append_eq_nil_iff] at hlen
    simpa [content] using hlen
  · rintro ⟨hnone,hq⟩
    rw [hdropped,hnone,content,hq] at hall
    simpa using hall

def drainedEvents : List (Event Unit (Call ℕ)) :=
  [.call () (.write 5),.lock (),.notify () none,.call () .read,.lock (),.call () .clear,.lock ()]

def forgottenEvents : List (Event Unit (Call ℕ)) :=
  [.call () (.write 5),.lock (),.notify () none,.call () .clear,.lock ()]

end Runs

end MTQueue
end PcEnv
