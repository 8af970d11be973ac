import PcEnv.SockServer

/-! Which clients of `SocServer::Run` can be reaped: a handler that returns before its last line
leaves its client in `RESPONSE_START`. -/
namespace PcEnv
namespace SockServer

open FdTable Runs Text Word

/-- What the state of the handler says about the rest of its client. -/
def Phased (x : Client) : Prop :=
  match x.handler with
  | .idle => x.responseStep = .waiting
  | .receiving i req => x.responseStep = .start ∧ i < maxRecv ∧ req.length ≤ i*bufSize
  | .received req _ | .responding req => x.responseStep = .start ∧ req.length ≤ maxRecv*bufSize
  | .finishing => x.responseStep = .finish
  | .ended => x.responseStep ≠ .waiting

/-- A handler that has ended has left its client in `RESPONSE_FINISH`. -/
def Reapable (x : Client) : Prop := x.handler = .ended → x.responseStep = .finish

/-- The request is long enough, its end was found, and the client is not told to stop. -/
def Passes (x : Client) : Prop :=
  ∀ req found, x.handler = .received req found →
    minReq ≤ req.length ∧ found = true ∧ x.exitWork = false

/-- The tests that are made in this step are passed. -/
def TestsPass (s : Sys) : Event → Prop
  | .handler c .test => Passes (s.objs c)
  | _ => True

/-- What is received in this step leaves a NUL in `buf`. -/
def FitsBuf (s : Sys) : Event → Prop
  | .handler c (.recv r) =>
    (∃ i req, (s.objs c).handler = .receiving i req) → (s.objs c).exitWork = false → ¬Overreads r
  | _ => True

section

variable {x y : Client} {a : Act}

theorem length_appended (exitWork : Bool) (r : Recvd) :
    (appended exitWork r).length ≤ bufSize := by
  cases r with
  | bytes chunk =>
    have htake := (List.takeWhile_sublist (fun b => decide (b ≠ 0)) (l:=stored chunk)).length_le
    have hstored : (stored chunk).length ≤ bufSize := List.length_take_le _ _
    simp only [appended]
    split_ifs
    · exact Nat.zero_le _
    · omega
  | nothing => exact Nat.zero_le _

inductive Turns (x : Client) : Act → Client → Prop
  | recv {i req r} (hh : x.handler = .receiving i req) :
      Turns x (.recv r) { x with handler := nextTurn i (req++appended x.exitWork r) }
  | test {req found} (hh : x.handler = .received req found) :
      Turns x .test { x with handler := tested req found x.exitWork }
  | respond {req} (hh : x.handler = .responding req) :
      Turns x .respond { x with handler := .finishing, responseStep := .finish }
  | closeSocket (hh : x.handler = .finishing) : Turns x .closeSocket { x with handler := .ended }

theorem turn_cases (h : x.turn a = .ok y) : Turns x a y := by
  cases a with
  | recv r =>
    cases hh : x.handler with
    | receiving i req =>
      simp only [Client.turn,hh] at h
      split_ifs at h
      cases h
      exact .recv hh
    | _ => simp only [Client.turn,hh,reduceCtorEq] at h
  | test =>
    cases hh : x.handler with
    | received req found =>
      simp only [Client.turn,hh,Except.ok.injEq] at h
      exact h ▸ .test hh
    | _ => simp only [Client.turn,hh,reduceCtorEq] at h
  | respond =>
    cases hh : x.handler with
    | responding req =>
      simp only [Client.turn,hh,Except.ok.injEq] at h
      exact h ▸ .respond hh
    | _ => simp only [Client.turn,hh,reduceCtorEq] at h
  | closeSocket =>
    cases hh : x.handler with
    | finishing =>
      simp only [Client.turn,hh,Except.ok.injEq] at h
      exact h ▸ .closeSocket hh
    | _ => simp only [Client.turn,hh,reduceCtorEq] at h

theorem tested_cases (req : List UInt8) (found exitWork : Bool) :
    (tested req found exitWork = .responding req ∧
      minReq ≤ req.length ∧ found = true ∧ exitWork = false) ∨
    (tested req found exitWork = .ended ∧
      ¬(minReq ≤ req.length ∧ found = true ∧ exitWork = false)) := by
  unfold tested
  split_ifs with hshort hfound hexit
  · exact Or.inr ⟨rfl,fun h => by omega⟩
  · exact Or.inr ⟨rfl,fun h => by simp [h.2.1] at hfound⟩
  · exact Or.inr ⟨rfl,fun h => by simp [h.2.2] at hexit⟩
  · exact Or.inl ⟨rfl,by omega,by simpa using hfound,by simpa using hexit⟩

theorem nextTurn_cases (i : ℕ) (req : List UInt8) :
    (∃ found, nextTurn i req = .received req found) ∨
      i+1 < maxRecv ∧ nextTurn i req = .receiving (i+1) req := by
  unfold nextTurn
  split_ifs with hfind hmore
  · exact Or.inl ⟨true,rfl⟩
  · exact Or.inr ⟨hmore,rfl⟩
  · exact Or.inl ⟨false,rfl⟩

theorem Phased.recv {i : ℕ} {req more : List UInt8} (hs : x.responseStep = .start)
    (hi : i < maxRecv) (hlen : req.length ≤ i*bufSize) (hmore : more.length ≤ bufSize) :
    Phased { x with handler := nextTurn i (req++more) } := by
  have hnext : (req++more).length ≤ (i+1)*bufSize := by
    rw [List.length_append,Nat.succ_mul]
    omega
  rcases nextTurn_cases i (req++more) with ⟨found,hn⟩ | ⟨hlt,hn⟩
  · rw [hn]
    exact ⟨hs,hnext.trans (Nat.mul_le_mul_right bufSize hi)⟩
  · rw [hn]
    exact ⟨hs,hlt,hnext⟩

theorem Turns.phased (h : Turns x a y) (hx : Phased x) :
    Phased y ∧ y.sockfd = x.sockfd ∧ y.responseStep ≠ .waiting ∧
      (x.responseStep = .finish → y.responseStep = .finish) := by
  cases h with
  | @recv i req r hh =>
    simp only [Phased,hh] at hx
    obtain ⟨hs,hi,hlen⟩ := hx
    exact ⟨.recv hs hi hlen (length_appended _ r),rfl,by simp [hs],id⟩
  | @test req found hh =>
    simp only [Phased,hh] at hx
    obtain ⟨hs,hlen⟩ := hx
    refine ⟨?_,rfl,by simp [hs],id⟩
    rcases tested_cases req found x.exitWork with ⟨ht,-⟩ | ⟨ht,-⟩
    · rw [ht]
      exact ⟨hs,hlen⟩
    · rw [ht]
      simp [Phased,hs]
  | respond hh => exact ⟨rfl,rfl,by simp,fun _ => rfl⟩
  | closeSocket hh =>
    simp only [Phased,hh] at hx
    exact ⟨by simp [Phased,hx],rfl,by simp [hx],id⟩

/-- Only the tests can end a handler without `RESPONSE_FINISH`. -/
theorem Turns.reapable (h : Turns x a y) (hx : Phased x) :
    Reapable y ↔ (a = .test → Passes x) := by
  cases h with
  | @recv i req r hh =>
    refine iff_of_true (fun hend => ?_) (by simp)
    rcases nextTurn_cases i (req++appended x.exitWork r) with ⟨found,hn⟩ | ⟨-,hn⟩
    · exact absurd (hn.symm.trans hend) (by simp)
    · exact absurd (hn.symm.trans hend) (by simp)
  | @test req found hh =>
    simp only [Phased,hh] at hx
    have hpass : Passes x ↔ minReq ≤ req.length ∧ found = true ∧ x.exitWork = false := by
      refine ⟨fun h => h req found hh,fun h req' found' hh' => ?_⟩
      rw [hh] at hh'
      cases hh'
      exact h
    simp only [forall_const,hpass]
    rcases tested_cases req found x.exitWork with ⟨ht,hok⟩ | ⟨ht,hno⟩
    · exact iff_of_true (fun hend => absurd (ht.symm.trans hend) (by simp)) hok
    · refine iff_of_false (fun hr => ?_) hno
      have hfin : x.responseStep = .finish := hr ht
      rw [hx.1] at hfin
      cases hfin
  | respond hh => exact iff_of_true (by simp [Reapable]) (by simp)
  | closeSocket hh =>
    simp only [Phased,hh] at hx
    exact iff_of_true (fun _ => hx) (by simp)

theorem Turns.running (h : Turns x a y) : x.handler ≠ .ended ∧ x.handler ≠ .idle := by
  cases h with
  | recv hh => simp [hh]
  | test hh => simp [hh]
  | respond hh => simp [hh]
  | closeSocket hh => simp [hh]

end

def Main.todo : Main → List ℕ
  | .starting todo | .reaping todo => todo
  | .joining c todo => c::todo
  | .select | .returned => []

structure Ordered (s : Sys) : Prop where
  phased : ∀ c, Phased (s.objs c)
  fresh : ∀ c, s.next ≤ c → (s.objs c).handler = .idle
  clients : ∀ c ∈ s.m_clients, c < s.next
  todo : ∀ c ∈ s.main.todo, c < s.next
  joining : ∀ c todo, s.main = .joining c todo → (s.objs c).responseStep = .finish
  starts : ∀ c ∈ s.starts, c < s.next ∧ (s.objs c).responseStep ≠ .waiting
  nodup : s.starts.Nodup

section

variable {s t : Sys} {e : Event}

theorem Ordered.start : Ordered Sys.start where
  phased := fun _ => rfl
  fresh := fun _ _ => rfl
  clients := by simp [Sys.start]
  todo := by simp [Sys.start,Main.todo]
  joining := by simp [Sys.start]
  starts := by simp [Sys.start]
  nodup := List.nodup_nil

theorem Ordered.setObj {c : ℕ} {x : Client} (h : Ordered s) (hx : Phased x)
    (hidle : s.next ≤ c → x.handler = .idle)
    (hfin : (s.objs c).responseStep = .finish → x.responseStep = .finish)
    (hstart : (s.objs c).responseStep ≠ .waiting → x.responseStep ≠ .waiting) :
    Ordered (s.setObj c x) where
  phased := (Sys.forall_setObj (fun _ y => Phased y)).mpr ⟨hx,fun d _ => h.phased d⟩
  fresh := (Sys.forall_setObj (fun d y => s.next ≤ d → y.handler = .idle)).mpr
    ⟨hidle,fun d _ => h.fresh d⟩
  clients := h.clients
  todo := h.todo
  joining := by
    intro d todo hm
    have hd := h.joining d todo hm
    by_cases hdc : d = c
    · subst d
      rw [Sys.setObj_self]
      exact hfin hd
    · rwa [Sys.setObj_ne s hdc]
  starts := by
    intro d hd
    obtain ⟨hlt,hne⟩ := h.starts d hd
    refine ⟨hlt,?_⟩
    by_cases hdc : d = c
    · subst d
      rw [Sys.setObj_self]
      exact hstart hne
    · rwa [Sys.setObj_ne s hdc]
  nodup := h.nodup

theorem Ordered.setMain {m : Main} (h : Ordered s) (htodo : ∀ c ∈ m.todo, c < s.next)
    (hjoin : ∀ c todo, m = .joining c todo → (s.objs c).responseStep = .finish) :
    Ordered { s with main := m } :=
  ⟨h.phased,h.fresh,h.clients,htodo,hjoin,h.starts,h.nodup⟩

theorem Ordered.setFds (h : Ordered s) (fds : List (Option Owner)) (closes : List Close) :
    Ordered { s with fds := fds, closes := closes } :=
  ⟨h.phased,h.fresh,h.clients,h.todo,h.joining,h.starts,h.nodup⟩

theorem Ordered.turn {c : ℕ} {a : Act} {x : Client} (h : Ordered s) (hx : Turns (s.objs c) a x) :
    Ordered (s.setObj c x) := by
  obtain ⟨hp,-,hstart,hfin⟩ := hx.phased (h.phased c)
  exact h.setObj hp (fun hge => absurd (h.fresh c hge) hx.running.2) hfin (fun _ => hstart)

theorem Ordered.waiting (h : Ordered s) {c : ℕ} (hc : (s.objs c).handler = .idle) :
    (s.objs c).responseStep = .waiting := by
  have hp := h.phased c
  rwa [Phased,hc] at hp

theorem Ordered.idle_iff (h : Ordered s) (c : ℕ) :
    (s.objs c).handler = .idle ↔ (s.objs c).responseStep = .waiting := by
  refine ⟨h.waiting,fun hw => ?_⟩
  have hp := h.phased c
  cases hh : (s.objs c).handler with
  | idle => rfl
  | ended =>
    simp only [Phased,hh] at hp
    exact absurd hw hp
  | _ => simp [Phased,hh,hw] at hp

theorem Phased.exitWork {x : Client} (h : Phased x) (b : Bool) :
    Phased { x with exitWork := b } := h

theorem Ordered.move (h : Ordered s) (hm : Moves s e t) : Ordered t := by
  cases hm with
  | accepted hm =>
    have hwait := h.waiting (h.fresh s.next (le_refl _))
    have hnew : Ordered (s.setObj s.next (Client.new (lowest s.fds))) :=
      h.setObj rfl (fun _ => rfl) (fun hf => by rw [hwait] at hf; cases hf)
        (fun hne => absurd hwait hne)
    refine ⟨hnew.phased,fun c hc => hnew.fresh c (Nat.le_of_succ_le hc),fun c hc => ?_,
      fun c hc => Nat.lt_succ_of_lt (h.todo c hc),hnew.joining,
      fun c hc => ⟨Nat.lt_succ_of_lt (h.starts c hc).1,(hnew.starts c hc).2⟩,h.nodup⟩
    rcases List.mem_append.mp hc with hc | hc
    · exact Nat.lt_succ_of_lt (h.clients c hc)
    · exact Nat.lt_succ_of_le (List.mem_singleton.mp hc).le
  | refused hm => exact h
  | quiet hm => exact h.setMain h.clients (by simp)
  | left hm => exact h.setMain (by simp [Main.todo]) (by simp)
  | @started c todo readable hm hw =>
    have htodo := h.todo
    rw [hm] at htodo
    have hc := htodo c List.mem_cons_self
    have hset : Ordered
        (s.setObj c { s.objs c with responseStep := .start, handler := .receiving 0 [] }) :=
      h.setObj ⟨rfl,by decide,Nat.zero_le _⟩ (fun hge => absurd hc (not_lt.mpr hge))
        (fun hf => by rw [hw] at hf; cases hf) (fun _ => by simp)
    refine ⟨hset.phased,hset.fresh,h.clients,
      fun d hd => htodo d (List.mem_cons_of_mem c hd),by simp,fun d hd => ?_,?_⟩
    · rcases List.mem_append.mp hd with hd | hd
      · exact hset.starts d hd
      · obtain rfl := List.mem_singleton.mp hd
        exact ⟨hc,by simp⟩
    · refine List.nodup_append.mpr ⟨h.nodup,List.nodup_singleton c,fun d hd d' hd' => ?_⟩
      obtain rfl := List.mem_singleton.mp hd'
      rintro rfl
      exact (h.starts d hd).2 hw
  | @passed c todo readable hm =>
    have htodo := h.todo
    rw [hm] at htodo
    exact h.setMain (fun d hd => htodo d (List.mem_cons_of_mem c hd)) (by simp)
  | allStarted hm => exact h.setMain h.clients (by simp)
  | @chosen c todo hm hf =>
    have htodo := h.todo
    rw [hm] at htodo
    have hset : Ordered (s.setObj c { s.objs c with exitWork := true }) :=
      h.setObj (h.phased c) (h.fresh c) id id
    refine hset.setMain htodo ?_
    rintro d todo' hd
    cases hd
    rw [Sys.setObj_self]
    exact hf
  | @kept c todo hm =>
    have htodo := h.todo
    rw [hm] at htodo
    exact h.setMain (fun d hd => htodo d (List.mem_cons_of_mem c hd)) (by simp)
  | allReaped hm => exact h.setMain (by simp [Main.todo]) (by simp)
  | @joined c todo hm he =>
    have htodo := h.todo
    rw [hm] at htodo
    exact ⟨h.phased,h.fresh,fun d hd => h.clients d (List.mem_of_mem_erase hd),
      fun d hd => htodo d (List.mem_cons_of_mem c hd),by simp,h.starts,h.nodup⟩
  | @turned c a x hx ha => exact h.turn (turn_cases hx)
  | @closed c x hx => exact (h.turn (turn_cases hx)).setFds _ _
  | stopped => exact h.setObj (h.phased _) (h.fresh _) id id
  | opened => exact h.setFds _ s.closes
  | closedOther ho => exact h.setFds _ s.closes

theorem ordered_run {es : List Event} (ht : exec step Sys.start es = .ok t) : Ordered t := by
  have hany : Along step (fun _ _ => True) Sys.start es :=
    along_of_forall (fun _ _ => trivial) _ es
  exact exec_invariant Ordered (fun s e t h _ hs => h.move (step_cases hs)) Ordered.start hany ht

theorem reapable_setObj {c : ℕ} {x : Client} {P : Prop}
    (h : Reapable x ↔ Reapable (s.objs c) ∧ P) :
    (∀ d, Reapable ((s.setObj c x).objs d)) ↔ (∀ d, Reapable (s.objs d)) ∧ P := by
  rw [Sys.forall_setObj (fun _ y => Reapable y),h]
  constructor
  · rintro ⟨⟨hc,hp⟩,hrest⟩
    refine ⟨fun d => ?_,hp⟩
    by_cases hd : d = c
    · exact hd ▸ hc
    · exact hrest d hd
  · rintro ⟨hall,hp⟩
    exact ⟨⟨hall c,hp⟩,fun d _ => hall d⟩

theorem reapable_turn {c : ℕ} {a : Act} {x : Client} (h : Ordered s) (hx : Turns (s.objs c) a x) :
    (∀ d, Reapable ((s.setObj c x).objs d)) ↔
      (∀ d, Reapable (s.objs d)) ∧ TestsPass s (.handler c a) := by
  have hold : Reapable (s.objs c) := fun hend => absurd hend hx.running.1
  refine reapable_setObj ?_
  rw [hx.reapable (h.phased c)]
  cases a with
  | test => simp [hold,TestsPass]
  | _ => simp [hold,TestsPass]

/-- The step lemma: a step leaves all clients reapable if and only if its tests are passed. -/
theorem reapable_move (h : Ordered s) (hm : Moves s e t) :
    (∀ c, Reapable (t.objs c)) ↔ (∀ c, Reapable (s.objs c)) ∧ TestsPass s e := by
  cases hm with
  | accepted hm =>
    have hidle := h.fresh s.next (le_refl _)
    exact reapable_setObj (c:=s.next) (by simp [Reapable,hidle,Client.new,TestsPass])
  | @started c todo readable hm hw =>
    have hidle := (h.idle_iff c).mpr hw
    exact reapable_setObj (s:=s) (c:=c) (by simp [Reapable,hidle,TestsPass])
  | turned hx ha => exact reapable_turn h (turn_cases hx)
  | closed hx => exact reapable_turn h (turn_cases hx)
  | @chosen c todo hm hf => exact reapable_setObj (s:=s) (c:=c) (by simp [Reapable,TestsPass])
  | @stopped c => exact reapable_setObj (s:=s) (c:=c) (by simp [Reapable,TestsPass])
  | _ => exact (and_iff_left trivial).symm

theorem turn_fault_iff {x : Client} {a : Act} :
    x.turn a = .error .fault ↔
      ∃ r, a = .recv r ∧ (∃ i req, x.handler = .receiving i req) ∧ x.exitWork = false ∧
        Overreads r := by
  cases a with
  | recv r => cases hh : x.handler <;> simp [Client.turn,hh]
  | test => cases hh : x.handler <;> simp [Client.turn,hh]
  | respond => cases hh : x.handler <;> simp [Client.turn,hh]
  | closeSocket => cases hh : x.handler <;> simp [Client.turn,hh]

theorem step_handler_fault {c : ℕ} {a : Act} :
    step s (.handler c a) = .error .fault ↔ (s.objs c).turn a = .error .fault := by
  cases hx : (s.objs c).turn a <;> simp [step,hx]

theorem step_fault_iff : step s e ≠ .error .fault ↔ FitsBuf s e := by
  cases e with
  | handler c a =>
    rw [Ne,step_handler_fault,turn_fault_iff]
    cases a <;> simp [FitsBuf]
  | select r =>
    refine iff_of_true ?_ trivial
    cases hm : s.main <;> cases r <;> simp [step,hm]
  | visit readable =>
    refine iff_of_true ?_ trivial
    simp only [step]
    split
    · simp
    · split_ifs <;> simp
    · simp
  | reap =>
    refine iff_of_true ?_ trivial
    simp only [step]
    split
    · simp
    · split_ifs <;> simp
    · simp
  | join =>
    refine iff_of_true ?_ trivial
    simp only [step]
    split
    · split_ifs <;> simp
    · simp
  | closeOther fd =>
    refine iff_of_true ?_ trivial
    simp only [step]
    split_ifs <;> simp
  | _ => exact iff_of_true (by simp [step]) trivial

end

/-- In every run the handlers that have ended have left `RESPONSE_FINISH` if and only if all their
requests have passed the tests, every handler is started once, and the behaviour is defined as long
as `buf` is not filled. -/
theorem reapable_iff (es : List Event) :
    (exec step Sys.start es ≠ .error .fault ↔ Along step FitsBuf Sys.start es) ∧
    ∀ t, exec step Sys.start es = .ok t →
      ((∀ c, (t.objs c).handler = .ended → (t.objs c).responseStep = .finish) ↔
        Along step TestsPass Sys.start es) ∧ t.starts.Nodup := by
  refine ⟨exec_ne_fault_iff.trans (along_iff_of_invariant (fun _ => True)
    (fun s e _ => step_fault_iff) (fun _ _ _ _ _ _ => trivial) trivial),fun t ht => ⟨?_,?_⟩⟩
  · have hany : Along step (fun _ _ => True) Sys.start es :=
      along_of_forall (fun _ _ => trivial) _ es
    have hrun : (∀ c, Reapable (t.objs c)) ↔
        (∀ c, Reapable (Sys.start.objs c)) ∧ Along step TestsPass Sys.start es :=
      exec_iff_along_of_invariant Ordered (fun s e t h _ hs => h.move (step_cases hs))
        (fun s e t h _ hs => reapable_move h (step_cases hs)) Ordered.start hany ht
    rw [show (∀ c, Reapable (Sys.start.objs c)) ↔ True from iff_true_intro
      (fun _ hend => by cases hend),true_and] at hrun
    exact hrun
  · exact (ordered_run ht).nodup

def shortRun : List Event :=
  [.select .accepted,.select .quiet,.visit true,.visit true,.reap,.reap,
    .handler 0 (.recv (.bytes (ascii "GET\r\n\r\n"))),.handler 0 .test]

theorem short_request_leaks :
    ∃ t, exec step Sys.start shortRun = .ok t ∧ (t.objs 0).handler = .ended ∧
      (t.objs 0).responseStep ≠ .finish := by
  have hrun : observe (fun t => ((t.objs 0).handler,(t.objs 0).responseStep))
      (exec step Sys.start shortRun) = some (.ended,.start) := by decide
  obtain ⟨t,ht,hend⟩ := observe_eq_some.mp hrun
  obtain ⟨hh,hs⟩ := Prod.mk.inj hend
  exact ⟨t,ht,hh,by rw [hs]; decide⟩

/-- A request that is answered has at most 50 times 1024 bytes. -/
theorem request_length {es : List Event} {t : Sys} {c : ℕ} {req : List UInt8}
    (ht : exec step Sys.start es = .ok t) (hc : (t.objs c).handler = .responding req) :
    req.length ≤ maxRecv*bufSize := by
  have hp := (ordered_run ht).phased c
  rw [Phased,hc] at hp
  exact hp.2

end SockServer
end PcEnv
