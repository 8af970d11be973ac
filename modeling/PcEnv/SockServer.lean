import Mathlib.Logic.Function.Basic
import PcEnv.FdTable
import PcEnv.Runs
import PcEnv.Text

/-! `SocServer::Run` and the handler threads of `SockClient::HandleRequest`.
The main thread accepts, starts handlers and reaps; a handler receives a request, tests it, answers
and closes its socket. Each event is what one thread does next, with what the kernel returns to
it. -/
namespace PcEnv
namespace SockServer

open FdTable Runs Text Word

inductive ResponseStep
  | waiting | start | finish
  deriving DecidableEq, Repr

/-- Where the thread of `HandleRequest` is. -/
inductive Handler
  | idle
  | receiving (i : ℕ) (req : List UInt8)
  | received (req : List UInt8) (is_find_corect_end : Bool)
  | responding (req : List UInt8)
  | finishing
  | ended
  deriving DecidableEq, Repr

structure Client where
  sockfd : ℕ
  exitWork : Bool
  responseStep : ResponseStep
  handler : Handler
  deriving DecidableEq, Repr

def Client.new (sockfd : ℕ) : Client := ⟨sockfd,false,.waiting,.idle⟩

inductive Owner
  | other | server
  | client (c : ℕ)
  deriving DecidableEq, Repr

/-- Where `SocServer::Run` is: at `select`, in the loop that starts handlers, in the one that
reaps, in the `join` of a client that is reaped, or back. -/
inductive Main
  | select
  | starting (todo : List ℕ)
  | reaping (todo : List ℕ)
  | joining (c : ℕ) (todo : List ℕ)
  | returned
  deriving DecidableEq, Repr

/-- A `close` of a client, and whose the descriptor is then. -/
structure Close where
  client : ℕ
  owner : Option Owner
  deriving DecidableEq, Repr

/-- Objects are numbered in the order of their `accept`. `starts` are the calls of
`HandleRequest`, `closes` those of `close` for a client. -/
structure Sys where
  objs : ℕ → Client
  next : ℕ
  m_clients : List ℕ
  main : Main
  fds : List (Option Owner)
  starts : List ℕ
  closes : List Close

/-- Standard input, output and error are open, and the listening socket. -/
def Sys.start : Sys where
  objs := fun _ => Client.new 0
  next := 0
  m_clients := []
  main := .select
  fds := [some .other,some .other,some .other,some .server]
  starts := []
  closes := []

def Sys.setObj (s : Sys) (c : ℕ) (x : Client) : Sys :=
  { s with objs := Function.update s.objs c x }

@[simp] theorem Sys.setObj_self (s : Sys) (c : ℕ) (x : Client) : (s.setObj c x).objs c = x := by
  simp only [Sys.setObj,Function.update_self]

@[simp] theorem Sys.setObj_ne (s : Sys) {c d : ℕ} (h : d ≠ c) (x : Client) :
    (s.setObj c x).objs d = s.objs d := by
  simp only [Sys.setObj,Function.update_of_ne h]

theorem Sys.forall_setObj {s : Sys} {c : ℕ} {x : Client} (P : ℕ → Client → Prop) :
    (∀ d, P d ((s.setObj c x).objs d)) ↔ P c x ∧ ∀ d, d ≠ c → P d (s.objs d) :=
  Function.forall_update_iff s.objs P

def Sys.close (s : Sys) (c : ℕ) : Sys :=
  { s with
    fds := closeFd s.fds (s.objs c).sockfd
    closes := s.closes++[⟨c,owner s.fds (s.objs c).sockfd⟩] }

inductive Select
  | accepted | refused | quiet | failed | exitWork
  deriving DecidableEq, Repr

/-- What one `Recv` of a handler returns: bytes, or nothing or an error. -/
inductive Recvd
  | bytes (chunk : List UInt8)
  | nothing
  deriving DecidableEq, Repr

inductive Act
  | recv (r : Recvd)
  | test | respond | closeSocket
  deriving DecidableEq, Repr

/-- `stop c` sets `m_exitWork` of a client, `openOther` and `closeOther` are the descriptors of the
rest of the process. -/
inductive Event
  | select (r : Select)
  | visit (readable : Bool)
  | reap | join
  | handler (c : ℕ) (a : Act)
  | stop (c : ℕ)
  | openOther
  | closeOther (fd : ℕ)
  deriving DecidableEq, Repr

def bufSize : ℕ := 1024
def maxRecv : ℕ := 50
def minReq : ℕ := 16
def headEnd : List UInt8 := ascii "\r\n\r\n"

def stored (chunk : List UInt8) : List UInt8 := chunk.take bufSize

/-- `req += buf` reads on behind a full `buf` without a NUL. -/
def Overreads (r : Recvd) : Prop :=
  ∃ chunk, r = .bytes chunk ∧ (stored chunk).length = bufSize ∧ 0 ∉ stored chunk

instance (r : Recvd) : Decidable (Overreads r) :=
  match r with
  | .bytes chunk => decidable_of_iff ((stored chunk).length = bufSize ∧ 0 ∉ stored chunk)
      (by simp [Overreads])
  | .nothing => .isFalse (by simp [Overreads])

/-- The C string that is appended to `req`; after `m_exitWork` nothing is received. -/
def appended (exitWork : Bool) : Recvd → List UInt8
  | .bytes chunk => if exitWork then [] else (stored chunk).takeWhile (fun b => b ≠ 0)
  | .nothing => []

def nextTurn (i : ℕ) (req : List UInt8) : Handler :=
  if 0 ≤ toInt (find req headEnd) then .received req true
  else if i+1 < maxRecv then .receiving (i+1) req
  else .received req false

/-- The tests behind the loop; only the last branch goes on. -/
def tested (req : List UInt8) (is_find_corect_end exitWork : Bool) : Handler :=
  if req.length < minReq then .ended
  else if !is_find_corect_end then .ended
  else if exitWork then .ended
  else .responding req

def Client.turn (x : Client) : Act → Except Halt Client
  | .recv r =>
    match x.handler with
    | .receiving i req =>
      if x.exitWork = false ∧ Overreads r then .error .fault
      else .ok { x with handler := nextTurn i (req++appended x.exitWork r) }
    | _ => .error .blocked
  | .test =>
    match x.handler with
    | .received req found => .ok { x with handler := tested req found x.exitWork }
    | _ => .error .blocked
  | .respond =>
    match x.handler with
    | .responding _ => .ok { x with handler := .finishing, responseStep := .finish }
    | _ => .error .blocked
  | .closeSocket =>
    match x.handler with
    | .finishing => .ok { x with handler := .ended }
    | _ => .error .blocked

def step (s : Sys) : Event → Except Halt Sys
  | .select r =>
    match s.main, r with
    | .select, .accepted => .ok { s with
        objs := Function.update s.objs s.next (Client.new (lowest s.fds))
        next := s.next+1
        m_clients := s.m_clients++[s.next]
        fds := openFd s.fds (.client s.next) }
    | .select, .refused => .ok s
    | .select, .quiet => .ok { s with main := .starting s.m_clients }
    | .select, .failed | .select, .exitWork => .ok { s with main := .returned }
    | _, _ => .error .blocked
  | .visit readable =>
    match s.main with
    | .starting [] => .ok { s with main := .reaping s.m_clients }
    | .starting (c::todo) =>
      if (s.objs c).responseStep = .waiting ∧ readable = true then
        .ok { s.setObj c { s.objs c with responseStep := .start, handler := .receiving 0 [] } with
          main := .starting todo
          starts := s.starts++[c] }
      else .ok { s with main := .starting todo }
    | _ => .error .blocked
  | .reap =>
    match s.main with
    | .reaping [] => .ok { s with main := .select }
    | .reaping (c::todo) =>
      if (s.objs c).responseStep = .finish then
        .ok { s.setObj c { s.objs c with exitWork := true } with main := .joining c todo }
      else .ok { s with main := .reaping todo }
    | _ => .error .blocked
  | .join =>
    match s.main with
    | .joining c todo =>
      if (s.objs c).handler = .ended then
        .ok { s.close c with m_clients := s.m_clients.erase c, main := .reaping todo }
      else .error .blocked
    | _ => .error .blocked
  | .stop c => .ok (s.setObj c { s.objs c with exitWork := true })
  | .openOther => .ok { s with fds := openFd s.fds .other }
  | .closeOther fd =>
    if owner s.fds fd = some .other then .ok { s with fds := closeFd s.fds fd }
    else .error .blocked
  | .handler c a =>
    match (s.objs c).turn a with
    | .ok x => .ok (if a = .closeSocket then (s.setObj c x).close c else s.setObj c x)
    | .error h => .error h

inductive Moves (s : Sys) : Event → Sys → Prop
  | accepted (hm : s.main = .select) :
      Moves s (.select .accepted) { s with
        objs := Function.update s.objs s.next (Client.new (lowest s.fds))
        next := s.next+1
        m_clients := s.m_clients++[s.next]
        fds := openFd s.fds (.client s.next) }
  | refused (hm : s.main = .select) : Moves s (.select .refused) s
  | quiet (hm : s.main = .select) :
      Moves s (.select .quiet) { s with main := .starting s.m_clients }
  | left {r} (hm : s.main = .select) : Moves s (.select r) { s with main := .returned }
  | started {c todo readable} (hm : s.main = .starting (c::todo))
      (hw : (s.objs c).responseStep = .waiting) :
      Moves s (.visit readable)
        { s.setObj c { s.objs c with responseStep := .start, handler := .receiving 0 [] } with
          main := .starting todo
          starts := s.starts++[c] }
  | passed {c todo readable} (hm : s.main = .starting (c::todo)) :
      Moves s (.visit readable) { s with main := .starting todo }
  | allStarted {readable} (hm : s.main = .starting []) :
      Moves s (.visit readable) { s with main := .reaping s.m_clients }
  | chosen {c todo} (hm : s.main = .reaping (c::todo))
      (hf : (s.objs c).responseStep = .finish) :
      Moves s .reap
        { s.setObj c { s.objs c with exitWork := true } with main := .joining c todo }
  | kept {c todo} (hm : s.main = .reaping (c::todo)) :
      Moves s .reap { s with main := .reaping todo }
  | allReaped (hm : s.main = .reaping []) : Moves s .reap { s with main := .select }
  | joined {c todo} (hm : s.main = .joining c todo) (he : (s.objs c).handler = .ended) :
      Moves s .join
        { s.close c with m_clients := s.m_clients.erase c, main := .reaping todo }
  | turned {c a x} (hx : (s.objs c).turn a = .ok x) (ha : a ≠ .closeSocket) :
      Moves s (.handler c a) (s.setObj c x)
  | closed {c x} (hx : (s.objs c).turn .closeSocket = .ok x) :
      Moves s (.handler c .closeSocket) ((s.setObj c x).close c)
  | stopped {c} : Moves s (.stop c) (s.setObj c { s.objs c with exitWork := true })
  | opened : Moves s .openOther { s with fds := openFd s.fds .other }
  | closedOther {fd} (ho : owner s.fds fd = some .other) :
      Moves s (.closeOther fd) { s with fds := closeFd s.fds fd }

theorem step_cases {s t : Sys} {e : Event} (h : step s e = .ok t) : Moves s e t := by
  cases e with
  | select r =>
    cases hm : s.main with
    | select =>
      cases r with
      | accepted =>
        have haccepted := Moves.accepted hm
        simp only [step,hm,Except.ok.injEq] at h
        rw [hm] at haccepted
        exact h ▸ haccepted
      | refused =>
        simp only [step,hm,Except.ok.injEq] at h
        exact h ▸ .refused hm
      | quiet =>
        simp only [step,hm,Except.ok.injEq] at h
        exact h ▸ .quiet hm
      | failed =>
        simp only [step,hm,Except.ok.injEq] at h
        exact h ▸ .left hm
      | exitWork =>
        simp only [step,hm,Except.ok.injEq] at h
        exact h ▸ .left hm
    | _ => simp only [step,hm,reduceCtorEq] at h
  | visit readable =>
    cases hm : s.main with
    | starting todo =>
      cases todo with
      | nil =>
        simp only [step,hm,Except.ok.injEq] at h
        exact h ▸ .allStarted hm
      | cons c todo =>
        simp only [step,hm] at h
        split_ifs at h with hw
        · cases h
          exact .started hm hw.1
        · cases h
          exact .passed hm
    | _ => simp only [step,hm,reduceCtorEq] at h
  | reap =>
    cases hm : s.main with
    | reaping todo =>
      cases todo with
      | nil =>
        simp only [step,hm,Except.ok.injEq] at h
        exact h ▸ .allReaped hm
      | cons c todo =>
        simp only [step,hm] at h
        split_ifs at h with hf
        · cases h
          exact .chosen hm hf
        · cases h
          exact .kept hm
    | _ => simp only [step,hm,reduceCtorEq] at h
  | join =>
    cases hm : s.main with
    | joining c todo =>
      simp only [step,hm] at h
      split_ifs at h with he
      cases h
      exact .joined hm he
    | _ => simp only [step,hm,reduceCtorEq] at h
  | handler c a =>
    cases hx : (s.objs c).turn a with
    | error x => simp only [step,hx,reduceCtorEq] at h
    | ok x =>
      simp only [step,hx,Except.ok.injEq] at h
      split_ifs at h with ha
      · subst ha
        exact h ▸ .closed hx
      · exact h ▸ .turned hx ha
  | stop c =>
    simp only [step,Except.ok.injEq] at h
    exact h ▸ .stopped
  | openOther =>
    simp only [step,Except.ok.injEq] at h
    exact h ▸ .opened
  | closeOther fd =>
    simp only [step] at h
    split_ifs at h with ho
    cases h
    exact .closedOther ho

end SockServer
end PcEnv
