import PcEnv.RtmpReads

/-! The loop of `do_poll` over its tables, and the events that it comes to. -/
namespace PcEnv
namespace Rtmp

open Runs

/-- A connection that `new_client` accepts, or whose handshake ends the process. -/
inductive Arrival
  | client (id : ℕ) (types : Channel → UInt8) (endpoints : Channel → UInt32) (done : Bool)
  | broken (id : ℕ)

def Arrival.id : Arrival → ℕ
  | .client id _ _ _ | .broken id => id

def Arrival.event : Arrival → Event
  | .client id types endpoints done => .accepted id types endpoints done
  | .broken id => .broken id

/-- What `poll` reports, and what the calls after it bring. Without an arrival the listening socket
is not ready, or `accept` or the handshake fails. -/
inductive Report
  | interrupted
  | ready (arrival : Option Arrival) (writable : ℕ → Bool) (readable : ℕ → Option RecvAnswer)

/-- An entry of `poll_table` and `clients` with its `revents`. -/
inductive Row
  | listener (arrival : Option Arrival)
  | client (id : ℕ) (writable : Bool) (readable : Option RecvAnswer)

def Row.entry : Row → Option ℕ
  | .listener _ => none
  | .client id _ _ => some id

/-- `POLLOUT` is asked for when there is something to send. -/
def rowOf (s : Server) (arrival : Option Arrival) (writable : ℕ → Bool)
    (readable : ℕ → Option RecvAnswer) : Option ℕ → Row
  | none => .listener arrival
  | some id =>
    .client id (((s.client? id).map Client.sendQueue).getD [] ≠ [] && writable id) (readable id)

/-- A call in its `try` block: an exception closes the client. -/
def caught (id : ℕ) (call : Call Unit) (s : Server) : Except Halt (Bool × Server) :=
  match call s with
  | (.ok _,s) => .ok (true,s)
  | (.error (.runtimeError _),s) => .ok (false,closeClient id s)
  | (.error _,_) => .error .fault

/-- The second loop of `do_poll` from index `i` on. An entry that is erased takes its index with
it. -/
def pollLoop : ℕ → ℕ → List Row → Server → Except Halt (List Row × Server)
  | 0, _, _, _ => .error .blocked
  | fuel+1, i, rows, s =>
    match rows[i]? with
    | none => .ok (rows,s)
    | some (.listener none) => pollLoop fuel (i+1) rows s
    | some (.listener (some a)) =>
      match step s a.event with
      | .error halt => .error halt
      | .ok s => pollLoop fuel (i+1) (rows++[.client a.id false none]) s
    | some (.client id writable readable) =>
      match if writable then caught id (tryToSend id) s else .ok (true,s) with
      | .error halt => .error halt
      | .ok (false,s) => pollLoop fuel i (rows.eraseIdx i) s
      | .ok (true,s) =>
        match readable with
        | none => pollLoop fuel (i+1) rows s
        | some answer =>
          match caught id (recvFromClient id answer) s with
          | .error halt => .error halt
          | .ok (false,s) => pollLoop fuel i (rows.eraseIdx i) s
          | .ok (true,s) => pollLoop fuel (i+1) rows s

def doPoll (report : Report) (t : List (Option ℕ) × Server) :
    Except Halt (List (Option ℕ) × Server) :=
  match report with
  | .interrupted => .ok t
  | .ready arrival writable readable =>
    let rows := t.1.map (rowOf t.2 arrival writable readable)
    (pollLoop (rows.length+2) 0 rows t.2).map (fun p => (p.1.map Row.entry,p.2))

/-- `main`, as long as `poll` comes back. -/
def mainLoop : List Report → List (Option ℕ) × Server → Except Halt (List (Option ℕ) × Server)
  | [], t => .ok t
  | report::reports, t => (doPoll report t).bind (mainLoop reports)

/-- The tables of a server: the listening socket, and each client at its index. -/
def tableOf (s : Server) : List (Option ℕ) := none::s.clients.map (fun c => some c.id)

/-- What is due for an entry. Behind an exception there is nothing left to read for. -/
def Row.due (s : Server) : Row → List Event
  | .listener arrival => (arrival.map Arrival.event).toList
  | .client id writable readable =>
    andThen step s (if writable then [.writable id] else []) fun t =>
      if (t.client? id).isSome then (readable.map (Event.readable id)).toList else []

def dueRows : List Row → Server → List Event
  | [], _ => []
  | row::rows, s => andThen step s (row.due s) (dueRows rows)

/-- A round: the entries that are there when `poll` is called, in the order of the table. -/
def Report.due (s : Server) : Report → List Event
  | .interrupted => []
  | .ready arrival writable readable =>
    dueRows ((tableOf s).map (rowOf s arrival writable readable)) s

def dueRounds : List Report → Server → List Event
  | [], _ => []
  | report::reports, s => andThen step s (report.due s) (dueRounds reports)

def Row.serve (s : Server) : Row → Except Halt Server
  | .listener none => .ok s
  | .listener (some a) => step s a.event
  | .client id writable readable =>
    (if writable then step s (.writable id) else .ok s).bind fun s =>
      match s.client? id, readable with
      | some _, some answer => step s (.readable id answer)
      | _, _ => .ok s

def serveRows : List Row → Server → Except Halt Server
  | [], s => .ok s
  | row::rows, s => (row.serve s).bind (serveRows rows)

section

variable {s s' : Server} {id : ℕ}

def Row.turn (s : Server) (id : ℕ) (writable : Bool) (readable : Option RecvAnswer) :
    Except Halt (Bool × Server) :=
  (if writable then caught id (tryToSend id) s else .ok (true,s)).bind fun p =>
    match p.1, readable with
    | true, some answer => caught id (recvFromClient id answer) p.2
    | _, _ => .ok p

theorem pollLoop_client {fuel i : ℕ} {rows : List Row} {writable : Bool}
    {readable : Option RecvAnswer} (h : rows[i]? = some (.client id writable readable)) :
    pollLoop (fuel+1) i rows s = (Row.turn s id writable readable).bind fun p =>
      if p.1 then pollLoop fuel (i+1) rows p.2 else pollLoop fuel i (rows.eraseIdx i) p.2 := by
  rw [pollLoop,h]
  simp only
  unfold Row.turn
  cases hw : if writable then caught id (tryToSend id) s else .ok (true,s) with
  | error halt => rfl
  | ok p =>
    obtain ⟨b,t⟩ := p
    cases b with
    | false => rfl
    | true =>
      cases readable with
      | none => rfl
      | some answer =>
        simp only [Except.bind]
        cases hr : caught id (recvFromClient id answer) t with
        | error halt => rfl
        | ok q =>
          obtain ⟨b,u⟩ := q
          cases b with
          | false => rfl
          | true => rfl

theorem isSome_client? {j : ℕ} : (s.client? j).isSome = true ↔ j ∈ s.clients.map Client.id := by
  rw [Option.isSome_iff_ne_none,Ne,client?_eq_none_iff,not_not]

def Kept (s s' : Server) : Prop :=
  s'.clients.map Client.id = (s.clients.map Client.id).filter fun j => (s'.client? j).isSome

theorem kept_of_filter {p : ℕ → Bool}
    (h : s'.clients.map Client.id = (s.clients.map Client.id).filter p) : Kept s s' := by
  unfold Kept
  refine h.trans (List.filter_congr fun j hj => ?_)
  rw [Bool.eq_iff_iff,isSome_client?,h,List.mem_filter]
  exact ⟨fun hp => ⟨hj,hp⟩,fun h => h.2⟩

theorem Kept.refl (s : Server) : Kept s s :=
  kept_of_filter (p:=fun _ => true) (List.filter_true _).symm

theorem Kept.trans {t : Server} (h : Kept s s') (h' : Kept s' t) : Kept s t := by
  unfold Kept at h h'
  rw [h,List.filter_filter] at h'
  exact kept_of_filter h'

theorem Kept.some {j : ℕ} (h : Kept s s') (hj : s'.client? j ≠ none) : s.client? j ≠ none := by
  rw [Ne,client?_eq_none_iff,not_not,h,List.mem_filter] at hj
  rw [Ne,client?_eq_none_iff,not_not]
  exact hj.1

structure Stepwise (id : ℕ) (s s' : Server) : Prop where
  good : s'.Good
  kept : Kept s s'
  others : ∀ j, j ≠ id → (s'.client? j = none ↔ s.client? j = none)

theorem Stepwise.refl (hs : s.Good) : Stepwise id s s := ⟨hs,.refl s,fun _ _ => Iff.rfl⟩

theorem Stepwise.trans {t : Server} (h : Stepwise id s s') (h' : Stepwise id s' t) :
    Stepwise id s t :=
  ⟨h'.good,h.kept.trans h'.kept,fun j hj => (h'.others j hj).trans (h.others j hj)⟩

theorem Stepped.stepwise {c : Client} (h : Stepped s id s') (hc : s.client? id = some c)
    (hs : s.Good) : Stepwise id s s' := by
  refine ⟨h.good hs,?_,fun j hj => h.client?_eq_none hj⟩
  cases h with
  | accepted hid => cases hid.symm.trans hc
  | served _ h => exact kept_of_filter (p:=fun _ => true) (by rw [h.ids,List.filter_true])
  | closed _ h =>
    refine kept_of_filter (p:=fun j => j ≠ id) ?_
    rw [← h.ids]
    unfold closeClient
    simp only
    have hid : Client.id ∘ Client.unready = Client.id := rfl
    split_ifs
    · simp only [List.map_map,hid,List.filter_map]
      rfl
    · simp only [List.filter_map]
      rfl

/-- The loop has done what the steps do, and knows whether the client is still there. -/
inductive Agrees (id : ℕ) (s : Server) : Except Halt (Bool × Server) → Except Halt Server → Prop
  | halted (halt : Halt) : Agrees id s (.error halt) (.error halt)
  | did {b : Bool} {s' : Server} (hb : b = true ↔ s'.client? id ≠ none) (h : Stepwise id s s') :
      Agrees id s (.ok (b,s')) (.ok s')

theorem Agrees.bind {x : Except Halt (Bool × Server)} {y : Except Halt Server}
    {f : Bool × Server → Except Halt (Bool × Server)} {g : Server → Except Halt Server}
    (h : Agrees id s x y) (hf : ∀ b s', (b = true ↔ s'.client? id ≠ none) → s'.Good →
      Agrees id s' (f (b,s')) (g s')) : Agrees id s (x.bind f) (y.bind g) := by
  cases h with
  | halted halt => exact .halted halt
  | @did b s' hb h =>
    have hnext := hf b s' hb h.good
    simp only [Except.bind]
    generalize f (b,s') = u at hnext
    generalize g s' = v at hnext
    cases hnext with
    | halted halt => exact .halted halt
    | did hb' h' => exact .did hb' (h.trans h')

theorem caught_agrees {call : Call Unit} (hs : s.Good) (hc : s.client? id ≠ none)
    (hcall : Served id s (call s).2) : Agrees id s (caught id call s) (serve id call s) := by
  obtain ⟨c,hc⟩ := Option.ne_none_iff_exists'.mp hc
  have hstepped {s' : Server} (h : serve id call s = .ok s') : Stepwise id s s' :=
    (serve_stepped hcall h).stepwise hc hs
  unfold serve at hstepped ⊢
  unfold caught
  simp only [hc] at hstepped ⊢
  cases hr : call s with
  | mk r t =>
    rw [hr] at hcall hstepped
    cases r with
    | ok u =>
      refine .did ?_ (hstepped rfl)
      rw [Ne,client?_eq_none_iff,hcall.ids,← client?_eq_none_iff,hc]
      simp
    | error e =>
      cases e with
      | runtimeError what =>
        refine .did ?_ (hstepped rfl)
        rw [client?_closeClient,if_pos rfl]
        simp
      | abort => exact .halted .fault
      | killed => exact .halted .fault
      | fuel => exact .halted .fault

theorem turn_agrees (hs : s.Good) (hc : s.client? id ≠ none) (writable : Bool)
    (readable : Option RecvAnswer) : Agrees id s (Row.turn s id writable readable)
      (Row.serve s (.client id writable readable)) := by
  refine Agrees.bind ?_ fun b t hb ht => ?_
  · cases writable with
    | false => exact .did (by simpa using hc) (.refl hs)
    | true =>
      have hmsg : Whole ⟨0,1,0,0,[0]⟩ := ⟨rfl,by decide,by decide⟩
      exact caught_agrees hs hc (Moves.served hmsg (tryToSend_moves (Or.inl rfl)))
  · cases b with
    | false =>
      have hnone : t.client? id = none := by simpa using hb
      simp only [hnone]
      exact .did (by simp [hnone]) (.refl ht)
    | true =>
      have hsome : t.client? id ≠ none := by simpa using hb
      obtain ⟨c,hc⟩ := Option.ne_none_iff_exists'.mp hsome
      simp only [hc]
      cases readable with
      | none => exact .did (by simp [hc]) (.refl ht)
      | some answer =>
        exact caught_agrees ht hsome (recvFromClient_served answer fun c hc =>
          (ht.client id c hc).sized)

def rowsLeft (s : Server) (rows : List Row) : List Row :=
  rows.filter fun row => (row.entry.bind s.client?).isSome

def Present (s : Server) (rows : List Row) : Prop :=
  ∀ row ∈ rows, ∃ id writable readable, row = .client id writable readable ∧ s.client? id ≠ none

theorem Stepwise.present {rows : List Row} (h : Stepwise id s s')
    (hnew : some id ∉ rows.map Row.entry) (hrows : Present s rows) : Present s' rows := by
  intro row hrow
  obtain ⟨j,writable,readable,rfl,hj⟩ := hrows row hrow
  refine ⟨j,writable,readable,rfl,?_⟩
  have hne : j ≠ id := by
    rintro rfl
    exact hnew (List.mem_map_of_mem (f:=Row.entry) hrow)
  rwa [Ne,h.others j hne]

theorem serveRows_left {rows : List Row} (hs : s.Good) (hrows : Present s rows)
    (hids : (rows.map Row.entry).Nodup) (h : serveRows rows s = .ok s') :
    s'.Good ∧ Kept s s' ∧
      ∀ j, some j ∉ rows.map Row.entry → (s'.client? j = none ↔ s.client? j = none) := by
  induction rows generalizing s with
  | nil =>
    cases h
    exact ⟨hs,.refl _,fun _ _ => Iff.rfl⟩
  | cons row rows ih =>
    obtain ⟨⟨id,writable,readable,rfl,hid⟩,hback⟩ := List.forall_mem_cons.mp hrows
    obtain ⟨hnew,hids⟩ := List.nodup_cons.mp hids
    have hagrees := turn_agrees hs hid writable readable
    rw [serveRows] at h
    generalize Row.turn s id writable readable = x at hagrees
    generalize Row.serve s (.client id writable readable) = y at hagrees h
    cases hagrees with
    | halted halt => cases h
    | did _ hwise =>
      obtain ⟨hgood,hkept,hothers⟩ := ih hwise.good (hwise.present hnew hback) hids h
      refine ⟨hgood,hwise.kept.trans hkept,?_⟩
      intro j hj
      obtain ⟨hne,hj⟩ := not_or.mp (mt List.mem_cons.mpr hj)
      exact (hothers j hj).trans (hwise.others j fun h => hne (congrArg some h))

/-- From `i` on the loop serves the entries in their order, each once, and keeps those whose clients
are still there. -/
theorem pollLoop_clients {fuel : ℕ} (front : List Row) {back : List Row} (hs : s.Good)
    (hrows : Present s back) (hids : (back.map Row.entry).Nodup) (hfuel : back.length < fuel) :
    pollLoop fuel front.length (front++back) s =
      (serveRows back s).map (fun s' => (front++rowsLeft s' back,s')) := by
  induction back generalizing fuel front s with
  | nil =>
    obtain ⟨fuel,rfl⟩ : ∃ k, fuel = k+1 := ⟨fuel-1,by simp at hfuel; omega⟩
    simp [pollLoop,serveRows,rowsLeft,Except.map]
  | cons row back ih =>
    obtain ⟨fuel,rfl⟩ : ∃ k, fuel = k+1 := ⟨fuel-1,by simp at hfuel; omega⟩
    have hless : back.length < fuel := by simpa using hfuel
    obtain ⟨⟨id,writable,readable,rfl,hid⟩,hback⟩ := List.forall_mem_cons.mp hrows
    obtain ⟨hnew,hids⟩ := List.nodup_cons.mp hids
    have hrow : (front++.client id writable readable::back)[front.length]? =
        some (.client id writable readable) := by simp
    have hagrees := turn_agrees hs hid writable readable
    rw [pollLoop_client hrow,serveRows]
    generalize Row.turn s id writable readable = x at hagrees
    generalize Row.serve s (.client id writable readable) = y at hagrees
    cases hagrees with
    | halted halt => rfl
    | @did b t hb h =>
      have hpresent := h.present hnew hback
      have htrue : pollLoop fuel (front.length+1) (front++.client id writable readable::back) t =
          (serveRows back t).map
            (fun s' => (front++.client id writable readable::rowsLeft s' back,s')) := by
        have hnext := ih (front++[.client id writable readable]) h.good hpresent hids hless
        rw [List.length_append,List.length_singleton] at hnext
        simp only [List.append_assoc,List.singleton_append] at hnext
        exact hnext
      have hfalse : pollLoop fuel front.length
          ((front++.client id writable readable::back).eraseIdx front.length) t =
            (serveRows back t).map (fun s' => (front++rowsLeft s' back,s')) := by
        rw [List.eraseIdx_append_of_length_le le_rfl,Nat.sub_self,List.eraseIdx_cons_zero]
        exact ih front h.good hpresent hids hless
      simp only [Except.bind,htrue,hfalse]
      cases hrest : serveRows back t with
      | error halt => cases b <;> rfl
      | ok s' =>
        have hsame := (serveRows_left h.good hpresent hids hrest).2.2 id hnew
        cases b with
        | true =>
          have hsome : (s'.client? id).isSome = true := by
            rw [Option.isSome_iff_ne_none,Ne,hsame]
            exact hb.mp rfl
          simp [Except.map,rowsLeft,Row.entry,hsome]
        | false =>
          have hnone : s'.client? id = none := hsame.mpr (by simpa using hb)
          simp [Except.map,rowsLeft,Row.entry,hnone]

theorem exec_one (s : Server) (e : Event) : exec step s [e] = step s e := by
  cases h : step s e <;> simp [exec,h]

theorem Row.serve_exec (row : Row) (s : Server) : row.serve s = exec step s (row.due s) := by
  cases row with
  | listener arrival =>
    cases arrival with
    | none => rfl
    | some a => exact (exec_one s a.event).symm
  | client id writable readable =>
    have hwrite : (if writable then step s (.writable id) else .ok s) =
        exec step s (if writable then [.writable id] else []) := by
      cases writable with
      | true => exact (exec_one s (.writable id)).symm
      | false => rfl
    rw [Row.due,exec_andThen,Row.serve,hwrite]
    refine congrArg _ (funext fun t => ?_)
    cases hc : t.client? id with
    | none => rfl
    | some c =>
      cases readable with
      | none => rfl
      | some answer => exact (exec_one t (.readable id answer)).symm

theorem serveRows_exec (rows : List Row) (s : Server) :
    serveRows rows s = exec step s (dueRows rows s) := by
  induction rows generalizing s with
  | nil => rfl
  | cons row rows ih =>
    rw [serveRows,dueRows,exec_andThen,row.serve_exec]
    exact congrArg _ (funext ih)

theorem dueRows_added (rows : List Row) (id : ℕ) :
    dueRows (rows++[.client id false none]) = dueRows rows := by
  induction rows with
  | nil =>
    funext s
    simp [dueRows,Row.due,andThen]
  | cons row rows ih =>
    funext s
    rw [List.cons_append,dueRows,dueRows,ih]

theorem entries_left {rows : List Row} (h : Kept s s')
    (hrows : rows.map Row.entry = s.clients.map (fun c => some c.id)) :
    (rowsLeft s' rows).map Row.entry = s'.clients.map (fun c => some c.id) := by
  have hmap (t : Server) : t.clients.map (fun c => some c.id) =
      (t.clients.map Client.id).map some := by
    rw [List.map_map]
    rfl
  have hfilter : (rowsLeft s' rows).map Row.entry =
      (rows.map Row.entry).filter (fun e => (e.bind s'.client?).isSome) := by
    rw [List.filter_map]
    rfl
  rw [hfilter,hrows,hmap,hmap,h,List.filter_map]
  rfl

theorem pollLoop_round (fuel : ℕ) {back : List Row} (front : Row) (hs : s.Good)
    (hpresent : Present s back) (hback : back.map Row.entry = s.clients.map (fun c => some c.id))
    (hfront : front.entry = none) (hfuel : back.length < fuel) :
    (pollLoop fuel 1 (front::back) s).map (fun p => (p.1.map Row.entry,p.2)) =
      (exec step s (dueRows back s)).map (fun s' => (tableOf s',s')) := by
  have hids : (back.map Row.entry).Nodup := by
    have hmap : s.clients.map (fun c => some c.id) = (s.clients.map Client.id).map some := by
      rw [List.map_map]
      rfl
    rw [hback,hmap]
    exact hs.ids.map (Option.some_injective ℕ)
  have hloop : pollLoop fuel 1 (front::back) s =
      (serveRows back s).map (fun s' => (front::rowsLeft s' back,s')) :=
    pollLoop_clients [front] hs hpresent hids hfuel
  rw [hloop,← serveRows_exec]
  cases hr : serveRows back s with
  | error halt => rfl
  | ok s' =>
    have hleft := entries_left (serveRows_left hs hpresent hids hr).2.1 hback
    simp [Except.map,hfront,hleft,tableOf]

theorem present_rows (s t : Server) (arrival : Option Arrival) (writable : ℕ → Bool)
    (readable : ℕ → Option RecvAnswer) (ht : ∀ j, s.client? j ≠ none → t.client? j ≠ none) :
    Present t (s.clients.map fun c => rowOf s arrival writable readable (some c.id)) := by
  intro row hrow
  obtain ⟨c,hc,rfl⟩ := List.mem_map.mp hrow
  refine ⟨c.id,_,_,rfl,ht c.id ?_⟩
  rw [Ne,client?_eq_none_iff,not_not]
  exact List.mem_map_of_mem hc

theorem step_arrival {a : Arrival} (h : step s a.event = .ok s') :
    s.client? a.id = none ∧ ∃ types endpoints done,
      s' = { s with clients := s.clients++[newClient a.id types endpoints done] } := by
  cases a with
  | broken id => cases h
  | client id types endpoints done =>
    simp only [step,Arrival.event] at h
    cases hc : s.client? id with
    | some c =>
      simp only [hc] at h
      cases h
    | none =>
      simp only [hc] at h
      cases h
      exact ⟨hc,types,endpoints,done,rfl⟩

/-- `do_poll` does what is due, and its tables stay the clients. -/
theorem doPoll_exec (report : Report) (hs : s.Good) :
    doPoll report (tableOf s,s) =
      (exec step s (report.due s)).map (fun s' => (tableOf s',s')) := by
  cases report with
  | interrupted => rfl
  | ready arrival writable readable =>
    have hrows : (tableOf s).map (rowOf s arrival writable readable) = .listener arrival::
        s.clients.map fun c => rowOf s arrival writable readable (some c.id) := by
      simp [tableOf,rowOf,Function.comp_def]
    have hentries : (s.clients.map fun c => rowOf s arrival writable readable (some c.id)).map
        Row.entry = s.clients.map (fun c => some c.id) := by
      rw [List.map_map]
      rfl
    simp only [doPoll,Report.due,hrows,dueRows,exec_andThen,List.length_cons]
    generalize hclients : (s.clients.map fun c => rowOf s arrival writable readable (some c.id)) =
      clients at hentries
    cases arrival with
    | none =>
      have hpresent := present_rows s s none writable readable fun _ h => h
      rw [hclients] at hpresent
      exact pollLoop_round (clients.length+2) (.listener none) hs hpresent hentries rfl (by omega)
    | some a =>
      have hdue : exec step s (Row.due s (.listener (some a))) = step s a.event :=
        exec_one s a.event
      rw [hdue,pollLoop]
      simp only [List.getElem?_cons_zero]
      cases hstep : step s a.event with
      | error halt => rfl
      | ok t =>
        have hgood := step_good hs hstep
        obtain ⟨hnone,types,endpoints,done,rfl⟩ := step_arrival hstep
        have hidle : Present { s with clients := s.clients++[newClient a.id types endpoints done] }
            (clients++[.client a.id false none]) := by
          have hthere (j : ℕ) : ({ s with clients := s.clients++[newClient a.id types endpoints
              done] } : Server).client? j = if j = a.id then some _ else s.client? j :=
            client?_accepted _ _ _ hnone j
          intro row hrow
          rcases List.mem_append.mp hrow with hrow | hrow
          · have hpresent := present_rows s _ (some a) writable readable fun j hj => by
              rw [hthere j]
              split_ifs
              · simp
              · exact hj
            rw [hclients] at hpresent
            exact hpresent row hrow
          · rw [List.mem_singleton.mp hrow]
            exact ⟨a.id,false,none,rfl,by simp [hthere]⟩
        have hloop := pollLoop_round (clients.length+2) (.listener (some a)) hgood hidle
          (by simp [hentries,Row.entry,newClient]) rfl (by simp)
        rw [dueRows_added] at hloop
        exact hloop

end

end Rtmp
end PcEnv
