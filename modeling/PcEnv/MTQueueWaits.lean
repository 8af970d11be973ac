import PcEnv.MTQueue

/-! Who is woken, and when the stream ends.
Readers and timed writers of `MTQueue` share one condition variable, which `notify_one`
signals without knowing whom it wakes. -/
namespace PcEnv
namespace MTQueue

open Runs Monitor

variable {α : Type}

def untimedRead : Call α → Bool
  | .read => true
  | _ => false

def queued (l : Ledger α) : ℕ := l.queue.q.length

/-- A section leaves more only when it signals; a read waits at an empty queue and returns
with one element less. -/
def Supplies (c : Call α) (before after : ℕ) : Outcome (Ret α) → Prop
  | .wait => after ≤ before ∧ (isRead c = true → after = 0)
  | .ret _ => after ≤ before ∧ (isRead c = true → after+1 ≤ before ∨ after = 0)
  | .signal _ => isRead c = false ∧ after ≤ before+1

theorem Does.supplies {m : MTQueue α} {c : Call α} {sec : Section α} (h : Does m c sec) :
    Supplies c m.q.length sec.queue.q.length sec.out := by
  cases h with
  | wait _ h => exact ⟨le_rfl,fun hc => by simp [h hc]⟩
  | same hc _ _ => exact ⟨le_rfl,by simp [hc]⟩
  | null hb _ =>
    have hq : m.q = [] := by simpa [back] using hb
    exact ⟨le_rfl,fun _ => Or.inr (by simp [hq])⟩
  | take _ hb =>
    have hlen := popBack_length hb
    exact ⟨by simp only; omega,fun _ => Or.inl (by simp only; omega)⟩
  | @push c r one hc _ _ =>
    refine ⟨?_,le_rfl⟩
    cases c <;> simp [isWrite,isRead] at hc ⊢
  | evict hb =>
    have hlen := popBack_length hb
    refine ⟨rfl,?_⟩
    simp only [pushFront,List.length_cons]
    omega
  | forget => exact ⟨Nat.zero_le _,by simp [isRead]⟩
  | exit => exact ⟨le_rfl,by simp [isRead]⟩

theorem body_supplies {c : Call α} {expired : Bool} {l l' : Ledger α} {out : Outcome (Ret α)}
    (h : (code α).body c expired l = .ok (l',out)) : Supplies c (queued l) (queued l') out := by
  obtain ⟨sec,hsec,rfl,rfl⟩ := body_ok h
  exact (critical_does hsec).supplies

theorem code_supply : Supply (code α) isRead untimedRead queued where
  takes_of_strict c h := by
    cases c with
    | read => rfl
    | _ => simp [untimedRead] at h
  wait _ _ _ _ h := body_supplies h
  ret _ _ _ _ _ h := body_supplies h
  signal _ _ _ _ _ h := body_supplies h

section Threads

variable {T : Type} [Fintype T] [DecidableEq T]

/-- A thread waits inside the untimed `read` beside a queued element, and no wake-up is on its
way. -/
def StrandedReader (s : Sys T (Call α) (Ret α) (Ledger α)) : Prop :=
  Stranded untimedRead queued s

instance (s : Sys T (Call α) (Ret α) (Ledger α)) : Decidable (StrandedReader s) :=
  inferInstanceAs (Decidable (Stranded untimedRead queued s))

/-- `notify_one` wakes a timed writer only if no thread waits in the untimed `read`, or every
queued element has another notification under way to a reader. -/
def ReadersFirst (s : Sys T (Call α) (Ret α) (Ledger α)) : Event T (Call α) → Prop :=
  WakeOk isRead untimedRead queued s

/-- The only notification under way, spent on a timed writer while the queue is full. -/
theorem notify_writer_strands {s : Sys T (Call α) (Ret α) (Ledger α)} {t w i : T} {r : Ret α}
    {one : α} (ht : s.pc t = .signalling r) (hw : s.pc w = .waiting (.writeTd one))
    (hi : s.pc i = .waiting .read) (hq : s.shared.queue.q ≠ [])
    (hfull : s.shared.queue.maxCount ≤ s.shared.queue.q.length)
    (hsig : ∀ j, j ≠ t → (s.pc j).isSignalling = false)
    (hnot : ∀ j, (s.pc j).isNotified = false) :
    ∃ u, exec (step (code α)) s [.notify t (some w),.lock w] = .ok u ∧ StrandedReader u := by
  have hwt : w ≠ t := by
    rintro rfl
    rw [ht] at hw
    cases hw
  have hit : i ≠ t := by
    rintro rfl
    rw [ht] at hi
    cases hi
  have hiw : i ≠ w := by
    rintro rfl
    rw [hw] at hi
    cases hi
  let woken := (s.moved w (.woken (.writeTd one) true false)).moved t .idle
  let again := { woken with shared := s.shared.record { queue := s.shared.queue, out := .wait } }
  have hpc : woken.pc w = .woken (.writeTd one) true false := by
    rw [Sys.moved_ne _ _ hwt,Sys.moved_self]
  have hbody : (code α).body (.writeTd one) false s.shared =
      .ok (s.shared.record { queue := s.shared.queue, out := .wait },.wait) := by
    simp [code,critical,writeTd,hfull]
  have hafter (j : T) : (again.moved w (.waiting (.writeTd one))).pc j =
      if j = w then .waiting (.writeTd one) else if j = t then .idle else s.pc j := by
    split_ifs with hjw hjt
    · rw [hjw,Sys.moved_self]
    · rw [Sys.moved_ne _ _ hjw,hjt]
      exact Sys.moved_self ..
    · rw [Sys.moved_ne _ _ hjw]
      exact (Sys.moved_ne _ _ hjt).trans (Sys.moved_ne _ _ hjw)
  refine ⟨again.moved w (.waiting (.writeTd one)),?_,?_,⟨i,?_⟩,?_,?_⟩
  · have hnotify : step (code α) s (.notify t (some w)) = .ok woken := by
      simp only [step,ht,hw,woken]
    have hlock : step (code α) woken (.lock w) =
        .ok (again.moved w (.waiting (.writeTd one))) := by
      simp only [step,hpc,runBody]
      rw [show woken.shared = s.shared from rfl,hbody]
      rfl
    simp only [exec,hnotify,hlock]
  · exact List.length_pos_of_ne_nil hq
  · rw [hafter,if_neg hiw,if_neg hit,hi]
    rfl
  · intro j
    rw [hafter]
    split_ifs with hjw hjt
    · rfl
    · rfl
    · exact hsig j hjt
  · intro j
    rw [hafter]
    split_ifs
    · rfl
    · rfl
    · exact hnot j

/-- Where readers come first no reader is stranded; and the only notification under way, spent on
a timed writer at a full queue, strands a waiting reader two steps later. -/
theorem no_stranded_reader {maxSize mMax : ℕ} {es : List (Event T (Call α))}
    {s : Sys T (Call α) (Ret α) (Ledger α)}
    (hs : exec (step (code α)) (start (create α maxSize mMax)) es = .ok s) :
    (Along (step (code α)) ReadersFirst (start (create α maxSize mMax)) es → ¬ StrandedReader s) ∧
    ∀ t w i r one, s.pc t = .signalling r → s.pc w = .waiting (.writeTd one) →
      s.pc i = .waiting .read → s.shared.queue.q ≠ [] →
      s.shared.queue.maxCount ≤ s.shared.queue.q.length →
      (∀ j, j ≠ t → (s.pc j).isSignalling = false) → (∀ j, (s.pc j).isNotified = false) →
      ∃ u, exec (step (code α)) s [.notify t (some w),.lock w] = .ok u ∧ StrandedReader u :=
  ⟨fun ha => never_stranded code_supply (fun _ => rfl) ha hs,
    fun _ _ _ _ _ ht hw hi hq hfull => notify_writer_strands ht hw hi hq hfull⟩

inductive Party
  | reader | writer | timedWriter
  deriving DecidableEq

instance : Fintype Party :=
  ⟨{.reader,.writer,.timedWriter},fun t => by cases t <;> decide⟩

/-- A reader waits; one element is written, and a timed writer comes to the full queue before
the writer has signalled. -/
def crowdedEvents : List (Event Party (Call ℕ)) :=
  [.call .reader .read,.lock .reader,.call .writer (.write 5),.lock .writer,
   .call .timedWriter (.writeTd 6),.lock .timedWriter]

def wokenEvents : List (Event Party (Call ℕ)) :=
  crowdedEvents++[.notify .writer (some .reader)]

theorem no_stranded_reader_woken :
    ∃ s, exec (step (code ℕ)) (start (create ℕ 9 1)) wokenEvents = .ok s ∧
      s.shared.queue.q = [5] ∧ ¬ StrandedReader s := by
  obtain ⟨s,hs,hq⟩ : ∃ s, exec (step (code ℕ)) (start (create ℕ 9 1)) wokenEvents = .ok s ∧
      s.shared.queue.q = [5] :=
    observe_eq_some.mp (by decide +kernel)
  have ha : Along (step (code ℕ)) (WakeOk isRead untimedRead queued) (start (create ℕ 9 1))
      wokenEvents := by decide +kernel
  exact ⟨s,hs,hq,(no_stranded_reader hs).1 ha⟩

/-- The notification goes to the timed writer, which finds the queue still full. -/
def strandedEvents : List (Event Party (Call ℕ)) :=
  crowdedEvents++[.notify .writer (some .timedWriter),.lock .timedWriter]

theorem shared_signal_strands :
    ∃ s, exec (step (code ℕ)) (start (create ℕ 9 1)) strandedEvents = .ok s ∧
      StrandedReader s := by
  obtain ⟨s,hs,hst⟩ : ∃ s, exec (step (code ℕ)) (start (create ℕ 9 1)) strandedEvents = .ok s ∧
      decide (StrandedReader s) = true :=
    observe_eq_some.mp (by decide +kernel)
  exact ⟨s,hs,of_decide_eq_true hst⟩

end Threads

def writing (pc : Pc (Call α) (Ret α)) : Bool := pc.isSignalling || pc.call?.any isWrite

section Stream

variable {T : Type}

def Closing (s : Sys T (Call α) (Ret α) (Ledger α)) : Prop :=
  s.shared.queue.mIsWaitWasExited = true ∨ ∃ t, (s.pc t).call? = some .setWaitExitState

/-- The stream as the readers see it: nothing is lost, and `NULL` comes only at its end. -/
structure Drained (l : Ledger α) : Prop where
  all : (reads l.rets).reduceOption++l.queue.content = l.accepted
  ended : none ∈ reads l.rets → l.queue.mIsWaitWasExited = true ∧ l.queue.q = []
  after : (reads l.rets).Pairwise (fun x y => x = none → y = none)

theorem Drained.kept {l : Ledger α} {sec : Section α} (h : Drained l)
    (hq : sec.queue.q = l.queue.q)
    (hx : l.queue.mIsWaitWasExited = true → sec.queue.mIsWaitWasExited = true)
    (ha : sec.accepted = []) (hr : reads sec.out.results = []) : Drained (l.record sec) := by
  have hreads : reads (l.record sec).rets = reads l.rets := by simp [Ledger.record,hr]
  refine ⟨?_,?_,?_⟩
  · have hall := h.all
    rw [hreads]
    simpa [Ledger.record,content,hq,ha] using hall
  · rw [hreads]
    intro hnull
    obtain ⟨hexit,hempty⟩ := h.ended hnull
    exact ⟨hx hexit,hq.trans hempty⟩
  · rw [hreads]
    exact h.after

theorem Does.drained {l : Ledger α} {c : Call α} {sec : Section α} (h : Does l.queue c sec)
    (hc : c ≠ .clear ∧ ∀ one, c ≠ .cycWrite one)
    (hopen : isWrite c = true → l.queue.mIsWaitWasExited = false) (hl : Drained l) :
    Drained (l.record sec) := by
  have hall := hl.all
  cases h with
  | wait _ _ => exact hl.kept rfl id rfl rfl
  | same _ _ hr => exact hl.kept rfl id rfl (reads_other hr)
  | exit => exact hl.kept rfl (fun _ => rfl) rfl rfl
  | evict _ => exact (hc.2 _ rfl).elim
  | forget => exact (hc.1 rfl).elim
  | null hb hx =>
    have hq : l.queue.q = [] := by simpa [back] using hb
    have hreads (sec : Section α) (h : sec.out = .ret (.read none)) :
        reads (l.record sec).rets = reads l.rets++[none] := by
      simp [Ledger.record,h,Outcome.results,reads]
    refine ⟨?_,fun _ => ⟨hx,hq⟩,?_⟩
    · rw [hreads _ rfl,List.reduceOption_append]
      simpa [Ledger.record] using hall
    · rw [hreads _ rfl,List.pairwise_append]
      exact ⟨hl.after,by simp,by simp⟩
  | @take c one _ hb =>
    have hopen : none ∉ reads l.rets := by
      intro hnull
      simp [back,(hl.ended hnull).2] at hb
    have hreads (sec : Section α) (h : sec.out = .ret (.read (some one))) :
        reads (l.record sec).rets = reads l.rets++[some one] := by
      simp [Ledger.record,h,Outcome.results,reads]
    refine ⟨?_,?_,?_⟩
    · rw [hreads _ rfl,List.reduceOption_append]
      rw [content_popBack hb] at hall
      simpa [Ledger.record] using hall
    · rw [hreads _ rfl]
      simp [hopen]
    · rw [hreads _ rfl,List.pairwise_append]
      refine ⟨hl.after,by simp,?_⟩
      rintro x hx y - rfl
      exact (hopen hx).elim
  | @push c r one hw _ hr =>
    have hreads (sec : Section α) (h : sec.out = .signal r) :
        reads (l.record sec).rets = reads l.rets := by
      simp [Ledger.record,h,Outcome.results,reads_other hr]
    refine ⟨?_,?_,?_⟩
    · rw [hreads _ rfl]
      simp only [Ledger.record,content_pushFront]
      rw [← List.append_assoc,hall]
    · rw [hreads _ rfl]
      intro hnull
      have hexit := (hl.ended hnull).1
      rw [hopen hw] at hexit
      cases hexit
    · rw [hreads _ rfl]
      exact hl.after

theorem Does.exited {m : MTQueue α} {c : Call α} {sec : Section α} (h : Does m c sec)
    (hx : sec.queue.mIsWaitWasExited = true) :
    m.mIsWaitWasExited = true ∨ c = .setWaitExitState := by
  cases h with
  | exit => exact Or.inr rfl
  | _ => exact Or.inl hx

variable {s u : Sys T (Call α) (Ret α) (Ledger α)} {e : Event T (Call α)}

theorem writing_of_call {t : T} {c : Call α} (h : (s.pc t).call? = some c)
    (hc : isWrite c = true) : writing (s.pc t) = true := by
  simp [writing,h,hc]

variable [DecidableEq T]

theorem writing_origin (h : Move (code α) s e u) {t : T} (hw : writing (u.pc t) = true) :
    writing (s.pc t) = true ∨ ∃ c, e = .call t c ∧ isWrite c = true := by
  simp only [writing,Bool.or_eq_true,Option.any_eq_true] at hw
  rcases hw with hsig | ⟨c,hcall,hc⟩
  · left
    rcases h.signal_origin hsig with hsig | ⟨c,expired,l,r,hcall,hb⟩
    · simp [writing,hsig]
    · obtain ⟨sec,hsec,-,hout⟩ := body_ok hb
      apply writing_of_call hcall
      have hdoes := critical_does hsec
      cases hdoes <;> simp_all [isWrite,clear,setWaitExitState]
  · rcases h.call_origin hcall with hcall | he
    · exact Or.inl (writing_of_call hcall hc)
    · exact Or.inr ⟨c,he,hc⟩

theorem closing_origin (h : Move (code α) s e u) (hc : Closing u) :
    Closing s ∨ ∃ t, e = .call t .setWaitExitState := by
  rcases hc with hx | ⟨t,ht⟩
  · left
    rcases h.shared with heq | ⟨t,c,expired,out,-,hcall,hb⟩
    · rw [heq] at hx
      exact Or.inl hx
    · obtain ⟨sec,hsec,hl,-⟩ := body_ok hb
      rw [hl] at hx
      rcases (critical_does hsec).exited hx with hx | rfl
      · exact Or.inl hx
      · exact Or.inr ⟨t,hcall⟩
  · rcases h.call_origin ht with ht | he
    · exact Or.inl (Or.inr ⟨t,ht⟩)
    · exact Or.inr ⟨t,he⟩

/-- No `cycWrite` and no clear; `setWaitExitState` is called when every write started so far has
returned, and no write is started after that. -/
def ClosedLast (s : Sys T (Call α) (Ret α) (Ledger α)) : Event T (Call α) → Prop
  | .call _ (.cycWrite _) | .call _ .clear => False
  | .call _ (.write _) | .call _ (.writeTd _) => ¬ Closing s
  | .call _ .setWaitExitState => ∀ t, writing (s.pc t) = false
  | _ => True

structure Draining (s : Sys T (Call α) (Ret α) (Ledger α)) : Prop where
  calls : Calls (fun c => c ≠ .clear ∧ ∀ one, c ≠ .cycWrite one) s
  quiet : Closing s → ∀ t, writing (s.pc t) = false
  drained : Drained s.shared

theorem Draining.move (h : Move (code α) s e u) (hok : ClosedLast s e) (hd : Draining s) :
    Draining u where
  calls := by
    apply h.calls _ hd.calls
    cases e with
    | call t c => cases c <;> simp_all [ClosedLast,CallOk]
    | _ => trivial
  quiet := by
    intro hc t
    by_contra hw
    rcases writing_origin h (by simpa using hw) with hw | ⟨c,rfl,hwrite⟩
    · rcases closing_origin h hc with hc | ⟨i,rfl⟩
      · rw [hd.quiet hc t] at hw
        cases hw
      · rw [hok t] at hw
        cases hw
    · have hopen : ¬ Closing s := by
        cases c with
        | write one => exact hok
        | writeTd one => exact hok
        | cycWrite one => exact hok.elim
        | _ => cases hwrite
      rcases closing_origin h hc with hc | ⟨i,he⟩
      · exact hopen hc
      · cases he
        cases hwrite
  drained := by
    rcases h.shared with heq | ⟨t,c,expired,out,-,hcall,hb⟩
    · rw [heq]
      exact hd.drained
    · obtain ⟨sec,hsec,hl,-⟩ := body_ok hb
      rw [hl]
      apply (critical_does hsec).drained (hd.calls t c hcall) _ hd.drained
      intro hc
      by_contra hx
      have hquiet := hd.quiet (Or.inl (by simpa using hx)) t
      rw [writing_of_call hcall hc] at hquiet
      cases hquiet

variable [Fintype T]

instance [DecidableEq α] (s : Sys T (Call α) (Ret α) (Ledger α)) : Decidable (Closing s) :=
  inferInstanceAs (Decidable (_ ∨ _))

instance [DecidableEq α] (s : Sys T (Call α) (Ret α) (Ledger α)) : DecidablePred (ClosedLast s)
  | .call _ (.cycWrite _) | .call _ .clear => inferInstanceAs (Decidable False)
  | .call _ (.write _) | .call _ (.writeTd _) => inferInstanceAs (Decidable (¬ Closing s))
  | .call _ .setWaitExitState => inferInstanceAs (Decidable (∀ t, writing (s.pc t) = false))
  | .call _ .read | .call _ .readTd | .call _ .getSize | .call _ .get => .isTrue trivial
  | .lock _ | .notify _ _ | .timeout _ | .spurious _ => .isTrue trivial

def closedEvents : List (Event (Fin 2) (Call ℕ)) :=
  [.call 0 .readTd,.lock 0,.call 1 (.write 5),.lock 1,.notify 1 (some 0),.lock 0,
   .call 1 .setWaitExitState,.lock 1,.call 0 .readTd,.lock 0,.timeout 0,.lock 0]

end Stream

end MTQueue
end PcEnv
