import PcEnv.SockReap

/-! Whose descriptors `SocServer::Run` and its handlers close: `closeSocket` leaves `m_sockfd` as
it is, and the destructor of the client closes the same number again. -/
namespace PcEnv
namespace SockServer

open FdTable Runs Text

/-- Every `close` so far has been made by the holder of the descriptor. -/
def OwnCloses (s : Sys) : Prop := ∀ x ∈ s.closes, x.owner = some (.client x.client)

def Gone (x : Client) : Prop := x.handler = .ended ∧ x.responseStep = .finish

/-- Who holds the descriptors. As long as no client has closed another one's, a client holds its
own until `closeSocket`. -/
structure Held (s : Sys) : Prop where
  owned : ∀ fd c, owner s.fds fd = some (.client c) → c < s.next ∧ fd = (s.objs c).sockfd
  gone : ∀ c, Gone (s.objs c) → owner s.fds (s.objs c).sockfd ≠ some (.client c)
  kept : OwnCloses s → ∀ c, c < s.next → Gone (s.objs c) ∨
    owner s.fds (s.objs c).sockfd = some (.client c)

section

variable {s t : Sys} {e : Event} {c : ℕ} {x : Client}

theorem Held.start : Held Sys.start := by
  have hnone : ∀ fd c, owner Sys.start.fds fd ≠ some (.client c) := by
    intro fd c
    rcases fd with _ | _ | _ | _ | fd <;> simp [Sys.start,owner]
  exact ⟨fun fd c h => absurd h (hnone fd c),fun c _ => hnone _ c,
    fun _ c hc => absurd hc (Nat.not_lt_zero c)⟩

theorem Held.setObj (h : Held s) (hfd : x.sockfd = (s.objs c).sockfd)
    (hgone : Gone x ↔ Gone (s.objs c)) : Held (s.setObj c x) := by
  have hsame : ∀ d, ((s.setObj c x).objs d).sockfd = (s.objs d).sockfd ∧
      (Gone ((s.setObj c x).objs d) ↔ Gone (s.objs d)) := by
    intro d
    by_cases hd : d = c
    · subst d
      rw [Sys.setObj_self]
      exact ⟨hfd,hgone⟩
    · rw [Sys.setObj_ne s hd]
      exact ⟨rfl,Iff.rfl⟩
  refine ⟨fun fd d ho => ?_,fun d hd => ?_,fun hown d hd => ?_⟩
  · rw [(hsame d).1]
    exact h.owned fd d ho
  · rw [(hsame d).1]
    exact h.gone d ((hsame d).2.mp hd)
  · rw [(hsame d).1,(hsame d).2]
    exact h.kept hown d hd

theorem Held.setFds (h : Held s) {fds : List (Option Owner)}
    (hsame : ∀ fd c, owner fds fd = some (.client c) ↔ owner s.fds fd = some (.client c)) :
    Held { s with fds := fds } := by
  refine ⟨fun fd d ho => h.owned fd d ((hsame fd d).mp ho),fun d hd ho => ?_,fun hown d hd => ?_⟩
  · exact h.gone d hd ((hsame _ d).mp ho)
  · exact (h.kept hown d hd).imp id (hsame _ d).mpr

theorem Held.openOther (h : Held s) : Held { s with fds := openFd s.fds .other } := by
  refine h.setFds (fun fd d => ?_)
  rw [owner_openFd]
  split_ifs with hl
  · rw [hl,owner_lowest]
    simp
  · exact Iff.rfl

theorem Held.closeOther {fd : ℕ} (h : Held s) (hfd : owner s.fds fd = some .other) :
    Held { s with fds := closeFd s.fds fd } := by
  refine h.setFds (fun fd' d => ?_)
  rw [owner_closeFd]
  split_ifs with hl
  · rw [hl,hfd]
    simp
  · exact Iff.rfl

theorem Held.accept (h : Held s) (hnext : t.next = s.next+1)
    (hself : t.objs s.next = Client.new (lowest s.fds))
    (hother : ∀ d, d ≠ s.next → t.objs d = s.objs d)
    (hfds : t.fds = openFd s.fds (.client s.next)) (hcloses : t.closes = s.closes) : Held t := by
  refine ⟨fun fd d ho => ?_,fun d hd => ?_,fun hown d hd => ?_⟩
  · rw [hfds,owner_openFd] at ho
    split_ifs at ho with hl
    · cases ho
      exact ⟨by omega,by rw [hself]; exact hl⟩
    · obtain ⟨hlt,hfd⟩ := h.owned fd d ho
      exact ⟨by omega,by rw [hother d hlt.ne]; exact hfd⟩
  · have hne : d ≠ s.next := by
      rintro rfl
      rw [hself] at hd
      cases hd.1
    rw [hother d hne] at hd ⊢
    rw [hfds,owner_openFd]
    split_ifs with hl
    · simpa using hne.symm
    · exact h.gone d hd
  · rw [hfds,owner_openFd]
    rcases Nat.lt_succ_iff_lt_or_eq.mp (hnext ▸ hd) with hlt | rfl
    · rw [hother d hlt.ne]
      refine (h.kept (by rwa [OwnCloses,hcloses] at hown) d hlt).imp id (fun ho => ?_)
      rw [if_neg (fun hl => ?_)]
      · exact ho
      · rw [hl,owner_lowest] at ho
        cases ho
    · rw [hself]
      exact Or.inr (if_pos rfl)

theorem ownCloses_close : OwnCloses (s.close c) ↔
    OwnCloses s ∧ owner s.fds (s.objs c).sockfd = some (.client c) := by
  simp only [OwnCloses,Sys.close,List.forall_mem_append,List.forall_mem_singleton]

theorem Held.close (howned : ∀ fd d, owner s.fds fd = some (.client d) →
      d < s.next ∧ fd = (s.objs d).sockfd)
    (hothers : ∀ d, d ≠ c → Gone (s.objs d) → owner s.fds (s.objs d).sockfd ≠ some (.client d))
    (hkept : OwnCloses s → ∀ d, d ≠ c → d < s.next → Gone (s.objs d) ∨
      owner s.fds (s.objs d).sockfd = some (.client d))
    (hc : Gone (s.objs c)) : Held (s.close c) := by
  have howner : ∀ fd, owner (s.close c).fds fd =
      if fd = (s.objs c).sockfd then none else owner s.fds fd := by
    intro fd
    exact owner_closeFd s.fds fd _
  refine ⟨fun fd d ho => ?_,fun d hd => ?_,fun hown d hd => ?_⟩
  · rw [howner] at ho
    split_ifs at ho with hl
    exact howned fd d ho
  · rw [howner]
    split_ifs with hl
    · simp
    · have hne : d ≠ c := fun he => hl (he ▸ rfl)
      exact hothers d hne hd
  · by_cases hne : d = c
    · exact Or.inl (hne ▸ hc)
    · obtain ⟨hbefore,hmine⟩ := ownCloses_close.mp hown
      refine (hkept hbefore d hne hd).imp id (fun ho => ?_)
      rw [howner,if_neg (fun hl => ?_)]
      · exact ho
      · -- the number is that of `c`, and `c` holds it
        have hd' : (s.objs d).sockfd = (s.objs c).sockfd := hl
        rw [hd',hmine] at ho
        cases ho
        exact hne rfl

theorem Turns.gone {a : Act} {y : Client} (h : Turns x a y) (hx : Phased x) :
    Gone y ↔ a = .closeSocket := by
  cases h with
  | @recv i req r hh =>
    refine iff_of_false (fun hg => ?_) (by simp)
    rcases nextTurn_cases i (req++appended x.exitWork r) with ⟨found,hn⟩ | ⟨-,hn⟩
    · exact absurd (hn.symm.trans hg.1) (by simp)
    · exact absurd (hn.symm.trans hg.1) (by simp)
  | test hh =>
    simp only [Phased,hh] at hx
    refine iff_of_false (fun hg => ?_) (by simp)
    have hfin : x.responseStep = .finish := hg.2
    rw [hx.1] at hfin
    cases hfin
  | respond hh => exact iff_of_false (fun hg => by cases hg.1) (by simp)
  | closeSocket hh =>
    simp only [Phased,hh] at hx
    exact iff_of_true ⟨rfl,hx⟩ rfl

theorem Held.closeSocket (ho : Ordered s) (h : Held s)
    (hx : Turns (s.objs c) .closeSocket x) :
    Held ((s.setObj c x).close c) ∧ (OwnCloses ((s.setObj c x).close c) ↔ OwnCloses s) := by
  obtain ⟨-,hfd,-⟩ := hx.phased (ho.phased c)
  have hsame : ∀ d, ((s.setObj c x).objs d).sockfd = (s.objs d).sockfd := by
    intro d
    by_cases hd : d = c
    · rw [hd,Sys.setObj_self,hfd]
    · rw [Sys.setObj_ne s hd]
  have hlt : c < s.next := by
    by_contra hge
    exact hx.running.2 (ho.fresh c (not_lt.mp hge))
  have hnot : ¬Gone (s.objs c) := fun hg => hx.running.1 hg.1
  constructor
  · refine Held.close (fun fd d hd => ?_) (fun d hd hg => ?_) (fun hown d hd hd' => ?_) ?_
    · rw [hsame d]
      exact h.owned fd d hd
    · rw [Sys.setObj_ne s hd] at hg ⊢
      exact h.gone d hg
    · rw [Sys.setObj_ne s hd]
      exact h.kept hown d hd'
    · rw [Sys.setObj_self]
      exact (hx.gone (ho.phased c)).mpr rfl
  · rw [ownCloses_close,hsame c]
    exact and_iff_left_of_imp (fun hown => (h.kept hown c hlt).resolve_left hnot)

/-- The step lemma: only a client that is reaped is closed when it does not hold its descriptor. -/
theorem Held.move (ho : Ordered s) (h : Held s) (hm : Moves s e t) :
    Held t ∧ (OwnCloses t ↔ OwnCloses s ∧ e ≠ .join) := by
  cases hm with
  | accepted hm =>
    exact ⟨h.accept rfl (Sys.setObj_self s _ _) (fun d hd => Sys.setObj_ne s hd _) rfl rfl,
      (and_iff_left (by simp)).symm⟩
  | @started c todo readable hm hw =>
    have hnot : ¬Gone (s.objs c) := fun hg => by
      rw [hg.2] at hw
      cases hw
    have hset := h.setObj (c:=c)
      (x:={ s.objs c with responseStep := .start, handler := .receiving 0 [] }) rfl
      (iff_of_false (fun hg => by cases hg.1) hnot)
    exact ⟨⟨hset.owned,hset.gone,hset.kept⟩,(and_iff_left (by simp)).symm⟩
  | @chosen c todo hm hf =>
    have hset := h.setObj (c:=c) (x:={ s.objs c with exitWork := true }) rfl Iff.rfl
    exact ⟨⟨hset.owned,hset.gone,hset.kept⟩,(and_iff_left (by simp)).symm⟩
  | @joined c todo hm he =>
    have hgone : Gone (s.objs c) := ⟨he,ho.joining c todo hm⟩
    have hclose := Held.close h.owned (fun d _ => h.gone d) (fun hown d _ => h.kept hown d) hgone
    refine ⟨⟨hclose.owned,hclose.gone,hclose.kept⟩,iff_of_false (fun hown => ?_) (by simp)⟩
    exact h.gone c hgone (ownCloses_close.mp hown).2
  | @turned c a x hx ha =>
    have hturn := turn_cases hx
    obtain ⟨-,hfd,-⟩ := hturn.phased (ho.phased c)
    refine ⟨h.setObj hfd (iff_of_false (fun hg => ?_) (fun hg => hturn.running.1 hg.1)),
      (and_iff_left (by simp)).symm⟩
    exact ha ((hturn.gone (ho.phased c)).mp hg)
  | closed hx =>
    obtain ⟨hheld,hown⟩ := h.closeSocket ho (turn_cases hx)
    exact ⟨hheld,hown.trans (and_iff_left (by simp)).symm⟩
  | stopped => exact ⟨h.setObj rfl Iff.rfl,(and_iff_left (by simp)).symm⟩
  | opened => exact ⟨h.openOther,(and_iff_left (by simp)).symm⟩
  | closedOther hfd => exact ⟨h.closeOther hfd,(and_iff_left (by simp)).symm⟩
  | _ => exact ⟨⟨h.owned,h.gone,h.kept⟩,(and_iff_left (by simp)).symm⟩

end

/-- In every run every `close` is made by the holder of the descriptor if and only if no client is
reaped. -/
theorem closes_iff (es : List Event) (t : Sys) (ht : exec step Sys.start es = .ok t) :
    (∀ x ∈ t.closes, x.owner = some (.client x.client)) ↔
      Along step (fun _ e => e ≠ .join) Sys.start es := by
  have hany : Along step (fun _ _ => True) Sys.start es :=
    along_of_forall (fun _ _ => trivial) _ es
  have hrun : OwnCloses t ↔
      OwnCloses Sys.start ∧ Along step (fun _ e => e ≠ .join) Sys.start es :=
    exec_iff_along_of_invariant (fun s => Ordered s ∧ Held s)
      (fun s e t h _ hs => ⟨h.1.move (step_cases hs),(h.2.move h.1 (step_cases hs)).1⟩)
      (fun s e t h _ hs => (h.2.move h.1 (step_cases hs)).2) ⟨Ordered.start,Held.start⟩ hany ht
  rw [show OwnCloses Sys.start ↔ True from iff_true_intro (by simp [OwnCloses,Sys.start]),
    true_and] at hrun
  exact hrun

def serveRun : List Event :=
  [.select .accepted,.select .quiet,.visit true,.visit true,.reap,.reap,
    .handler 0 (.recv (.bytes (ascii "GET / HTTP/1.1\r\n\r\n"))),.handler 0 .test,
    .handler 0 .respond,.handler 0 .closeSocket]

theorem closes_iff_serve :
    ∃ t, exec step Sys.start serveRun = .ok t ∧
      ∀ x ∈ t.closes, x.owner = some (.client x.client) := by
  have hrun : observe Sys.next (exec step Sys.start serveRun) = some 1 := by decide
  obtain ⟨t,ht,-⟩ := observe_eq_some.mp hrun
  exact ⟨t,ht,(closes_iff serveRun t ht).mpr (by decide)⟩

/-- The next client gets the number, and then the first one is reaped. -/
theorem reaping_closes_next :
    ∃ t, exec step Sys.start (serveRun++[.select .accepted,.select .quiet,.visit false,
        .visit false,.visit false,.reap,.join]) = .ok t ∧
      ⟨0,some (.client 1)⟩ ∈ t.closes ∧ 1 ∈ t.m_clients := by
  have hrun : observe (fun t => (t.closes,t.m_clients)) (exec step Sys.start
      (serveRun++[.select .accepted,.select .quiet,.visit false,.visit false,.visit false,.reap,
        .join])) = some ([⟨0,some (.client 0)⟩,⟨0,some (.client 1)⟩],[1]) := by decide
  obtain ⟨t,ht,hend⟩ := observe_eq_some.mp hrun
  obtain ⟨hcloses,hclients⟩ := Prod.mk.inj hend
  exact ⟨t,ht,by rw [hcloses]; simp,by rw [hclients]; simp⟩

end SockServer
end PcEnv
