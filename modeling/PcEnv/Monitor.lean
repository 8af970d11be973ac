import PcEnv.Runs

/-! Threads around one mutex and one condition variable.
A call runs a critical section, which returns, returns once it has woken a waiter, or waits; a
woken thread runs its section again. A waiter is woken by a notification, at its deadline or
for no reason. Scheduling, deadlines and the waiter a notification picks are events. -/
namespace PcEnv
namespace Monitor

open Runs

inductive Outcome (R : Type)
  | wait | ret (r : R) | signal (r : R)
  deriving DecidableEq

/-- The result of the call, where the section decides one. -/
def Outcome.results {R : Type} : Outcome R → List R
  | .wait => []
  | .ret r | .signal r => [r]

/-- `body c expired` is the critical section of `c`, entered for the first time or after a
wake-up, whose deadline has passed if `expired`. -/
structure Code (C R M : Type) where
  timed : C → Bool
  body : C → Bool → M → Except Halt (M × Outcome R)

/-- `signalling` is the place between the end of a critical section and its `notify_one`. -/
inductive Pc (C R : Type)
  | idle
  | enter (c : C)
  | waiting (c : C)
  | woken (c : C) (notified expired : Bool)
  | signalling (r : R)

structure Sys (T C R M : Type) where
  shared : M
  pc : T → Pc C R

/-- `notify t w`: the waiter `w` is picked, or none waits. -/
inductive Event (T C : Type)
  | call (t : T) (c : C)
  | lock (t : T)
  | notify (t : T) (w : Option T)
  | timeout (t : T)
  | spurious (t : T)

variable {T C R M : Type}

namespace Pc

/-- The call a thread is in, up to the end of its critical section. -/
def call? : Pc C R → Option C
  | enter c | waiting c | woken c _ _ => some c
  | idle | signalling _ => none

def isWaiting (q : C → Bool) : Pc C R → Bool
  | waiting c => q c
  | _ => false

def isSignalling : Pc C R → Bool
  | signalling _ => true
  | _ => false

def isNotified : Pc C R → Bool
  | woken _ notified _ => notified
  | _ => false

def after (c : C) : Outcome R → Pc C R
  | .wait => waiting c
  | .ret _ => idle
  | .signal r => signalling r

theorem call_of_entered {pc : Pc C R} {c : C} {expired : Bool}
    (h : pc = enter c ∨ ∃ notified, pc = woken c notified expired) : pc.call? = some c := by
  rcases h with h | ⟨notified,h⟩
  · rw [h]
    rfl
  · rw [h]
    rfl

end Pc

section Steps

variable [DecidableEq T]

def Sys.moved (s : Sys T C R M) (t : T) (pc : Pc C R) : Sys T C R M :=
  { s with pc := Function.update s.pc t pc }

@[simp] theorem Sys.moved_shared (s : Sys T C R M) (t : T) (pc : Pc C R) :
    (s.moved t pc).shared = s.shared := rfl
@[simp] theorem Sys.moved_self (s : Sys T C R M) (t : T) (pc : Pc C R) :
    (s.moved t pc).pc t = pc := by simp [moved]

theorem Sys.moved_ne (s : Sys T C R M) {t u : T} (pc : Pc C R) (h : u ≠ t) :
    (s.moved t pc).pc u = s.pc u := by simp [moved,h]

theorem Sys.moved_cases (s : Sys T C R M) (t : T) (pc : Pc C R) (u : T) :
    u = t ∧ (s.moved t pc).pc u = pc ∨ u ≠ t ∧ (s.moved t pc).pc u = s.pc u := by
  by_cases h : u = t
  · exact Or.inl ⟨h,by rw [h,moved_self]⟩
  · exact Or.inr ⟨h,s.moved_ne pc h⟩

def runBody (p : Code C R M) (s : Sys T C R M) (t : T) (c : C) (expired : Bool) :
    Except Halt (Sys T C R M) :=
  match p.body c expired s.shared with
  | .ok (m,out) => .ok ({ s with shared := m }.moved t (.after c out))
  | .error h => .error h

theorem runBody_ok {p : Code C R M} {s u : Sys T C R M} {t : T} {c : C} {expired : Bool}
    (h : runBody p s t c expired = .ok u) :
    ∃ m out, p.body c expired s.shared = .ok (m,out) ∧
      u = { s with shared := m }.moved t (.after c out) := by
  cases hb : p.body c expired s.shared with
  | error x => simp [runBody,hb] at h
  | ok y =>
    simp only [runBody,hb,Except.ok.injEq] at h
    exact ⟨y.1,y.2,rfl,h.symm⟩

inductive Move (p : Code C R M) (s : Sys T C R M) : Event T C → Sys T C R M → Prop
  | call {t c} (h : s.pc t = .idle) : Move p s (.call t c) (s.moved t (.enter c))
  | lock {t c expired m out} (h : s.pc t = .enter c ∨ ∃ notified, s.pc t = .woken c notified expired)
      (hb : p.body c expired s.shared = .ok (m,out)) :
      Move p s (.lock t) ({ s with shared := m }.moved t (.after c out))
  | notifyNone {t r} (h : s.pc t = .signalling r)
      (hw : ∀ w, (s.pc w).isWaiting (fun _ => true) = false) :
      Move p s (.notify t none) (s.moved t .idle)
  | notify {t r w c} (h : s.pc t = .signalling r) (hw : s.pc w = .waiting c) :
      Move p s (.notify t (some w)) ((s.moved w (.woken c true false)).moved t .idle)
  | timeout {t c notified} (ht : p.timed c = true)
      (h : s.pc t = .waiting c ∧ notified = false ∨ ∃ x, s.pc t = .woken c notified x) :
      Move p s (.timeout t) (s.moved t (.woken c notified true))
  | spurious {t c} (h : s.pc t = .waiting c) :
      Move p s (.spurious t) (s.moved t (.woken c false false))

def Calls (q : C → Prop) (s : Sys T C R M) : Prop := ∀ t c, (s.pc t).call? = some c → q c

def CallOk (q : C → Prop) (_ : Sys T C R M) : Event T C → Prop
  | .call _ c => q c
  | _ => True

instance (q : C → Prop) [DecidablePred q] (s : Sys T C R M) : DecidablePred (CallOk q s)
  | .call _ c => inferInstanceAs (Decidable (q c))
  | .lock _ | .notify _ _ | .timeout _ | .spurious _ => .isTrue trivial

@[simp] theorem Pc.call?_after (c d : C) (out : Outcome R) :
    (Pc.after c out).call? = some d ↔ out = .wait ∧ c = d := by
  cases out <;> simp [after,call?]

theorem Move.call_origin {p : Code C R M} {s u : Sys T C R M} {e : Event T C} (h : Move p s e u)
    {t : T} {c : C} (hc : (u.pc t).call? = some c) :
    (s.pc t).call? = some c ∨ e = .call t c := by
  have other {s₀ : Sys T C R M} {i : T} {pc : Pc C R} (hs₀ : s₀.pc = s.pc)
      (hi : pc.call? = some c → (s.pc i).call? = some c)
      (hc : ((s₀.moved i pc).pc t).call? = some c) : (s.pc t).call? = some c := by
    rcases s₀.moved_cases i pc t with ⟨rfl,heq⟩ | ⟨-,heq⟩
    · rw [heq] at hc
      exact hi hc
    · rwa [heq,hs₀] at hc
  cases h with
  | @call i d hidle =>
    rcases s.moved_cases i (.enter d) t with ⟨rfl,heq⟩ | ⟨-,heq⟩
    · rw [heq] at hc
      cases hc
      exact Or.inr rfl
    · rw [heq] at hc
      exact Or.inl hc
  | @lock i d expired m out hpc hb =>
    refine Or.inl (other rfl ?_ hc)
    intro hd
    rw [Pc.call?_after] at hd
    rw [Pc.call_of_entered hpc,hd.2]
  | notifyNone hpc hw => exact Or.inl (other rfl (by simp [Pc.call?]) hc)
  | @notify i r w d hpc hw =>
    rcases (s.moved w (.woken d true false)).moved_cases i .idle t with ⟨rfl,heq⟩ | ⟨-,heq⟩
    · rw [heq] at hc
      cases hc
    · rw [heq] at hc
      exact Or.inl (other rfl (by rw [hw]; exact id) hc)
  | timeout ht hpc =>
    refine Or.inl (other rfl ?_ hc)
    rcases hpc with ⟨hpc,-⟩ | ⟨x,hpc⟩ <;> rw [hpc] <;> exact id
  | spurious hpc => exact Or.inl (other rfl (by rw [hpc]; exact id) hc)

theorem Move.calls {p : Code C R M} {s u : Sys T C R M} {e : Event T C} {q : C → Prop}
    (h : Move p s e u) (hq : CallOk q s e) (hs : Calls q s) : Calls q u := by
  intro t c hc
  rcases h.call_origin hc with hc | rfl
  · exact hs t c hc
  · exact hq

theorem Move.signal_origin {p : Code C R M} {s u : Sys T C R M} {e : Event T C} (h : Move p s e u)
    {t : T} (hu : (u.pc t).isSignalling = true) :
    (s.pc t).isSignalling = true ∨
      ∃ c expired m r, (s.pc t).call? = some c ∧ p.body c expired s.shared = .ok (m,.signal r) := by
  have other {s₀ : Sys T C R M} {i : T} {pc : Pc C R} (hs₀ : s₀.pc = s.pc)
      (hi : pc.isSignalling = false) (hu : ((s₀.moved i pc).pc t).isSignalling = true) :
      (s.pc t).isSignalling = true := by
    rcases s₀.moved_cases i pc t with ⟨-,heq⟩ | ⟨-,heq⟩
    · rw [heq,hi] at hu
      cases hu
    · rwa [heq,hs₀] at hu
  cases h with
  | call _ => exact Or.inl (other rfl rfl hu)
  | @lock i c expired m out hpc hb =>
    cases out with
    | wait => exact Or.inl (other rfl rfl hu)
    | ret r => exact Or.inl (other rfl rfl hu)
    | signal r =>
      rcases { s with shared := m }.moved_cases i (.signalling r) t with ⟨rfl,-⟩ | ⟨-,heq⟩
      · exact Or.inr ⟨c,expired,m,r,Pc.call_of_entered hpc,hb⟩
      · left
        rw [← heq]
        exact hu
  | notifyNone _ _ => exact Or.inl (other rfl rfl hu)
  | @notify i r w c _ _ =>
    rcases (s.moved w (.woken c true false)).moved_cases i .idle t with ⟨-,heq⟩ | ⟨-,heq⟩
    · rw [heq] at hu
      cases hu
    · rw [heq] at hu
      exact Or.inl (other rfl rfl hu)
  | timeout _ _ => exact Or.inl (other rfl rfl hu)
  | spurious _ => exact Or.inl (other rfl rfl hu)

theorem Move.shared {p : Code C R M} {s u : Sys T C R M} {e : Event T C} (h : Move p s e u) :
    u.shared = s.shared ∨ ∃ t c expired out, e = .lock t ∧ (s.pc t).call? = some c ∧
      p.body c expired s.shared = .ok (u.shared,out) := by
  cases h with
  | @lock t c expired m out hpc hb =>
    exact Or.inr ⟨t,c,expired,out,rfl,Pc.call_of_entered hpc,hb⟩
  | _ => exact Or.inl rfl

theorem waits_of_moved {strict : C → Bool} {s : Sys T C R M} {t : T} {pc : Pc C R}
    (hpc : pc.isWaiting strict = false)
    (h : ∃ i, ((s.moved t pc).pc i).isWaiting strict = true) :
    ∃ i, (s.pc i).isWaiting strict = true := by
  obtain ⟨i,hi⟩ := h
  rcases s.moved_cases t pc i with ⟨-,heq⟩ | ⟨-,heq⟩
  · rw [heq,hpc] at hi
    cases hi
  · rw [heq] at hi
    exact ⟨i,hi⟩

variable [Fintype T]

def step (p : Code C R M) (s : Sys T C R M) : Event T C → Except Halt (Sys T C R M)
  | .call t c =>
    match s.pc t with
    | .idle => .ok (s.moved t (.enter c))
    | _ => .error .blocked
  | .lock t =>
    match s.pc t with
    | .enter c => runBody p s t c false
    | .woken c _ expired => runBody p s t c expired
    | _ => .error .blocked
  | .notify t none =>
    match s.pc t with
    | .signalling _ =>
      if ∀ w, (s.pc w).isWaiting (fun _ => true) = false then .ok (s.moved t .idle)
      else .error .blocked
    | _ => .error .blocked
  | .notify t (some w) =>
    match s.pc t,s.pc w with
    | .signalling _,.waiting c => .ok ((s.moved w (.woken c true false)).moved t .idle)
    | _,_ => .error .blocked
  | .timeout t =>
    match s.pc t with
    | .waiting c => if p.timed c then .ok (s.moved t (.woken c false true)) else .error .blocked
    | .woken c notified _ =>
      if p.timed c then .ok (s.moved t (.woken c notified true)) else .error .blocked
    | _ => .error .blocked
  | .spurious t =>
    match s.pc t with
    | .waiting c => .ok (s.moved t (.woken c false false))
    | _ => .error .blocked

theorem step_move {p : Code C R M} {s u : Sys T C R M} {e : Event T C} (h : step p s e = .ok u) :
    Move p s e u := by
  cases e with
  | call t c =>
    cases hpc : s.pc t with
    | idle =>
      simp only [step,hpc,Except.ok.injEq] at h
      exact h ▸ .call hpc
    | _ => simp [step,hpc] at h
  | lock t =>
    cases hpc : s.pc t with
    | enter c =>
      simp only [step,hpc] at h
      obtain ⟨m,out,hb,rfl⟩ := runBody_ok h
      exact .lock (Or.inl hpc) hb
    | woken c notified expired =>
      simp only [step,hpc] at h
      obtain ⟨m,out,hb,rfl⟩ := runBody_ok h
      exact .lock (Or.inr ⟨notified,hpc⟩) hb
    | _ => simp [step,hpc] at h
  | notify t w =>
    cases w with
    | none =>
      cases hpc : s.pc t with
      | signalling r =>
        simp only [step,hpc] at h
        split_ifs at h with hw
        cases h
        exact .notifyNone hpc hw
      | _ => simp [step,hpc] at h
    | some w =>
      cases hpc : s.pc t with
      | signalling r =>
        cases hw : s.pc w with
        | waiting c =>
          simp only [step,hpc,hw,Except.ok.injEq] at h
          exact h ▸ .notify hpc hw
        | _ => simp [step,hpc,hw] at h
      | _ => simp [step,hpc] at h
  | timeout t =>
    cases hpc : s.pc t with
    | waiting c =>
      simp only [step,hpc] at h
      split_ifs at h with ht
      cases h
      exact .timeout ht (Or.inl ⟨hpc,rfl⟩)
    | woken c notified x =>
      simp only [step,hpc] at h
      split_ifs at h with ht
      cases h
      exact .timeout ht (Or.inr ⟨x,hpc⟩)
    | _ => simp [step,hpc] at h
  | spurious t =>
    cases hpc : s.pc t with
    | waiting c =>
      simp only [step,hpc,Except.ok.injEq] at h
      exact h ▸ .spurious hpc
    | _ => simp [step,hpc] at h

theorem step_fault {p : Code C R M} {s : Sys T C R M} {e : Event T C}
    (h : step p s e = .error .fault) :
    ∃ t c expired, (s.pc t).call? = some c ∧ p.body c expired s.shared = .error .fault := by
  have body {t : T} {c : C} {expired : Bool} (hr : runBody p s t c expired = .error .fault) :
      p.body c expired s.shared = .error .fault := by
    cases hb : p.body c expired s.shared with
    | ok y => simp [runBody,hb] at hr
    | error x => simpa [runBody,hb] using hr
  cases e with
  | lock t =>
    cases hpc : s.pc t with
    | enter c => exact ⟨t,c,false,by rw [hpc]; rfl,body (by simpa only [step,hpc] using h)⟩
    | woken c notified expired =>
      exact ⟨t,c,expired,by rw [hpc]; rfl,body (by simpa only [step,hpc] using h)⟩
    | _ => simp [step,hpc] at h
  | call t c => cases hpc : s.pc t <;> simp [step,hpc] at h
  | notify t w =>
    cases w with
    | none =>
      cases hpc : s.pc t with
      | signalling r =>
        simp only [step,hpc] at h
        split_ifs at h
        cases h
      | _ => simp [step,hpc] at h
    | some w => cases hpc : s.pc t <;> cases hw : s.pc w <;> simp [step,hpc,hw] at h
  | timeout t =>
    cases hpc : s.pc t with
    | waiting c =>
      simp only [step,hpc] at h
      split_ifs at h
      cases h
    | woken c notified x =>
      simp only [step,hpc] at h
      split_ifs at h
      cases h
    | _ => simp [step,hpc] at h
  | spurious t => cases hpc : s.pc t <;> simp [step,hpc] at h

/-- What every critical section keeps, every run keeps. -/
theorem shared_invariant {p : Code C R M} (q : C → Prop) (I : M → Prop)
    (hbody : ∀ c expired m m' out, q c → I m → p.body c expired m = .ok (m',out) → I m')
    {s u : Sys T C R M} {es : List (Event T C)} (hs : Calls q s) (hi : I s.shared)
    (ha : Along (step p) (CallOk q) s es) (hu : exec (step p) s es = .ok u) :
    Calls q u ∧ I u.shared := by
  apply exec_invariant (fun s => Calls q s ∧ I s.shared) _ ⟨hs,hi⟩ ha hu
  rintro s e t ⟨hs,hi⟩ hok ht
  have hm := step_move ht
  refine ⟨hm.calls hok hs,?_⟩
  rcases hm.shared with heq | ⟨i,c,expired,out,-,hc,hb⟩
  · rwa [heq]
  · exact hbody c expired _ _ out (hs i c hc) hi hb

theorem shared_safe {p : Code C R M} (q : C → Prop) (I : M → Prop)
    (hbody : ∀ c expired m m' out, q c → I m → p.body c expired m = .ok (m',out) → I m')
    (hsafe : ∀ c expired m, q c → I m → p.body c expired m ≠ .error .fault)
    {s : Sys T C R M} {es : List (Event T C)} (hs : Calls q s) (hi : I s.shared)
    (ha : Along (step p) (CallOk q) s es) : exec (step p) s es ≠ .error .fault := by
  apply exec_safe (fun s => Calls q s ∧ I s.shared) _ _ ⟨hs,hi⟩ ha
  · rintro s e t ⟨hs,hi⟩ hok ht
    have hone : exec (step p) s [e] = .ok t := by simp [exec,ht]
    have halong : Along (step p) (CallOk q) s [e] := ⟨hok,fun _ _ => trivial⟩
    exact shared_invariant q I hbody hs hi halong hone
  · rintro s e ⟨hs,hi⟩ - hf
    obtain ⟨t,c,expired,hc,hb⟩ := step_fault hf
    exact hsafe c expired _ (hs t c hc) hi hb

/-- `avail` is what there is to take: a signal goes with at most one more of it, a call of
`takes` waits only for lack of it, and returns with one less of it. -/
structure Supply (p : Code C R M) (takes strict : C → Bool) (avail : M → ℕ) : Prop where
  takes_of_strict : ∀ c, strict c = true → takes c = true
  wait : ∀ c expired m m', p.body c expired m = .ok (m',.wait) →
    avail m' ≤ avail m ∧ (takes c = true → avail m' = 0)
  ret : ∀ c expired m m' r, p.body c expired m = .ok (m',.ret r) →
    avail m' ≤ avail m ∧ (takes c = true → avail m'+1 ≤ avail m ∨ avail m' = 0)
  signal : ∀ c expired m m' r, p.body c expired m = .ok (m',.signal r) →
    takes c = false ∧ avail m' ≤ avail m+1

def Pc.weight (takes : C → Bool) : Pc C R → ℕ
  | signalling _ => 1
  | woken c true _ => if takes c then 1 else 0
  | _ => 0

def pending (takes : C → Bool) (s : Sys T C R M) : ℕ := ∑ t, (s.pc t).weight takes

theorem pending_moved (takes : C → Bool) (s : Sys T C R M) (t : T) (pc : Pc C R) :
    pending takes (s.moved t pc)+(s.pc t).weight takes = pending takes s+pc.weight takes := by
  have split (u : Sys T C R M) : pending takes u =
      (u.pc t).weight takes+∑ i ∈ Finset.univ.erase t, (u.pc i).weight takes :=
    (Finset.add_sum_erase _ _ (Finset.mem_univ t)).symm
  have rest : ∑ i ∈ Finset.univ.erase t, ((s.moved t pc).pc i).weight takes =
      ∑ i ∈ Finset.univ.erase t, (s.pc i).weight takes := by
    apply Finset.sum_congr rfl
    intro i hi
    rw [Sys.moved_ne _ _ (Finset.ne_of_mem_erase hi)]
  rw [split s,split (s.moved t pc),rest,Sys.moved_self]
  omega

/-- There is something to take, a thread of `strict` waits, and no wake-up is on its way. -/
def Stranded (strict : C → Bool) (avail : M → ℕ) (s : Sys T C R M) : Prop :=
  0 < avail s.shared ∧ (∃ t, (s.pc t).isWaiting strict = true) ∧
    (∀ t, (s.pc t).isSignalling = false) ∧ ∀ t, (s.pc t).isNotified = false

/-- A notification picks a thread that takes, unless no thread of `strict` waits or another
notification is under way for everything there is. -/
def WakeOk (takes strict : C → Bool) (avail : M → ℕ) (s : Sys T C R M) : Event T C → Prop
  | .notify _ (some w) => (s.pc w).isWaiting takes = true ∨
      (∀ t, (s.pc t).isWaiting strict = false) ∨ avail s.shared < pending takes s
  | _ => True

instance (strict : C → Bool) (avail : M → ℕ) (s : Sys T C R M) :
    Decidable (Stranded strict avail s) := inferInstanceAs (Decidable (_ ∧ _ ∧ _ ∧ _))

instance (takes strict : C → Bool) (avail : M → ℕ) (s : Sys T C R M) :
    DecidablePred (WakeOk takes strict avail s)
  | .notify _ (some _) => inferInstanceAs (Decidable (_ ∨ _ ∨ _))
  | .notify _ none | .call _ _ | .lock _ | .timeout _ | .spurious _ => .isTrue trivial

def Supplied (takes strict : C → Bool) (avail : M → ℕ) (s : Sys T C R M) : Prop :=
  (∃ t, (s.pc t).isWaiting strict = true) → avail s.shared ≤ pending takes s

theorem lock_supplied {p : Code C R M} {takes strict : C → Bool} {avail : M → ℕ}
    (hp : Supply p takes strict avail) {s : Sys T C R M} {t : T} {c : C} {expired : Bool} {m : M}
    {out : Outcome R} (hs : Supplied takes strict avail s)
    (hpc : s.pc t = .enter c ∨ ∃ notified, s.pc t = .woken c notified expired)
    (hb : p.body c expired s.shared = .ok (m,out)) :
    Supplied takes strict avail ({ s with shared := m }.moved t (.after c out)) := by
  intro hw
  have hcount : pending takes ({ s with shared := m }.moved t (.after c out))+
      (s.pc t).weight takes = pending takes s+(Pc.after c out).weight takes :=
    pending_moved takes { s with shared := m } t _
  -- the section uses up a notification only if its call takes
  have hused : (s.pc t).weight takes ≤ 1 ∧ (takes c = false → (s.pc t).weight takes = 0) := by
    rcases hpc with hpc | ⟨notified,hpc⟩
    · simp [hpc,Pc.weight]
    · cases notified <;> cases htk : takes c <;> simp [hpc,Pc.weight,htk]
  simp only [Sys.moved_shared]
  cases out with
  | wait =>
    obtain ⟨hle,hzero⟩ := hp.wait _ _ _ _ hb
    by_cases htk : takes c = true
    · have := hzero htk
      omega
    · have hstrict : strict c = false := by
        by_contra hst
        exact htk (hp.takes_of_strict c (by simpa using hst))
      have hle' := hs (waits_of_moved (by simpa [Pc.after,Pc.isWaiting] using hstrict) hw)
      have hfree := hused.2 (by simpa using htk)
      have hnew : (Pc.after c (.wait : Outcome R)).weight takes = 0 := rfl
      omega
  | ret r =>
    obtain ⟨hle,hone⟩ := hp.ret _ _ _ _ _ hb
    have hle' := hs (waits_of_moved rfl hw)
    have hnew : (Pc.after c (.ret r)).weight takes = 0 := rfl
    by_cases htk : takes c = true
    · have := hone htk
      omega
    · have hfree := hused.2 (by simpa using htk)
      omega
  | signal r =>
    obtain ⟨htk,hle⟩ := hp.signal _ _ _ _ _ hb
    have hle' := hs (waits_of_moved rfl hw)
    have hnew : (Pc.after c (.signal r)).weight takes = 1 := rfl
    have hfree := hused.2 htk
    omega

theorem Move.supplied {p : Code C R M} {takes strict : C → Bool} {avail : M → ℕ}
    (hp : Supply p takes strict avail) {s u : Sys T C R M} {e : Event T C} (h : Move p s e u)
    (hok : WakeOk takes strict avail s e) (hs : Supplied takes strict avail s) :
    Supplied takes strict avail u := by
  -- a step of one thread that leaves its weight as it is
  have same {t : T} {pc : Pc C R} (hpc : pc.isWaiting strict = false)
      (hwt : pc.weight takes = (s.pc t).weight takes) :
      Supplied takes strict avail (s.moved t pc) := by
    intro hw
    have hcount := pending_moved takes s t pc
    have hle := hs (waits_of_moved hpc hw)
    simp only [Sys.moved_shared]
    omega
  cases h with
  | call hpc => exact same rfl (by rw [hpc]; rfl)
  | lock hpc hb => exact lock_supplied hp hs hpc hb
  | notifyNone hpc hnone =>
    intro hw
    obtain ⟨w,hw⟩ := waits_of_moved rfl hw
    have hn := hnone w
    cases hpw : s.pc w <;> simp [hpw,Pc.isWaiting] at hw hn
  | @notify t r w c hpc hpw =>
    intro hw
    have hw₁ := waits_of_moved rfl hw
    have hw₀ := waits_of_moved rfl hw₁
    have hcount₁ := pending_moved takes s w (.woken c true false)
    have hcount₂ := pending_moved takes (s.moved w (.woken c true false)) t .idle
    have hne : t ≠ w := by
      rintro rfl
      rw [hpc] at hpw
      cases hpw
    rw [Sys.moved_ne _ _ hne,hpc] at hcount₂
    rw [hpw] at hcount₁
    have hle := hs hw₀
    simp only [Sys.moved_shared]
    simp only [Pc.weight] at hcount₁ hcount₂
    rcases hok with htk | hno | hlt
    · rw [hpw] at htk
      rw [if_pos (show takes c = true from htk)] at hcount₁
      omega
    · obtain ⟨i,hi⟩ := hw₀
      rw [hno i] at hi
      cases hi
    · split_ifs at hcount₁ <;> omega
  | @timeout t c notified ht hpc =>
    apply same rfl
    rcases hpc with ⟨hpc,rfl⟩ | ⟨x,hpc⟩
    · rw [hpc]
      rfl
    · rw [hpc]
      cases notified <;> rfl
  | spurious hpc => exact same rfl (by rw [hpc]; rfl)

/-- Under that discipline no thread of `strict` is left waiting beside something to take. -/
theorem never_stranded {p : Code C R M} {takes strict : C → Bool} {avail : M → ℕ}
    (hp : Supply p takes strict avail) {s u : Sys T C R M} {es : List (Event T C)}
    (hs : ∀ t, s.pc t = .idle) (ha : Along (step p) (WakeOk takes strict avail) s es)
    (hu : exec (step p) s es = .ok u) : ¬ Stranded strict avail u := by
  have hsup : Supplied takes strict avail u := by
    apply exec_invariant (Supplied takes strict avail) _ _ ha hu
    · exact fun s e t hi hok ht => (step_move ht).supplied hp hok hi
    · rintro ⟨t,ht⟩
      simp [hs t,Pc.isWaiting] at ht
  rintro ⟨hpos,hw,hsig,hnot⟩
  have hzero : pending takes u = 0 := by
    apply Finset.sum_eq_zero
    intro t _
    have h₁ := hsig t
    have h₂ := hnot t
    cases hpc : u.pc t with
    | signalling r => simp [hpc,Pc.isSignalling] at h₁
    | woken c notified x =>
      simp only [hpc,Pc.isNotified] at h₂
      rw [h₂]
      rfl
    | _ => rfl
  have hle := hsup hw
  omega

end Steps

end Monitor
end PcEnv
