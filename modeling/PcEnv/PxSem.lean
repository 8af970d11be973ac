import PcEnv.Runs
import PcEnv.Word

/-! `px_sempost` of `px_sem.h`, which is to keep a semaphore from rising above a limit, between
`px_semwait` and `px_semtrywait` calls of any threads. -/
namespace PcEnv
namespace PxSem

open Runs Word

def semValueMax : ℕ := intMax

/-- `checking value` is the place in `px_sempost` where `value` is compared with `max`. -/
inductive Pc
  | idle
  | checking (value : ℕ)
  deriving DecidableEq, Repr

structure Sem (T : Type) where
  value : ℕ
  pc : T → Pc
  rets : List (T × ℤ)

/-- `getvalue` begins a `px_sempost` and `post` ends it. -/
inductive Event (T : Type)
  | getvalue (t : T) (fails : Bool)
  | post (t : T)
  | wait (t : T)
  | trywait (t : T)
  deriving DecidableEq, Repr

variable {T : Type} [DecidableEq T]

def start (T : Type) (value : ℕ) : Sem T := { value := value, pc := fun _ => .idle, rets := [] }

def Sem.finish (s : Sem T) (t : T) (ret : ℤ) : Sem T :=
  { s with pc := Function.update s.pc t .idle, rets := s.rets++[(t,ret)] }

@[simp] theorem Sem.finish_value (s : Sem T) (t : T) (ret : ℤ) :
    (s.finish t ret).value = s.value := rfl

/-- `sem_post`, which fails at `SEM_VALUE_MAX`. -/
def Sem.semPost (s : Sem T) (t : T) : Sem T :=
  if s.value = semValueMax then s.finish t (-1)
  else { s with value := s.value+1 }.finish t 0

def Sem.take (s : Sem T) (t : T) : Sem T := { s with value := s.value-1 }.finish t 0

def step (max : ℕ) (s : Sem T) : Event T → Except Halt (Sem T)
  | .getvalue t fails =>
    match s.pc t with
    | .checking _ => .error .blocked
    | .idle =>
      if fails then .ok (s.finish t (-1))
      else .ok { s with pc := Function.update s.pc t (.checking s.value) }
  | .post t =>
    match s.pc t with
    | .idle => .error .blocked
    | .checking value => if value < max then .ok (s.semPost t) else .ok (s.finish t 0)
  | .wait t =>
    match s.pc t with
    | .checking _ => .error .blocked
    | .idle => if s.value = 0 then .error .blocked else .ok (s.take t)
  | .trywait t =>
    match s.pc t with
    | .checking _ => .error .blocked
    | .idle => if s.value = 0 then .ok (s.finish t (-1)) else .ok (s.take t)

inductive Does (max : ℕ) (s : Sem T) : Event T → Sem T → Prop
  | read {t} (h : s.pc t = .idle) :
      Does max s (.getvalue t false)
        { s with pc := Function.update s.pc t (.checking s.value) }
  | post {t value} (h : s.pc t = .checking value) (hv : value < max) :
      Does max s (.post t) (s.semPost t)
  | skip {t value} (h : s.pc t = .checking value) (hv : ¬ value < max) :
      Does max s (.post t) (s.finish t 0)
  | take {e t} (h : s.pc t = .idle) (he : e = .wait t ∨ e = .trywait t) (hpos : s.value ≠ 0) :
      Does max s e (s.take t)
  | fail {e t} (h : s.pc t = .idle) (he : e = .getvalue t true ∨ e = .trywait t) :
      Does max s e (s.finish t (-1))

theorem step_does {max : ℕ} {s u : Sem T} {e : Event T} (h : step max s e = .ok u) :
    Does max s e u := by
  cases e with
  | getvalue t fails =>
    cases hpc : s.pc t with
    | checking value => simp [step,hpc] at h
    | idle =>
      simp only [step,hpc] at h
      cases fails with
      | false =>
        cases h
        exact .read hpc
      | true =>
        cases h
        exact .fail hpc (Or.inl rfl)
  | post t =>
    cases hpc : s.pc t with
    | idle => simp [step,hpc] at h
    | checking value =>
      simp only [step,hpc] at h
      split_ifs at h with hv
      · cases h
        exact .post hpc hv
      · cases h
        exact .skip hpc hv
  | wait t =>
    cases hpc : s.pc t with
    | checking value => simp [step,hpc] at h
    | idle =>
      simp only [step,hpc] at h
      split_ifs at h with hzero
      cases h
      exact .take hpc (Or.inl rfl) hzero
  | trywait t =>
    cases hpc : s.pc t with
    | checking value => simp [step,hpc] at h
    | idle =>
      simp only [step,hpc] at h
      split_ifs at h with hzero
      · cases h
        exact .fail hpc (Or.inr rfl)
      · cases h
        exact .take hpc (Or.inr rfl) hzero

/-- A thread that has read less than `max` finds the semaphore still below it when it posts, or
at `SEM_VALUE_MAX`. -/
def Fresh (max : ℕ) (s : Sem T) : Event T → Prop
  | .post t => ∀ value, s.pc t = .checking value → value < max →
      s.value < max ∨ s.value = semValueMax
  | _ => True

instance (max : ℕ) (s : Sem T) : DecidablePred (Fresh max s)
  | .post t =>
    match h : s.pc t with
    | .idle => .isTrue (by simp [Fresh,h])
    | .checking value =>
      decidable_of_iff (value < max → s.value < max ∨ s.value = semValueMax) (by simp [Fresh,h])
  | .getvalue _ _ | .wait _ | .trywait _ => .isTrue trivial

theorem semPost_le_iff {max : ℕ} {s : Sem T} {t : T} (hle : s.value ≤ max) :
    (s.semPost t).value ≤ max ↔ s.value < max ∨ s.value = semValueMax := by
  unfold Sem.semPost
  split_ifs with h
  · exact iff_of_true hle (Or.inr h)
  · simp [h]

theorem step_bounded_iff {max : ℕ} {s : Sem T} (hle : s.value ≤ max) (e : Event T) :
    (∀ u, step max s e = .ok u → u.value ≤ max) ↔ Fresh max s e := by
  constructor
  · intro h
    cases e with
    | post t =>
      intro value hpc hv
      have hstep : step max s (.post t) = .ok (s.semPost t) := by simp [step,hpc,hv]
      exact (semPost_le_iff hle).mp (h _ hstep)
    | _ => trivial
  · intro hfresh u hu
    cases step_does hu with
    | read h => exact hle
    | post h hv => exact (semPost_le_iff hle).mpr (hfresh _ h hv)
    | skip h hv => exact hle
    | take h he hpos => exact (Nat.sub_le _ _).trans hle
    | fail h he => exact hle

/-- The value is at most `max` in every state that the run goes through. -/
def Bounded (max : ℕ) (s : Sem T) (es : List (Event T)) : Prop :=
  ∀ fs, fs <+: es → ∀ u, exec (step max) s fs = .ok u → u.value ≤ max

/-- The limit is kept exactly in the runs in which every `sem_post` is fresh. -/
theorem sempost_bounded_iff (max value : ℕ) (es : List (Event T)) (h : value ≤ max) :
    Bounded max (start T value) es ↔ Along (step max) (Fresh max) (start T value) es := by
  have hstart : (start T value).value ≤ max := h
  rw [Bounded,prefixes_iff_along,and_iff_right hstart]
  refine along_iff_of_invariant (fun s => s.value ≤ max) (fun s e hs => step_bounded_iff hs e) ?_
    hstart
  intro s e u hs hfresh hu
  exact (step_bounded_iff hs e).mpr hfresh u hu

def orderly : List (Event Bool) :=
  [.getvalue false false,.post false,.wait true,.getvalue true false,.post true]

theorem sempost_bounded_iff_orderly : Bounded 1 (start Bool 0) orderly :=
  (sempost_bounded_iff 1 0 orderly (by decide)).mpr (by decide)

def racing : List (Event Bool) :=
  [.getvalue false false,.getvalue true false,.post false,.post true]

theorem racing_exceeds : (∃ u, exec (step 1) (start Bool 0) racing = .ok u ∧ u.value = 2) ∧
    ¬ Bounded 1 (start Bool 0) racing := by
  have hrun : ∃ u, exec (step 1) (start Bool 0) racing = .ok u ∧ u.value = 2 := ⟨_,rfl,rfl⟩
  refine ⟨hrun,?_⟩
  intro h
  obtain ⟨u,hu,htwo⟩ := hrun
  have hle := h racing List.prefix_rfl u hu
  omega

/-- No thread begins a `px_sempost` while another is in one. -/
def Serial (s : Sem T) : Event T → Prop
  | .getvalue _ _ => ∀ u, s.pc u = .idle
  | _ => True

instance Serial.decidable [Fintype T] (s : Sem T) : DecidablePred (Serial s)
  | .getvalue _ _ => inferInstanceAs (Decidable (∀ u, s.pc u = .idle))
  | .post _ | .wait _ | .trywait _ => .isTrue trivial

/-- The only thread in a `px_sempost` has not read less than the value, which only falls. -/
structure Sound (max : ℕ) (s : Sem T) : Prop where
  le : s.value ≤ max
  read : ∀ t value, s.pc t = .checking value → s.value ≤ value ∧ ∀ u, u ≠ t → s.pc u = .idle

theorem finish_sound {max : ℕ} {s : Sem T} {t : T} {ret : ℤ} (hle : s.value ≤ max)
    (hread : ∀ u value, u ≠ t → s.pc u = .checking value →
      s.value ≤ value ∧ ∀ w, w ≠ u → s.pc w = .idle) : Sound max (s.finish t ret) := by
  refine ⟨hle,?_⟩
  intro u value hu
  by_cases hut : u = t
  · subst hut
    simp [Sem.finish] at hu
  · have hpc : s.pc u = .checking value := by simpa [Sem.finish,hut] using hu
    obtain ⟨hval,hidle⟩ := hread u value hut hpc
    refine ⟨hval,?_⟩
    intro w hw
    by_cases hwt : w = t
    · subst hwt
      simp [Sem.finish]
    · simpa [Sem.finish,hwt] using hidle w hw

omit [DecidableEq T] in
theorem Sound.fresh {max : ℕ} {s : Sem T} (hs : Sound max s) (e : Event T) : Fresh max s e := by
  cases e with
  | post t =>
    intro value hpc hv
    exact Or.inl ((hs.read t value hpc).1.trans_lt hv)
  | _ => trivial

theorem serial_sound {max : ℕ} {s u : Sem T} {e : Event T} (hs : Sound max s) (he : Serial s e)
    (hu : step max s e = .ok u) : Sound max u := by
  have hle : u.value ≤ max := (step_bounded_iff hs.le e).mpr (hs.fresh e) u hu
  have hother : ∀ t value, s.pc t = .checking value → ∀ w v, w ≠ t → s.pc w ≠ .checking v := by
    intro t value ht w v hw hpc
    rw [(hs.read t value ht).2 w hw] at hpc
    cases hpc
  cases step_does hu with
  | @read t h =>
    refine ⟨hle,?_⟩
    intro w value hw
    have hwt : w = t := by
      by_contra hne
      simp [hne,he w] at hw
    subst hwt
    have hval : s.value = value := by simpa using hw
    exact ⟨hval.le,fun x hx => by simpa [hx] using he x⟩
  | @post t value h hv =>
    unfold Sem.semPost at hle ⊢
    split_ifs at hle ⊢
    · exact finish_sound hle (fun w v hw hpc => (hother t value h w v hw hpc).elim)
    · exact finish_sound hle (fun w v hw hpc => (hother t value h w v hw hpc).elim)
  | @skip t value h hv =>
    exact finish_sound hle (fun w v hw hpc => (hother t value h w v hw hpc).elim)
  | take h he hpos =>
    refine finish_sound hle ?_
    intro w v hw hpc
    obtain ⟨hval,hidle⟩ := hs.read w v hpc
    exact ⟨(Nat.sub_le _ _).trans hval,hidle⟩
  | fail h he => exact finish_sound hle (fun w v hw hpc => hs.read w v hpc)

/-- Where posters take turns the limit is kept. -/
theorem serial_bounded (max value : ℕ) (es : List (Event T)) (h : value ≤ max)
    (hserial : Along (step max) Serial (start T value) es) : Bounded max (start T value) es := by
  have hstart : Sound max (start T value) := ⟨h,fun t v hpc => by cases hpc⟩
  intro fs hfs u hu
  obtain ⟨gs,rfl⟩ := hfs
  exact (exec_invariant (Sound max) (fun s e t hs he ht => serial_sound hs he ht) hstart
    (along_append.mp hserial).1 hu).le

theorem serial_bounded_orderly : Bounded 1 (start Bool 0) orderly :=
  serial_bounded 1 0 orderly (by decide) (by decide)

end PxSem
end PcEnv
