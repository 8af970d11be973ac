import Mathlib.Tactic

/-! Runs of labelled step functions.
Every choice of a scheduler, a caller or a device is an event, so a step is a
function. A step either moves on, is not enabled, or leaves the language's defined
behaviour; the last two are kept apart because only the second may be skipped. -/
namespace PcEnv
namespace Runs

/-- Why an event has no successor state. -/
inductive Halt
  | blocked | fault
  deriving DecidableEq, Repr

variable {S E : Type}

def exec (step : S → E → Except Halt S) : S → List E → Except Halt S
  | s, [] => .ok s
  | s, e::es =>
    match step s e with
    | .ok t => exec step t es
    | .error h => .error h

/-- Every event of the run meets `ok` in the state it is taken in. -/
def Along (step : S → E → Except Halt S) (ok : S → E → Prop) : S → List E → Prop
  | _, [] => True
  | s, e::es => ok s e ∧ ∀ t, step s e = .ok t → Along step ok t es

/-- What is seen of the final state of a run that got there. -/
def observe {T : Type} (f : S → T) : Except Halt S → Option T
  | .ok s => some (f s)
  | .error _ => none

theorem observe_eq_some {T : Type} {f : S → T} {x : Except Halt S} {t : T} :
    observe f x = some t ↔ ∃ s, x = .ok s ∧ f s = t := by
  cases x <;> simp [observe]

def faults : Except Halt S → Bool
  | .error .fault => true
  | _ => false

theorem faults_iff {x : Except Halt S} : faults x = true ↔ x = .error .fault := by
  unfold faults
  split <;> simp_all

variable {step : S → E → Except Halt S} {ok : S → E → Prop}

@[simp] theorem exec_nil (s : S) : exec step s [] = .ok s := rfl

theorem exec_cons_ok {s t : S} {e : E} {es : List E} :
    exec step s (e::es) = .ok t ↔ ∃ u, step s e = .ok u ∧ exec step u es = .ok t := by
  cases h : step s e <;> simp [exec,h]

theorem exec_append (s : S) (es fs : List E) :
    exec step s (es++fs) = (exec step s es).bind (fun t => exec step t fs) := by
  induction es generalizing s with
  | nil => rfl
  | cons e es ih =>
    cases h : step s e with
    | error x => simp [exec,h,Except.bind]
    | ok t => simp [exec,h,ih]

theorem exec_append_ok {s t u : S} {es fs : List E} (h : exec step s es = .ok t) :
    exec step s (es++fs) = .ok u ↔ exec step t fs = .ok u := by
  rw [exec_append,h]
  rfl

theorem exec_eq_error_iff {s : S} {es : List E} {halt : Halt} :
    exec step s es = .error halt ↔ ∃ fs e gs t, es = fs++e::gs ∧ exec step s fs = .ok t ∧
      step t e = .error halt := by
  constructor
  · intro h
    induction es generalizing s with
    | nil => cases h
    | cons e es ih =>
      cases hstep : step s e with
      | error x =>
        simp only [exec,hstep] at h
        exact ⟨[],e,es,s,rfl,rfl,hstep.trans h⟩
      | ok u =>
        simp only [exec,hstep] at h
        obtain ⟨fs,e',gs,t,rfl,hfs,he'⟩ := ih h
        exact ⟨e::fs,e',gs,t,rfl,exec_cons_ok.mpr ⟨u,hstep,hfs⟩,he'⟩
  · rintro ⟨fs,e,gs,t,rfl,hfs,he⟩
    rw [exec_append,hfs]
    simp [Except.bind,exec,he]

/-- Events, and behind them those that depend on where they lead. -/
def andThen (step : S → E → Except Halt S) (s : S) (es : List E) (next : S → List E) : List E :=
  match exec step s es with
  | .ok t => es++next t
  | .error _ => es

theorem exec_andThen (s : S) (es : List E) (next : S → List E) :
    exec step s (andThen step s es next) =
      (exec step s es).bind (fun t => exec step t (next t)) := by
  unfold andThen
  cases h : exec step s es with
  | error halt => exact h
  | ok t =>
    rw [exec_append,h]
    rfl

/-- The step rule packaged once: what one step preserves, a whole run preserves. -/
theorem exec_invariant (Inv : S → Prop)
    (hstep : ∀ s e t, Inv s → ok s e → step s e = .ok t → Inv t)
    {s t : S} {es : List E} (hs : Inv s) (ha : Along step ok s es)
    (hr : exec step s es = .ok t) : Inv t := by
  induction es generalizing s with
  | nil =>
    cases hr
    exact hs
  | cons e es ih =>
    obtain ⟨u,hu,hr⟩ := exec_cons_ok.mp hr
    exact ih (hstep s e u hs ha.1 hu) (ha.2 u hu) hr

/-- What a step from a state of `Inv` makes true exactly when it meets `ok`, a run makes true
exactly when all of it does. -/
theorem exec_iff_along_of_invariant (Inv : S → Prop) {F : S → Prop} {ok' : S → E → Prop}
    (hinv : ∀ s e t, Inv s → ok' s e → step s e = .ok t → Inv t)
    (hstep : ∀ s e t, Inv s → ok' s e → step s e = .ok t → (F t ↔ F s ∧ ok s e))
    {s t : S} {es : List E} (hs : Inv s) (ha : Along step ok' s es)
    (hr : exec step s es = .ok t) : F t ↔ F s ∧ Along step ok s es := by
  induction es generalizing s with
  | nil =>
    cases hr
    simp [Along]
  | cons e es ih =>
    obtain ⟨u,hu,hr⟩ := exec_cons_ok.mp hr
    have hsame : (∀ v, step s e = .ok v → Along step ok v es) ↔ Along step ok u es := by
      simp [hu]
    rw [ih (hinv s e u hs ha.1 hu) (ha.2 u hu) hr,hstep s e u hs ha.1 hu,Along,hsame,and_assoc]

/-- The same rule for the absence of undefined behaviour. -/
theorem exec_safe (Inv : S → Prop)
    (hstep : ∀ s e t, Inv s → ok s e → step s e = .ok t → Inv t)
    (hsafe : ∀ s e, Inv s → ok s e → step s e ≠ .error .fault)
    {s : S} {es : List E} (hs : Inv s) (ha : Along step ok s es) :
    exec step s es ≠ .error .fault := by
  induction es generalizing s with
  | nil => simp
  | cons e es ih =>
    cases h : step s e with
    | error x =>
      have hx := hsafe s e hs ha.1
      simpa [exec,h] using hx
    | ok t =>
      simpa [exec,h] using ih (hstep s e t hs ha.1 h) (ha.2 t h)

theorem exec_ne_fault_iff {s : S} {es : List E} :
    exec step s es ≠ .error .fault ↔ Along step (fun u e => step u e ≠ .error .fault) s es := by
  induction es generalizing s with
  | nil => simp [Along]
  | cons e es ih =>
    cases h : step s e with
    | error x => simp [Along,exec,h]
    | ok t => simp [Along,exec,h,ih]

instance Along.decidable [∀ s e, Decidable (ok s e)] :
    ∀ s es, Decidable (Along step ok s es)
  | _, [] => .isTrue trivial
  | s, e::es =>
    match h : step s e with
    | .ok t =>
      have := Along.decidable t es
      decidable_of_iff (ok s e ∧ Along step ok t es) (by simp [Along,h])
    | .error _ => decidable_of_iff (ok s e) (by simp [Along,h])

theorem along_of_forall (h : ∀ s e, ok s e) (s : S) (es : List E) : Along step ok s es := by
  induction es generalizing s with
  | nil => trivial
  | cons e es ih => exact ⟨h s e,fun t _ => ih t⟩

theorem exec_iff_along {F : S → Prop}
    (hstep : ∀ s e t, step s e = .ok t → (F t ↔ F s ∧ ok s e))
    {s t : S} {es : List E} (hr : exec step s es = .ok t) :
    F t ↔ F s ∧ Along step ok s es :=
  exec_iff_along_of_invariant (fun _ => True) (fun _ _ _ _ _ _ => trivial)
    (fun s e t _ _ h => hstep s e t h) trivial (along_of_forall (fun _ _ => trivial) s es) hr

theorem along_of_mem {P : E → Prop} {es : List E} (h : ∀ e ∈ es, P e) (s : S) :
    Along step (fun _ e => P e) s es := by
  induction es generalizing s with
  | nil => trivial
  | cons e es ih =>
    exact ⟨h e List.mem_cons_self,fun t _ => ih (fun x hx => h x (List.mem_cons_of_mem e hx)) t⟩

theorem along_append {s : S} {es fs : List E} :
    Along step ok s (es++fs) ↔
      Along step ok s es ∧ ∀ t, exec step s es = .ok t → Along step ok t fs := by
  induction es generalizing s with
  | nil => simp [Along]
  | cons e es ih =>
    cases h : step s e with
    | error x => simp [Along,exec,h]
    | ok u => simp [Along,exec,h,ih,and_assoc]

theorem Along.mono {ok' : S → E → Prop} (h : ∀ s e, ok s e → ok' s e) {s : S} {es : List E}
    (ha : Along step ok s es) : Along step ok' s es := by
  induction es generalizing s with
  | nil => trivial
  | cons e es ih => exact ⟨h s e ha.1,fun t ht => ih (ha.2 t ht)⟩

theorem along_and {ok' : S → E → Prop} {s : S} {es : List E} :
    Along step (fun u e => ok u e ∧ ok' u e) s es ↔ Along step ok s es ∧ Along step ok' s es := by
  induction es generalizing s with
  | nil => exact ⟨fun _ => ⟨trivial,trivial⟩,fun _ => trivial⟩
  | cons e es ih =>
    simp only [Along,ih]
    constructor
    · rintro ⟨⟨h,h'⟩,hrest⟩
      exact ⟨⟨h,fun t ht => (hrest t ht).1⟩,h',fun t ht => (hrest t ht).2⟩
    · rintro ⟨⟨h,hrest⟩,h',hrest'⟩
      exact ⟨⟨h,h'⟩,fun t ht => ⟨hrest t ht,hrest' t ht⟩⟩

theorem along_iff_of_invariant (Inv : S → Prop) {ok' : S → E → Prop}
    (hiff : ∀ s e, Inv s → (ok' s e ↔ ok s e))
    (hstep : ∀ s e t, Inv s → ok s e → step s e = .ok t → Inv t) {s : S} {es : List E}
    (hs : Inv s) : Along step ok' s es ↔ Along step ok s es := by
  induction es generalizing s with
  | nil => exact Iff.rfl
  | cons e es ih =>
    simp only [Along,hiff s e hs]
    apply and_congr_right
    intro hok
    exact forall₂_congr fun t ht => ih (hstep s e t hs hok ht)

theorem prefixes_iff_along {P : S → Prop} {s : S} {es : List E} :
    (∀ fs, fs <+: es → ∀ t, exec step s fs = .ok t → P t) ↔
      P s ∧ Along step (fun u e => ∀ t, step u e = .ok t → P t) s es := by
  induction es generalizing s with
  | nil =>
    simp only [List.prefix_nil,forall_eq,exec_nil,Except.ok.injEq,forall_eq',Along,and_true]
  | cons e es ih =>
    simp only [Along,List.prefix_cons_iff]
    constructor
    · intro h
      have hrest : ∀ t, step s e = .ok t → _ := fun t ht =>
        ih.mp (fun fs hfs u hu => h (e::fs) (Or.inr ⟨fs,rfl,hfs⟩) u (exec_cons_ok.mpr ⟨t,ht,hu⟩))
      exact ⟨h [] (Or.inl rfl) s rfl,fun t ht => (hrest t ht).1,fun t ht => (hrest t ht).2⟩
    · rintro ⟨hs,hstep,halong⟩ fs (rfl | ⟨fs,rfl,hfs⟩) u hu
      · cases hu
        exact hs
      · obtain ⟨t,ht,hu⟩ := exec_cons_ok.mp hu
        exact ih.mpr ⟨hstep t ht,halong t ht⟩ fs hfs u hu

/-- The event is not enabled, or leads to a state of `P`. -/
def Keeps (step : S → E → Except Halt S) (P : S → Prop) (s : S) (e : E) : Prop :=
  step s e = .error .blocked ∨ ∃ t, step s e = .ok t ∧ P t

theorem Keeps.mono {P Q : S → Prop} {s : S} {e : E} (h : Keeps step P s e)
    (hq : ∀ t, P t → Q t) : Keeps step Q s e := by
  rcases h with hb | ⟨t,ht,hp⟩
  · exact Or.inl hb
  · exact Or.inr ⟨t,ht,hq t hp⟩

theorem Keeps.safe {P : S → Prop} {s : S} {e : E} (h : Keeps step P s e) :
    step s e ≠ .error .fault := by
  rcases h with hb | ⟨t,ht,-⟩
  · simp [hb]
  · simp [ht]

theorem Keeps.of_ok {P : S → Prop} {s t : S} {e : E} (h : Keeps step P s e)
    (ht : step s e = .ok t) : P t := by
  rcases h with hb | ⟨u,hu,hp⟩
  · rw [hb] at ht
    cases ht
  · rw [hu] at ht
    cases ht
    exact hp

theorem exec_keeps (Inv : S → Prop) (hstep : ∀ s e, Inv s → ok s e → Keeps step Inv s e)
    {s : S} {es : List E} (hs : Inv s) (ha : Along step ok s es) :
    exec step s es ≠ .error .fault ∧ ∀ t, exec step s es = .ok t → Inv t :=
  ⟨exec_safe Inv (fun u e _ hu ho ht => (hstep u e hu ho).of_ok ht)
      (fun u e hu ho => (hstep u e hu ho).safe) hs ha,
    fun _ ht => exec_invariant Inv (fun u e _ hu ho ht => (hstep u e hu ho).of_ok ht) hs ha ht⟩

end Runs
end PcEnv
