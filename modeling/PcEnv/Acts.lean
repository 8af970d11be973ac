import Mathlib.Order.RelClasses
import Mathlib.Tactic

/-! Calls on a state that may throw, where what was done before stays done. -/
namespace PcEnv

def Act (σ ε α : Type) : Type := σ → Except ε α × σ

namespace Act

variable {σ ε α β : Type}

instance : Monad (Act σ ε) where
  pure a := fun s => (.ok a,s)
  bind x f := fun s =>
    match x s with
    | (.ok a,s') => f a s'
    | (.error e,s') => (.error e,s')

def throw (e : ε) : Act σ ε α := fun s => (.error e,s)

def lift (x : Except ε α) : Act σ ε α := fun s => (x,s)

def get : Act σ ε σ := fun s => (.ok s,s)

def modify (f : σ → σ) : Act σ ε Unit := fun s => (.ok (),f s)

def each (f : α → Act σ ε Unit) : List α → Act σ ε Unit
  | [] => pure ()
  | a::l => do
    f a
    each f l

@[simp] theorem pure_apply (a : α) (s : σ) : (pure a : Act σ ε α) s = (.ok a,s) := rfl

@[simp] theorem throw_apply (e : ε) (s : σ) : (throw e : Act σ ε α) s = (.error e,s) := rfl

@[simp] theorem lift_apply (x : Except ε α) (s : σ) : (lift x : Act σ ε α) s = (x,s) := rfl

@[simp] theorem get_apply (s : σ) : (get : Act σ ε σ) s = (.ok s,s) := rfl

@[simp] theorem modify_apply (f : σ → σ) (s : σ) :
    (modify f : Act σ ε Unit) s = (.ok (),f s) := rfl

theorem bind_ok {x : Act σ ε α} {f : α → Act σ ε β} {s s' : σ} {a : α} (h : x s = (.ok a,s')) :
    (x >>= f) s = f a s' := by
  simp only [bind,h]

theorem bind_error {x : Act σ ε α} {f : α → Act σ ε β} {s s' : σ} {e : ε}
    (h : x s = (.error e,s')) : (x >>= f) s = (.error e,s') := by
  simp only [bind,h]

@[simp] theorem get_bind (f : σ → Act σ ε β) (s : σ) : (get >>= f) s = f s s := rfl

@[simp] theorem modify_bind (g : σ → σ) (f : Unit → Act σ ε β) (s : σ) :
    (modify g >>= f) s = f () (g s) := rfl

@[simp] theorem throw_bind (e : ε) (f : α → Act σ ε β) (s : σ) :
    (throw e >>= f) s = (.error e,s) := rfl

theorem lift_ok_bind {x : Except ε α} {a : α} (h : x = .ok a) (f : α → Act σ ε β) (s : σ) :
    (lift x >>= f) s = f a s := by
  rw [h]
  rfl

theorem lift_error_bind {x : Except ε α} {e : ε} (h : x = .error e) (f : α → Act σ ε β) (s : σ) :
    (lift x >>= f) s = (.error e,s) := by
  rw [h]
  rfl

theorem bind_eq_ok_iff {x : Act σ ε α} {f : α → Act σ ε β} {s t : σ} {b : β} :
    (x >>= f) s = (.ok b,t) ↔ ∃ a s', x s = (.ok a,s') ∧ f a s' = (.ok b,t) := by
  cases h : x s with
  | mk y s' =>
    cases y with
    | ok a => simp [bind_ok h]
    | error e => simp [bind_error h]

theorem each_eq_error_iff {f : α → Act σ ε Unit} {l : List α} {s : σ} {e : ε} :
    (each f l s).1 = .error e ↔ ∃ before a after s', l = before++a::after ∧
      each f before s = (.ok (),s') ∧ (f a s').1 = .error e := by
  induction l generalizing s with
  | nil => simp [each]
  | cons a l ih =>
    cases h : f a s with
    | mk y s' =>
      cases y with
      | ok u =>
        have heach (l : List α) : each f (a::l) s = each f l s' := bind_ok h
        rw [heach,ih]
        constructor
        · rintro ⟨before,b,after,t,rfl,hbefore,hb⟩
          exact ⟨a::before,b,after,t,rfl,(heach before).trans hbefore,hb⟩
        · rintro ⟨before,b,after,t,hl,hbefore,hb⟩
          cases before with
          | nil =>
            cases hl
            cases hbefore
            rw [h] at hb
            cases hb
          | cons a' before =>
            obtain ⟨rfl,rfl⟩ := List.cons.inj hl
            exact ⟨before,b,after,t,rfl,(heach before).symm.trans hbefore,hb⟩
      | error e' =>
        have heach (l : List α) : each f (a::l) s = (.error e',s') := bind_error h
        rw [heach]
        constructor
        · intro he
          exact ⟨[],a,l,s,rfl,rfl,by rw [h]; exact he⟩
        · rintro ⟨before,b,after,t,hl,hbefore,hb⟩
          cases before with
          | nil =>
            cases hl
            cases hbefore
            rw [h] at hb
            exact hb
          | cons a' before =>
            obtain ⟨rfl,rfl⟩ := List.cons.inj hl
            cases (heach before).symm.trans hbefore

def Keeps (R : σ → σ → Prop) (x : Act σ ε α) (s : σ) : Prop := R s (x s).2

section

variable {R : σ → σ → Prop} {s : σ}

theorem Keeps.rel {x : Act σ ε α} {r : Except ε α} {t : σ} (h : Keeps R x s) (hx : x s = (r,t)) :
    R s t := by
  unfold Keeps at h
  rwa [hx] at h

theorem keeps_modify {f : σ → σ} (h : R s (f s)) : Keeps R (modify f : Act σ ε Unit) s := h

theorem keeps_get_bind {f : σ → Act σ ε β} (h : Keeps R (f s) s) : Keeps R (get >>= f) s := h

variable [IsPreorder σ R]

theorem keeps_pure (a : α) : Keeps R (pure a : Act σ ε α) s := refl s

theorem keeps_throw (e : ε) : Keeps R (throw e : Act σ ε α) s := refl s

theorem keeps_lift (x : Except ε α) : Keeps R (lift x : Act σ ε α) s := refl s

theorem Keeps.bind {x : Act σ ε α} {f : α → Act σ ε β} (hx : Keeps R x s)
    (hf : ∀ a s', x s = (.ok a,s') → Keeps R (f a) s') : Keeps R (x >>= f) s := by
  unfold Keeps at hx ⊢
  cases h : x s with
  | mk y s' =>
    rw [h] at hx
    cases y with
    | ok a =>
      rw [bind_ok h]
      exact IsTrans.trans _ _ _ hx (hf a s' h)
    | error e =>
      rw [bind_error h]
      exact hx

theorem keeps_lift_bind {x : Except ε α} {f : α → Act σ ε β}
    (h : ∀ a, x = .ok a → Keeps R (f a) s) : Keeps R (lift x >>= f) s := by
  refine (keeps_lift x).bind ?_
  intro a s' hx
  obtain ⟨rfl,rfl⟩ := Prod.mk.inj hx
  exact h a rfl

/-- What the call for one keeps, in a state that the others may have left. -/
theorem keeps_each {P : σ → Prop} {f : α → Act σ ε Unit} {l : List α} (hs : P s)
    (hP : ∀ s s', R s s' → P s → P s') (h : ∀ a ∈ l, ∀ s, P s → Keeps R (f a) s) :
    Keeps R (each f l) s := by
  induction l generalizing s with
  | nil => exact keeps_pure ()
  | cons a l ih =>
    have ha := h a List.mem_cons_self s hs
    refine Keeps.bind ha ?_
    intro _ s' hs'
    exact ih (hP s s' (ha.rel hs') hs) (fun b hb => h b (List.mem_cons_of_mem a hb))

end

def Within (I : σ → Prop) (E : ε → Prop) (x : Act σ ε α) : Prop :=
  ∀ s, I s → I (x s).2 ∧ ∀ e, (x s).1 = .error e → E e

section

variable {I : σ → Prop} {E : ε → Prop}

theorem within_pure (a : α) : Within I E (pure a : Act σ ε α) := fun _ hs => ⟨hs,by simp⟩

theorem within_throw {e : ε} (he : E e) : Within I E (throw e : Act σ ε α) := by
  intro s hs
  refine ⟨hs,?_⟩
  intro e' h
  cases h
  exact he

theorem within_modify {f : σ → σ} (hf : ∀ s, I s → I (f s)) :
    Within I E (modify f : Act σ ε Unit) := fun s hs => ⟨hf s hs,by simp⟩

theorem within_get_bind {f : σ → Act σ ε β} (hf : ∀ s, I s → Within I E (f s)) :
    Within I E (get >>= f) := fun s hs => hf s hs s hs

theorem Within.bind {x : Act σ ε α} {f : α → Act σ ε β} (hx : Within I E x)
    (hf : ∀ a, Within I E (f a)) : Within I E (x >>= f) := by
  intro s hs
  obtain ⟨hI,hE⟩ := hx s hs
  cases h : x s with
  | mk y s' =>
    rw [h] at hI hE
    cases y with
    | ok a =>
      rw [bind_ok h]
      exact hf a s' hI
    | error e =>
      rw [bind_error h]
      refine ⟨hI,?_⟩
      intro e' he'
      cases he'
      exact hE e rfl

theorem within_lift_bind {x : Except ε α} {f : α → Act σ ε β} (hx : ∀ e, x = .error e → E e)
    (hf : ∀ a, x = .ok a → Within I E (f a)) : Within I E (lift x >>= f) := by
  cases x with
  | ok a => exact hf a rfl
  | error e => exact within_throw (hx e rfl)

theorem within_each {f : α → Act σ ε Unit} {l : List α} (h : ∀ a ∈ l, Within I E (f a)) :
    Within I E (each f l) := by
  induction l with
  | nil => exact within_pure ()
  | cons a l ih =>
    obtain ⟨ha,hl⟩ := List.forall_mem_cons.mp h
    exact ha.bind fun _ => ih hl

end

/-- A call that neither looks at what `φ` changes nor changes it. -/
def Blind (φ : σ → σ) (x : Act σ ε α) : Prop := ∀ s, x (φ s) = ((x s).1,φ (x s).2)

section

variable {φ : σ → σ}

theorem blind_pure (a : α) : Blind φ (pure a : Act σ ε α) := fun _ => rfl

theorem blind_throw (e : ε) : Blind φ (throw e : Act σ ε α) := fun _ => rfl

theorem blind_lift (x : Except ε α) : Blind φ (lift x : Act σ ε α) := fun _ => rfl

theorem blind_modify {f : σ → σ} (hf : ∀ s, f (φ s) = φ (f s)) :
    Blind φ (modify f : Act σ ε Unit) := by
  intro s
  rw [modify_apply,modify_apply,hf]

theorem blind_get_bind {f : σ → Act σ ε β} (hsame : ∀ s, f (φ s) = f s)
    (hf : ∀ s, Blind φ (f s)) : Blind φ (get >>= f) := by
  intro s
  rw [get_bind,get_bind,hsame]
  exact hf s s

theorem Blind.bind {x : Act σ ε α} {f : α → Act σ ε β} (hx : Blind φ x)
    (hf : ∀ a, Blind φ (f a)) : Blind φ (x >>= f) := by
  intro s
  have hblind := hx s
  cases h : x s with
  | mk y s' =>
    rw [h] at hblind
    cases y with
    | ok a => rw [bind_ok hblind,bind_ok h,hf a s']
    | error e => rw [bind_error hblind,bind_error h]

theorem blind_each {f : α → Act σ ε Unit} (h : ∀ a, Blind φ (f a)) (l : List α) :
    Blind φ (each f l) := by
  induction l with
  | nil => exact blind_pure ()
  | cons a l ih => exact (h a).bind fun _ => ih

end

end Act
end PcEnv
