import PcEnv.Streak
import PcEnv.Word

/-! The voice activity detector `get_vad_status`.
What `isChunkSpeaking` says of the chunk of a call is an argument of the call; the rest of
`vad_args_t` is read by it alone, in `PcEnv.VadEnergy`. -/
namespace PcEnv
namespace VadOp

open Word Streak

inductive VadStatus
  | idel | started | speaking | finished | done
  deriving DecidableEq, Repr

structure VadArgs where
  savedStatus : VadStatus
  confirmCount : ℕ
  startedConfirmCount : ℕ
  finishedConfirmCount : ℕ
  deriving DecidableEq, Repr

/-- `args->confirmCount++` on an `unsigned char`. -/
def VadArgs.count (args : VadArgs) : VadArgs :=
  { args with confirmCount := ucharInc args.confirmCount }

def VadArgs.enter (args : VadArgs) (status : VadStatus) : VadArgs :=
  { args with savedStatus := status, confirmCount := 0 }

/-- The value returned is the `savedStatus` left behind. -/
def getVadStatus (args : VadArgs) (isChunkSpeaking : Bool) : VadArgs :=
  match args.savedStatus with
  | .idel =>
    if isChunkSpeaking then
      if args.startedConfirmCount ≤ args.count.confirmCount then args.count.enter .started
      else args.count
    else args.enter .idel
  | .started =>
    let args := if isChunkSpeaking then args else args.count
    { args with savedStatus := .speaking }
  | .speaking =>
    if isChunkSpeaking then args.enter .speaking
    else if args.finishedConfirmCount ≤ args.count.confirmCount then args.count.enter .finished
    else args.count
  | .finished | .done => args

def start (s f : ℕ) : VadArgs :=
  { savedStatus := .idel, confirmCount := 0, startedConfirmCount := s, finishedConfirmCount := f }

def after (args : VadArgs) (chunks : List Bool) : VadArgs := chunks.foldl getVadStatus args

@[simp] theorem after_nil (args : VadArgs) : after args [] = args := rfl

@[simp] theorem after_snoc (args : VadArgs) (chunks : List Bool) (v : Bool) :
    after args (chunks++[v]) = getVadStatus (after args chunks) v := by
  simp [after]

/-- The status that a history of chunks calls for: idle before the first `s` speaking chunks in
a row, started with the last of them, then speaking up to `f` silent ones in a row. -/
inductive Expected (s f : ℕ) : List Bool → VadStatus → Prop
  | idel {h} (hno : Before s true h) : Expected s f h .idel
  | started {h} (hfirst : First s true h) : Expected s f h .started
  | speaking {p q} (hfirst : First s true p) (hq : q ≠ []) (hno : Before f false q) :
      Expected s f (p++q) .speaking
  | finished {p q r} (hfirst : First s true p) (hr : r <+: q) (hc : Completes f false r) :
      Expected s f (p++q) .finished

/-- An expected status is idle before the first `s` speaking chunks in a row, and afterwards
depends on the chunks since then. -/
theorem Expected.shape {s f : ℕ} (hf : 1 ≤ f) {h : List Bool} {st : VadStatus}
    (he : Expected s f h st) :
    (st = .idel ∧ Before s true h) ∨
      ∃ p q, h = p++q ∧ First s true p ∧ (q = [] → st = .started) ∧
        (q ≠ [] → Before f false q → st = .speaking) ∧ (¬ Before f false q → st = .finished) := by
  cases he with
  | idel hno => exact Or.inl ⟨rfl,hno⟩
  | started hfirst =>
    exact Or.inr ⟨h,[],by simp,hfirst,fun _ => rfl,by simp,fun hn => (hn (before_nil hf _)).elim⟩
  | @speaking p q hfirst hq hno =>
    exact Or.inr ⟨p,q,rfl,hfirst,fun h0 => (hq h0).elim,fun _ _ => rfl,fun hn => (hn hno).elim⟩
  | @finished p q r hfirst hr hc =>
    have hn : ¬ Before f false q := fun hno => hno r hr hc
    have hq : q ≠ [] := by
      rintro rfl
      exact hn (before_nil hf _)
    exact Or.inr ⟨p,q,rfl,hfirst,fun h0 => (hq h0).elim,fun _ hno => (hn hno).elim,fun _ => rfl⟩

theorem Expected.unique {s f : ℕ} (hf : 1 ≤ f) {h : List Bool} {st st' : VadStatus}
    (he : Expected s f h st) (he' : Expected s f h st') : st = st' := by
  rcases he.shape hf with ⟨rfl,hno⟩ | ⟨p,q,rfl,hp,hst⟩
  · rcases he'.shape hf with ⟨rfl,-⟩ | ⟨p',q',rfl,hp',-⟩
    · rfl
    · exact (hno p' (List.prefix_append p' q') hp'.1).elim
  · rcases he'.shape hf with ⟨rfl,hno⟩ | ⟨p',q',hpq,hp',hst'⟩
    · exact (hno p (List.prefix_append p q) hp.1).elim
    · have hpp : p = p' :=
        hp.unique hp' (List.prefix_append p q) (hpq ▸ List.prefix_append p' q')
      subst p'
      have hqq : q = q' := List.append_cancel_left hpq
      subst q'
      obtain ⟨h₁,h₂,h₃⟩ := hst
      obtain ⟨h₁',h₂',h₃'⟩ := hst'
      by_cases hq : q = []
      · rw [h₁ hq,h₁' hq]
      · by_cases hno : Before f false q
        · rw [h₂ hq hno,h₂' hq hno]
        · rw [h₃ hno,h₃' hno]

/-- `confirmCount` is the length of the run that the status waits for. -/
inductive Tracks (s f : ℕ) : List Bool → VadArgs → Prop
  | idel {h} (hno : Before s true h) : Tracks s f h ⟨.idel,streak true h,s,f⟩
  | started {h} (hfirst : First s true h) : Tracks s f h ⟨.started,0,s,f⟩
  | speaking {p q} (hfirst : First s true p) (hq : q ≠ []) (hno : Before f false q) :
      Tracks s f (p++q) ⟨.speaking,streak false q,s,f⟩
  | finished {p q r} (hfirst : First s true p) (hr : r <+: q) (hc : Completes f false r) :
      Tracks s f (p++q) ⟨.finished,0,s,f⟩

theorem Tracks.expected {s f : ℕ} {h : List Bool} {args : VadArgs} (ht : Tracks s f h args) :
    Expected s f h args.savedStatus := by
  cases ht with
  | idel hno => exact .idel hno
  | started hfirst => exact .started hfirst
  | speaking hfirst hq hno => exact .speaking hfirst hq hno
  | finished hfirst hr hc => exact .finished hfirst hr hc

theorem getVadStatus_tracks {s f : ℕ} (hs : s ≤ 255) (hf₁ : 1 ≤ f) (hf : f ≤ 255) {h : List Bool}
    {args : VadArgs} (ht : Tracks s f h args) (v : Bool)
    (hok : First s true h → v = false → 2 ≤ f) :
    Tracks s f (h++[v]) (getVadStatus args v) := by
  cases ht with
  | idel hno =>
    have hlt := hno.streak_lt
    have hinc : ucharInc (streak true h) = streak true h+1 := ucharInc_eq (by omega)
    cases v with
    | false =>
      have hz : streak true (h++[false]) = 0 := streak_other (by decide) h
      have hc : ¬ Completes s true (h++[false]) := not_completes_other (by omega) (by decide) h
      have hgo := Tracks.idel (f:=f) (hno.snoc hc)
      rw [hz] at hgo
      exact hgo
    | true =>
      simp only [getVadStatus,VadArgs.count,VadArgs.enter,hinc,if_true]
      split_ifs with hge
      · exact .started (hno.first (completes_same.mpr hge))
      · rw [← streak_same]
        exact .idel (hno.snoc (mt completes_same.mp hge))
  | started hfirst =>
    have hnil : Before f false [] := before_nil hf₁ false
    cases v with
    | false =>
      have hf₂ := hok hfirst rfl
      have hc : ¬ Completes f false ([]++[false]) := by
        rw [completes_same,streak_nil]
        omega
      exact .speaking hfirst (by simp) (hnil.snoc hc)
    | true =>
      exact .speaking hfirst (by simp) (hnil.snoc (not_completes_other hf₁ (by decide) []))
  | @speaking p q hfirst hq hno =>
    have hlt := hno.streak_lt
    have hinc : ucharInc (streak false q) = streak false q+1 := ucharInc_eq (by omega)
    rw [List.append_assoc]
    cases v with
    | true =>
      have hz : streak false (q++[true]) = 0 := streak_other (by decide) q
      have hc : ¬ Completes f false (q++[true]) := not_completes_other hf₁ (by decide) q
      have hgo := Tracks.speaking hfirst (show q++[true] ≠ [] by simp) (hno.snoc hc)
      rw [hz] at hgo
      exact hgo
    | false =>
      simp only [getVadStatus,VadArgs.count,VadArgs.enter,hinc,Bool.false_eq_true,if_false]
      split_ifs with hge
      · exact .finished hfirst List.prefix_rfl (completes_same.mpr hge)
      · rw [← streak_same]
        exact .speaking hfirst (by simp) (hno.snoc (mt completes_same.mp hge))
  | @finished p q r hfirst hr hc =>
    rw [List.append_assoc]
    exact .finished hfirst (hr.trans (List.prefix_append q [v])) hc

theorem after_tracks {s f : ℕ} (hs₁ : 1 ≤ s) (hs : s ≤ 255) (hf₁ : 1 ≤ f) (hf : f ≤ 255)
    {chunks : List Bool}
    (hok : 2 ≤ f ∨ ∀ h, First s true h → ¬ h++[false] <+: chunks) :
    Tracks s f chunks (after (start s f) chunks) := by
  induction chunks using List.reverseRecOn with
  | nil => exact .idel (before_nil hs₁ true)
  | append_singleton chunks v ih =>
    have hpre : 2 ≤ f ∨ ∀ h, First s true h → ¬ h++[false] <+: chunks :=
      hok.imp_right fun hno h hfirst hp => hno h hfirst (hp.trans (List.prefix_append _ _))
    rw [after_snoc]
    apply getVadStatus_tracks hs hf₁ hf (ih hpre)
    rintro hfirst rfl
    exact hok.resolve_right fun hno => hno chunks hfirst List.prefix_rfl

/-- With one silent chunk to finish, the one right after the start is missed. -/
theorem silent_not_expected {s : ℕ} (hs₁ : 1 ≤ s) (hs : s ≤ 255) {h : List Bool}
    (hfirst : First s true h) :
    ¬ Expected s 1 (h++[false]) (after (start s 1) (h++[false])).savedStatus := by
  -- up to the start nothing has gone wrong
  have hclear : 2 ≤ 1 ∨ ∀ p, First s true p → ¬ p++[false] <+: h := by
    right
    intro p hp₁ hp₂
    have hph : p = h := hfirst.2 p ((List.prefix_append p _).trans hp₂) hp₁.1
    have hlen := hp₂.length_le
    simp [hph] at hlen
  have htrack := after_tracks hs₁ hs le_rfl (by omega) hclear
  have hstarted : (after (start s 1) h).savedStatus = .started :=
    htrack.expected.unique le_rfl (.started hfirst)
  have hspeaking : (after (start s 1) (h++[false])).savedStatus = .speaking := by
    rw [after_snoc]
    simp only [getVadStatus,hstarted]
  have hfinished : Expected s 1 (h++[false]) .finished :=
    .finished hfirst List.prefix_rfl (by rw [completes_iff]; decide)
  rw [hspeaking]
  intro hcall
  cases hcall.unique le_rfl hfinished

/-- After every call the status returned is the expected one, unless one silent chunk is to
finish the speech and comes right after the chunk that started it. -/
theorem vad_status_iff {s f : ℕ} (hs₁ : 1 ≤ s) (hs : s ≤ 255) (hf₁ : 1 ≤ f) (hf : f ≤ 255)
    (chunks : List Bool) :
    (∀ h, h <+: chunks → h ≠ [] → Expected s f h (after (start s f) h).savedStatus) ↔
      2 ≤ f ∨ ∀ h, First s true h → ¬ h++[false] <+: chunks := by
  constructor
  · intro hall
    by_contra hbad
    push Not at hbad
    obtain ⟨hlt,h,hfirst,hp⟩ := hbad
    have hone : f = 1 := by omega
    subst f
    exact silent_not_expected hs₁ hs hfirst (hall (h++[false]) hp (by simp))
  · intro hok h hp _
    apply (after_tracks hs₁ hs hf₁ hf ?_).expected
    exact hok.imp_right fun hno p hfirst hp' => hno p hfirst (hp'.trans hp)

theorem vad_status_iff_two :
    Expected 2 2 [true,true,false,false] (after (start 2 2) [true,true,false,false]).savedStatus :=
  (vad_status_iff (by decide) (by decide) (by decide) (by decide) [true,true,false,false]).mpr
    (Or.inl (by decide)) _ List.prefix_rfl (by decide)

/-- One speaking and one silent chunk, with both thresholds at one. -/
theorem silent_after_start :
    (after (start 1 1) [true,false]).savedStatus = .speaking ∧
    Expected 1 1 [true,false] .finished ∧
    ¬ ∀ h, h <+: [true,false] → h ≠ [] → Expected 1 1 h (after (start 1 1) h).savedStatus := by
  have hfirst : First 1 true [true] := (before_nil (by decide) true).first (by decide)
  have hfinished : Expected 1 1 [true,false] .finished :=
    .finished hfirst List.prefix_rfl (by decide)
  refine ⟨by decide,hfinished,?_⟩
  intro hall
  have hspeaking : Expected 1 1 [true,false] .speaking := hall _ List.prefix_rfl (by decide)
  cases hspeaking.unique (by decide) hfinished

end VadOp
end PcEnv
