import Mathlib.Tactic

/-! Streams that are worked off in turns while their pieces come in. -/
namespace PcEnv
namespace Incremental

/-- What one turn makes of the bytes at hand: it waits for more, works off `n` of them, or fails. -/
inductive Turn (σ ε : Type)
  | more (s : σ)
  | took (s : σ) (n : ℕ)
  | fail (s : σ) (e : ε)

/-- Where the turns end: waiting with what is left, or at a failure. -/
inductive Place (α σ ε : Type)
  | waits (s : σ) (rest : List α)
  | failed (s : σ) (e : ε)

def Turn.state {σ ε : Type} : Turn σ ε → σ
  | .more s | .took s _ | .fail s _ => s

def Place.state {α σ ε : Type} : Place α σ ε → σ
  | .waits s _ | .failed s _ => s

def Turn.map {σ ε : Type} (ψ : σ → σ) : Turn σ ε → Turn σ ε
  | .more s => .more (ψ s)
  | .took s n => .took (ψ s) n
  | .fail s e => .fail (ψ s) e

def Place.map {α σ ε : Type} (ψ : σ → σ) : Place α σ ε → Place α σ ε
  | .waits s rest => .waits (ψ s) rest
  | .failed s e => .failed (ψ s) e

section

variable {α σ ε : Type} (turn : σ → List α → Turn σ ε)

def drain : ℕ → σ → List α → Place α σ ε
  | 0, s, buf => .waits s buf
  | fuel+1, s, buf =>
    match turn s buf with
    | .more s' => .waits s' buf
    | .took s' n => drain fuel s' (buf.drop n)
    | .fail s' e => .failed s' e

/-- All turns that the bytes are good for. -/
def run (s : σ) (buf : List α) : Place α σ ε := drain turn (buf.length+1) s buf

def feed (p : Place α σ ε) (piece : List α) : Place α σ ε :=
  match p with
  | .waits s rest => run turn s (rest++piece)
  | .failed s e => .failed s e

/-- A turn that has enough does not look at what comes after, and one that waits can be made
again. -/
structure Stable : Prop where
  took : ∀ s buf s' n, turn s buf = .took s' n →
    0 < n ∧ n ≤ buf.length ∧ ∀ piece, turn s (buf++piece) = .took s' n
  fail : ∀ s buf s' e, turn s buf = .fail s' e → ∀ piece, turn s (buf++piece) = .fail s' e
  more : ∀ s buf s', turn s buf = .more s' → ∀ piece, turn s' (buf++piece) = turn s (buf++piece)

end

section

variable {α σ ε : Type} {turn : σ → List α → Turn σ ε} {s s' : σ} {buf piece : List α} {n : ℕ}
  {e : ε}

theorem drain_eq_run (h : Stable turn) {fuel : ℕ} (hfuel : buf.length < fuel) :
    drain turn fuel s buf = run turn s buf := by
  suffices hsuf : ∀ m, buf.length < m → drain turn fuel s buf = drain turn m s buf from
    hsuf _ (Nat.lt_succ_self _)
  intro m hm
  induction fuel generalizing m s buf with
  | zero => omega
  | succ fuel ih =>
    obtain ⟨m,rfl⟩ : ∃ k, m = k+1 := ⟨m-1,by omega⟩
    rw [drain,drain]
    cases hturn : turn s buf with
    | more s' => rfl
    | took s' n =>
      obtain ⟨hpos,hle,-⟩ := h.took s buf s' n hturn
      have hlen : (buf.drop n).length < fuel := by rw [List.length_drop]; omega
      have hlen' : (buf.drop n).length < m := by rw [List.length_drop]; omega
      exact ih hlen m hlen'
    | fail s' e => rfl

theorem run_more (hturn : turn s buf = .more s') : run turn s buf = .waits s' buf := by
  rw [run,drain,hturn]

theorem run_fail (hturn : turn s buf = .fail s' e) : run turn s buf = .failed s' e := by
  rw [run,drain,hturn]

theorem run_took (h : Stable turn) (hturn : turn s buf = .took s' n) :
    run turn s buf = run turn s' (buf.drop n) := by
  obtain ⟨hpos,hle,-⟩ := h.took s buf s' n hturn
  have hlen : (buf.drop n).length < buf.length := by rw [List.length_drop]; omega
  rw [run,drain,hturn]
  exact drain_eq_run h hlen

theorem run_induction (h : Stable turn) {P : σ → List α → Prop}
    (more : ∀ s buf s', turn s buf = .more s' → P s buf)
    (fail : ∀ s buf s' e, turn s buf = .fail s' e → P s buf)
    (took : ∀ s buf s' n, turn s buf = .took s' n → P s' (buf.drop n) → P s buf) (s : σ)
    (buf : List α) : P s buf := by
  induction hlen : buf.length using Nat.strong_induction_on generalizing s buf with
  | _ k ih =>
    cases hturn : turn s buf with
    | more s' => exact more s buf s' hturn
    | fail s' e => exact fail s buf s' e hturn
    | took s' n =>
      obtain ⟨hpos,hle,-⟩ := h.took s buf s' n hturn
      refine took s buf s' n hturn (ih _ ?_ s' _ rfl)
      rw [List.length_drop]
      omega

/-- Bytes that come in later are as good as bytes that were there at once. -/
theorem feed_run (h : Stable turn) (s : σ) (buf piece : List α) :
    feed turn (run turn s buf) piece = run turn s (buf++piece) := by
  induction s, buf using run_induction h with
  | more s buf s' hturn =>
    rw [run_more hturn,feed]
    have hsame := h.more s buf s' hturn piece
    cases hnext : turn s (buf++piece) with
    | more t =>
      rw [hnext] at hsame
      rw [run_more hsame,run_more hnext]
    | took t n =>
      rw [hnext] at hsame
      rw [run_took h hsame,run_took h hnext]
    | fail t e =>
      rw [hnext] at hsame
      rw [run_fail hsame,run_fail hnext]
  | fail s buf s' e hturn =>
    rw [run_fail hturn,run_fail (h.fail s buf s' e hturn piece)]
    rfl
  | took s buf s' n hturn ih =>
    obtain ⟨-,hle,hext⟩ := h.took s buf s' n hturn
    rw [run_took h hturn,run_took h (hext piece),ih,List.drop_append_of_le_length hle]

theorem run_invariant (h : Stable turn) {P : σ → Prop} (hP : ∀ s buf, P s → P (turn s buf).state)
    (hs : P s) : P (run turn s buf).state := by
  induction s, buf using run_induction h with
  | more s buf s' hturn =>
    have hnext := hP s buf hs
    rw [hturn] at hnext
    rwa [run_more hturn]
  | fail s buf s' e hturn =>
    have hnext := hP s buf hs
    rw [hturn] at hnext
    rwa [run_fail hturn]
  | took s buf s' n hturn ih =>
    have hnext := hP s buf hs
    rw [hturn] at hnext
    rw [run_took h hturn]
    exact ih hnext

theorem run_waits (h : Stable turn) {rest : List α} (hrun : run turn s buf = .waits s' rest) :
    ∃ t, turn t rest = .more s' := by
  induction s, buf using run_induction h with
  | more s buf t hturn =>
    rw [run_more hturn] at hrun
    cases hrun
    exact ⟨s,hturn⟩
  | fail s buf t e hturn =>
    rw [run_fail hturn] at hrun
    cases hrun
  | took s buf t n hturn ih =>
    rw [run_took h hturn] at hrun
    exact ih hrun

theorem more_again (h : Stable turn) {rest : List α} (hrun : run turn s buf = .waits s' rest) :
    turn s' rest = .more s' := by
  obtain ⟨t,ht⟩ := run_waits h hrun
  have hsame := h.more t rest s' ht []
  rwa [List.append_nil,ht] at hsame

theorem run_map {ψ : σ → σ} (h : ∀ s buf, turn (ψ s) buf = (turn s buf).map ψ) (s : σ)
    (buf : List α) : run turn (ψ s) buf = (run turn s buf).map ψ := by
  unfold run
  generalize buf.length+1 = fuel
  induction fuel generalizing s buf with
  | zero => rfl
  | succ fuel ih =>
    rw [drain,drain,h]
    cases turn s buf with
    | more s' => rfl
    | took s' n => exact ih s' (buf.drop n)
    | fail s' e => rfl

end

end Incremental
end PcEnv
