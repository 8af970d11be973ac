import Mathlib.Tactic

/-! Frames in a stream of symbols.
A frame opens at the next `start` and is closed by the first `stop` after it, which it leaves
out; an unfinished frame yields nothing. -/
namespace PcEnv
namespace Framing

variable {α : Type} {start stop : α}

def stream (start stop : α) (texts : List (List α)) : List α :=
  (texts.map (fun text => start::text++[stop])).flatten

theorem stream_cons (t : List α) (ts : List (List α)) :
    stream start stop (t::ts) = start::t++stop::stream start stop ts := by
  simp [stream]

theorem stream_eq_append {texts : List (List α)} {p s : List α}
    (h : stream start stop texts = p++s) :
    (∃ ts us, texts = ts++us ∧ p = stream start stop ts ∧ s = stream start stop us) ∨
      ∃ ts t us l r, texts = ts++t::us ∧ t = l++r ∧ p = stream start stop ts++start::l ∧
        s = r++stop::stream start stop us := by
  rcases List.flatten_eq_append_iff.mp h with ⟨as,bs,hmap,hp,hs⟩ | ⟨as,bs,c,cs,ds,hmap,hp,hs⟩
  · obtain ⟨ts,us,hts,has,hbs⟩ := List.map_eq_append_iff.mp hmap
    exact Or.inl ⟨ts,us,hts,by rw [hp,← has]; rfl,by rw [hs,← hbs]; rfl⟩
  · obtain ⟨ts,vs,hts,has,hvs⟩ := List.map_eq_append_iff.mp hmap
    obtain ⟨t,us,ht,hframe,hds⟩ := List.map_eq_cons_iff.mp hvs
    have has' : as.flatten = stream start stop ts := by rw [← has,stream]
    have hds' : ds.flatten = stream start stop us := by rw [← hds,stream]
    cases bs with
    | nil =>
      -- the cut comes right before the frame of `t`
      refine Or.inl ⟨ts,vs,hts,by rw [hp,has',List.append_nil],?_⟩
      rw [hs,ht,stream_cons,← hds',show c::cs = start::t++[stop] from hframe.symm]
      simp
    | cons b bs =>
      simp only [List.cons_append,List.cons.injEq] at hframe
      obtain ⟨hb,hbody⟩ := hframe
      obtain ⟨r,hr,hstop⟩ : ∃ r, t = bs++r ∧ c::cs = r++[stop] := by
        rcases List.append_eq_append_iff.mp hbody with ⟨r,hr,hstop⟩ | ⟨r,hr,hstop⟩
        · cases r with
          | nil => exact ⟨[],by simpa using hr.symm,by simpa using hstop.symm⟩
          | cons x r => simp at hstop
        · exact ⟨r,hr,hstop⟩
      refine Or.inr ⟨ts,t,us,bs,r,by rw [hts,ht],hr,by rw [hp,has',hb],?_⟩
      rw [hs,hds',hstop,List.append_assoc]
      rfl

variable [DecidableEq α]

/-- `none` looks for `start`, `some acc` is inside a frame that begins with `acc`. -/
def scan (start stop : α) : Option (List α) → List α → Option (List α) × List (List α)
  | st, [] => (st,[])
  | none, a::s => scan start stop (if a = start then some [a] else none) s
  | some acc, a::s =>
    if a = stop then
      let r := scan start stop none s
      (r.1,acc::r.2)
    else scan start stop (some (acc++[a])) s

def frames (start stop : α) (s : List α) : List (List α) := (scan start stop none s).2

theorem scan_append (st : Option (List α)) (s t : List α) :
    scan start stop st (s++t) =
      ((scan start stop (scan start stop st s).1 t).1,
        (scan start stop st s).2++(scan start stop (scan start stop st s).1 t).2) := by
  induction s generalizing st with
  | nil => rfl
  | cons a s ih =>
    cases st with
    | none => exact ih _
    | some acc =>
      simp only [List.cons_append,scan]
      split_ifs
      · simp only [ih none,List.cons_append]
      · exact ih _

theorem scan_skip {s : List α} (t : List α) (h : start ∉ s) :
    scan start stop none (s++t) = scan start stop none t := by
  induction s with
  | nil => rfl
  | cons a s ih =>
    have ha : a ≠ start := fun h' => h (by simp [h'])
    have hs : start ∉ s := fun h' => h (by simp [h'])
    simp only [List.cons_append,scan,if_neg ha,ih hs]

theorem scan_fill {s : List α} (acc t : List α) (h : stop ∉ s) :
    scan start stop (some acc) (s++t) = scan start stop (some (acc++s)) t := by
  induction s generalizing acc with
  | nil => simp
  | cons a s ih =>
    have ha : a ≠ stop := fun h' => h (by simp [h'])
    have hs : stop ∉ s := fun h' => h (by simp [h'])
    simp only [List.cons_append,scan,if_neg ha,ih _ hs,List.append_assoc,List.nil_append]

theorem scan_open {s : List α} (h : stop ∉ s) :
    scan start stop none (start::s) = (some (start::s),[]) := by
  have hf : scan start stop (some [start]) (s++[]) = _ := scan_fill [start] [] h
  simpa [scan] using hf

theorem scan_frame {s : List α} (t : List α) (h : stop ∉ s) :
    scan start stop none (start::s++stop::t) =
      ((scan start stop none t).1,(start::s)::frames start stop t) := by
  have hf : scan start stop (some [start]) (s++stop::t) = _ := scan_fill [start] (stop::t) h
  simpa [scan,frames] using hf

theorem frames_skip {s : List α} (t : List α) (h : start ∉ s) :
    frames start stop (s++t) = frames start stop t := by
  rw [frames,scan_skip t h,frames]

theorem frames_open {s : List α} (h : stop ∉ s) : frames start stop (start::s) = [] := by
  rw [frames,scan_open h]

theorem frames_frame {s : List α} (t : List α) (h : stop ∉ s) :
    frames start stop (start::s++stop::t) = (start::s)::frames start stop t := by
  rw [frames,scan_frame t h]

theorem frames_stream {texts : List (List α)} (h : ∀ t ∈ texts, stop ∉ t) (s : List α) :
    frames start stop (stream start stop texts++s) =
      texts.map (fun t => start::t)++frames start stop s := by
  induction texts with
  | nil => simp [stream]
  | cons t ts ih =>
    have hts := ih (fun u hu => h u (by simp [hu]))
    have hone : frames start stop _ = _ := frames_frame (stream start stop ts++s) (h t (by simp))
    rw [hts] at hone
    simpa [stream_cons] using hone

theorem scan_some_length (acc acc' s : List α) :
    (scan start stop (some acc) s).2.length = (scan start stop (some acc') s).2.length := by
  induction s generalizing acc acc' with
  | nil => rfl
  | cons a s ih =>
    simp only [scan]
    split_ifs
    · rfl
    · exact ih _ _

theorem scan_none_le (acc s : List α) :
    (scan start stop none s).2.length ≤ (scan start stop (some acc) s).2.length ∧
      (scan start stop (some acc) s).2.length ≤ (scan start stop none s).2.length+1 := by
  induction s generalizing acc with
  | nil => simp [scan]
  | cons a s ih =>
    have heq : (scan start stop (some [a]) s).2.length = _ := scan_some_length _ (acc++[a]) s
    have hone := ih [a]
    have hmore := ih (acc++[a])
    simp only [scan]
    split_ifs
    all_goals
      try simp only [List.length_cons]
      omega

theorem scan_length_le (st : Option (List α)) (s : List α) :
    (frames start stop s).length ≤ (scan start stop st s).2.length := by
  cases st with
  | none => exact le_rfl
  | some acc => exact (scan_none_le acc s).1

/-- Reading two parts on their own never gives more frames than reading them together. -/
theorem frames_append_length (s t : List α) :
    (frames start stop s).length+(frames start stop t).length ≤
      (frames start stop (s++t)).length := by
  rw [frames,frames,frames,scan_append,List.length_append]
  exact Nat.add_le_add_left (scan_length_le _ t) _

theorem frames_flatten_length (ps : List (List α)) :
    (ps.flatMap (frames start stop)).length ≤ (frames start stop ps.flatten).length := by
  induction ps with
  | nil => simp [frames,scan]
  | cons p ps ih =>
    rw [List.flatMap_cons,List.length_append,List.flatten_cons]
    exact (Nat.add_le_add_left ih _).trans (frames_append_length p ps.flatten)

theorem frames_stream_self {texts : List (List α)} (h : ∀ t ∈ texts, stop ∉ t) :
    frames start stop (stream start stop texts) = texts.map (fun t => start::t) := by
  have hs : frames start stop (stream start stop texts++[]) = _ := frames_stream h []
  simpa [frames,scan] using hs

theorem frames_groups {groups : List (List (List α))} (h : ∀ t ∈ groups.flatten, stop ∉ t) :
    (groups.map (stream start stop)).flatMap (frames start stop) =
      groups.flatten.map (fun t => start::t) := by
  induction groups with
  | nil => rfl
  | cons g gs ih =>
    have hg : ∀ t ∈ g, stop ∉ t := fun t ht => h t (by simp [ht])
    have hgs : ∀ t ∈ gs.flatten, stop ∉ t := fun t ht =>
      h t (by rw [List.flatten_cons]; exact List.mem_append_right g ht)
    rw [List.map_cons,List.flatMap_cons,frames_stream_self hg,ih hgs,List.flatten_cons,
      List.map_append]

/-- Pieces of a stream that are read each on their own give all its frames only if every piece
is frames of the stream, whole. -/
theorem pieces_whole {texts pieces : List (List α)} {buf : List α} (hne : start ≠ stop)
    (h : ∀ t ∈ texts, start ∉ t ∧ stop ∉ t)
    (hcut : stream start stop texts = pieces.flatten++buf)
    (hall : pieces.flatMap (frames start stop) = texts.map (fun t => start::t)) :
    buf = [] ∧ ∃ groups : List (List (List α)), groups.flatten = texts ∧
      pieces = groups.map (stream start stop) := by
  induction pieces generalizing texts with
  | nil =>
    have hnil : texts = [] := by simpa using hall
    subst hnil
    have hbuf : buf = [] := by simpa [stream] using hcut
    exact ⟨hbuf,[],rfl,rfl⟩
  | cons p ps ih =>
    rw [List.flatten_cons,List.append_assoc] at hcut
    rw [List.flatMap_cons] at hall
    rcases stream_eq_append hcut with ⟨ts,us,rfl,rfl,hrest⟩ | ⟨ts,t,us,l,r,rfl,rfl,rfl,hrest⟩
    · have hts : ∀ t ∈ ts, stop ∉ t := fun t ht => (h t (by simp [ht])).2
      rw [frames_stream_self hts,List.map_append,List.append_cancel_left_eq] at hall
      obtain ⟨hbuf,groups,hg,hps⟩ := ih (fun t ht => h t (by simp [ht])) hrest.symm hall
      exact ⟨hbuf,ts::groups,by rw [List.flatten_cons,hg],by rw [List.map_cons,hps]⟩
    · -- the frame the cut is in is lost, and the rest cannot make up for it
      exfalso
      obtain ⟨hstart,hstop⟩ := h (l++r) (by simp)
      simp only [List.mem_append,not_or] at hstart hstop
      have hts : ∀ t ∈ ts, stop ∉ t := fun t ht => (h t (by simp [ht])).2
      have hus : ∀ t ∈ us, stop ∉ t := fun t ht => (h t (by simp [ht])).2
      have hskip : start ∉ r++[stop] := by simp [hstart.2,hne]
      have hlater : frames start stop (ps.flatten++buf) = us.map (fun t => start::t) := by
        rw [hrest,List.append_cons,frames_skip _ hskip,frames_stream_self hus]
      have hless : (ps.flatMap (frames start stop)).length ≤ _ :=
        (frames_flatten_length ps).trans
          (Nat.le_of_add_right_le (frames_append_length ps.flatten buf))
      have hlen := congrArg List.length hall
      rw [frames_stream hts,frames_open hstop.1,List.append_nil] at hlen
      simp only [List.length_append,List.length_map,List.length_cons] at hlen
      rw [hlater,List.length_map] at hless
      omega

theorem split_idxOf? {s : List α} {a : α} {i : ℕ} (h : s.idxOf? a = some i) :
    s.drop i = a::s.drop (i+1) ∧ s = s.take i++a::s.drop (i+1) ∧ a ∉ s.take i := by
  induction s generalizing i with
  | nil => simp at h
  | cons b s ih =>
    rw [List.idxOf?_cons] at h
    split_ifs at h with hb
    · cases h
      rw [beq_iff_eq] at hb
      subst b
      simp
    · cases hs : s.idxOf? a with
      | none => simp [hs] at h
      | some j =>
        simp only [hs,Option.map_some,Option.some.injEq] at h
        subst i
        obtain ⟨hd,hsplit,hnot⟩ := ih hs
        have hne : a ≠ b := fun h' => hb (by simp [h'])
        refine ⟨hd,congrArg (b::·) hsplit,?_⟩
        simp [hne,hnot]

/-- What has been handed over by round `n`, when `f k` have arrived by round `k`. -/
def served (f : ℕ → ℕ) : ℕ → ℕ
  | 0 => f 0
  | n+1 => min (served f n+1) (f (n+1))

theorem served_congr {f g : ℕ → ℕ} {n : ℕ} (h : ∀ k ≤ n, f k = g k) :
    served f n = served g n := by
  induction n with
  | zero => exact h 0 le_rfl
  | succ n ih =>
    have hh := ih (fun k hk => h k (by omega))
    rw [served,served,hh,h (n+1) le_rfl]

theorem served_le (f : ℕ → ℕ) (n : ℕ) : served f n ≤ f n := by
  cases n with
  | zero => exact le_rfl
  | succ n => exact min_le_right _ _

theorem le_served_iff (f : ℕ → ℕ) (n m : ℕ) :
    m ≤ served f n ↔ ∀ j ≤ n, m ≤ f j+(n-j) := by
  induction n generalizing m with
  | zero => simp [served]
  | succ n ih =>
    have hh := ih (m-1)
    rw [served,le_min_iff]
    constructor
    · rintro ⟨hlt,hlast⟩ j hj
      rcases Nat.lt_or_ge n j with hnj | hnj
      · rw [show j = n+1 by omega]
        omega
      · have := hh.mp (by omega) j hnj
        omega
    · intro hall
      have hlast := hall (n+1) le_rfl
      have hbefore := hh.mpr (fun j hj => by
        have := hall j (by omega)
        omega)
      omega

theorem served_eq_iff (f : ℕ → ℕ) (n : ℕ) :
    served f n = f n ↔ ∀ j ≤ n, f n ≤ f j+(n-j) := by
  rw [← le_served_iff]
  exact ⟨fun h => h.ge,fun h => le_antisymm (served_le f n) h⟩

end Framing
end PcEnv
