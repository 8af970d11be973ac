import Mathlib.Data.List.Destutter
import PcEnv.PopenGet

/-! `getPkgDeps` of `pkgSort`, which reads the dependencies of a package off what
`make -C pkg depend` prints. -/
namespace PcEnv
namespace PkgDeps

open PopenGet Text

def space : UInt8 := 32
def make : List UInt8 := ascii "make"

def cmdLoop : ℕ → List UInt8 → Pfile → Option (List UInt8)
  | 0,_,_ => none
  | fuel+1,cmdRes,fp =>
    match fgets 256 fp with
    | (none,_) => some cmdRes
    | (some buf,fp) =>
      let cmdRes := cmdRes++before 0 buf
      if fp.eof then some cmdRes else cmdLoop fuel cmdRes fp

/-- `output` is what the command prints, `none` where `popen` fails. -/
def getCmdRes (output : Option (List UInt8)) : Option (List UInt8) :=
  match output with
  | none => some []
  | some out => cmdLoop (out.length+1) [] ⟨out,false⟩

structure StringStream where
  rest : List UInt8
  eof : Bool
  deriving DecidableEq, Repr

/-- `getline(s,temp,delim)`: what is in `temp` and left in `s`, and whether `s` is still good. It
does nothing to `temp` once the end has been met. -/
def getline (delim : UInt8) (s : StringStream) (temp : List UInt8) :
    List UInt8 × StringStream × Bool :=
  if s.eof then (temp,s,false)
  else if delim ∈ s.rest then
    (before delim s.rest,{ rest := after delim s.rest, eof := false },true)
  else (s.rest,{ rest := [], eof := true },decide (s.rest ≠ []))

def skipMake : ℕ → StringStream → List UInt8 → Option (List UInt8)
  | 0,_,_ => none
  | fuel+1,s,temp =>
    match getline newline s temp with
    | (temp,_,false) => some temp
    | (temp,s,true) => if find temp make ≠ 0 then some temp else skipMake fuel s temp

def splitDeps : ℕ → StringStream → List UInt8 → List (List UInt8) → Option (List (List UInt8))
  | 0,_,_,_ => none
  | fuel+1,s,temp,deps =>
    match getline space s temp with
    | (_,_,false) => some deps
    | (temp,s,true) => splitDeps fuel s temp (deps++[temp])

/-- `deps.unique()` takes out what repeats the name before it. -/
def getPkgDeps (output : Option (List UInt8)) : Option (List (List UInt8)) := do
  let cmdRes ← getCmdRes output
  let temp ← skipMake (cmdRes.length+2) ⟨cmdRes,false⟩ []
  let deps ← splitDeps (temp.length+2) ⟨temp,false⟩ temp []
  some (deps.destutter (· ≠ ·))

/-- A line of `make` itself. -/
structure MakeLine where
  text : List UInt8
  begins : make <+: text
  oneLine : newline ∉ text
  cstr : 0 ∉ text

def isSpace (b : UInt8) : Bool := b = 32 || (9 ≤ b && b ≤ 13)

structure Name where
  text : List UInt8
  ne_nil : text ≠ []
  noSpace : ∀ b ∈ text, isSpace b = false
  cstr : 0 ∉ text

def printed (ls : List MakeLine) : List UInt8 := ls.flatMap (fun l => l.text++[newline])

def depLine (names : List Name) : List UInt8 := [space].intercalate (names.map Name.text)

def echoed (pre : List MakeLine) (names : List Name) (post : List MakeLine) : List UInt8 :=
  printed pre++depLine names++newline::printed post

theorem cmdLoop_reads (fuel : ℕ) {cmdRes : List UInt8} {fp : Pfile} (heof : fp.eof = false)
    (hnul : 0 ∉ fp.rest) (hfuel : fp.rest.length < fuel) :
    cmdLoop fuel cmdRes fp = some (cmdRes++fp.rest) := by
  induction fuel generalizing cmdRes fp with
  | zero => omega
  | succ fuel ih =>
    rw [cmdLoop]
    rcases fgets_cases (n := 256) (by decide) heof with
      ⟨hrest,hget⟩ | ⟨line,rest,hrest,hne,-,hget,hend⟩
    · split
      · rw [hrest,List.append_nil]
      · next hsome =>
        rw [hsome] at hget
        cases hget
    · have hline : 0 ∉ line := fun h => hnul (hrest ▸ List.mem_append_left _ h)
      have hmore : 0 ∉ rest := fun h => hnul (hrest ▸ List.mem_append_right _ h)
      have hsum : fp.rest.length = line.length+rest.length := by
        rw [hrest,List.length_append]
      have hpos : 0 < line.length := List.length_pos_iff.mpr hne
      rw [hget]
      simp only [before_not_mem hline]
      split_ifs with heof'
      · rw [hrest,(hend heof').1,List.append_nil]
      · rw [ih (by simpa using heof') hmore (by simp only; omega),hrest,List.append_assoc]

theorem getCmdRes_reads {out : List UInt8} (h : 0 ∉ out) : getCmdRes (some out) = some out :=
  cmdLoop_reads _ rfl h (Nat.lt_succ_self _)

section

variable {l rest temp : List UInt8} {delim : UInt8}

theorem getline_line (h : delim ∉ l) :
    getline delim ⟨l++delim::rest,false⟩ temp = (l,⟨rest,false⟩,true) := by
  simp [getline,before_append h,after_append h]

theorem getline_last (h : delim ∉ l) :
    getline delim ⟨l,false⟩ temp = (l,⟨[],true⟩,decide (l ≠ [])) := by
  simp [getline,h]

theorem find_eq_zero_iff (s pat : List UInt8) : find s pat = 0 ↔ pat <+: s := by
  constructor
  · intro h
    exact (find_spec h (by decide)).2.1
  · intro h
    exact find_eq (Nat.zero_le _) h (fun j hj => absurd hj (Nat.not_lt_zero j))

theorem skipMake_line (fuel : ℕ) (h : newline ∉ l) :
    skipMake (fuel+1) ⟨l++newline::rest,false⟩ temp =
      if make <+: l then skipMake fuel ⟨rest,false⟩ l else some l := by
  rw [skipMake,getline_line h]
  simp only [ne_eq,find_eq_zero_iff,ite_not]

theorem skipMake_printed (fuel : ℕ) (ls : List MakeLine) (rest temp : List UInt8) :
    ∃ temp', skipMake (ls.length+fuel) ⟨printed ls++rest,false⟩ temp =
      skipMake fuel ⟨rest,false⟩ temp' := by
  induction ls generalizing temp with
  | nil => exact ⟨temp,by simp [printed]⟩
  | cons l ls ih =>
    obtain ⟨temp',h⟩ := ih l.text
    refine ⟨temp',?_⟩
    have hcons : printed (l::ls)++rest = l.text++newline::(printed ls++rest) := by
      simp [printed]
    rw [hcons,List.length_cons,Nat.add_right_comm,skipMake_line _ l.oneLine,if_pos l.begins,h]

theorem splitDeps_pieces (fuel : ℕ) (s temp : List UInt8) (deps : List (List UInt8))
    (hfuel : s.length+1 < fuel) :
    splitDeps fuel ⟨s,false⟩ temp deps =
      some (deps++initPieces space s++(if lastPiece space s = [] then [] else [lastPiece space s])) := by
  induction s using pieces_induction space generalizing fuel temp deps with
  | last s hs =>
    obtain ⟨fuel,rfl⟩ : ∃ n, fuel = n+2 := ⟨fuel-2,by omega⟩
    rw [splitDeps,getline_last hs,initPieces_not_mem hs,lastPiece_not_mem hs,List.append_nil]
    by_cases hnil : s = []
    · simp [hnil]
    · simp [hnil,splitDeps,getline]
  | piece a b ha ih =>
    obtain ⟨fuel,rfl⟩ : ∃ n, fuel = n+1 := ⟨fuel-1,by omega⟩
    rw [List.length_append,List.length_cons] at hfuel
    rw [splitDeps,getline_line ha,initPieces_append ha,lastPiece_append ha]
    simp only
    rw [ih fuel a (deps++[a]) (by omega),List.append_assoc deps]
    rfl

end

section

variable {names : List Name}

theorem Name.no_blank (n : Name) : space ∉ n.text := by
  intro h
  have hno := n.noSpace space h
  exact absurd hno (by decide)

theorem Name.no_newline (n : Name) : newline ∉ n.text := by
  intro h
  have hno := n.noSpace newline h
  exact absurd hno (by decide)

theorem depLine_one (n : Name) : depLine [n] = n.text := List.intercalate_singleton

theorem depLine_cons (n m : Name) (names : List Name) :
    depLine (n::m::names) = n.text++space::depLine (m::names) := by
  simp [depLine]

theorem not_mem_depLine {b : UInt8} (hb : b ≠ space) (h : ∀ n ∈ names, b ∉ n.text) :
    b ∉ depLine names := by
  induction names with
  | nil => exact List.not_mem_nil
  | cons n names ih =>
    have hn := h n List.mem_cons_self
    have hnames := ih (fun m hm => h m (List.mem_cons_of_mem n hm))
    cases names with
    | nil => rwa [depLine_one]
    | cons m names =>
      rw [depLine_cons,List.mem_append,List.mem_cons]
      rintro (hmem | rfl | hmem)
      · exact hn hmem
      · exact hb rfl
      · exact hnames hmem

/-- A blank ends what can begin with `make`. -/
theorem make_begins_append {l rest : List UInt8} : make <+: l++space::rest ↔ make <+: l := by
  refine ⟨?_,fun h => h.trans (List.prefix_append _ _)⟩
  intro h
  rcases List.prefix_or_prefix_of_prefix h (List.prefix_append l (space::rest)) with hl | ⟨t,ht⟩
  · exact hl
  · cases t with
    | nil =>
      rw [List.append_nil] at ht
      rw [← ht]
    | cons c t =>
      rw [← ht,List.prefix_append_right_inj,List.cons_prefix_cons] at h
      have hmem : space ∈ make := by
        rw [← ht,← h.1]
        simp
      exact absurd hmem (by decide)

theorem make_begins_depLine :
    make <+: depLine names ↔ ∃ n ∈ names.head?, make <+: n.text := by
  cases names with
  | nil => simp [depLine,make,ascii]
  | cons n names =>
    simp only [List.head?_cons,Option.mem_some_iff,exists_eq_left']
    cases names with
    | nil => rw [depLine_one]
    | cons m names => rw [depLine_cons,make_begins_append]

theorem splitDeps_depLine (fuel : ℕ) (temp : List UInt8)
    (hfuel : (depLine names).length+1 < fuel) :
    splitDeps fuel ⟨depLine names,false⟩ temp [] = some (names.map Name.text) := by
  rw [splitDeps_pieces fuel _ temp [] hfuel,List.nil_append]
  by_cases hnil : names = []
  · subst hnil
    rfl
  · have hsplit : (depLine names).splitOn space = names.map Name.text := by
      refine List.splitOn_intercalate space ?_ (by simpa using hnil)
      intro w hw
      obtain ⟨n,-,rfl⟩ := List.mem_map.mp hw
      exact n.no_blank
    have hlast : lastPiece space (depLine names) ≠ [] := by
      have hmem : lastPiece space (depLine names) ∈ names.map Name.text := hsplit ▸ lastPiece_mem
      obtain ⟨n,-,hn⟩ := List.mem_map.mp hmem
      rw [← hn]
      exact n.ne_nil
    rw [if_neg hlast,← pieces,hsplit]

end

section

variable (pre post : List MakeLine) (names : List Name)

theorem not_mem_printed (ls : List MakeLine) : 0 ∉ printed ls := by
  intro h
  obtain ⟨l,-,hl⟩ := List.mem_flatMap.mp h
  rcases List.mem_append.mp hl with hl | hl
  · exact l.cstr hl
  · exact absurd hl (by decide)

theorem length_le_printed (ls : List MakeLine) : ls.length ≤ (printed ls).length := by
  induction ls with
  | nil => exact Nat.zero_le _
  | cons l ls ih =>
    simp only [printed,List.flatMap_cons,List.length_append,List.length_cons,List.length_nil] at ih ⊢
    omega

theorem getCmdRes_echoed :
    getCmdRes (some (echoed pre names post)) = some (echoed pre names post) := by
  refine getCmdRes_reads ?_
  rw [echoed,List.mem_append,List.mem_append,List.mem_cons]
  rintro ((h | h) | h | h)
  · exact not_mem_printed pre h
  · exact not_mem_depLine (by decide) (fun n _ => n.cstr) h
  · exact absurd h (by decide)
  · exact not_mem_printed post h

theorem skipMake_echoed (fuel : ℕ) (hfuel : (echoed pre names post).length+1 < fuel) :
    skipMake fuel ⟨echoed pre names post,false⟩ [] =
      some (if make <+: depLine names then [] else depLine names) := by
  have hpre := length_le_printed pre
  have hpost := length_le_printed post
  rw [echoed,List.length_append,List.length_append,List.length_cons] at hfuel
  obtain ⟨rest,rfl⟩ : ∃ n, fuel = pre.length+(n+1) := ⟨fuel-pre.length-1,by omega⟩
  obtain ⟨temp,hskip⟩ :=
    skipMake_printed (rest+1) pre (depLine names++newline::printed post) []
  have hline : newline ∉ depLine names :=
    not_mem_depLine (by decide) (fun n _ => n.no_newline)
  rw [echoed,List.append_assoc,hskip,skipMake_line rest hline]
  by_cases hmake : make <+: depLine names
  · -- the line is skipped, and so are those behind it
    obtain ⟨last,rfl⟩ : ∃ n, rest = post.length+(n+1) := ⟨rest-post.length-1,by omega⟩
    obtain ⟨temp',hend⟩ := skipMake_printed (last+1) post [] (depLine names)
    rw [List.append_nil] at hend
    rw [if_pos hmake,if_pos hmake,hend]
    rfl
  · rw [if_neg hmake,if_neg hmake]

/-- `getPkgDeps` recovers the names exactly when the first of them does not begin with `make`. -/
theorem getPkgDeps_echoed_iff :
    getPkgDeps (some (echoed pre names post)) =
        some ((names.map Name.text).destutter (· ≠ ·)) ↔
      ∀ n ∈ names.head?, ¬ make <+: n.text := by
  have hcond : (∀ n ∈ names.head?, ¬ make <+: n.text) ↔ ¬ make <+: depLine names := by
    rw [make_begins_depLine]
    simp
  rw [hcond,getPkgDeps,getCmdRes_echoed]
  simp only [Option.bind_eq_bind,Option.bind_some,
    skipMake_echoed pre post names _ (Nat.lt_succ_self _)]
  by_cases hmake : make <+: depLine names
  · rw [if_pos hmake]
    refine iff_of_false ?_ (not_not.mpr hmake)
    intro h
    have hnone : splitDeps 2 ⟨[],false⟩ [] [] = some [] := rfl
    simp only [List.length_nil,Nat.zero_add,hnone,Option.bind_some,List.destutter_nil,
      Option.some.injEq] at h
    have hnil := (List.destutter_eq_nil _).mp h.symm
    rw [List.map_eq_nil_iff.mp hnil] at hmake
    exact absurd hmake (by decide)
  · rw [if_neg hmake,splitDeps_depLine _ _ (Nat.lt_succ_self _)]
    exact iff_of_true rfl hmake

end

def makeup : Name :=
  { text := ascii "makeup", ne_nil := by decide, noSpace := by decide +kernel, cstr := by decide }

def entering : MakeLine where
  text := ascii "make: Entering directory pkg"
  begins := by decide
  oneLine := by decide
  cstr := by decide

def leaving : MakeLine where
  text := ascii "make: Leaving directory pkg"
  begins := by decide
  oneLine := by decide
  cstr := by decide

theorem getPkgDeps_skips :
    getPkgDeps (some (echoed [entering] [makeup] [leaving])) = some [] ∧
    ¬ getPkgDeps (some (echoed [entering] [makeup] [leaving])) =
      some (([makeup].map Name.text).destutter (· ≠ ·)) := by
  have hnone : getPkgDeps (some (echoed [entering] [makeup] [leaving])) = some [] := by
    decide +kernel
  refine ⟨hnone,?_⟩
  rw [hnone]
  decide

end PkgDeps
end PcEnv
