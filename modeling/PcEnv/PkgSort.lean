import Mathlib.Data.Finset.Card
import Mathlib.Data.List.Destutter
import PcEnv.DepOrder

/-! The build-order tool `pkgSort`.
`deps` is what `getPkgDeps` answers for a package. The fuel is the depth of the C++
recursion, so running out of it is a recursion that goes deeper; it is shown never to
happen over a finite package universe. -/
namespace PcEnv
namespace PkgSort

open DepOrder

variable {Pkg : Type}

section Source

variable [DecidableEq Pkg]

/-- The loop of `up_active_list` over `dep_list`. `unList` is the callee's own copy, so it
keeps what this loop pushed and nothing of what deeper calls pushed. -/
def upDeps (recur : Pkg → List Pkg → List Pkg → Option (List Pkg)) :
    List Pkg → List Pkg → List Pkg → Option (List Pkg)
  | [],activeList,_ => some activeList
  | i::depList,activeList,unList =>
    if i ∈ unList then upDeps recur depList activeList unList
    else if i ∈ activeList then upDeps recur depList activeList unList
    else (recur i activeList (unList++[i])).bind fun activeList =>
      upDeps recur depList activeList (unList++[i])

def upActiveList (deps : Pkg → List Pkg) :
    ℕ → Pkg → List Pkg → List Pkg → List Pkg → Option (List Pkg)
  | 0,_,_,_,_ => none
  | fuel+1,pkg,depList,activeList,unList =>
    (upDeps (fun i => upActiveList deps fuel i (deps i)) depList activeList unList).map
      fun activeList => if pkg ∈ activeList then activeList else activeList++[pkg]

def getPkgActiveList (deps : Pkg → List Pkg) (fuel : ℕ) (pkg : Pkg) (activeList : List Pkg) :
    Option (List Pkg) :=
  upActiveList deps fuel pkg (deps pkg) activeList [pkg]

/-- The fold of `main` over the requested packages, from the empty `active_list`. -/
def foldActive (deps : Pkg → List Pkg) (fuel : ℕ) (pkgList : List Pkg) : Option (List Pkg) :=
  pkgList.foldlM (fun activeList pkg => getPkgActiveList deps fuel pkg activeList) []

/-- What `main` requests: `-s pkg` wins over `-f path`, whose lines go through `unique()`;
with neither option it prints the usage and gives up. -/
def requested (pkg : Option Pkg) (path : Option (List Pkg)) : Option (List Pkg) :=
  match pkg,path with
  | some p,_ => some [p]
  | none,some lines => some (lines.destutter (· ≠ ·))
  | none,none => none

def main (deps : Pkg → List Pkg) (fuel : ℕ) (pkg : Option Pkg) (path : Option (List Pkg)) :
    Option (List Pkg) :=
  (requested pkg path).bind (foldActive deps fuel)

end Source

variable {deps : Pkg → List Pkg}

/-- The search invariant: `un_list` minus `active_list` is exactly the current path `P`. -/
structure Frame (deps : Pkg → List Pkg) (P : Set Pkg) (activeList unList : List Pkg) : Prop where
  order : Partial deps P activeList
  pathFresh : ∀ p ∈ P, p ∉ activeList
  pathUn : ∀ p ∈ P, p ∈ unList
  unSplit : ∀ x ∈ unList, x ∈ activeList ∨ x ∈ P

/-- What a call made for `pkg` turns `active_list` into. -/
structure Grown (deps : Pkg → List Pkg) (P : Set Pkg) (pkg : Pkg)
    (activeList out : List Pkg) : Prop where
  order : Partial deps P out
  pathFresh : ∀ p ∈ P, p ∉ out
  keeps : ∀ x ∈ activeList, x ∈ out
  sound : ∀ x ∈ out, x ∈ activeList ∨ Reaches deps pkg x

theorem Grown.refl {P : Set Pkg} {activeList unList : List Pkg} (pkg : Pkg)
    (h : Frame deps P activeList unList) : Grown deps P pkg activeList activeList :=
  ⟨h.order,h.pathFresh,fun _ hx => hx,fun _ hx => Or.inl hx⟩

theorem Grown.trans {P : Set Pkg} {pkg : Pkg} {a b c : List Pkg}
    (hab : Grown deps P pkg a b) (hbc : Grown deps P pkg b c) : Grown deps P pkg a c := by
  refine ⟨hbc.order,hbc.pathFresh,fun x hx => hbc.keeps x (hab.keeps x hx),?_⟩
  intro x hx
  rcases hbc.sound x hx with hb | hr
  · exact hab.sound x hb
  · exact Or.inr hr

theorem Grown.of_dep {P : Set Pkg} {pkg i : Pkg} {a b : List Pkg} (hi : i ∈ deps pkg)
    (h : Grown deps P i a b) : Grown deps P pkg a b :=
  ⟨h.order,h.pathFresh,h.keeps,fun x hx => (h.sound x hx).imp_right (Reaches.head hi)⟩

theorem Frame.push {P : Set Pkg} {activeList unList : List Pkg} {i : Pkg}
    (h : Frame deps P activeList unList) (hi : i ∉ activeList) :
    Frame deps (insert i P) activeList (unList++[i]) := by
  refine ⟨h.order.mono (Set.subset_insert i P),?_,?_,?_⟩
  · rintro p (rfl | hp)
    · exact hi
    · exact h.pathFresh p hp
  · rintro p (rfl | hp)
    · simp
    · simp [h.pathUn p hp]
  · intro x hx
    rcases List.mem_append.mp hx with hx | hx
    · exact (h.unSplit x hx).imp_right (fun hp => Or.inr hp)
    · exact Or.inr (Or.inl (List.mem_singleton.mp hx))

theorem Frame.after {P : Set Pkg} {pkg i : Pkg} {activeList unList out : List Pkg}
    (h : Frame deps P activeList unList) (hg : Grown deps P pkg activeList out) (hi : i ∈ out) :
    Frame deps P out (unList++[i]) := by
  refine ⟨hg.order,hg.pathFresh,fun p hp => by simp [h.pathUn p hp],?_⟩
  intro x hx
  rcases List.mem_append.mp hx with hx | hx
  · exact (h.unSplit x hx).imp_left (hg.keeps x)
  · rw [List.mem_singleton] at hx
    exact Or.inl (hx ▸ hi)

variable [DecidableEq Pkg] {U : Finset Pkg}

def unseen (U : Finset Pkg) (unList : List Pkg) : Finset Pkg := U.filter (· ∉ unList)

theorem unseen_snoc_card_lt {unList : List Pkg} {i : Pkg} (hi : i ∈ U) (hn : i ∉ unList) :
    (unseen U (unList++[i])).card < (unseen U unList).card := by
  apply Finset.card_lt_card
  constructor
  · intro x hx
    simp only [unseen,Finset.mem_filter,List.mem_append,not_or] at hx ⊢
    exact ⟨hx.1,hx.2.1⟩
  · intro hs
    have hmem : i ∈ unseen U (unList++[i]) := hs (by simp [unseen,hi,hn])
    simp [unseen] at hmem

/-- What a visit that comes back has done, over any packages and at any depth. -/
def Closes (deps : Pkg → List Pkg) (recur : Pkg → List Pkg → List Pkg → Option (List Pkg)) : Prop :=
  ∀ i P activeList unList out, i ∉ P → (∀ p ∈ P, Reaches deps p i) →
    Frame deps (insert i P) activeList unList → recur i activeList unList = some out →
    Grown deps P i activeList out ∧ i ∈ out

theorem upDeps_closes {recur : Pkg → List Pkg → List Pkg → Option (List Pkg)}
    (hrec : Closes deps recur) {P : Set Pkg} {pkg : Pkg} (hP : ∀ p ∈ P, Reaches deps p pkg)
    {depList activeList unList out : List Pkg} (hdeps : ∀ b ∈ depList, b ∈ deps pkg)
    (hf : Frame deps P activeList unList)
    (hout : upDeps recur depList activeList unList = some out) :
    Grown deps P pkg activeList out ∧ ∀ b ∈ depList, b ∈ out ∨ b ∈ P := by
  induction depList generalizing activeList unList with
  | nil =>
    cases hout
    exact ⟨Grown.refl pkg hf,by simp⟩
  | cons i depList ih =>
    have hi : i ∈ deps pkg := hdeps i (by simp)
    have hdeps' : ∀ b ∈ depList, b ∈ deps pkg := fun b hb => hdeps b (by simp [hb])
    simp only [upDeps] at hout
    split_ifs at hout with hun hactive
    · -- on `un_list`: either finished already, or on the path itself
      obtain ⟨hg,hcov⟩ := ih hdeps' hf hout
      refine ⟨hg,?_⟩
      intro b hb
      rcases List.mem_cons.mp hb with rfl | hb
      · exact (hf.unSplit b hun).imp_left (hg.keeps b)
      · exact hcov b hb
    · obtain ⟨hg,hcov⟩ := ih hdeps' hf hout
      refine ⟨hg,?_⟩
      intro b hb
      rcases List.mem_cons.mp hb with rfl | hb
      · exact Or.inl (hg.keeps b hactive)
      · exact hcov b hb
    · obtain ⟨mid,hmid,hout⟩ := Option.bind_eq_some_iff.mp hout
      have hiP : i ∉ P := fun hp => hun (hf.pathUn i hp)
      obtain ⟨hgi,hmem⟩ := hrec i P activeList (unList++[i]) mid hiP
        (fun p hp => (hP p hp).tail hi) (hf.push hactive) hmid
      have hg := hgi.of_dep hi
      obtain ⟨hg',hcov⟩ := ih hdeps' (hf.after hg hmem) hout
      refine ⟨hg.trans hg',?_⟩
      intro b hb
      rcases List.mem_cons.mp hb with rfl | hb
      · exact Or.inl (hg'.keeps b hmem)
      · exact hcov b hb

/-- The recursion on the depth: a visit closes `pkg` and leaves the path as it was. -/
theorem upActiveList_closes (fuel : ℕ) :
    Closes deps (fun i => upActiveList deps fuel i (deps i)) := by
  induction fuel with
  | zero =>
    intro i P activeList unList out _ _ _ hout
    simp [upActiveList] at hout
  | succ fuel ih =>
    intro pkg P activeList unList out hfresh hP hf hout
    have hreach : ∀ p ∈ insert pkg P, Reaches deps p pkg := by
      rintro p (rfl | hp)
      · exact Reaches.refl p
      · exact hP p hp
    simp only [upActiveList,Option.map_eq_some_iff] at hout
    obtain ⟨mid,hmid,rfl⟩ := hout
    obtain ⟨hg,hcov⟩ := upDeps_closes ih hreach (fun _ hb => hb) hf hmid
    have hnot : pkg ∉ mid := hg.pathFresh pkg (Set.mem_insert pkg P)
    rw [if_neg hnot]
    refine ⟨⟨?_,?_,?_,?_⟩,by simp⟩
    · exact hg.order.snoc hnot hcov hP
    · intro p hp hmem
      rcases List.mem_append.mp hmem with hmem | hmem
      · exact hg.pathFresh p (Set.mem_insert_of_mem pkg hp) hmem
      · exact hfresh (List.mem_singleton.mp hmem ▸ hp)
    · intro x hx
      simp [hg.keeps x hx]
    · intro x hx
      rcases List.mem_append.mp hx with hx | hx
      · exact hg.sound x hx
      · rw [List.mem_singleton] at hx
        subst x
        exact Or.inr (Reaches.refl pkg)

theorem upDeps_returns {fuel : ℕ} {recur : Pkg → List Pkg → List Pkg → Option (List Pkg)}
    (hrec : ∀ i activeList unList, i ∈ U → (unseen U unList).card < fuel →
      ∃ out, recur i activeList unList = some out) (depList activeList unList : List Pkg)
    (hU : ∀ b ∈ depList, b ∈ U) (hc : (unseen U unList).card ≤ fuel) :
    ∃ out, upDeps recur depList activeList unList = some out := by
  induction depList generalizing activeList unList with
  | nil => exact ⟨activeList,rfl⟩
  | cons i depList ih =>
    have hU' : ∀ b ∈ depList, b ∈ U := fun b hb => hU b (by simp [hb])
    simp only [upDeps]
    split_ifs with hun hactive
    · exact ih activeList unList hU' hc
    · exact ih activeList unList hU' hc
    · have hlt := unseen_snoc_card_lt (U:=U) (hU i (by simp)) hun
      obtain ⟨mid,hmid⟩ := hrec i activeList (unList++[i]) (hU i (by simp)) (by omega)
      obtain ⟨out,hout⟩ := ih mid (unList++[i]) hU' (by omega)
      exact ⟨out,by rw [hmid,Option.bind_some,hout]⟩

theorem upActiveList_returns (hU : ∀ p ∈ U, ∀ q ∈ deps p, q ∈ U) (fuel : ℕ) (i : Pkg)
    (activeList unList : List Pkg) (hi : i ∈ U) (hc : (unseen U unList).card < fuel) :
    ∃ out, upActiveList deps fuel i (deps i) activeList unList = some out := by
  induction fuel generalizing i activeList unList with
  | zero => omega
  | succ fuel ih =>
    obtain ⟨out,hout⟩ := upDeps_returns ih (deps i) activeList unList (hU i hi) (by omega)
    exact ⟨_,by rw [upActiveList,hout,Option.map_some]⟩

/-- One requested package, from a closed list: a fresh root opens a path of its own, a root
that is listed already has nothing open. -/
theorem getPkgActiveList_closes {fuel : ℕ} {pkg : Pkg} {activeList out : List Pkg}
    (ho : Partial deps ∅ activeList) (hout : getPkgActiveList deps fuel pkg activeList = some out) :
    Grown deps ∅ pkg activeList out ∧ pkg ∈ out := by
  have hpath : ∀ p ∈ (∅ : Set Pkg), Reaches deps p pkg := by simp
  by_cases hin : pkg ∈ activeList
  · cases fuel with
    | zero => simp [getPkgActiveList,upActiveList] at hout
    | succ fuel =>
      have hf : Frame deps ∅ activeList [pkg] := by
        refine ⟨ho,by simp,by simp,?_⟩
        intro x hx
        rw [List.mem_singleton] at hx
        exact Or.inl (hx ▸ hin)
      simp only [getPkgActiveList,upActiveList,Option.map_eq_some_iff] at hout
      obtain ⟨mid,hmid,rfl⟩ := hout
      obtain ⟨hg,-⟩ := upDeps_closes (upActiveList_closes fuel) hpath (fun _ hb => hb) hf hmid
      have hmem := hg.keeps pkg hin
      rw [if_pos hmem]
      exact ⟨hg,hmem⟩
  · have hf : Frame deps (insert pkg ∅) activeList ([]++[pkg]) :=
      Frame.push ⟨ho,by simp,by simp,by simp⟩ hin
    exact upActiveList_closes fuel pkg ∅ activeList [pkg] out (by simp) hpath hf hout

theorem getPkgActiveList_grown (hU : ∀ p ∈ U, ∀ q ∈ deps p, q ∈ U) {fuel : ℕ}
    (hfuel : U.card ≤ fuel) {pkg : Pkg} (hpkg : pkg ∈ U) {activeList : List Pkg}
    (ho : Partial deps ∅ activeList) :
    ∃ out, getPkgActiveList deps fuel pkg activeList = some out ∧
      Grown deps ∅ pkg activeList out ∧ pkg ∈ out := by
  have hlt : (unseen U [pkg]).card < U.card := by
    apply Finset.card_lt_card
    refine ⟨Finset.filter_subset _ _,?_⟩
    intro hs
    have hmem := hs hpkg
    simp [unseen] at hmem
  obtain ⟨out,hout⟩ : ∃ out, getPkgActiveList deps fuel pkg activeList = some out :=
    upActiveList_returns hU fuel pkg activeList [pkg] hpkg (by omega)
  exact ⟨out,hout,getPkgActiveList_closes ho hout⟩

theorem foldActive_grown (hU : ∀ p ∈ U, ∀ q ∈ deps p, q ∈ U) {fuel : ℕ} (hfuel : U.card ≤ fuel)
    (pkgList : List Pkg) (hL : ∀ p ∈ pkgList, p ∈ U) (activeList : List Pkg)
    (ho : Partial deps ∅ activeList) :
    ∃ out, pkgList.foldlM (fun activeList pkg => getPkgActiveList deps fuel pkg activeList)
        activeList = some out ∧ Partial deps ∅ out ∧ (∀ x ∈ activeList, x ∈ out) ∧
      (∀ p ∈ pkgList, p ∈ out) ∧ ∀ x ∈ out, x ∈ activeList ∨ ∃ r ∈ pkgList, Reaches deps r x := by
  induction pkgList generalizing activeList with
  | nil => exact ⟨activeList,rfl,ho,fun _ hx => hx,by simp,fun _ hx => Or.inl hx⟩
  | cons pkg pkgList ih =>
    obtain ⟨mid,hmid,hg,hmem⟩ := getPkgActiveList_grown hU hfuel (hL pkg (by simp)) ho
    obtain ⟨out,hout,ho',hkeep,hcov,hsound⟩ :=
      ih (fun p hp => hL p (by simp [hp])) mid hg.order
    refine ⟨out,by simp [List.foldlM_cons,hmid,hout],ho',fun x hx => hkeep x (hg.keeps x hx),?_,?_⟩
    · intro p hp
      rcases List.mem_cons.mp hp with rfl | hp
      · exact hkeep p hmem
      · exact hcov p hp
    · intro x hx
      rcases hsound x hx with hx | ⟨r,hr,hx⟩
      · rcases hg.sound x hx with hx | hx
        · exact Or.inl hx
        · exact Or.inr ⟨pkg,by simp,hx⟩
      · exact Or.inr ⟨r,by simp [hr],hx⟩

theorem upDeps_mono {r₁ r₂ : Pkg → List Pkg → List Pkg → Option (List Pkg)}
    (h : ∀ i a u out, r₁ i a u = some out → r₂ i a u = some out)
    {depList activeList unList out : List Pkg}
    (ho : upDeps r₁ depList activeList unList = some out) :
    upDeps r₂ depList activeList unList = some out := by
  induction depList generalizing activeList unList with
  | nil => exact ho
  | cons i depList ih =>
    simp only [upDeps] at ho ⊢
    split_ifs at ho ⊢ with hun hactive
    · exact ih ho
    · exact ih ho
    · obtain ⟨mid,hmid,ho⟩ := Option.bind_eq_some_iff.mp ho
      exact Option.bind_eq_some_iff.mpr ⟨mid,h i activeList _ mid hmid,ih ho⟩

theorem upActiveList_mono {fuel fuel' : ℕ} (hle : fuel ≤ fuel') {pkg : Pkg}
    {depList activeList unList out : List Pkg}
    (ho : upActiveList deps fuel pkg depList activeList unList = some out) :
    upActiveList deps fuel' pkg depList activeList unList = some out := by
  induction fuel generalizing fuel' pkg depList activeList unList out with
  | zero => simp [upActiveList] at ho
  | succ fuel ih =>
    obtain ⟨n,rfl⟩ : ∃ n, fuel' = n+1 := ⟨fuel'-1,by omega⟩
    simp only [upActiveList,Option.map_eq_some_iff] at ho ⊢
    obtain ⟨mid,hmid,ho⟩ := ho
    exact ⟨mid,upDeps_mono (fun i a u o h => ih (by omega) h) hmid,ho⟩

theorem foldActive_mono {fuel fuel' : ℕ} (hle : fuel ≤ fuel') {pkgList activeList out : List Pkg}
    (ho : pkgList.foldlM (fun activeList pkg => getPkgActiveList deps fuel pkg activeList)
      activeList = some out) :
    pkgList.foldlM (fun activeList pkg => getPkgActiveList deps fuel' pkg activeList)
      activeList = some out := by
  induction pkgList generalizing activeList with
  | nil => exact ho
  | cons pkg pkgList ih =>
    rw [List.foldlM_cons] at ho ⊢
    obtain ⟨mid,hmid,ho⟩ := Option.bind_eq_some_iff.mp ho
    exact Option.bind_eq_some_iff.mpr ⟨mid,upActiveList_mono hle hmid,ih ho⟩

theorem foldActive_sorts {U : Finset Pkg} (hU : ∀ p ∈ U, ∀ q ∈ deps p, q ∈ U) {L : List Pkg}
    (hL : ∀ p ∈ L, p ∈ U) :
    ∃ l, (∀ fuel, U.card ≤ fuel → foldActive deps fuel L = some l) ∧ BuildOrder deps L l := by
  obtain ⟨l,hl,ho,-,hroots,hsound⟩ := foldActive_grown hU le_rfl L hL [] (Partial.nil ∅)
  have hb : BuildOrder deps L l := by
    apply ho.buildOrder hroots
    intro p hp
    simpa using hsound p hp
  exact ⟨l,fun fuel hfuel => foldActive_mono hfuel hl,hb⟩

/-- The fold over any request list returns as soon as the recursion may go as deep as the
universe is large, and its answer is a build order of the requests. -/
theorem foldActive_buildOrder (deps : Pkg → List Pkg) (U : Finset Pkg)
    (hU : ∀ p ∈ U, ∀ q ∈ deps p, q ∈ U) (L : List Pkg) (hL : ∀ p ∈ L, p ∈ U) :
    ∃ l, (∀ fuel, U.card ≤ fuel → foldActive deps fuel L = some l) ∧ BuildOrder deps L l ∧
      (Acyclic deps → ∀ a ∈ l, ∀ b ∈ deps a, Before l b a) := by
  obtain ⟨l,hl,hb⟩ := foldActive_sorts hU hL
  exact ⟨l,hl,hb,hb.topological⟩

def sampleDeps : ℕ → List ℕ
  | 0 => [1,2]
  | 1 => [3]
  | 2 => [3,3]
  | 3 => [4]
  | 4 => [3]
  | _ => []

theorem foldActive_buildOrder_sample :
    ∃ l, (∀ fuel, (Finset.range 5).card ≤ fuel → foldActive sampleDeps fuel [2,0] = some l) ∧
      BuildOrder sampleDeps [2,0] l ∧
      (Acyclic sampleDeps → ∀ a ∈ l, ∀ b ∈ sampleDeps a, Before l b a) :=
  foldActive_buildOrder sampleDeps (Finset.range 5) (by decide) [2,0] (by decide)

example : foldActive sampleDeps 5 [2,0] = some [4,3,2,1,0] := by decide

theorem mem_destutter'_ne {a x : Pkg} {l : List Pkg} :
    x ∈ l.destutter' (· ≠ ·) a ↔ x = a ∨ x ∈ l := by
  induction l generalizing a with
  | nil => simp
  | cons b l ih =>
    by_cases h : a = b
    · subst b
      rw [List.destutter'_cons_neg _ (by simp),ih]
      simp
    · rw [List.destutter'_cons_pos _ h,List.mem_cons,ih,List.mem_cons]

/-- `unique()` on the requested lines forgets no package, so `main -f` still sorts the file. -/
theorem main_file_buildOrder (hU : ∀ p ∈ U, ∀ q ∈ deps p, q ∈ U) (lines : List Pkg)
    (hL : ∀ p ∈ lines, p ∈ U) :
    ∃ l, (∀ fuel, U.card ≤ fuel → main deps fuel none (some lines) = some l) ∧
      BuildOrder deps lines l := by
  have hmem : ∀ x, x ∈ lines.destutter (· ≠ ·) ↔ x ∈ lines := by
    intro x
    cases lines with
    | nil => simp
    | cons a lines => rw [List.destutter_cons',mem_destutter'_ne,List.mem_cons]
  have hfile : ∀ p ∈ lines.destutter (· ≠ ·), p ∈ U := fun p hp => hL p ((hmem p).mp hp)
  obtain ⟨l,hl,hb⟩ := foldActive_sorts hU hfile
  refine ⟨l,hl,hb.nodup,?_,hb.ordered⟩
  simpa only [hmem] using hb.mem_iff

theorem main_file_buildOrder_sample :
    ∃ l, (∀ fuel, (Finset.range 5).card ≤ fuel →
      main sampleDeps fuel none (some [2,2,0,2]) = some l) ∧ BuildOrder sampleDeps [2,2,0,2] l :=
  main_file_buildOrder (U:=Finset.range 5) (by decide) [2,2,0,2] (by decide)

theorem upDeps_prefix {recur : Pkg → List Pkg → List Pkg → Option (List Pkg)}
    (hrec : ∀ i activeList unList out, recur i activeList unList = some out → activeList <+: out)
    {depList activeList unList out : List Pkg}
    (hout : upDeps recur depList activeList unList = some out) : activeList <+: out := by
  induction depList generalizing activeList unList with
  | nil =>
    cases hout
    exact List.prefix_rfl
  | cons i depList ih =>
    simp only [upDeps] at hout
    split_ifs at hout
    · exact ih hout
    · exact ih hout
    · obtain ⟨mid,hmid,hout⟩ := Option.bind_eq_some_iff.mp hout
      exact (hrec i activeList _ mid hmid).trans (ih hout)

theorem upActiveList_prefix {fuel : ℕ} {pkg : Pkg} {depList activeList unList out : List Pkg}
    (hout : upActiveList deps fuel pkg depList activeList unList = some out) :
    activeList <+: out := by
  induction fuel generalizing pkg depList activeList unList out with
  | zero => simp [upActiveList] at hout
  | succ fuel ih =>
    simp only [upActiveList,Option.map_eq_some_iff] at hout
    obtain ⟨mid,hmid,rfl⟩ := hout
    have hmore := upDeps_prefix (fun i a u o h => ih h) hmid
    split_ifs
    · exact hmore
    · exact hmore.trans (List.prefix_append mid [pkg])

theorem upDeps_ready {recur : Pkg → List Pkg → List Pkg → Option (List Pkg)}
    {depList activeList : List Pkg} (h : ∀ b ∈ depList, b ∈ activeList) (unList : List Pkg) :
    upDeps recur depList activeList unList = some activeList := by
  induction depList with
  | nil => rfl
  | cons i depList ih =>
    have hi := h i (by simp)
    have hrest := ih (fun b hb => h b (by simp [hb]))
    simp only [upDeps,if_pos hi,hrest,ite_self]

theorem getPkgActiveList_ready {pkg : Pkg} {activeList : List Pkg}
    (h : ∀ b ∈ deps pkg, b ∈ activeList) (hnot : pkg ∉ activeList) (fuel : ℕ) :
    getPkgActiveList deps (fuel+1) pkg activeList = some (activeList++[pkg]) := by
  rw [getPkgActiveList,upActiveList,upDeps_ready h,Option.map_some,if_neg hnot]

theorem foldActive_order {fuel : ℕ} {pkgList activeList out : List Pkg}
    (ho : Partial deps ∅ activeList)
    (hout : pkgList.foldlM (fun activeList pkg => getPkgActiveList deps fuel pkg activeList)
      activeList = some out) : Partial deps ∅ out := by
  induction pkgList generalizing activeList with
  | nil =>
    cases hout
    exact ho
  | cons pkg pkgList ih =>
    rw [List.foldlM_cons] at hout
    obtain ⟨mid,hmid,hout⟩ := Option.bind_eq_some_iff.mp hout
    exact ih (getPkgActiveList_closes ho hmid).1.order hout

/-- From the first part of a topological list on, each package finds its dependencies listed. -/
theorem foldActive_sorted {l : List Pkg} (hnodup : l.Nodup)
    (hord : ∀ a ∈ l, ∀ b ∈ deps a, Before l b a) (fuel : ℕ) (done todo : List Pkg)
    (hl : done++todo = l) :
    todo.foldlM (fun activeList pkg => getPkgActiveList deps (fuel+1) pkg activeList) done =
      some l := by
  induction todo generalizing done with
  | nil =>
    rw [List.append_nil] at hl
    rw [hl]
    rfl
  | cons pkg todo ih =>
    have hnot : pkg ∉ done := by
      rw [← hl] at hnodup
      exact fun h => List.disjoint_of_nodup_append hnodup h List.mem_cons_self
    have hready : ∀ b ∈ deps pkg, b ∈ done := by
      intro b hb
      rw [← hl] at hnodup hord
      exact (hord pkg (by simp) b hb).mem_of_nodup hnodup
    rw [List.foldlM_cons,getPkgActiveList_ready hready hnot]
    exact ih (done++[pkg]) (by rw [← hl,List.append_assoc]; rfl)

/-- Over acyclic packages the list that comes out is what comes out of itself, and one more
request only appends to it; over a finite universe all of these come back. -/
theorem foldActive_idempotent (deps : Pkg → List Pkg) (hac : Acyclic deps) (L : List Pkg) :
    (∀ fuel R, foldActive deps fuel L = some R →
      (∀ fuel', fuel ≤ fuel' → foldActive deps fuel' R = some R) ∧
      ∀ p fuel' out, foldActive deps fuel' (L++[p]) = some out → R <+: out) ∧
    ∀ U : Finset Pkg, (∀ p ∈ U, ∀ q ∈ deps p, q ∈ U) → (∀ p ∈ L, p ∈ U) →
      ∃ R, (∀ fuel, U.card ≤ fuel → foldActive deps fuel L = some R ∧
          foldActive deps fuel R = some R) ∧
        ∀ p ∈ U, ∃ out, (∀ fuel, U.card ≤ fuel → foldActive deps fuel (L++[p]) = some out) ∧
          R <+: out := by
  have hagain : ∀ fuel R, foldActive deps fuel L = some R →
      ∀ fuel', fuel ≤ fuel' → foldActive deps fuel' R = some R := by
    intro fuel R hR fuel' hle
    have ho := foldActive_order (Partial.nil ∅) hR
    cases L with
    | nil =>
      cases hR
      rfl
    | cons p L =>
      obtain ⟨n,rfl⟩ : ∃ n, fuel' = n+1 := by
        cases fuel with
        | zero => simp [foldActive,getPkgActiveList,upActiveList] at hR
        | succ fuel => exact ⟨fuel'-1,by omega⟩
      exact foldActive_sorted ho.nodup (ho.topological hac) n [] R rfl
  have hmore : ∀ fuel R, foldActive deps fuel L = some R →
      ∀ p fuel' out, foldActive deps fuel' (L++[p]) = some out → R <+: out := by
    intro fuel R hR p fuel' out hout
    rw [foldActive,List.foldlM_append] at hout
    obtain ⟨R',hR',hout⟩ := Option.bind_eq_some_iff.mp hout
    have hsame : R = R' := by
      have h₁ := foldActive_mono (le_max_left fuel fuel') hR
      have h₂ := foldActive_mono (le_max_right fuel fuel') hR'
      exact Option.some_inj.mp (h₁.symm.trans h₂)
    rw [List.foldlM_cons] at hout
    obtain ⟨mid,hmid,hout⟩ := Option.bind_eq_some_iff.mp hout
    cases hout
    exact hsame ▸ upActiveList_prefix hmid
  refine ⟨fun fuel R hR => ⟨hagain fuel R hR,hmore fuel R hR⟩,?_⟩
  intro U hU hL
  obtain ⟨R,hR,-⟩ := foldActive_sorts hU hL
  refine ⟨R,fun fuel hfuel => ⟨hR fuel hfuel,hagain U.card R (hR _ le_rfl) fuel hfuel⟩,?_⟩
  intro p hp
  have hL' : ∀ q ∈ L++[p], q ∈ U := by
    intro q hq
    rcases List.mem_append.mp hq with hq | hq
    · exact hL q hq
    · exact List.mem_singleton.mp hq ▸ hp
  obtain ⟨out,hout,-⟩ := foldActive_sorts hU hL'
  exact ⟨out,hout,hmore U.card R (hR _ le_rfl) p U.card out (hout _ le_rfl)⟩

def diamondDeps : ℕ → List ℕ
  | 0 => [1,2]
  | 1 => [3]
  | 2 => [3,3]
  | _ => []

theorem foldActive_idempotent_diamond :
    foldActive diamondDeps 4 [2,0] = some [3,2,1,0] ∧
      foldActive diamondDeps 4 [3,2,1,0] = some [3,2,1,0] := by
  have hac : Acyclic diamondDeps := by
    refine acyclic_of_rank (fun p => 3-p) ?_
    intro a b hb
    match a,hb with
    | 0,hb | 1,hb | 2,hb =>
      simp only [diamondDeps,List.mem_cons,List.not_mem_nil,or_false] at hb
      omega
  have hsort : foldActive diamondDeps 4 [2,0] = some [3,2,1,0] := by decide
  exact ⟨hsort,((foldActive_idempotent diamondDeps hac [2,0]).1 4 _ hsort).1 4 le_rfl⟩

end PkgSort
end PcEnv
