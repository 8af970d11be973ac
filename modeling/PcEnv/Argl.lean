import PcEnv.Runs
import PcEnv.Text

/-! `argl_to_argv` and `argv_to_argl` of `misc.c`: a line as a vector of arguments, and back.
An argument is a block of its own; what is read of a line behind its last byte is the `NUL`. -/
namespace PcEnv
namespace Argl

open Runs Text Word

def space : UInt8 := 32
def newline : UInt8 := 10

def matchChar (ch : UInt8) : Prop := ch = space ∨ ch = 0 ∨ ch = newline

instance : DecidablePred matchChar := fun _ => instDecidableOr

/-- `strncpy` to a block of zeros. -/
def strncpy (src : List UInt8) (n : ℕ) : List UInt8 :=
  let str := (src.take n).takeWhile (fun b => b ≠ 0)
  str++List.replicate (n-str.length) 0

/-- `argv` before its `NULL`, and `*pArgc`. -/
structure Argv where
  argv : List (List UInt8)
  argc : ℕ
  deriving DecidableEq, Repr

def charAt (argl : List UInt8) (i : ℕ) : UInt8 := argl.getD i 0

theorem charAt_ge {argl : List UInt8} {i : ℕ} (h : argl.length ≤ i) : charAt argl i = 0 := by
  rw [charAt,List.getD_eq_getElem?_getD,List.getElem?_eq_none h,Option.getD_none]

theorem lt_of_charAt {argl : List UInt8} {i : ℕ} (h : charAt argl i ≠ 0) : i < argl.length :=
  not_le.mp (fun hge => h (charAt_ge hge))

/-- `while(argl[i] ==' ' && argl[i+1] == ' ')`. -/
def skipSpaces (argl : List UInt8) (i : ℕ) : Except Halt ℕ :=
  if h : charAt argl i = space then
    if intMax < i+1 then .error .fault
    else if charAt argl (i+1) = space then skipSpaces argl (i+1) else .ok i
  else .ok i
termination_by argl.length-i
decreasing_by
  have hlt := lt_of_charAt (h ▸ (by decide : space ≠ 0))
  omega

theorem skipSpaces_le {argl : List UInt8} {i j : ℕ} (h : skipSpaces argl i = .ok j) : i ≤ j := by
  fun_induction skipSpaces argl i with
  | case1 => exact absurd h (by simp)
  | case2 i _ _ _ ih => have := ih h; omega
  | case3 | case4 => exact (Except.ok.inj h).le

/-- The loop of `argl_to_argv`; `start` is where `argv[count]` points at. An argument but for the
last one takes two characters, so `count` stays below `i`. -/
def argvLoop (argl : List UInt8) (i start count : ℕ) (argv : List (List UInt8)) :
    Except Halt Argv :=
  if matchChar (charAt argl i) then
    match _h : skipSpaces argl i with
    | .error x => .error x
    | .ok j =>
      let arg := strncpy (argl.drop start) (j+1-start-1)++[0]
      if _hend : charAt argl j = 0 ∨ charAt argl j = newline then
        .ok { argv := argv++[arg], argc := count+1 }
      else if intMax < j+1 then .error .fault
      else argvLoop argl (j+1) (j+1) (count+1) (argv++[arg])
  else if intMax < i+1 then .error .fault
  else argvLoop argl (i+1) start count argv
termination_by argl.length-i
decreasing_by
  · have hle := skipSpaces_le _h
    have hlt := lt_of_charAt (not_or.mp _hend).1
    omega
  · rename_i hno _
    have hlt := lt_of_charAt (fun h => hno (.inr (.inl h)))
    omega

/-- `none` is `NULL`. The allocations succeed. -/
def arglToArgv (argl : List UInt8) : Except Halt (Option Argv) :=
  if charAt argl 0 = 0 then .ok none else (argvLoop argl 0 0 0 []).map some

def line (argl : List UInt8) : List UInt8 := argl.takeWhile (fun b => b ≠ 0 ∧ b ≠ newline)

def entries (cur : List UInt8) : List UInt8 → List (List UInt8)
  | [] => [cur]
  | b::rest =>
    if b = space ∧ rest.head? ≠ some space then cur::entries [] rest else entries (cur++[b]) rest

def terminated (v : List (List UInt8)) : List (List UInt8) := v.map (·++[0])

section

variable {argl : List UInt8} {i j : ℕ}

theorem charAt_line (h : i < (line argl).length) : charAt argl i = (line argl)[i] := by
  have hpre : line argl <+: argl := List.takeWhile_prefix _
  have hlt := hpre.length_le
  rw [charAt,List.getD_eq_getElem?_getD,List.getElem?_eq_getElem (by omega),Option.getD_some]
  exact (hpre.getElem h).symm

theorem charAt_inside (h : i < (line argl).length) :
    charAt argl i ≠ 0 ∧ charAt argl i ≠ newline := by
  have hmem := List.mem_takeWhile_imp (List.getElem_mem h)
  rw [charAt_line h]
  simpa using hmem

theorem charAt_end (argl : List UInt8) :
    charAt argl (line argl).length = 0 ∨ charAt argl (line argl).length = newline := by
  have hsplit : line argl++argl.dropWhile (fun b => b ≠ 0 ∧ b ≠ newline) = argl :=
    List.takeWhile_append_dropWhile
  cases hrest : argl.dropWhile (fun b => b ≠ 0 ∧ b ≠ newline) with
  | nil =>
    rw [hrest,List.append_nil] at hsplit
    exact .inl (charAt_ge (by rw [hsplit]))
  | cons b rest =>
    have hb := List.head?_dropWhile_not (fun b => b ≠ 0 ∧ b ≠ newline) argl
    rw [hrest] at hb hsplit
    have hat : charAt argl (line argl).length = b := by
      rw [charAt]
      nth_rewrite 1 [← hsplit]
      rw [List.getD_eq_getElem?_getD,List.getElem?_append_right (le_refl _),Nat.sub_self]
      rfl
    rw [hat]
    simpa [or_iff_not_imp_left] using hb

def since (argl : List UInt8) (start i : ℕ) : List UInt8 := ((line argl).drop start).take (i-start)

theorem since_self (argl : List UInt8) (i : ℕ) : since argl i i = [] := by
  rw [since,Nat.sub_self,List.take_zero]

theorem since_succ {start : ℕ} (hstart : start ≤ i) (h : i < (line argl).length) :
    since argl start i++[charAt argl i] = since argl start (i+1) := by
  have hlt : i-start < ((line argl).drop start).length := by
    rw [List.length_drop]
    omega
  rw [since,since,Nat.sub_add_comm hstart,List.take_succ_eq_append_getElem hlt,List.getElem_drop]
  congr 2
  rw [charAt_line h]
  congr 1
  omega

theorem drop_line (h : i < (line argl).length) :
    (line argl).drop i = charAt argl i::(line argl).drop (i+1) := by
  rw [charAt_line h]
  exact List.drop_eq_getElem_cons h

theorem lt_of_space (hi : i ≤ (line argl).length) (h : charAt argl i = space) :
    i < (line argl).length := by
  apply lt_of_le_of_ne hi
  rintro rfl
  rcases charAt_end argl with h' | h' <;> exact absurd (h.symm.trans h') (by decide)

theorem head_drop_line (hi : i ≤ (line argl).length) :
    ((line argl).drop i).head? = some space ↔ charAt argl i = space := by
  constructor
  · intro h
    have hlt : i < (line argl).length := by
      by_contra hge
      rw [List.drop_eq_nil_of_le (by omega)] at h
      exact absurd h (by decide)
    rw [drop_line hlt] at h
    exact Option.some.inj h
  · intro h
    rw [drop_line (lt_of_space hi h),h]
    rfl

theorem strncpy_since {start : ℕ} (hstart : start ≤ j) (hj : j ≤ (line argl).length) :
    strncpy (argl.drop start) (j+1-start-1) = since argl start j := by
  obtain ⟨rest,hrest⟩ : line argl <+: argl := List.takeWhile_prefix _
  have hlen : j-start ≤ ((line argl).drop start).length := by
    rw [List.length_drop]
    omega
  have htake : (argl.drop start).take (j+1-start-1) = since argl start j := by
    rw [show j+1-start-1 = j-start by omega]
    nth_rewrite 1 [← hrest]
    rw [List.drop_append_of_le_length (by omega),List.take_append_of_le_length hlen]
    rfl
  have hno : ∀ b ∈ since argl start j, decide (b ≠ 0) = true := by
    intro b hb
    have hmem := List.mem_takeWhile_imp (List.mem_of_mem_drop (List.mem_of_mem_take hb))
    simp only [decide_eq_true_eq] at hmem ⊢
    exact hmem.1
  have hfull : (since argl start j).length = j+1-start-1 := by
    rw [since,List.length_take]
    omega
  rw [strncpy,htake,List.takeWhile_eq_self_iff.mpr hno,hfull,Nat.sub_self,List.replicate_zero,
    List.append_nil]

/-- The inner loop ends at the last space of the row, or the `int` runs over. -/
theorem skipSpaces_cases (hi : i < (line argl).length) (hspace : charAt argl i = space)
    (hmax : i ≤ intMax) :
    (skipSpaces argl i = .error .fault ∧ intMax < (line argl).length) ∨
    ∃ j, skipSpaces argl i = .ok j ∧ i ≤ j ∧ j < (line argl).length ∧ j ≤ intMax ∧
      ∀ start ≤ i, entries (since argl start i) ((line argl).drop i) =
        since argl start j::entries [] ((line argl).drop (j+1)) := by
  fun_induction skipSpaces argl i with
  | case1 i _ hover => exact .inl ⟨rfl,by omega⟩
  | case2 i _ hfits hnext ih =>
    have hlt := lt_of_space (by omega) hnext
    rcases ih hlt hnext (by omega) with hfault | ⟨j,hj,hle,hjlt,hjmax,hentries⟩
    · exact .inl hfault
    · refine .inr ⟨j,hj,by omega,hjlt,hjmax,fun start hstart => ?_⟩
      have hrow : ((line argl).drop (i+1)).head? = some space :=
        (head_drop_line (by omega)).mpr hnext
      rw [drop_line hi,entries,if_neg (fun h => h.2 hrow),since_succ hstart hi]
      exact hentries start (by omega)
  | case3 i _ hfits hnext =>
    refine .inr ⟨i,rfl,le_refl i,hi,hmax,fun start hstart => ?_⟩
    have hlast : ((line argl).drop (i+1)).head? ≠ some space :=
      fun h => hnext ((head_drop_line (by omega)).mp h)
    rw [drop_line hi,entries,if_pos ⟨hspace,hlast⟩]
  | case4 i hno => exact absurd hspace hno

theorem skipSpaces_end (argl : List UInt8) :
    skipSpaces argl (line argl).length = .ok (line argl).length := by
  have hno : charAt argl (line argl).length ≠ space :=
    fun h => absurd (lt_of_space (le_refl _) h) (lt_irrefl _)
  rw [skipSpaces,dif_neg hno]

section

variable {start count : ℕ} {argv : List (List UInt8)}

theorem argvLoop_end (hstart : start ≤ (line argl).length) :
    argvLoop argl (line argl).length start count argv = .ok
      { argv := argv++[since argl start (line argl).length++[0]], argc := count+1 } := by
  rw [argvLoop,if_pos (.inr (charAt_end argl))]
  split
  · next x hx => exact absurd ((skipSpaces_end argl).symm.trans hx) (by simp)
  · next j hj =>
    obtain rfl := Except.ok.inj ((skipSpaces_end argl).symm.trans hj)
    rw [dif_pos (charAt_end argl),strncpy_since hstart (le_refl _)]

theorem argvLoop_lost (hspace : charAt argl i = space) {x : Halt}
    (hskip : skipSpaces argl i = .error x) : argvLoop argl i start count argv = .error x := by
  rw [argvLoop,if_pos (.inl hspace)]
  split
  · next y hy =>
    obtain rfl := Except.error.inj (hskip.symm.trans hy)
    rfl
  · next j hj => exact absurd (hskip.symm.trans hj) (by simp)

theorem argvLoop_space (hspace : charAt argl i = space) (hskip : skipSpaces argl i = .ok j)
    (hstart : start ≤ j) (hj : j < (line argl).length) :
    argvLoop argl i start count argv =
      if intMax < j+1 then .error .fault
      else argvLoop argl (j+1) (j+1) (count+1) (argv++[since argl start j++[0]]) := by
  obtain ⟨hnul,hnl⟩ := charAt_inside hj
  rw [argvLoop,if_pos (.inl hspace)]
  split
  · next x hx => exact absurd (hskip.symm.trans hx) (by simp)
  · next j' hj' =>
    obtain rfl := Except.ok.inj (hskip.symm.trans hj')
    rw [dif_neg (not_or.mpr ⟨hnul,hnl⟩),strncpy_since hstart hj.le]

theorem argvLoop_char (hi : i < (line argl).length) (hno : charAt argl i ≠ space) :
    argvLoop argl i start count argv =
      if intMax < i+1 then .error .fault else argvLoop argl (i+1) start count argv := by
  obtain ⟨hnul,hnl⟩ := charAt_inside hi
  have hmatch : ¬ matchChar (charAt argl i) := not_or.mpr ⟨hno,not_or.mpr ⟨hnul,hnl⟩⟩
  rw [argvLoop,if_neg hmatch]

end

theorem argvLoop_spec {start count : ℕ} {argv : List (List UInt8)} (hstart : start ≤ i)
    (hi : i ≤ (line argl).length) (hmax : i ≤ intMax) :
    ((line argl).length ≤ intMax → argvLoop argl i start count argv = .ok
      { argv := argv++terminated (entries (since argl start i) ((line argl).drop i)),
        argc := count+(entries (since argl start i) ((line argl).drop i)).length }) ∧
    (intMax < (line argl).length → argvLoop argl i start count argv = .error .fault) := by
  induction hn : (line argl).length-i using Nat.strong_induction_on
    generalizing i start count argv with
  | _ n ih =>
    rcases Nat.lt_or_eq_of_le hi with hlt | rfl
    · by_cases hspace : charAt argl i = space
      · rcases skipSpaces_cases hlt hspace hmax with
          ⟨hlost,hlong⟩ | ⟨j,hj,hle,hjlt,hjmax,hentries⟩
        · exact ⟨by omega,fun _ => argvLoop_lost hspace hlost⟩
        · rw [argvLoop_space hspace hj (by omega) hjlt,hentries start hstart]
          split_ifs with hover
          · exact ⟨by omega,fun _ => rfl⟩
          · obtain ⟨hok,hfault⟩ := ih _ (by omega) (le_refl (j+1)) hjlt (by omega) rfl
            refine ⟨fun hlen => ?_,hfault⟩
            rw [hok hlen,since_self]
            simp only [terminated,List.map_cons,List.append_assoc,List.singleton_append,
              List.length_cons,Nat.add_assoc,Nat.add_comm 1]
      · have hentries : entries (since argl start i) ((line argl).drop i) =
            entries (since argl start (i+1)) ((line argl).drop (i+1)) := by
          rw [drop_line hlt,entries,if_neg (fun h => hspace h.1),since_succ hstart hlt]
        rw [argvLoop_char hlt hspace,hentries]
        split_ifs with hover
        · exact ⟨by omega,fun _ => rfl⟩
        · exact ih _ (by omega) (by omega) hlt (by omega) rfl
    · rw [argvLoop_end hstart,List.drop_length]
      exact ⟨fun _ => rfl,by omega⟩

theorem arglToArgv_spec (hne : charAt argl 0 ≠ 0) :
    ((line argl).length ≤ intMax → arglToArgv argl = .ok (some
      { argv := terminated (entries [] (line argl)), argc := (entries [] (line argl)).length })) ∧
    (intMax < (line argl).length → arglToArgv argl = .error .fault) := by
  obtain ⟨hok,hfault⟩ := @argvLoop_spec argl 0 0 0 [] (le_refl 0) (Nat.zero_le _) (Nat.zero_le _)
  rw [since_self,List.drop_zero,Nat.zero_add,List.nil_append] at hok
  rw [arglToArgv,if_neg hne]
  refine ⟨fun hlen => ?_,fun hlen => ?_⟩
  · rw [hok hlen]
    rfl
  · rw [hfault hlen]
    rfl

end

section

variable {a b s cur : List UInt8}

theorem entries_ne_nil (cur s : List UInt8) : entries cur s ≠ [] := by
  fun_induction entries cur s with
  | case1 | case2 => exact List.cons_ne_nil _ _
  | case3 cur b rest _ ih => exact ih

theorem intercalate_entries (cur s : List UInt8) :
    [space].intercalate (entries cur s) = cur++s := by
  fun_induction entries cur s with
  | case1 cur => simp
  | case2 cur b rest h ih =>
    rw [List.intercalate_cons_of_ne_nil (entries_ne_nil _ _),ih,h.1]
    simp
  | case3 cur b rest h ih => rw [ih,List.append_assoc,List.singleton_append]

theorem entries_not_mem (h : space ∉ s) : entries cur s = [cur++s] := by
  induction s generalizing cur with
  | nil => rw [entries,List.append_nil]
  | cons b s ih =>
    have hb : ¬ (b = space ∧ s.head? ≠ some space) := fun hb => h (hb.1 ▸ List.mem_cons_self)
    rw [entries,if_neg hb,ih (fun hs => h (List.mem_cons_of_mem _ hs)),List.append_assoc,
      List.singleton_append]

theorem entries_append (ha : space ∉ a) (hb : b.head? ≠ some space) :
    entries cur (a++space::b) = (cur++a)::entries [] b := by
  induction a generalizing cur with
  | nil => rw [List.nil_append,entries,if_pos ⟨rfl,hb⟩,List.append_nil]
  | cons c a ih =>
    have hc : ¬ (c = space ∧ (a++space::b).head? ≠ some space) :=
      fun hc => ha (hc.1 ▸ List.mem_cons_self)
    rw [List.cons_append,entries,if_neg hc,ih (fun h => ha (List.mem_cons_of_mem _ h)),
      List.append_assoc,List.singleton_append]

/-- The arguments are the words exactly when single spaces separate them. -/
theorem entries_eq_words_iff (s : List UInt8) :
    entries [] s = words space s ↔ SingleSpaced space s := by
  constructor
  · intro h
    have hs := intercalate_entries [] s
    rw [h,List.nil_append] at hs
    rw [← hs]
    exact (singleSpaced_intercalate (h ▸ entries_ne_nil [] s)
      (fun w hw => not_mem_of_mem_words hw)).1
  · intro h
    rw [h.words]
    induction s using pieces_induction space with
    | last s hs => rw [entries_not_mem hs,List.splitOn_eq_singleton hs,List.nil_append]
    | piece a b ha ih =>
      have hb := ((singleSpaced_append ha).mp h).2
      rw [entries_append ha hb.head,List.splitOn_append_cons_self_of_not_mem ha,ih hb,
        List.nil_append]

end

/-- The arguments are the words of the line. -/
def Tokenises (argl : List UInt8) : Prop :=
  arglToArgv argl = .ok (some
    { argv := terminated (words space (line argl)), argc := (words space (line argl)).length })

theorem terminated_injective : Function.Injective terminated :=
  List.map_injective_iff.mpr (fun _ _ h => List.append_cancel_right h)

/-- A space more than needed goes into an argument or makes an empty one. -/
theorem tokenises_iff (argl : List UInt8) (hne : charAt argl 0 ≠ 0) :
    Tokenises argl ↔ SingleSpaced space (line argl) ∧ (line argl).length ≤ intMax := by
  obtain ⟨hok,hfault⟩ := arglToArgv_spec hne
  rw [← entries_eq_words_iff]
  constructor
  · intro h
    have hlen : (line argl).length ≤ intMax := by
      by_contra hlong
      exact absurd ((hfault (by omega)).symm.trans h) (by simp)
    have heq := Option.some.inj (Except.ok.inj ((hok hlen).symm.trans h))
    exact ⟨terminated_injective (congrArg Argv.argv heq),hlen⟩
  · rintro ⟨heq,hlen⟩
    rw [Tokenises,hok hlen,heq]

theorem tokenises_iff_led : Tokenises (ascii "led 1 on\n") := by
  refine (tokenises_iff _ (by decide)).mpr ⟨⟨by decide,by decide,by decide,by decide⟩,by decide⟩

/-- Of two spaces the first one stays at the end of the argument, and one space before the first
word makes an empty argument. -/
theorem spaces_not_skipped :
    arglToArgv (ascii "a  b") = .ok (some { argv := [ascii "a \x00",ascii "b\x00"], argc := 2 }) ∧
    ¬ Tokenises (ascii "a  b") ∧
    arglToArgv (ascii " a") = .ok (some { argv := [[0],ascii "a\x00"], argc := 2 }) ∧
    ¬ Tokenises (ascii " a") := by
  have hab := (@arglToArgv_spec (ascii "a  b") (by decide)).1 (by decide)
  have ha := (@arglToArgv_spec (ascii " a") (by decide)).1 (by decide)
  refine ⟨hab,?_,ha,?_⟩
  · rw [Tokenises,hab]
    decide
  · rw [Tokenises,ha]
    decide

end Argl
end PcEnv
