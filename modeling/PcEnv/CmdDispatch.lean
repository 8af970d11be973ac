import PcEnv.Argl
import PcEnv.Uartd

/-! The two dispatchers of a command line: `user_fifo_cmd_handle` of `user_fifo.c` and
`Uartd::CmdparseProcess` of `uartd.cpp`. -/
namespace PcEnv
namespace CmdDispatch

open Runs Text Word Argl

structure ItemArg (A : Type) where
  argc : ℕ
  argv : List (List UInt8)
  args : A

structure CmdItem (A : Type) where
  name : List UInt8
  handle : ItemArg A → ℤ
  args : A

structure Table (A : Type) where
  items : List (CmdItem A)
  distinct : (items.map CmdItem.name).Nodup
  named : ∀ item ∈ items, item.name ≠ []
  strings : ∀ item ∈ items, 0 ∉ item.name

variable {A : Type}

/-- What a call returns, and the entry whose handler it has run with its argument. -/
structure Handled (A : Type) where
  ret : ℤ
  invoked : Option (CmdItem A × ItemArg A)

def strncmp (s t : List UInt8) (n : ℕ) : Bool := (s++[0]).take n == (t++[0]).take n

/-- `argv[0]` without its `NUL`. -/
def argv0 (argv : Argv) : List UInt8 := before 0 (argv.argv.headD [])

/-- What the test on `cmpLen` lets through. -/
def passes (arg name : List UInt8) : Bool :=
  let cmpLen := toInt (if arg.length < name.length then arg.length else name.length)
  strncmp name arg (sizeOfInt cmpLen)

/-- `buf` goes on behind the line; `len` is not looked at. -/
def userFifoCmdHandle (tbl : List (CmdItem A)) (buf : List UInt8) : Except Halt (Handled A) :=
  match arglToArgv buf with
  | .error x => .error x
  | .ok none => .ok { ret := -1, invoked := none }
  | .ok (some argv) =>
    match tbl.find? (fun item => passes (argv0 argv) item.name) with
    | none => .ok { ret := -3, invoked := none }
    | some item =>
      let itemArg := { argc := argv.argc, argv := argv.argv, args := item.args }
      .ok { ret := if item.handle itemArg < 0 then -2 else 0, invoked := some (item,itemArg) }

/-- One turn of the loop, with what `rFifo->readOne()` brings; the exception of `substr` ends the
process. -/
def cmdparseProcess (mCmdVct : List (CmdItem A)) (ori : List UInt8) :
    Except Halt (Option (CmdItem A × ItemArg A)) :=
  match substr ori 1 (ori.length-1) with
  | none => .error .fault
  | some cmd =>
    match arglToArgv cmd with
    | .error x => .error x
    | .ok none => .ok none
    | .ok (some argv) =>
      match mCmdVct.find? (fun cmd => cmd.name == argv0 argv) with
      | none => .ok none
      | some cmd =>
        .ok (some (cmd,{ argc := argv.argc, argv := argv.argv, args := cmd.args }))

def firstArg : List UInt8 → List UInt8
  | [] => []
  | b::rest => if b = space ∧ rest.head? ≠ some space then [] else b::firstArg rest

def firstWord (line : List UInt8) : Option (List UInt8) := (words space (Argl.line line)).head?

theorem entries_head (cur s : List UInt8) : ∃ args, entries cur s = (cur++firstArg s)::args := by
  fun_induction entries cur s with
  | case1 cur => exact ⟨[],by rw [firstArg,List.append_nil]⟩
  | case2 cur b rest h => exact ⟨_,by rw [firstArg,if_pos h,List.append_nil]⟩
  | case3 cur b rest h ih =>
    obtain ⟨args,hargs⟩ := ih
    exact ⟨args,by rw [hargs,firstArg,if_neg h,List.append_assoc,List.singleton_append]⟩

theorem mem_firstArg {b : UInt8} {s : List UInt8} (h : b ∈ firstArg s) : b ∈ s := by
  fun_induction firstArg s with
  | case1 => exact h
  | case2 => exact absurd h List.not_mem_nil
  | case3 c rest _ ih =>
    rcases List.mem_cons.mp h with rfl | h
    · exact List.mem_cons_self
    · exact List.mem_cons_of_mem _ (ih h)

theorem firstArg_length_le (s : List UInt8) : (firstArg s).length ≤ s.length := by
  fun_induction firstArg s with
  | case1 => rfl
  | case2 => exact Nat.zero_le _
  | case3 b rest _ ih => exact Nat.succ_le_succ ih

theorem nul_notMem_line (argl : List UInt8) : 0 ∉ Argl.line argl := by
  intro h
  simpa using List.mem_takeWhile_imp h

theorem argv0_entries (argl : List UInt8) (argc : ℕ) :
    argv0 { argv := terminated (entries [] (Argl.line argl)), argc := argc } =
      firstArg (Argl.line argl) := by
  obtain ⟨args,hargs⟩ := entries_head [] (Argl.line argl)
  rw [argv0,hargs]
  exact before_append (fun h => nul_notMem_line argl (mem_firstArg h))

theorem line_newline (a b : List UInt8) : Argl.line (a++newline::b) = Argl.line a := by
  induction a with
  | nil => rfl
  | cons c a ih =>
    by_cases hc : c ≠ 0 ∧ c ≠ newline
    · have hcons : ∀ s, Argl.line (c::s) = c::Argl.line s :=
        fun s => List.takeWhile_cons_of_pos (decide_eq_true hc)
      rw [List.cons_append,hcons,hcons,ih]
    · have hcons : ∀ s, Argl.line (c::s) = [] :=
        fun s => List.takeWhile_cons_of_neg (by simpa using hc)
      rw [List.cons_append,hcons,hcons]

theorem strncmp_iff {s t : List UInt8} (hle : s.length ≤ t.length) :
    (strncmp s t s.length = true ↔ s <+: t) ∧ (strncmp t s s.length = true ↔ s <+: t) := by
  have hs : (s++[0]).take s.length = s := List.take_left
  have ht : (t++[0]).take s.length = t.take s.length := List.take_append_of_le_length hle
  rw [strncmp,strncmp,beq_iff_eq,beq_iff_eq,hs,ht,List.prefix_iff_eq_take]
  exact ⟨Iff.rfl,eq_comm⟩

/-- `strncmp` over the shorter length: one of the two is a beginning of the other. -/
theorem passes_iff {arg name : List UInt8} (hlen : arg.length ≤ intMax) :
    passes arg name = true ↔ name <+: arg ∨ arg <+: name := by
  have hint : intMax = 2^31-1 := rfl
  have hmod : sizeMod = 2^64 := rfl
  rw [passes]
  split_ifs with hlt
  · rw [toInt_eq hlen,sizeOfInt_natCast (by omega),(strncmp_iff hlt.le).2]
    exact ⟨.inr,fun h => h.resolve_left (fun hpre => by have := hpre.length_le; omega)⟩
  · rw [toInt_eq (by omega),sizeOfInt_natCast (by omega),(strncmp_iff (not_lt.mp hlt)).1]
    refine ⟨.inl,fun h => h.elim id (fun hpre => ?_)⟩
    rw [hpre.eq_of_length_le (not_lt.mp hlt)]

section

variable {B : Type} {l : List B} {p q : B → Bool}

theorem find?_eq_iff (h : ∀ x, p x = true → q x = true) :
    l.find? q = l.find? p ↔
      ∀ a x b, l = a++x::b → q x = true → ∃ y ∈ a++[x], p y = true := by
  constructor
  · rintro heq a x b rfl hx
    rw [List.append_cons,List.find?_append] at heq
    cases hfind : (a++[x]).find? q with
    | none => exact absurd hx (List.find?_eq_none.mp hfind x (by simp))
    | some y =>
      rw [hfind,Option.some_or] at heq
      exact ⟨y,List.mem_of_find?_eq_some hfind,List.find?_some heq.symm⟩
  · intro hall
    cases hfind : l.find? q with
    | none =>
      rw [eq_comm,List.find?_eq_none]
      exact fun x hx hp => List.find?_eq_none.mp hfind x hx (h x hp)
    | some x =>
      obtain ⟨hx,a,b,rfl,hbefore⟩ := List.find?_eq_some_iff_append.mp hfind
      obtain ⟨y,hy,hp⟩ := hall a x b rfl hx
      have hno : ∀ z ∈ a, p z = false := by
        intro z hz
        have hqz := hbefore z hz
        cases hpz : p z with
        | false => rfl
        | true => simp [h z hpz] at hqz
      obtain rfl : y = x := by
        rcases List.mem_append.mp hy with hya | hyx
        · rw [hno y hya] at hp
          exact absurd hp (by decide)
        · exact List.mem_singleton.mp hyx
      exact (List.find?_eq_some_iff_append.mpr ⟨hp,a,b,rfl,fun z hz => by rw [hno z hz]; rfl⟩).symm

theorem find?_name_eq_iff {K : Type} [BEq K] [LawfulBEq K] {name : B → K} {k : K} {k' : Option K} :
    l.find? (fun x => name x == k) = l.find? (fun x => some (name x) == k') ↔
      ∀ x ∈ l, name x = k ↔ some (name x) = k' := by
  constructor
  · intro heq x hx
    constructor
    · rintro rfl
      cases hfind : l.find? (fun y => name y == name x) with
      | none => exact absurd (beq_self_eq_true _) (List.find?_eq_none.mp hfind x hx)
      | some y =>
        have hy := List.find?_some hfind
        have hy' := List.find?_some (heq.symm.trans hfind)
        rw [beq_iff_eq] at hy hy'
        rw [← hy,hy']
    · intro hk
      cases hfind : l.find? (fun y => some (name y) == k') with
      | none => exact absurd (beq_iff_eq.mpr hk) (List.find?_eq_none.mp hfind x hx)
      | some y =>
        have hy := List.find?_some hfind
        have hy' := List.find?_some (heq.trans hfind)
        rw [beq_iff_eq] at hy hy'
        rw [← hy',Option.some.inj (hk.trans hy.symm)]
  · intro hall
    exact List.find?_congr (fun x hx => Bool.eq_iff_iff.mpr (by
      rw [beq_iff_eq,beq_iff_eq]
      exact hall x hx))

end

/-- Both run the handler of the entry whose name is the first word, with the same argument, or
none. -/
def Agree (tbl : Table A) (line behind : List UInt8) : Prop :=
  ∃ r u, userFifoCmdHandle tbl.items (line++newline::behind) = .ok r ∧
    cmdparseProcess tbl.items (Uartd.caret::line) = .ok u ∧ r.invoked = u ∧
    u.map Prod.fst = tbl.items.find? (fun item => some item.name == firstWord line)

/-- The first argument is the first word, as far as the table tells them apart, and no entry before
the one of this name goes on from it or begins it. -/
structure Clear (tbl : Table A) (line : List UInt8) : Prop where
  fits : (Argl.line line).length ≤ intMax
  word : ∀ item ∈ tbl.items,
    item.name = firstArg (Argl.line line) ↔ some item.name = firstWord line
  first : ∀ a item b, tbl.items = a++item::b →
    item.name <+: firstArg (Argl.line line) ∨ firstArg (Argl.line line) <+: item.name →
      ∃ item' ∈ a++[item], item'.name = firstArg (Argl.line line)

section

variable {tbl : Table A} {line behind : List UInt8}

def itemArg (argl : List UInt8) (item : CmdItem A) : ItemArg A :=
  { argc := (entries [] (Argl.line argl)).length,
    argv := terminated (entries [] (Argl.line argl)), args := item.args }

theorem itemArg_injective (argl : List UInt8) :
    Function.Injective (Option.map (fun item : CmdItem A => (item,itemArg argl item))) :=
  Option.map_injective (fun _ _ h => congrArg Prod.fst h)

theorem charAt_behind (h : line.head? ≠ some 0) (behind : List UInt8) :
    charAt (line++newline::behind) 0 ≠ 0 := by
  cases line with
  | nil => exact (by decide : newline ≠ 0)
  | cons b line => exact fun hb => h (congrArg some hb)

theorem substr_caret (line : List UInt8) :
    substr (Uartd.caret::line) 1 ((Uartd.caret::line).length-1) = some line := by
  rw [substr,if_pos (by simp)]
  simp

theorem userFifoCmdHandle_eq (hne : line.head? ≠ some 0)
    (hlen : (Argl.line line).length ≤ intMax) :
    ∃ r, userFifoCmdHandle tbl.items (line++newline::behind) = .ok r ∧
      r.invoked = (tbl.items.find? (fun item => passes (firstArg (Argl.line line)) item.name)).map
        (fun item => (item,itemArg line item)) := by
  have hargv := (arglToArgv_spec (charAt_behind hne behind)).1
    (by rw [line_newline]; exact hlen)
  have h0 := argv0_entries line (entries [] (Argl.line line)).length
  rw [line_newline] at hargv
  rw [userFifoCmdHandle,hargv]
  simp only [h0]
  cases tbl.items.find? (fun item => passes (firstArg (Argl.line line)) item.name) with
  | none => exact ⟨_,rfl,rfl⟩
  | some item => exact ⟨_,rfl,rfl⟩

/-- An empty line has no arguments here, but then no entry has the empty name. -/
theorem cmdparseProcess_eq (hne : line.head? ≠ some 0)
    (hlen : (Argl.line line).length ≤ intMax) :
    cmdparseProcess tbl.items (Uartd.caret::line) =
      .ok ((tbl.items.find? (fun item => item.name == firstArg (Argl.line line))).map
        (fun item => (item,itemArg line item))) := by
  rw [cmdparseProcess,substr_caret]
  cases line with
  | nil =>
    have hnone : tbl.items.find? (fun item => item.name == firstArg (Argl.line [])) = none := by
      rw [List.find?_eq_none]
      intro item hitem
      simpa [firstArg,Argl.line] using tbl.named item hitem
    rw [hnone]
    rfl
  | cons b line =>
    have hargv := (@arglToArgv_spec (b::line) (fun hb => hne (congrArg some hb))).1 hlen
    have h0 := argv0_entries (b::line) (entries [] (Argl.line (b::line))).length
    simp only [hargv,h0]
    cases tbl.items.find? (fun item => item.name == firstArg (Argl.line (b::line))) with
    | none => rfl
    | some item => rfl

theorem agree_of_nul (hnul : line.head? = some 0) : Agree tbl line behind := by
  obtain ⟨rest,rfl⟩ : ∃ rest, line = 0::rest := by
    cases line with
    | nil => exact absurd hnul (by simp)
    | cons b rest => exact ⟨rest,by rw [Option.some.inj hnul]⟩
  refine ⟨{ ret := -1, invoked := none },none,rfl,?_,rfl,?_⟩
  · rw [cmdparseProcess,substr_caret]
    rfl
  · rw [Option.map_none,eq_comm,List.find?_eq_none]
    intro item _
    simp [firstWord,words,Argl.line]

theorem agree_iff_searches (hne : line.head? ≠ some 0)
    (hlen : (Argl.line line).length ≤ intMax) :
    Agree tbl line behind ↔
      tbl.items.find? (fun item => passes (firstArg (Argl.line line)) item.name) =
        tbl.items.find? (fun item => item.name == firstArg (Argl.line line)) ∧
      tbl.items.find? (fun item => item.name == firstArg (Argl.line line)) =
        tbl.items.find? (fun item => some item.name == firstWord line) := by
  obtain ⟨r,hr,hinv⟩ : ∃ r, userFifoCmdHandle tbl.items (line++newline::behind) = .ok r ∧ _ :=
    userFifoCmdHandle_eq hne hlen
  have hu : cmdparseProcess tbl.items (Uartd.caret::line) = _ := cmdparseProcess_eq hne hlen
  have hentry : ∀ o : Option (CmdItem A),
      (o.map (fun item => (item,itemArg line item))).map Prod.fst = o := by
    intro o
    cases o <;> rfl
  unfold Agree
  rw [hr,hu]
  constructor
  · rintro ⟨_,_,hr',hu',hsame,hword⟩
    obtain rfl := Except.ok.inj hr'
    obtain rfl := Except.ok.inj hu'
    rw [hinv] at hsame
    rw [hentry] at hword
    exact ⟨itemArg_injective line hsame,hword⟩
  · rintro ⟨hsame,hword⟩
    exact ⟨r,_,rfl,rfl,by rw [hinv,hsame],by rw [hentry,hword]⟩

theorem agree_clear (hne : line.head? ≠ some 0) : Agree tbl line behind ↔ Clear tbl line := by
  by_cases hlen : (Argl.line line).length ≤ intMax
  · have harg := (firstArg_length_le (Argl.line line)).trans hlen
    have hexact : ∀ item : CmdItem A, (item.name == firstArg (Argl.line line)) = true →
        passes (firstArg (Argl.line line)) item.name = true :=
      fun item h => (passes_iff harg).mpr (.inl (by rw [beq_iff_eq.mp h]))
    rw [agree_iff_searches hne hlen,find?_eq_iff hexact,find?_name_eq_iff]
    simp only [passes_iff harg,beq_iff_eq]
    exact ⟨fun h => ⟨hlen,h.2,h.1⟩,fun h => ⟨h.first,h.word⟩⟩
  · have hfault : userFifoCmdHandle tbl.items (line++newline::behind) = .error .fault := by
      have hargv := (arglToArgv_spec (charAt_behind hne behind)).2
        (by rw [line_newline]; omega)
      rw [userFifoCmdHandle,hargv]
    constructor
    · rintro ⟨r,-,hr,-⟩
      exact absurd (hfault.symm.trans hr) (by simp)
    · exact fun h => absurd h.fits hlen

end

/-- The two agree on a line exactly when its first argument is its first word, as far as the names
tell, and no other name that comes first begins it or goes on from it. -/
theorem agree_iff (tbl : Table A) (line behind : List UInt8) :
    Agree tbl line behind ↔ line.head? = some 0 ∨ Clear tbl line := by
  by_cases hnul : line.head? = some 0
  · exact iff_of_true (agree_of_nul hnul) (.inl hnul)
  · rw [agree_clear hnul,or_iff_right hnul]

def ledTable : Table Unit where
  items := [{ name := ascii "led", handle := fun _ => 0, args := () }]
  distinct := by decide
  named := by decide
  strings := by decide

/-- The line `l` runs the handler of `led` in one of them. -/
theorem half_a_name_runs :
    ¬ Agree ledTable (ascii "l") [] ∧
    (∃ r, userFifoCmdHandle ledTable.items (ascii "l"++[newline]) = .ok r ∧
      ∃ item ∈ ledTable.items, r.invoked.map Prod.fst = some item) ∧
    cmdparseProcess ledTable.items (Uartd.caret::ascii "l") = .ok none := by
  have hne : (ascii "l").head? ≠ some 0 := by decide
  have hlen : (Argl.line (ascii "l")).length ≤ intMax := by decide
  obtain ⟨r,hr,hinv⟩ : ∃ r, userFifoCmdHandle ledTable.items (ascii "l"++[newline]) = .ok r ∧ _ :=
    userFifoCmdHandle_eq hne hlen
  have hu : cmdparseProcess ledTable.items (Uartd.caret::ascii "l") = _ :=
    cmdparseProcess_eq hne hlen
  refine ⟨?_,⟨r,hr,_,List.mem_singleton_self _,?_⟩,hu⟩
  · rw [agree_iff_searches hne hlen]
    rintro ⟨hsame,-⟩
    exact absurd (congrArg Option.isSome hsame) (by decide)
  · rw [hinv]
    rfl

end CmdDispatch
end PcEnv
