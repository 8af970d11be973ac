import PcEnv.Runs
import PcEnv.Text

/-! `my_popen_get` of `misc.c`, which copies the output of a command into the caller's buffer. -/
namespace PcEnv
namespace PopenGet

open Runs Text

def newline : UInt8 := 10
def maxUserCommandLen : ℕ := 2048

/-- The stream of `popen`: the output not yet read, and what `feof` says. -/
structure Pfile where
  rest : List UInt8
  eof : Bool
  deriving DecidableEq, Repr

def cut : ℕ → List UInt8 → List UInt8
  | 0, _ => []
  | _+1, [] => []
  | n+1, b::s => if b = newline then [b] else b::cut n s

/-- `fgets(buf,n,f)`, with what it puts in `buf` before the terminator. -/
def fgets (n : ℕ) (f : Pfile) : Option (List UInt8) × Pfile :=
  if n = 1 then (some [],f)
  else
    let line := cut (n-1) f.rest
    let ended := decide (line.length < n-1) && line.getLast? != some newline
    let f := { rest := f.rest.drop line.length, eof := f.eof || ended }
    (if line = [] then none else some line,f)

def store (rbuf : List UInt8) (i : ℕ) (bs : List UInt8) : Except Halt (List UInt8) :=
  if i+bs.length ≤ rbuf.length then .ok (rbuf.take i++bs++rbuf.drop (i+bs.length))
  else .error .fault

structure Copying where
  rbuf : List UInt8
  rbuflen : ℤ
  p : ℕ
  file : Pfile
  deriving DecidableEq, Repr

/-- The loop; what takes more than `fuel` turns has not come back. -/
def popenLoop : ℕ → Copying → Except Halt Copying
  | 0, _ => .error .blocked
  | fuel+1, s =>
    if s.file.eof then .ok s
    else if 0 < s.rbuflen then
      match fgets (min s.rbuflen.toNat maxUserCommandLen) s.file with
      | (none,file) => .ok { s with file := file }
      | (some buf,file) =>
        let str := before 0 buf
        match store s.rbuf s.p (str.take (s.rbuflen.toNat-1)++[0]) with
        | .error h => .error h
        | .ok rbuf =>
          popenLoop fuel
            { rbuf := rbuf, rbuflen := s.rbuflen-str.length, p := s.p+str.length, file := file }
    else .ok s

/-- `if(*(p-1)=='\n')*(p-1)=0`. -/
def chompAt (rbuf : List UInt8) (p : ℕ) : List UInt8 :=
  if p ≠ 0 ∧ rbuf[p-1]? = some newline then rbuf.set (p-1) 0 else rbuf

def exitStatus (status : ℤ) : ℤ := if status % 128 = 0 then status/256 % 256 else -1

/-- `rbuf` is `none` for `NULL`; `pfile` is the output of the command and what `pclose` returns,
`none` where `popen` fails. -/
def myPopenGet (fuel : ℕ) (rbuf : Option (List UInt8)) (rbuflen : ℤ)
    (pfile : Option (List UInt8 × ℤ)) : Except Halt (List UInt8 × ℤ) :=
  let rbuflen := if rbuf = none then 0 else rbuflen
  let rbuf := rbuf.getD []
  match pfile with
  | none => .ok (rbuf,exitStatus (-2))
  | some (output,status) =>
    match popenLoop fuel { rbuf := rbuf, rbuflen := rbuflen, p := 0, file := ⟨output,false⟩ } with
    | .error h => .error h
    | .ok s => .ok (chompAt s.rbuf s.p,exitStatus status)

def chomp (s : List UInt8) : List UInt8 :=
  if s.getLast? = some newline then s.dropLast else s

/-- The call comes back and leaves the text in `rbuf`, terminated. -/
def Leaves (text rbuf : List UInt8) (rbuflen : ℤ) (output : List UInt8) (status : ℤ) : Prop :=
  ∃ fuel rest ret, myPopenGet fuel (some rbuf) rbuflen (some (output,status)) =
    .ok (text++0::rest,ret)

theorem cut_begins (n : ℕ) (s : List UInt8) : cut n s <+: s := by
  fun_induction cut n s with
  | case1 s => exact List.nil_prefix
  | case2 n => exact List.nil_prefix
  | case3 n s => exact ⟨s,rfl⟩
  | case4 n b s hb ih => exact List.cons_prefix_cons.mpr ⟨rfl,ih⟩

theorem cut_length_le (n : ℕ) (s : List UInt8) : (cut n s).length ≤ n := by
  fun_induction cut n s with
  | case1 s => exact Nat.zero_le _
  | case2 n => exact Nat.zero_le _
  | case3 n s => exact Nat.succ_le_succ (Nat.zero_le n)
  | case4 n b s hb ih => exact Nat.succ_le_succ ih

theorem cut_pos {n : ℕ} {s : List UInt8} (hn : n ≠ 0) (hs : s ≠ []) : cut n s ≠ [] := by
  obtain ⟨m,rfl⟩ := Nat.exists_eq_succ_of_ne_zero hn
  obtain ⟨b,s,rfl⟩ := List.exists_cons_of_ne_nil hs
  rw [Nat.succ_eq_add_one,cut]
  split_ifs <;> simp

theorem cut_ended {n : ℕ} {s : List UInt8} (hlen : (cut n s).length < n)
    (hlast : (cut n s).getLast? ≠ some newline) : cut n s = s := by
  fun_induction cut n s with
  | case1 s => exact absurd hlen (Nat.lt_irrefl 0)
  | case2 n => rfl
  | case3 n s => exact absurd rfl hlast
  | case4 n b s hb ih =>
    rw [List.length_cons] at hlen
    have hrest : (cut n s).getLast? ≠ some newline := by
      intro h
      rw [List.getLast?_cons,h] at hlast
      exact hlast rfl
    rw [ih (by omega) hrest]

/-- What one `fgets` can do with room for at least one byte. -/
theorem fgets_cases {n : ℕ} {f : Pfile} (hn : 2 ≤ n) (heof : f.eof = false) :
    f.rest = [] ∧ (fgets n f).1 = none ∨
      ∃ line rest, f.rest = line++rest ∧ line ≠ [] ∧ line.length < n ∧
        fgets n f = (some line,{ rest := rest, eof := (fgets n f).2.eof }) ∧
        ((fgets n f).2.eof = true → rest = [] ∧ line.length < n-1) := by
  have hne : n ≠ 1 := by omega
  by_cases hrest : f.rest = []
  · refine Or.inl ⟨hrest,?_⟩
    have hcut : cut (n-1) f.rest = [] := List.prefix_nil.mp (hrest ▸ cut_begins (n-1) f.rest)
    rw [fgets,if_neg hne]
    simp only [hcut,if_true]
  · have hpos : cut (n-1) f.rest ≠ [] := cut_pos (by omega) hrest
    have hle := cut_length_le (n-1) f.rest
    have hsplit : cut (n-1) f.rest++f.rest.drop (cut (n-1) f.rest).length = f.rest :=
      (List.prefix_append_drop (cut_begins (n-1) f.rest)).symm
    have hget : fgets n f = (some (cut (n-1) f.rest),
        { rest := f.rest.drop (cut (n-1) f.rest).length,
          eof := decide ((cut (n-1) f.rest).length < n-1) &&
            (cut (n-1) f.rest).getLast? != some newline }) := by
      rw [fgets,if_neg hne,heof]
      simp only [if_neg hpos,Bool.false_or]
    refine Or.inr ⟨_,_,hsplit.symm,hpos,by omega,by rw [hget],?_⟩
    rw [hget]
    intro h
    simp only [Bool.and_eq_true,decide_eq_true_eq,bne_iff_ne,ne_eq] at h
    refine ⟨?_,h.1⟩
    rw [cut_ended h.1 h.2,List.drop_length]

theorem store_append {a b bs : List UInt8} (h : bs.length ≤ b.length) :
    store (a++b) a.length bs = .ok (a++bs++b.drop bs.length) := by
  have hle : a.length+bs.length ≤ (a++b).length := by
    rw [List.length_append]
    omega
  rw [store,if_pos hle,List.take_left,List.drop_append,List.drop_of_length_le (by omega),
    List.nil_append,Nat.add_sub_cancel_left]

structure Copied (got tail : List UInt8) (s : Copying) : Prop where
  rbuf : s.rbuf = got++tail
  room : s.rbuflen = tail.length
  p : s.p = got.length

theorem popenLoop_line (fuel : ℕ) {s : Copying} {got tail line : List UInt8} {file : Pfile}
    (hs : Copied got tail s) (heof : s.file.eof = false) (hpos : tail ≠ [])
    (hline : 0 ∉ line) (hroom : line.length < tail.length)
    (hget : fgets (min tail.length maxUserCommandLen) s.file = (some line,file)) :
    ∃ t, Copied (got++line) (0::tail.drop (line.length+1)) t ∧ t.file = file ∧
      popenLoop (fuel+1) s = popenLoop fuel t := by
  have hlen : 0 < tail.length := List.length_pos_iff.mpr hpos
  have hrem : s.rbuflen.toNat = tail.length := by
    rw [hs.room]
    exact Int.toNat_natCast _
  have hstr : before 0 line = line := before_not_mem hline
  have htake : (line.take (tail.length-1)++[0]) = line++[0] := by
    rw [List.take_of_length_le (by omega)]
  have hstore : store s.rbuf s.p (line++[0]) =
      .ok (got++line++(0::tail.drop (line.length+1))) := by
    rw [hs.rbuf,hs.p,store_append (by rw [List.length_append,List.length_singleton]; omega),
      List.length_append,List.length_singleton]
    simp
  refine ⟨⟨got++line++(0::tail.drop (line.length+1)),s.rbuflen-line.length,s.p+line.length,file⟩,
    ⟨rfl,?_,?_⟩,rfl,?_⟩
  · simp only [hs.room,List.length_cons,List.length_drop]
    omega
  · simp only [hs.p,List.length_append]
  · rw [popenLoop,heof,if_neg (by decide),if_pos (by rw [hs.room]; omega),hrem,hget]
    simp only [hstr,htake,hstore]

section

variable {s : Copying} {got tail : List UInt8}

theorem popenLoop_end (fuel : ℕ) (hs : Copied got tail s) (heof : s.file.eof = false)
    (hpos : tail ≠ []) (hget : (fgets (min tail.length maxUserCommandLen) s.file).1 = none) :
    ∃ file, popenLoop (fuel+1) s = .ok { s with file := file } := by
  have hlen : 0 < tail.length := List.length_pos_iff.mpr hpos
  have hrem : s.rbuflen.toNat = tail.length := by
    rw [hs.room]
    exact Int.toNat_natCast _
  rw [popenLoop,heof,if_neg (by decide),if_pos (by rw [hs.room]; omega),hrem]
  split
  · next file _ => exact ⟨file,rfl⟩
  · next buf file hfile =>
    rw [hfile] at hget
    cases hget

theorem fgets_one (f : Pfile) : fgets 1 f = (some [],f) := rfl

/-- Output that does not leave two bytes of the buffer free is never read to its end: the last
calls of `fgets` read nothing. -/
theorem popenLoop_spins (fuel : ℕ) (hs : Copied got tail s) (heof : s.file.eof = false)
    (hnul : 0 ∉ s.file.rest) (hpos : tail ≠ []) (hfull : tail.length ≤ s.file.rest.length+1) :
    popenLoop fuel s = .error .blocked := by
  induction fuel generalizing s got tail with
  | zero => rfl
  | succ fuel ih =>
    have hlen : 0 < tail.length := List.length_pos_iff.mpr hpos
    rcases Nat.lt_or_ge tail.length 2 with hone | htwo
    · have hmin : min tail.length maxUserCommandLen = 1 := by
        rw [maxUserCommandLen]
        omega
      obtain ⟨t,ht,hfile,hloop⟩ := popenLoop_line fuel hs heof hpos
        (List.not_mem_nil) hlen (by rw [hmin]; exact fgets_one s.file)
      rw [hloop]
      refine ih ht (by rw [hfile]; exact heof) (by rw [hfile]; exact hnul)
        (List.cons_ne_nil _ _) ?_
      rw [hfile,List.length_cons,List.length_drop,List.length_nil]
      omega
    · have hmin : 2 ≤ min tail.length maxUserCommandLen := le_min htwo (by decide)
      have hle : min tail.length maxUserCommandLen ≤ tail.length := min_le_left _ _
      rcases fgets_cases hmin heof with ⟨hrest,-⟩ | ⟨line,rest,hrest,hne,hlt,hget,hend⟩
      · rw [hrest,List.length_nil] at hfull
        omega
      · have hline : 0 ∉ line := fun h => hnul (hrest ▸ List.mem_append_left _ h)
        have hsum : s.file.rest.length = line.length+rest.length := by
          rw [hrest,List.length_append]
        have hmore : (fgets (min tail.length maxUserCommandLen) s.file).2.eof = false := by
          by_contra h
          obtain ⟨hnil,hshort⟩ := hend (by simpa using h)
          rw [hnil,List.length_nil] at hsum
          omega
        obtain ⟨t,ht,hfile,hloop⟩ := popenLoop_line fuel hs heof hpos hline (by omega) hget
        rw [hloop]
        refine ih ht (by rw [hfile]; exact hmore) ?_ (List.cons_ne_nil _ _) ?_
        · rw [hfile]
          exact fun h => hnul (hrest ▸ List.mem_append_right _ h)
        · rw [hfile,List.length_cons,List.length_drop]
          simp only
          omega

theorem popenLoop_copies (fuel : ℕ) (hs : Copied got tail s) (heof : s.file.eof = false)
    (hnul : 0 ∉ s.file.rest) (hfuel : s.file.rest.length < fuel)
    (hroom : s.file.rest.length+1 < tail.length) :
    ∃ t tail', popenLoop fuel s = .ok t ∧ Copied (got++s.file.rest) tail' t ∧
      (s.file.rest = [] → tail' = tail) ∧ (s.file.rest ≠ [] → tail'.head? = some 0) := by
  induction fuel generalizing s got tail with
  | zero => omega
  | succ fuel ih =>
    have hpos : tail ≠ [] := List.ne_nil_of_length_pos (by omega)
    have hmin : 2 ≤ min tail.length maxUserCommandLen := le_min (by omega) (by decide)
    have hle : min tail.length maxUserCommandLen ≤ tail.length := min_le_left _ _
    rcases fgets_cases hmin heof with ⟨hrest,hget⟩ | ⟨line,rest,hrest,hne,hlt,hget,hend⟩
    · obtain ⟨file,hend⟩ := popenLoop_end fuel hs heof hpos hget
      refine ⟨{ s with file := file },tail,hend,?_,fun _ => rfl,fun h => absurd hrest h⟩
      rw [hrest,List.append_nil]
      exact ⟨hs.rbuf,hs.room,hs.p⟩
    · have hline : 0 ∉ line := fun h => hnul (hrest ▸ List.mem_append_left _ h)
      have hsum : s.file.rest.length = line.length+rest.length := by
        rw [hrest,List.length_append]
      have hpos' : 0 < line.length := List.length_pos_iff.mpr hne
      have hsome : s.file.rest ≠ [] := List.ne_nil_of_length_pos (by omega)
      obtain ⟨t,ht,hfile,hloop⟩ := popenLoop_line fuel hs heof hpos hline (by omega) hget
      rw [hloop]
      cases hmore : (fgets (min tail.length maxUserCommandLen) s.file).2.eof with
      | true =>
        obtain ⟨hnil,-⟩ := hend hmore
        obtain ⟨m,rfl⟩ : ∃ m, fuel = m+1 := ⟨fuel-1,by omega⟩
        refine ⟨t,0::tail.drop (line.length+1),?_,?_,fun h => absurd h hsome,fun _ => rfl⟩
        · rw [popenLoop,hfile,hmore,if_pos rfl]
        · rw [hrest,hnil,List.append_nil]
          exact ht
      | false =>
        have htail : (0::tail.drop (line.length+1)).length = tail.length-line.length := by
          rw [List.length_cons,List.length_drop]
          omega
        obtain ⟨u,tail',hu,hcopied,hnil,hcons⟩ := ih ht (by rw [hfile]; exact hmore)
          (by rw [hfile]; exact fun h => hnul (hrest ▸ List.mem_append_right _ h))
          (by rw [hfile]; simp only; omega) (by rw [hfile,htail]; simp only; omega)
        rw [hfile] at hcopied hnil hcons
        refine ⟨u,tail',hu,?_,fun h => absurd h hsome,fun _ => ?_⟩
        · rw [hrest,← List.append_assoc]
          exact hcopied
        · by_cases hr : rest = []
          · rw [hnil hr]
            rfl
          · exact hcons hr

end

theorem chompAt_append (text tail : List UInt8) :
    ∃ rest, chompAt (text++0::tail) text.length = chomp text++0::rest := by
  rcases List.eq_nil_or_concat text with rfl | ⟨init,b,rfl⟩
  · exact ⟨tail,rfl⟩
  · have hget : (init++[b]++0::tail)[init.length]? = some b := by simp
    rw [List.concat_eq_append,List.length_append,List.length_singleton,chompAt,
      Nat.add_sub_cancel,hget,chomp,List.getLast?_concat,List.dropLast_concat]
    by_cases hb : b = newline
    · refine ⟨0::tail,?_⟩
      rw [if_pos ⟨Nat.succ_ne_zero _,by rw [hb]⟩,if_pos (by rw [hb]),List.append_assoc,
        List.set_append_right _ _ (Nat.le_refl _),Nat.sub_self]
      rfl
    · refine ⟨tail,?_⟩
      rw [if_neg (fun h => hb (Option.some.inj h.2)),if_neg (fun h => hb (Option.some.inj h))]

theorem myPopenGet_eq (fuel : ℕ) (rbuf output : List UInt8) (rbuflen status : ℤ) :
    myPopenGet fuel (some rbuf) rbuflen (some (output,status)) =
      (popenLoop fuel ⟨rbuf,rbuflen,0,⟨output,false⟩⟩).map
        (fun s => (chompAt s.rbuf s.p,exitStatus status)) := by
  unfold myPopenGet
  rw [if_neg (by simp),Option.getD_some]
  cases h : popenLoop fuel ⟨rbuf,rbuflen,0,⟨output,false⟩⟩ <;> simp [h,Except.map]

theorem myPopenGet_copies {rbuf output : List UInt8} {rbuflen : ℤ} (fuel : ℕ) (status : ℤ)
    (hlen : (rbuf.length : ℤ) = rbuflen) (hnul : 0 ∉ output) (hfuel : output.length < fuel)
    (hroom : (output.length : ℤ)+1 < rbuflen) :
    ∃ tail, myPopenGet fuel (some rbuf) rbuflen (some (output,status)) =
        .ok (chompAt (output++tail) output.length,exitStatus status) ∧
      (output = [] → tail = rbuf) ∧ (output ≠ [] → tail.head? = some 0) := by
  have hstart : Copied [] rbuf ⟨rbuf,rbuflen,0,⟨output,false⟩⟩ := ⟨rfl,hlen.symm,rfl⟩
  obtain ⟨t,tail,ht,hcopied,hnil,hcons⟩ :=
    popenLoop_copies fuel hstart rfl hnul hfuel (by simp only; omega)
  rw [List.nil_append] at hcopied
  refine ⟨tail,?_,hnil,hcons⟩
  rw [myPopenGet_eq,ht,Except.map,hcopied.rbuf,hcopied.p]

/-- `my_popen_get` comes back with the output in the buffer exactly when the output leaves two
bytes of it free, and there is some or the buffer was empty already. -/
theorem popen_get_iff (rbuf output : List UInt8) (rbuflen status : ℤ)
    (hlen : (rbuf.length : ℤ) = rbuflen) (hpos : 1 ≤ rbuflen) (hnul : 0 ∉ output) :
    Leaves (chomp (output.take (rbuflen.toNat-1))) rbuf rbuflen output status ↔
      output.length+1 < rbuflen ∧ (output ≠ [] ∨ rbuf.head? = some 0) := by
  have hstart : Copied [] rbuf ⟨rbuf,rbuflen,0,⟨output,false⟩⟩ := ⟨rfl,hlen.symm,rfl⟩
  constructor
  · rintro ⟨fuel,rest,ret,h⟩
    have hroom : (output.length : ℤ)+1 < rbuflen := by
      by_contra hfull
      have hspin := popenLoop_spins fuel hstart rfl hnul
        (List.ne_nil_of_length_pos (by omega)) (by simp only; omega)
      rw [myPopenGet_eq,hspin] at h
      cases h
    refine ⟨hroom,?_⟩
    rw [or_iff_not_imp_left,not_not]
    rintro rfl
    cases fuel with
    | zero => cases h
    | succ fuel =>
      obtain ⟨tail,hget,htail,-⟩ := myPopenGet_copies (fuel+1) status hlen hnul
        (Nat.succ_pos fuel) hroom
      rw [hget,Except.ok.injEq,Prod.mk.injEq] at h
      have htl : tail = 0::rest := by simpa [chompAt,chomp] using h.1
      rw [← htail rfl,htl,List.head?_cons]
  · rintro ⟨hroom,hempty⟩
    obtain ⟨tail,hget,hnil,hcons⟩ :=
      myPopenGet_copies (output.length+1) status hlen hnul (Nat.lt_succ_self _) hroom
    have htail : tail.head? = some 0 := by
      by_cases ho : output = []
      · rw [hnil ho]
        exact hempty.resolve_left (not_not.mpr ho)
      · exact hcons ho
    obtain ⟨tl,rfl⟩ := List.head?_eq_some_iff.mp htail
    obtain ⟨rest,hrest⟩ := chompAt_append output tl
    refine ⟨output.length+1,rest,exitStatus status,?_⟩
    rw [hget,hrest,List.take_of_length_le (by omega)]

theorem popen_get_iff_ab : Leaves [97,98] [1,2,3,4,5] 5 [97,98,10] 0 :=
  (popen_get_iff [1,2,3,4,5] [97,98,10] 5 0 (by decide) (by decide) (by decide)).mpr
    (by decide)

/-- `"ab"` into three bytes: the call never comes back. -/
theorem popen_get_hangs :
    (∀ fuel, myPopenGet fuel (some [0,0,0]) 3 (some ([97,98],0)) = .error .blocked) ∧
    ¬ Leaves (chomp ([97,98].take 2)) [0,0,0] 3 [97,98] 0 := by
  have hhang : ∀ fuel, myPopenGet fuel (some [0,0,0]) 3 (some ([97,98],0)) =
      .error .blocked := by
    intro fuel
    have hstart : Copied [] [0,0,0] ⟨[0,0,0],3,0,⟨[97,98],false⟩⟩ := ⟨rfl,rfl,rfl⟩
    rw [myPopenGet_eq,popenLoop_spins fuel hstart rfl (by decide) (by decide) (by decide)]
    rfl
  refine ⟨hhang,?_⟩
  rintro ⟨fuel,rest,ret,h⟩
  rw [hhang fuel] at h
  cases h

end PopenGet
end PcEnv
