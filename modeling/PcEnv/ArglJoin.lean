import PcEnv.Argl

/-! `argv_to_argl` of `misc.c`, and that `argl_to_argv` takes it back.
The block grows with every word; what `realloc` adds to it has bytes of its own, and `strcat` goes
by the first `NUL` it finds. -/
namespace PcEnv
namespace Argl

open Runs Text Word

/-- `realloc(argl,size)`: `fresh` are the bytes that were not in the block before. -/
def realloc (argl : Option (List UInt8)) (size : ℕ) (fresh : ℕ → UInt8) : Option (List UInt8) :=
  if ptrdiffMax < size ∨ (size = 0 ∧ argl ≠ none) then none
  else
    let old := argl.getD []
    some (old.take size++(List.range' old.length (size-old.length)).map fresh)

def strcat (block str : List UInt8) : Except Halt (List UInt8) :=
  let len := block.idxOf 0
  if len+str.length < block.length then
    .ok (block.take len++str++0::block.drop (len+str.length+1))
  else .error .fault

def store (block : List UInt8) (i : ℤ) (b : UInt8) : Except Halt (List UInt8) :=
  if 0 ≤ i ∧ i.toNat < block.length then .ok (block.set i.toNat b) else .error .fault

/-- The loop of `argv_to_argl` with the words still to come; `fresh k` is what the call `k` of
`realloc` adds. `rt_idx` is past twice the number of words, so `i` does not run over before it. -/
def arglLoop (fresh : ℕ → ℕ → UInt8) (k : ℕ) (argl : Option (List UInt8)) (rtIdx : ℤ) :
    List (List UInt8) → Except Halt (Option (List UInt8))
  | [] => (store (argl.getD []) (rtIdx-1) 0).map some
  | str::argv =>
    let rtLen := toInt str.length
    let rtIdx := rtIdx+rtLen
    if intMax < rtIdx+2 ∨ rtIdx < -2^31 then .error .fault
    else
      match realloc argl (sizeOfInt (rtIdx+2)) (fresh k) with
      | none => .ok none
      | some block => do
        let block ← strcat block str
        let block ← store block rtIdx space
        arglLoop fresh (k+1) (some block) (rtIdx+1) argv

def argvToArgl (fresh : ℕ → ℕ → UInt8) (argv : List (List UInt8)) :
    Except Halt (Option (List UInt8)) :=
  if argv = [] then .ok none else arglLoop fresh 0 none 0 argv

def spaced (v : List (List UInt8)) : List UInt8 := v.flatMap (·++[space])

section

variable {fresh : ℕ → ℕ → UInt8} {k : ℕ} {text str : List UInt8} {first : UInt8}
  {argv : List (List UInt8)}

theorem strcat_behind {block : List UInt8} {n : ℕ} (hn : n ≤ block.length)
    (hno : 0 ∉ block.take n) (hroom : block.length ≤ n+str.length) :
    strcat block str = .error .fault := by
  have hlen : n ≤ block.idxOf 0 := by
    by_contra hlt
    have hin : block.idxOf 0 < block.length := by omega
    have hmem : block[block.idxOf 0] ∈ block.take n := by
      rw [List.mem_take_iff_getElem]
      exact ⟨_,by omega,rfl⟩
    rw [List.getElem_idxOf hin] at hmem
    exact hno hmem
  exact if_neg (by omega)

theorem strcat_at {before after : List UInt8} (hbefore : 0 ∉ before)
    (hroom : str.length ≤ after.length) :
    strcat (before++0::after) str = .ok (before++str++0::after.drop str.length) := by
  have hlen : (before++0::after).idxOf 0 = before.length := by
    rw [List.idxOf_append,if_neg hbefore,List.idxOf_cons_self,Nat.zero_add]
  rw [strcat]
  simp only [hlen]
  rw [if_pos (by simp; omega),List.take_left,show before.length+str.length+1 =
    before.length+(str.length+1) by omega,← List.drop_drop,List.drop_left,List.drop_succ_cons]

theorem store_at {before after : List UInt8} {b c : UInt8} {i : ℤ} (hi : i = before.length) :
    store (before++b::after) i c = .ok (before++c::after) := by
  subst hi
  rw [store,if_pos ⟨by omega,by simp⟩,Int.toNat_natCast,List.set_append_right _ _ (le_refl _),
    Nat.sub_self,List.set_cons_zero]

/-- The block before the call `k` of `realloc`: the text so far and one byte behind it, which for
the first call is still to come. -/
def Holds (fresh : ℕ → ℕ → UInt8) (k : ℕ) (argl : Option (List UInt8)) (text : List UInt8)
    (first : UInt8) : Prop :=
  argl = some (text++[first]) ∨ (argl = none ∧ text = [] ∧ first = fresh k 0)

theorem realloc_holds {argl : Option (List UInt8)} {n : ℕ} (h : Holds fresh k argl text first)
    (hmax : text.length+n+1 ≤ ptrdiffMax) :
    realloc argl (text.length+n+1) (fresh k) =
      some (text++first::(List.range' (text.length+1) n).map (fresh k)) := by
  rcases h with rfl | ⟨rfl,rfl,rfl⟩
  · rw [realloc,if_neg (by omega)]
    simp only [Option.getD_some,List.length_append,List.length_singleton]
    rw [List.take_of_length_le (by simp),show text.length+n+1-(text.length+1) = n by omega,
      List.append_assoc,List.singleton_append]
  · rw [realloc,if_neg (by simp; omega)]
    simp only [Option.getD_none,List.length_nil,Nat.zero_add,Nat.sub_zero,List.take_nil,
      List.nil_append]
    rw [List.range'_succ,List.map_cons]

def part (first : UInt8) (str : List UInt8) : List UInt8 :=
  if first = 0 then str else first::str.dropLast

def next (fresh : ℕ → UInt8) (first : UInt8) (pos : ℕ) : UInt8 := if first = 0 then fresh pos else 0

theorem part_length (hstr : str ≠ []) : (part first str).length = str.length := by
  have hpos := List.length_pos_iff.mpr hstr
  unfold part
  split_ifs
  · rfl
  · rw [List.length_cons,List.length_dropLast]
    omega

theorem cons_dropLast_eq_iff (hstr : str ≠ []) :
    first::str.dropLast = str ↔ ∀ c ∈ str, c = first := by
  induction str generalizing first with
  | nil => exact absurd rfl hstr
  | cons c str ih =>
    rcases List.eq_nil_or_concat str with rfl | hcons
    · simp [eq_comm]
    · have hne : str ≠ [] := by
        obtain ⟨_,_,rfl⟩ := hcons
        simp
      rw [List.dropLast_cons_of_ne_nil hne,List.cons.injEq,ih hne,List.forall_mem_cons]
      constructor
      · rintro ⟨rfl,hall⟩
        exact ⟨rfl,hall⟩
      · rintro ⟨rfl,hall⟩
        exact ⟨rfl,hall⟩

theorem part_eq_iff (hstr : str ≠ []) (hfirst : first ≠ 0) :
    part first str = str ↔ ∀ c ∈ str, c = first := by
  rw [part,if_neg hfirst,cons_dropLast_eq_iff hstr]

theorem strcat_part (htext : 0 ∉ text) (hstr : str ≠ [])
    (hzero : first = 0 ∨ fresh k (text.length+1) = 0) :
    ∃ c, strcat (text++first::(List.range' (text.length+1) (str.length+1)).map (fresh k)) str =
      .ok (text++part first str++c::[next (fresh k) first (text.length+str.length+1)]) := by
  by_cases hfirst : first = 0
  · subst hfirst
    refine ⟨0,?_⟩
    rw [strcat_at htext (by simp),← List.map_drop,List.drop_range',Nat.mul_one,
      Nat.add_sub_cancel_left,part,if_pos rfl,next,if_pos rfl,Nat.add_right_comm]
    rfl
  · have hno : 0 ∉ text++[first] := by
      rw [List.mem_append,List.mem_singleton]
      exact not_or.mpr ⟨htext,Ne.symm hfirst⟩
    refine ⟨str.getLast hstr,?_⟩
    rw [List.range'_succ,List.map_cons,hzero.resolve_left hfirst,List.append_cons,
      strcat_at hno (by simp),List.drop_eq_nil_of_le (by simp),part,if_neg hfirst,next,
      if_neg hfirst]
    nth_rewrite 1 [← List.dropLast_append_getLast hstr]
    simp

theorem strcat_lost (htext : 0 ∉ text) (hfirst : first ≠ 0) (hzero : fresh k (text.length+1) ≠ 0) :
    strcat (text++first::(List.range' (text.length+1) (str.length+1)).map (fresh k)) str =
      .error .fault := by
  have htake : (text++first::(List.range' (text.length+1) (str.length+1)).map (fresh k)).take
      (text.length+2) = text++[first,fresh k (text.length+1)] := by
    rw [List.range'_succ,List.map_cons,List.take_length_add_append]
    rfl
  refine strcat_behind (n:=text.length+2) ?_ ?_ ?_
  · simp
  · rw [htake]
    simp [htext,Ne.symm hfirst,Ne.symm hzero]
  · simp
    omega

/-- A word is written behind the text if a `NUL` is there; one byte further on it still fits. -/
theorem arglLoop_cons {argl : Option (List UInt8)} (h : Holds fresh k argl text first)
    (htext : 0 ∉ text) (hstr : str ≠ []) (hmax : text.length+str.length+2 ≤ intMax) :
    arglLoop fresh k argl text.length (str::argv) =
      if first = 0 ∨ fresh k (text.length+1) = 0 then
        arglLoop fresh (k+1)
          (some (text++part first str++[space]++[next (fresh k) first (text.length+str.length+1)]))
          (text++part first str++[space]).length argv
      else .error .fault := by
  have hint : intMax = 2^31-1 := rfl
  have hptr : ptrdiffMax = 2^63-1 := rfl
  have hmod : sizeMod = 2^64 := rfl
  have hidx : (text.length : ℤ)+toInt str.length = (text++part first str).length := by
    rw [toInt_eq (by omega),List.length_append,part_length hstr]
    rfl
  have hsize : sizeOfInt ((text++part first str).length+2) = text.length+(str.length+1)+1 := by
    rw [show (((text++part first str).length : ℤ)+2) = ((text.length+str.length+2 : ℕ) : ℤ) by
      rw [List.length_append,part_length hstr]; push_cast; rfl,sizeOfInt_natCast (by omega)]
    omega
  have hin : ¬ ((intMax : ℤ) < (text++part first str).length+2 ∨
      ((text++part first str).length : ℤ) < -2^31) := by
    rw [List.length_append,part_length hstr]
    omega
  have hblock : realloc argl (text.length+(str.length+1)+1) (fresh k) = _ :=
    realloc_holds h (by omega)
  rw [arglLoop]
  simp only [hidx,if_neg hin,hsize,hblock]
  split_ifs with hzero
  · obtain ⟨c,hc⟩ := strcat_part htext hstr hzero
    rw [hc]
    have hstore : store (text++part first str++c::[next (fresh k) first (text.length+str.length+1)])
        (text++part first str).length space = .ok (text++part first str++
          space::[next (fresh k) first (text.length+str.length+1)]) := store_at rfl
    have hnext : (((text++part first str).length : ℤ)+1) =
        ((text++part first str++[space]).length : ℕ) := by
      rw [@List.length_append _ _ [space]]
      rfl
    rw [List.append_assoc _ [space]]
    simp only [bind,Except.bind,hstore,hnext]
    rfl
  · obtain ⟨hfirst,hnext⟩ := not_or.mp hzero
    rw [strcat_lost htext hfirst hnext]
    rfl

theorem realloc_length {argl : Option (List UInt8)} {size : ℕ} {f : ℕ → UInt8}
    {b : List UInt8} (h : realloc argl size f = some b) : size ≤ ptrdiffMax ∧ b.length = size := by
  unfold realloc at h
  split_ifs at h with hbig
  obtain rfl := Option.some.inj h
  simp only [List.length_append,List.length_take,List.length_map,List.length_range']
  omega

theorem arglLoop_over {argl : Option (List UInt8)} {n : ℕ} (hmax : intMax < n+str.length+2)
    (block : List UInt8) : arglLoop fresh k argl n (str::argv) ≠ .ok (some block) := by
  have hint : intMax = 2^31-1 := rfl
  have hptr : ptrdiffMax = 2^63-1 := rfl
  intro h
  rw [arglLoop] at h
  split_ifs at h with hover
  cases hre : realloc argl (sizeOfInt (n+toInt str.length+2)) (fresh k) with
  | none => simp [hre] at h
  | some b =>
    obtain ⟨hsize,hlen⟩ := realloc_length hre
    have hlong : intMax < str.length := by
      by_contra hfits
      rw [toInt_eq (by omega)] at hover
      omega
    have hlost : strcat b str = .error .fault := by
      apply if_neg
      rw [hlen]
      unfold sizeOfInt at hsize ⊢
      omega
    simp [hre,hlost,bind,Except.bind] at h

/-- Behind every word that is in the block there is a `NUL` when the next one comes. Else the byte
there and the one behind it have to make up for it: then the next byte is the word's own `NUL`. -/
def Zeroed (fresh : ℕ → ℕ → UInt8) (k pos : ℕ) (first : UInt8) : List (List UInt8) → Prop
  | [] => True
  | str::argv =>
    if first = 0 then Zeroed fresh (k+1) (pos+str.length+1) (fresh k (pos+str.length+1)) argv
    else fresh k (pos+1) = 0 ∧ (∀ c ∈ str, c = first) ∧ Zeroed fresh (k+1) (pos+str.length+1) 0 argv

structure IsWord (w : List UInt8) : Prop where
  ne_nil : w ≠ []
  space : space ∉ w
  newline : newline ∉ w
  nul : 0 ∉ w

theorem spaced_cons (str : List UInt8) (argv : List (List UInt8)) :
    spaced (str::argv) = str++[space]++spaced argv := List.flatMap_cons

theorem spaced_eq (hargv : argv ≠ []) : spaced argv = [space].intercalate argv++[space] := by
  induction argv with
  | nil => exact absurd rfl hargv
  | cons str argv ih =>
    rw [spaced_cons]
    rcases eq_or_ne argv [] with rfl | hne
    · simp [spaced]
    · rw [ih hne,List.intercalate_cons_of_ne_nil hne]
      simp

theorem spaced_injective {parts : List (List UInt8)}
    (hlen : List.Forall₂ (fun p w => p.length = w.length) parts argv)
    (h : spaced parts = spaced argv) : parts = argv := by
  induction hlen with
  | nil => rfl
  | cons hpw _ ih =>
    rw [spaced_cons,spaced_cons,List.append_assoc,List.append_assoc] at h
    obtain ⟨rfl,hrest⟩ := List.append_inj h hpw
    rw [ih (List.append_cancel_left hrest)]

theorem part_nul (hstr : 0 ∉ str) : 0 ∉ part first str := by
  unfold part
  split_ifs with hfirst
  · exact hstr
  · rw [List.mem_cons,not_or]
    exact ⟨Ne.symm hfirst,fun h => hstr (List.mem_of_mem_dropLast h)⟩

theorem text_length (hstr : str ≠ []) :
    (text++part first str++[space]).length = text.length+str.length+1 := by
  simp only [List.length_append,part_length hstr,List.length_singleton]

theorem text_nul (htext : 0 ∉ text) (hstr : 0 ∉ str) : 0 ∉ text++part first str++[space] := by
  simp only [List.mem_append,List.mem_singleton,not_or]
  exact ⟨⟨htext,part_nul hstr⟩,by decide⟩

theorem arglLoop_nil {argl : Option (List UInt8)} {line : List UInt8}
    (h : Holds fresh k argl (line++[space]) first) :
    arglLoop fresh k argl (line++[space]).length [] = .ok (some (line++[0,first])) := by
  rcases h with rfl | ⟨-,hnil,-⟩
  · have hlast : (((line++[space]).length : ℕ) : ℤ)-1 = line.length := by simp
    rw [arglLoop,hlast,Option.getD_some,List.append_assoc,List.singleton_append,store_at rfl]
    rfl
  · exact absurd hnil (by simp)

theorem zeroed_cons (hstr : str ≠ []) :
    Zeroed fresh k text.length first (str::argv) ↔
      (first = 0 ∨ fresh k (text.length+1) = 0) ∧ part first str = str ∧
        Zeroed fresh (k+1) (text++part first str++[space]).length
          (next (fresh k) first (text.length+str.length+1)) argv := by
  rw [text_length hstr,Zeroed,next]
  split_ifs with hfirst
  · rw [part,if_pos hfirst]
    simp [hfirst]
  · rw [part_eq_iff hstr hfirst]
    simp [hfirst]

theorem arglLoop_zeroed {argl : Option (List UInt8)} (h : Holds fresh k argl text first)
    (htext : 0 ∉ text) (hend : argv = [] → ∃ line, text = line++[space])
    (hwords : ∀ w ∈ argv, IsWord w) (hmax : text.length+(spaced argv).length < intMax)
    (hz : Zeroed fresh k text.length first argv) :
    ∃ line last, text++spaced argv = line++[space] ∧
      arglLoop fresh k argl text.length argv = .ok (some (line++[0,last])) := by
  induction argv generalizing k argl text first with
  | nil =>
    obtain ⟨line,rfl⟩ := hend rfl
    exact ⟨line,first,List.append_nil _,arglLoop_nil h⟩
  | cons str argv ih =>
    obtain ⟨hword,hrest⟩ := List.forall_mem_cons.mp hwords
    obtain ⟨hzero,hpart,hz⟩ := (zeroed_cons hword.ne_nil).mp hz
    have hlen : (text++part first str++[space]).length = _ := text_length hword.ne_nil
    rw [spaced_cons,List.length_append,List.length_append,List.length_singleton] at hmax
    rw [arglLoop_cons h htext hword.ne_nil (by omega),if_pos hzero]
    obtain ⟨line,last,htake,hloop⟩ := ih (.inl rfl) (text_nul htext hword.nul)
      (fun _ => ⟨_,rfl⟩) hrest (by omega) hz
    refine ⟨line,last,?_,hloop⟩
    rw [← htake,hpart,spaced_cons]
    simp only [List.append_assoc]

/-- Whatever comes out has a part as long as its word in the place of each word, and these are the
words with the `NUL`s there only. -/
theorem arglLoop_parts {argl : Option (List UInt8)} {block : List UInt8}
    (h : Holds fresh k argl text first) (htext : 0 ∉ text)
    (hend : argv = [] → ∃ line, text = line++[space]) (hwords : ∀ w ∈ argv, IsWord w)
    (hmax : text.length < intMax)
    (hloop : arglLoop fresh k argl text.length argv = .ok (some block)) :
    ∃ parts line last, List.Forall₂ (fun p w => p.length = w.length) parts argv ∧
      text++spaced parts = line++[space] ∧ 0 ∉ line ∧ block = line++[0,last] ∧
      text.length+(spaced argv).length < intMax ∧
      (parts = argv → Zeroed fresh k text.length first argv) := by
  induction argv generalizing k argl text first with
  | nil =>
    obtain ⟨line,rfl⟩ := hend rfl
    rw [arglLoop_nil h] at hloop
    refine ⟨[],line,first,.nil,List.append_nil _,?_,?_,hmax,fun _ => trivial⟩
    · exact fun hmem => htext (List.mem_append_left _ hmem)
    · exact (Option.some.inj (Except.ok.inj hloop)).symm
  | cons str argv ih =>
    obtain ⟨hword,hrest⟩ := List.forall_mem_cons.mp hwords
    have hfits : text.length+str.length+2 ≤ intMax := by
      by_contra hover
      exact arglLoop_over (not_le.mp hover) block hloop
    have hlen : (text++part first str++[space]).length = _ := text_length hword.ne_nil
    rw [arglLoop_cons h htext hword.ne_nil hfits] at hloop
    split_ifs at hloop with hzero
    obtain ⟨parts,line,last,hparts,htake,hno,hblock,htotal,hz⟩ := ih (.inl rfl)
      (text_nul htext hword.nul) (fun _ => ⟨_,rfl⟩) hrest (by omega) hloop
    refine ⟨part first str::parts,line,last,.cons (part_length hword.ne_nil) hparts,?_,hno,hblock,
      ?_,?_⟩
    · rw [← htake,spaced_cons]
      simp only [List.append_assoc]
    · rw [spaced_cons,List.length_append,List.length_append,List.length_singleton]
      omega
    · intro heq
      obtain ⟨hpart,rfl⟩ := List.cons.inj heq
      exact (zeroed_cons hword.ne_nil).mpr ⟨hzero,hpart,hz rfl⟩

end

/-- The words come back, and their text stands in the block with its `NUL`. -/
def RoundTrips (fresh : ℕ → ℕ → UInt8) (v : List (List UInt8)) : Prop :=
  ∃ block, argvToArgl fresh v = .ok (some block) ∧ 0 ∈ block ∧
    block.takeWhile (fun b => b ≠ 0) = [space].intercalate v ∧
    arglToArgv block = .ok (some { argv := terminated v, argc := v.length })

section

variable {fresh : ℕ → ℕ → UInt8} {v : List (List UInt8)}

theorem not_mem_intercalate {c : UInt8} (hv : v ≠ []) (hc : c ≠ space) (h : ∀ w ∈ v, c ∉ w) :
    c ∉ [space].intercalate v := by
  intro hmem
  have hsp : c ∈ spaced v := by
    rw [spaced_eq hv]
    exact List.mem_append_left _ hmem
  obtain ⟨w,hw,hcw⟩ := List.mem_flatMap.mp hsp
  rcases List.mem_append.mp hcw with hcw | hcw
  · exact h w hw hcw
  · exact hc (List.mem_singleton.mp hcw)

theorem takeWhile_nul {text rest : List UInt8} (h : 0 ∉ text) :
    (text++0::rest).takeWhile (fun b => b ≠ 0) = text := before_append h

theorem line_text {text rest : List UInt8} (h0 : 0 ∉ text) (hnl : newline ∉ text) :
    line (text++0::rest) = text := by
  have hall : ∀ b ∈ text, decide (b ≠ 0 ∧ b ≠ newline) = true := by
    intro b hb
    exact decide_eq_true ⟨ne_of_mem_of_not_mem hb h0,ne_of_mem_of_not_mem hb hnl⟩
  rw [line,List.takeWhile_append_of_pos hall,List.takeWhile_cons_of_neg (by decide),
    List.append_nil]

theorem arglToArgv_joined (hv : v ≠ []) (hwords : ∀ w ∈ v, IsWord w)
    (hmax : ([space].intercalate v).length ≤ intMax) (last : UInt8) :
    arglToArgv ([space].intercalate v++[0,last]) =
      .ok (some { argv := terminated v, argc := v.length }) := by
  obtain ⟨hs,hback⟩ := singleSpaced_intercalate hv
    (fun w hw => ⟨(hwords w hw).ne_nil,(hwords w hw).space⟩)
  have h0 := not_mem_intercalate hv (by decide) (fun w hw => (hwords w hw).nul)
  have hnl := not_mem_intercalate hv (by decide) (fun w hw => (hwords w hw).newline)
  have hline : line ([space].intercalate v++[0,last]) = [space].intercalate v := line_text h0 hnl
  have hfirst : charAt ([space].intercalate v++[0,last]) 0 ≠ 0 := by
    obtain ⟨c,text,htext⟩ := List.exists_cons_of_ne_nil hs.ne_nil
    rw [htext] at h0 ⊢
    exact fun hc => h0 (hc ▸ List.mem_cons_self)
  rw [(arglToArgv_spec hfirst).1 (by rw [hline]; exact hmax),hline,
    (entries_eq_words_iff _).mpr hs,hback]

/-- The words come back exactly when `realloc` happens to bring the `NUL`s that `strcat` looks
for, and no `int` runs over. -/
theorem roundTrips_iff (fresh : ℕ → ℕ → UInt8) (v : List (List UInt8)) (hv : v ≠ [])
    (hwords : ∀ w ∈ v, IsWord w) :
    RoundTrips fresh v ↔ Zeroed fresh 0 0 (fresh 0 0) v ∧ (spaced v).length < intMax := by
  have hstart : Holds fresh 0 none [] (fresh 0 0) := .inr ⟨rfl,rfl,rfl⟩
  have hcall : argvToArgl fresh v = arglLoop fresh 0 none ([] : List UInt8).length v := if_neg hv
  have hno : v = [] → ∃ line, ([] : List UInt8) = line++[space] := fun h => absurd h hv
  unfold RoundTrips
  rw [hcall]
  constructor
  · rintro ⟨block,hblock,-,htext,-⟩
    obtain ⟨parts,text,last,hparts,htake,h0,rfl,htotal,hz⟩ :=
      arglLoop_parts hstart List.not_mem_nil hno hwords (by decide) hblock
    rw [takeWhile_nul h0] at htext
    have hsame : spaced parts = spaced v := by
      rw [spaced_eq hv,← htext]
      exact htake
    rw [List.length_nil,Nat.zero_add] at htotal
    exact ⟨hz (spaced_injective hparts hsame),htotal⟩
  · rintro ⟨hz,htotal⟩
    obtain ⟨text,last,htake,hloop⟩ := arglLoop_zeroed hstart List.not_mem_nil hno hwords
      (by rw [List.length_nil,Nat.zero_add]; exact htotal) hz
    rw [List.nil_append,spaced_eq hv] at htake
    obtain rfl := List.append_cancel_right htake
    rw [spaced_eq hv,List.length_append,List.length_singleton] at htotal
    refine ⟨_,hloop,by simp,takeWhile_nul ?_,arglToArgv_joined hv hwords (by omega) last⟩
    exact not_mem_intercalate hv (by decide) (fun w hw => (hwords w hw).nul)

theorem roundTrips_iff_zero : RoundTrips (fun _ _ => 0) [ascii "led",ascii "on"] := by
  refine (roundTrips_iff _ _ (by decide) ?_).mpr ⟨trivial,by decide⟩
  rintro w hw
  rcases List.mem_cons.mp hw with rfl | hw
  · exact ⟨by decide,by decide,by decide,by decide⟩
  · obtain rfl := List.mem_singleton.mp hw
    exact ⟨by decide,by decide,by decide,by decide⟩

/-- A first byte that is not zero, with none behind it. -/
theorem strcat_past_block : argvToArgl (fun _ _ => 170) [ascii "led"] = .error .fault ∧
    ¬ RoundTrips (fun _ _ => 170) [ascii "led"] := by
  have hfault : argvToArgl (fun _ _ => 170) [ascii "led"] = .error .fault := by decide
  refine ⟨hfault,?_⟩
  rintro ⟨block,hblock,-⟩
  exact absurd (hfault.symm.trans hblock) (by simp)

end

end Argl
end PcEnv
