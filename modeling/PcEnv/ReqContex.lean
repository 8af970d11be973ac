import PcEnv.Text

/-! `ReqContex::parse` and `ReqContex::paraParse`, which cut a request at ` /`, `?`, `&` and `=`.
A position is the `int` that the `size_t` of the search is stored in. -/
namespace PcEnv

open Text Word

structure ReqParam where
  key : List UInt8
  value : List UInt8
  deriving DecidableEq, Repr

structure ReqContex where
  mMethod : List UInt8
  mCmd : List UInt8
  mParams : List ReqParam
  deriving DecidableEq, Repr

namespace ReqContex

def new : ReqContex := ⟨[],[],[]⟩

def blank : UInt8 := ' '.toUInt8
def amp : UInt8 := '&'.toUInt8
def eqSign : UInt8 := '='.toUInt8
def question : UInt8 := '?'.toUInt8
def slash : List UInt8 := ascii " /"
def headEnd : List UInt8 := ascii "\r\n\r\n"

/-- `find_first_of(' ')`, and where there is none `find("\r\n\r\n")`. -/
def blankIdx (tail : List UInt8) : ℤ :=
  let idx := toInt (findFirstOf tail blank)
  if idx < 0 then toInt (find tail headEnd) else idx

/-- `idx` and `isParseFinished` of `paraParse`. -/
def ampIdx (tail : List UInt8) : ℤ × Bool :=
  let idx := toInt (findFirstOf tail amp)
  if idx < 0 then (blankIdx tail,true) else (idx,false)

def paraOf (paraStr : List UInt8) : Option (Option ReqParam) :=
  let paraIdx := toInt (findFirstOf paraStr eqSign)
  if paraIdx < 0 then some none
  else
    (substr paraStr 0 (sizeOfInt paraIdx)).bind (fun key =>
      (substr paraStr (sizeOfInt (paraIdx+1)) npos).map (fun value => some ⟨key,value⟩))

theorem substr_behind {s : List UInt8} {c : UInt8} (h : 0 ≤ toInt (findFirstOf s c)) :
    ∃ t, substr s (sizeOfInt (toInt (findFirstOf s c)+1)) npos = some t ∧
      t.length < s.length := by
  by_cases hc : c ∈ s
  · have hlt := List.idxOf_lt_length_of_mem hc
    have hle := toInt_le (s.idxOf c)
    have hmax := toInt_le_intMax (s.idxOf c)
    rw [findFirstOf,if_pos hc] at h ⊢
    obtain ⟨k,hk⟩ := Int.eq_ofNat_of_zero_le h
    have hsize : sizeOfInt (toInt (s.idxOf c)+1) = k+1 := by
      rw [hk]
      exact sizeOfInt_natCast (x:=k+1) (by unfold intMax at hmax; unfold sizeMod; omega)
    rw [hsize,substr,if_pos (by omega)]
    refine ⟨_,rfl,?_⟩
    rw [List.length_take,List.length_drop]
    omega
  · rw [toInt_findFirstOf_not_mem hc] at h
    omega

theorem ampIdx_more {tail : List UInt8} (h : (ampIdx tail).2 = false) :
    (ampIdx tail).1 = toInt (findFirstOf tail amp) ∧ 0 ≤ toInt (findFirstOf tail amp) := by
  rcases lt_or_ge (toInt (findFirstOf tail amp)) 0 with hneg | hpos
  · simp only [ampIdx,if_pos hneg,reduceCtorEq] at h
  · simp only [ampIdx,if_neg (not_lt.mpr hpos)]
    exact ⟨trivial,hpos⟩

def paraParse (ctx : ReqContex) (tail : List UInt8) : Option (ReqContex × Bool) :=
  match substr tail 0 (sizeOfInt (ampIdx tail).1) with
  | none => none
  | some paraStr =>
    match paraOf paraStr with
    | none => none
    | some none => some (ctx,false)
    | some (some para) =>
      let ctx' := { ctx with mParams := ctx.mParams++[para] }
      if _hmore : (ampIdx tail).2 = true then some (ctx',true)
      else
        match _hnew : substr tail (sizeOfInt ((ampIdx tail).1+1)) npos with
        | none => none
        | some newStr => ctx'.paraParse newStr
termination_by tail.length
decreasing_by
  obtain ⟨hidx,hpos⟩ := ampIdx_more (Bool.eq_false_iff.mpr _hmore)
  obtain ⟨t,ht,hlt⟩ := substr_behind hpos
  rw [hidx,ht] at _hnew
  cases _hnew
  exact hlt

def parse (ctx : ReqContex) (req : List UInt8) : Option (ReqContex × Bool) :=
  let idx := toInt (find req slash)
  if idx < 0 then some (ctx,false)
  else
    (substr req 0 (sizeOfInt idx)).bind (fun mMethod =>
    (substr req (sizeOfInt (idx+2)) npos).bind (fun tail =>
      let idx := toInt (findFirstOf tail question)
      if idx < 0 then
        (substr tail 0 (sizeOfInt (blankIdx tail))).map (fun mCmd =>
          ({ ctx with mMethod := mMethod, mCmd := mCmd },true))
      else
        (substr tail 0 (sizeOfInt idx)).bind (fun mCmd =>
        (substr tail (sizeOfInt (idx+1)) npos).bind (fun newStr =>
          { ctx with mMethod := mMethod, mCmd := mCmd : ReqContex }.paraParse newStr))))

section

variable {ctx : ReqContex} {tail paraStr newStr : List UInt8} {para : ReqParam}

theorem paraParse_missing (hs : substr tail 0 (sizeOfInt (ampIdx tail).1) = some paraStr)
    (hp : paraOf paraStr = some none) : ctx.paraParse tail = some (ctx,false) := by
  unfold paraParse
  simp only [hs,hp]

theorem paraParse_finished (hs : substr tail 0 (sizeOfInt (ampIdx tail).1) = some paraStr)
    (hp : paraOf paraStr = some (some para)) (hfin : (ampIdx tail).2 = true) :
    ctx.paraParse tail = some ({ ctx with mParams := ctx.mParams++[para] },true) := by
  unfold paraParse
  simp only [hs,hp,dif_pos hfin]

theorem paraParse_more (hs : substr tail 0 (sizeOfInt (ampIdx tail).1) = some paraStr)
    (hp : paraOf paraStr = some (some para)) (hfin : (ampIdx tail).2 = false)
    (hnew : substr tail (sizeOfInt ((ampIdx tail).1+1)) npos = some newStr) :
    ctx.paraParse tail = { ctx with mParams := ctx.mParams++[para] : ReqContex }.paraParse newStr := by
  conv_lhs => unfold paraParse
  simp only [hs,hp,hfin,Bool.false_eq_true,dite_false]
  split
  · rename_i h
    rw [hnew] at h
    cases h
  · rename_i t h
    rw [hnew] at h
    cases h
    rfl

end

/-- Up to the first blank, or else to the end of the header. -/
def cut (s : List UInt8) : List UInt8 :=
  if blank ∈ s then before blank s else s.take (find s headEnd)

/-- The segments between the `&`s; the last one ends earlier. -/
def segments (tail : List UInt8) : List (List UInt8) :=
  initPieces amp tail++[cut (lastPiece amp tail)]

def hasEq (s : List UInt8) : Bool := decide (eqSign ∈ s)

def param (s : List UInt8) : ReqParam := ⟨before eqSign s,after eqSign s⟩

def params (segs : List (List UInt8)) : List ReqParam := (segs.takeWhile hasEq).map param

section

variable {a s tail : List UInt8} {ctx : ReqContex}

theorem substr_blankIdx (hlen : s.length ≤ intMax) :
    substr s 0 (sizeOfInt (blankIdx s)) = some (cut s) := by
  by_cases hb : blank ∈ s
  · obtain ⟨a,b,rfl,ha⟩ := List.eq_append_cons_of_mem hb
    have hidx := toInt_findFirstOf ha hlen
    rw [cut,if_pos hb,before_append ha]
    simp only [blankIdx,hidx,if_neg (show ¬(a.length : ℤ) < 0 by omega)]
    exact substr_left hlen
  · rw [cut,if_neg hb]
    simp only [blankIdx,toInt_findFirstOf_not_mem hb,if_pos (show (-1 : ℤ) < 0 by decide)]
    exact substr_find hlen

theorem paraOf_none (h : eqSign ∉ s) : paraOf s = some none := by
  simp only [paraOf,toInt_findFirstOf_not_mem h,if_pos (show (-1 : ℤ) < 0 by decide)]

theorem substr_sides {c : UInt8} (hc : c ∈ s) (hlen : s.length ≤ intMax) :
    0 ≤ toInt (findFirstOf s c) ∧
      substr s 0 (sizeOfInt (toInt (findFirstOf s c))) = some (before c s) ∧
      substr s (sizeOfInt (toInt (findFirstOf s c)+1)) npos = some (after c s) := by
  obtain ⟨a,b,rfl,ha⟩ := List.eq_append_cons_of_mem hc
  rw [toInt_findFirstOf ha hlen,before_append ha,after_append ha]
  have hdrop := substr_drop (s:=a++c::b) (n:=a.length+1) (by simp) hlen
  rw [Nat.cast_add,Nat.cast_one] at hdrop
  refine ⟨by omega,substr_left hlen,?_⟩
  rw [hdrop,← List.drop_drop,List.drop_left,List.drop_one,List.tail_cons]

theorem paraOf_some (h : eqSign ∈ s) (hlen : s.length ≤ intMax) :
    paraOf s = some (some (param s)) := by
  obtain ⟨hpos,hkey,hvalue⟩ := substr_sides h hlen
  simp only [paraOf,if_neg (not_lt.mpr hpos),hkey,hvalue,Option.bind_some,Option.map_some]
  rfl

theorem length_before_le {c : UInt8} : (before c s).length ≤ s.length :=
  (List.takeWhile_sublist _).length_le

theorem length_after_lt {c : UInt8} (h : c ∈ s) : (after c s).length < s.length := by
  have hlen := congrArg List.length (before_after h)
  rw [List.length_append,List.length_cons] at hlen
  omega

theorem length_cut_le : (cut s).length ≤ s.length := by
  unfold cut
  split_ifs
  · exact length_before_le
  · exact (List.take_sublist _ s).length_le

theorem segments_amp (h : amp ∈ tail) :
    segments tail = before amp tail::segments (after amp tail) := by
  obtain ⟨a,b,rfl,ha⟩ := List.eq_append_cons_of_mem h
  rw [before_append ha,after_append ha,segments,initPieces_append ha,lastPiece_append ha]
  rfl

theorem segments_last (h : amp ∉ tail) : segments tail = [cut tail] := by
  rw [segments,initPieces_not_mem h,lastPiece_not_mem h,List.nil_append]

theorem hasEq_mem (h : eqSign ∈ s) : hasEq s = true := decide_eq_true h

theorem hasEq_not_mem (h : eqSign ∉ s) : hasEq s = false := decide_eq_false h

theorem params_cons (h : eqSign ∈ s) (segs : List (List UInt8)) :
    params (s::segs) = param s::params segs := by
  rw [params,List.takeWhile_cons_of_pos (hasEq_mem h),List.map_cons]
  rfl

theorem params_stop (h : eqSign ∉ s) (segs : List (List UInt8)) : params (s::segs) = [] := by
  rw [params,List.takeWhile_cons_of_neg (by simp [hasEq_not_mem h]),List.map_nil]

/-- `paraParse` reads the segments up to the first one without `=`. -/
theorem paraParse_eq (hlen : tail.length ≤ intMax) :
    ctx.paraParse tail =
      some ({ ctx with mParams := ctx.mParams++params (segments tail) },
        (segments tail).all hasEq) := by
  induction tail using pieces_induction amp generalizing ctx with
  | last tail hamp =>
    have hidx : ampIdx tail = (blankIdx tail,true) := by
      simp only [ampIdx,toInt_findFirstOf_not_mem hamp,if_pos (show (-1 : ℤ) < 0 by decide)]
    have hseg := substr_blankIdx hlen
    have hle := length_cut_le (s:=tail)
    rw [segments_last hamp]
    by_cases heq : eqSign ∈ cut tail
    · rw [paraParse_finished (by rw [hidx]; exact hseg) (paraOf_some heq (by omega))
        (by rw [hidx]),params_cons heq,List.all_cons,hasEq_mem heq]
      rfl
    · rw [paraParse_missing (by rw [hidx]; exact hseg) (paraOf_none heq),params_stop heq,
        List.append_nil,List.all_cons,hasEq_not_mem heq,Bool.false_and]
  | piece a b ha ih =>
    have hamp : amp ∈ a++amp::b := by simp
    obtain ⟨hpos,hseg,hnew⟩ := substr_sides hamp hlen
    rw [before_append ha] at hseg
    rw [after_append ha] at hnew
    have hidx : ampIdx (a++amp::b) = (toInt (findFirstOf (a++amp::b) amp),false) :=
      if_neg (not_lt.mpr hpos)
    rw [List.length_append,List.length_cons] at hlen
    rw [segments_amp hamp,before_append ha,after_append ha]
    by_cases heq : eqSign ∈ a
    · rw [paraParse_more (by rw [hidx]; exact hseg) (paraOf_some heq (by omega)) (by rw [hidx])
        (by rw [hidx]; exact hnew),ih (by omega),params_cons heq]
      simp only [List.append_assoc,List.singleton_append,List.all_cons]
      rw [hasEq_mem heq,Bool.true_and]
    · rw [paraParse_missing (by rw [hidx]; exact hseg) (paraOf_none heq),params_stop heq,
        List.append_nil,List.all_cons,hasEq_not_mem heq,Bool.false_and]

theorem paraOf_isSome (s : List UInt8) : ∃ para, paraOf s = some para := by
  by_cases heq : eqSign ∈ s
  · rcases lt_or_ge (toInt (findFirstOf s eqSign)) 0 with hneg | hpos
    · exact ⟨none,if_pos hneg⟩
    · obtain ⟨key,hkey⟩ := substr_isSome (s:=s) (n:=sizeOfInt (toInt (findFirstOf s eqSign)))
        (Nat.zero_le _)
      obtain ⟨value,hvalue,-⟩ := substr_behind hpos
      refine ⟨some ⟨key,value⟩,?_⟩
      simp only [paraOf,if_neg (not_lt.mpr hpos),hkey,hvalue,Option.bind_some,Option.map_some]
  · exact ⟨none,paraOf_none heq⟩

/-- On any string at all `paraParse` comes back, and no `substr` throws. -/
theorem paraParse_total (ctx : ReqContex) (tail : List UInt8) :
    ∃ r, ctx.paraParse tail = some r := by
  induction hn : tail.length using Nat.strong_induction_on generalizing tail ctx with
  | _ n ih =>
    obtain ⟨paraStr,hs⟩ := substr_isSome (s:=tail) (n:=sizeOfInt (ampIdx tail).1) (Nat.zero_le _)
    obtain ⟨para,hp⟩ := paraOf_isSome paraStr
    cases para with
    | none => exact ⟨_,paraParse_missing hs hp⟩
    | some para =>
      cases hfin : (ampIdx tail).2 with
      | true => exact ⟨_,paraParse_finished hs hp hfin⟩
      | false =>
        obtain ⟨hidx,hpos⟩ := ampIdx_more hfin
        obtain ⟨newStr,hnew,hlt⟩ := substr_behind hpos
        rw [paraParse_more hs hp hfin (by rw [hidx]; exact hnew)]
        exact ih _ (by omega) _ newStr rfl

/-- So does `parse`. -/
theorem parse_total (ctx : ReqContex) (req : List UInt8) : ∃ r, ctx.parse req = some r := by
  rcases lt_or_ge (toInt (find req slash)) 0 with hneg | hpos
  · exact ⟨_,if_pos hneg⟩
  have hfound : find req slash ≠ npos := by
    intro h
    rw [h,toInt_npos] at hpos
    omega
  obtain ⟨hle,hat,-⟩ := find_spec rfl hfound
  have hroom := hat.length_le
  rw [List.length_drop,show slash.length = 2 from rfl] at hroom
  have hidx := toInt_le (find req slash)
  have hmax := toInt_le_intMax (find req slash)
  obtain ⟨k,hk⟩ := Int.eq_ofNat_of_zero_le hpos
  have hsize : sizeOfInt (toInt (find req slash)+2) = k+2 := by
    rw [hk]
    exact sizeOfInt_natCast (x:=k+2) (by unfold intMax at hmax; unfold sizeMod; omega)
  obtain ⟨mMethod,hmethod⟩ := substr_isSome (s:=req) (n:=sizeOfInt (toInt (find req slash)))
    (Nat.zero_le _)
  have hin : sizeOfInt (toInt (find req slash)+2) ≤ req.length := by omega
  obtain ⟨tail,htail⟩ := substr_isSome (s:=req) (n:=npos) hin
  simp only [parse,if_neg (not_lt.mpr hpos),hmethod,htail,Option.bind_some]
  rcases lt_or_ge (toInt (findFirstOf tail question)) 0 with hnone | hq
  · obtain ⟨mCmd,hcmd⟩ := substr_isSome (s:=tail) (n:=sizeOfInt (blankIdx tail)) (Nat.zero_le _)
    simp only [if_pos hnone,hcmd]
    exact ⟨_,rfl⟩
  · obtain ⟨mCmd,hcmd⟩ := substr_isSome (s:=tail)
      (n:=sizeOfInt (toInt (findFirstOf tail question))) (Nat.zero_le _)
    obtain ⟨newStr,hnew,-⟩ := substr_behind hq
    simp only [if_neg (not_lt.mpr hq),hcmd,hnew,Option.bind_some]
    exact paraParse_total _ newStr

theorem paraParse_false_iff (hlen : tail.length ≤ intMax) :
    (∃ ctx', ctx.paraParse tail = some (ctx',false)) ↔ ∃ s ∈ segments tail, eqSign ∉ s := by
  rw [paraParse_eq hlen]
  simp only [Option.some_inj,Prod.mk.injEq,exists_and_right,exists_eq',true_and,
    List.all_eq_false,hasEq,decide_eq_true_eq]

/-- What is taken for the command in the text after ` /`. -/
def cmdText (tail : List UInt8) : List UInt8 :=
  if question ∈ tail then before question tail else cut tail

def queryText (tail : List UInt8) : List (List UInt8) :=
  if question ∈ tail then segments (after question tail) else []

theorem parse_eq {req : List UInt8} {i : ℕ} (hi : find req slash = i) (hfound : i ≠ npos)
    (hlen : req.length ≤ intMax) (htail : tail = req.drop (i+2)) :
    ctx.parse req =
      some (⟨req.take i,cmdText tail,ctx.mParams++params (queryText tail)⟩,
        (queryText tail).all hasEq) := by
  obtain ⟨hle,hat,-⟩ := find_spec hi hfound
  have hroom := hat.length_le
  rw [List.length_drop,show slash.length = 2 from rfl] at hroom
  have hidx : toInt (find req slash) = i := by rw [hi,toInt_eq (by omega)]
  have hmethod : substr req 0 (sizeOfInt i) = some (req.take i) := by
    rw [sizeOfInt_natCast (by unfold intMax at hlen; unfold sizeMod; omega)]
    exact if_pos (Nat.zero_le _)
  have hdrop : substr req (sizeOfInt (i+2)) npos = some tail := by
    rw [htail]
    exact substr_drop (n:=i+2) (by omega) hlen
  have htlen : tail.length ≤ intMax := by
    rw [htail,List.length_drop]
    omega
  simp only [parse,hidx,if_neg (show ¬(i : ℤ) < 0 by omega),hmethod,hdrop,Option.bind_some]
  by_cases hq : question ∈ tail
  · obtain ⟨hpos,hcmd,hnew⟩ := substr_sides hq htlen
    have hlt := length_after_lt hq
    simp only [if_neg (not_lt.mpr hpos),hcmd,hnew,Option.bind_some,cmdText,queryText,if_pos hq]
    rw [paraParse_eq (by omega)]
  · have hcmd := substr_blankIdx htlen
    simp only [toInt_findFirstOf_not_mem hq,if_pos (show (-1 : ℤ) < 0 by decide),hcmd,
      Option.map_some,cmdText,queryText,if_neg hq,params,List.takeWhile_nil,List.map_nil,
      List.append_nil,List.all_nil]

def pairText (p : ReqParam) : List UInt8 := p.key++eqSign::p.value

def build (method command : List UInt8) (ps : List ReqParam) (rest : List UInt8) : List UInt8 :=
  method++slash++command++question::([amp].intercalate (ps.map pairText)++rest)

/-- A pair that a request can carry. -/
structure Carried (p : ReqParam) : Prop where
  key_eq : eqSign ∉ p.key
  key_amp : amp ∉ p.key
  key_blank : blank ∉ p.key
  value_amp : amp ∉ p.value
  value_blank : blank ∉ p.value

theorem prefix_of_slash {x : List UInt8} {y : List UInt8} (hx : x ≠ []) (h : slash <+: x++slash++y) :
    slash <+: x := by
  cases x with
  | nil => exact absurd rfl hx
  | cons b x =>
    cases x with
    | nil =>
      obtain ⟨t,ht⟩ := h
      have hsecond : '/'.toUInt8 = blank := (List.cons.inj (List.cons.inj ht).2).1
      exact absurd hsecond (by decide)
    | cons d x =>
      rw [List.append_assoc] at h
      exact List.prefix_of_prefix_length_le h (List.prefix_append _ _) (by simp [slash,ascii])

theorem find_slash {method y : List UInt8} (h : ¬slash <:+: method) :
    find (method++slash++y) slash = method.length := by
  refine find_eq (by simp) ?_ (fun j hj hpre => h ?_)
  · rw [List.append_assoc,List.drop_left]
    exact List.prefix_append _ _
  · rw [List.append_assoc,List.drop_append_of_le_length hj.le,← List.append_assoc] at hpre
    have hne : method.drop j ≠ [] := by
      rw [Ne,List.drop_eq_nil_iff]
      omega
    exact (prefix_of_slash hne hpre).isInfix.trans (List.drop_suffix j method).isInfix

theorem segments_blank {q t : List UInt8} (hq : blank ∉ lastPiece amp q) (ht : amp ∉ blank::t) :
    segments (q++blank::t) = q.splitOn amp := by
  have hlast : amp ∉ lastPiece amp q++blank::t := by
    rw [List.mem_append,not_or]
    exact ⟨not_mem_lastPiece amp q,ht⟩
  obtain ⟨hinit,hend⟩ := pieces_append amp q (blank::t)
  rw [initPieces_not_mem hlast,List.append_nil] at hinit
  rw [lastPiece_not_mem hlast] at hend
  rw [segments,hinit,hend,cut,if_pos (by simp),before_append hq,← pieces]

theorem param_pairText {p : ReqParam} (h : Carried p) : param (pairText p) = p := by
  rw [param,pairText,before_append h.key_eq,after_append h.key_eq]

theorem params_pairText {ps : List ReqParam} (h : ∀ p ∈ ps, Carried p) :
    params (ps.map pairText) = ps ∧ (ps.map pairText).all hasEq = true := by
  have hall : ∀ s ∈ ps.map pairText, hasEq s = true := by
    intro s hs
    obtain ⟨p,-,rfl⟩ := List.mem_map.mp hs
    exact hasEq_mem (by simp [pairText])
  refine ⟨?_,List.all_eq_true.mpr hall⟩
  rw [params,List.takeWhile_eq_self_iff.mpr hall,List.map_map]
  exact (List.map_congr_left (fun p hp => param_pairText (h p hp))).trans (List.map_id ps)

theorem parse_built {method command rest : List UInt8} {ps : List ReqParam}
    (hmethod : ¬slash <:+: method) (hcmd : question ∉ command) (hne : ps ≠ [])
    (hps : ∀ p ∈ ps, Carried p) (hrest : ∃ t, rest = blank::t) (hamp : amp ∉ rest)
    (hlen : (build method command ps rest).length ≤ intMax) :
    new.parse (build method command ps rest) = some (⟨method,command,ps⟩,true) := by
  obtain ⟨t,rfl⟩ := hrest
  have hpieces : ∀ s ∈ ps.map pairText, amp ∉ s ∧ blank ∉ s := by
    intro s hs
    obtain ⟨p,hp,rfl⟩ := List.mem_map.mp hs
    have hc := hps p hp
    rw [pairText,List.mem_append,List.mem_append,List.mem_cons,List.mem_cons]
    exact ⟨not_or.mpr ⟨hc.key_amp,not_or.mpr ⟨by decide,hc.value_amp⟩⟩,
      not_or.mpr ⟨hc.key_blank,not_or.mpr ⟨by decide,hc.value_blank⟩⟩⟩
  have hq : ([amp].intercalate (ps.map pairText)).splitOn amp = ps.map pairText :=
    List.splitOn_intercalate amp (fun s hs => (hpieces s hs).1) (by simpa using hne)
  have hlast : blank ∉ lastPiece amp ([amp].intercalate (ps.map pairText)) := by
    have hmem := lastPiece_mem (c:=amp) (s:=[amp].intercalate (ps.map pairText))
    rw [hq] at hmem
    exact (hpieces _ hmem).2
  have hsplit : build method command ps (blank::t) =
      method++slash++(command++question::([amp].intercalate (ps.map pairText)++blank::t)) := by
    simp only [build,List.append_assoc]
  have hfind : find (build method command ps (blank::t)) slash = method.length := by
    rw [hsplit]
    exact find_slash hmethod
  have hroom : method.length ≤ (build method command ps (blank::t)).length := by
    rw [hsplit,List.append_assoc,List.length_append]
    omega
  have htail : command++question::([amp].intercalate (ps.map pairText)++blank::t) =
      (build method command ps (blank::t)).drop (method.length+2) := by
    rw [hsplit,List.append_assoc,← List.drop_drop,List.drop_left]
    rfl
  have htake : (build method command ps (blank::t)).take method.length = method := by
    rw [hsplit,List.append_assoc,List.take_left]
  have hquestion : question ∈
      command++question::([amp].intercalate (ps.map pairText)++blank::t) := by simp
  obtain ⟨hparams,hall⟩ := params_pairText hps
  rw [parse_eq hfind (by unfold npos sizeMod; unfold intMax at hlen; omega) hlen htail,htake,
    cmdText,queryText,if_pos hquestion,if_pos hquestion,before_append hcmd,after_append hcmd,
    segments_blank hlast hamp,hq,hparams,hall]
  rfl

/-- Parsing inverts building. -/
theorem parse_build {method command rest : List UInt8} {ps : List ReqParam}
    (hmethod : ¬slash <:+: method) (hcmd : question ∉ command) (hne : ps ≠ [])
    (hps : ∀ p ∈ ps, Carried p) (hrest : ∃ t, rest = blank::t) (hamp : amp ∉ rest)
    (hlen : (build method command ps rest).length ≤ intMax) :
    new.parse (build method command ps rest) = some (⟨method,command,ps⟩,true) ∧
    (∀ ctx tail, ∃ r, paraParse ctx tail = some r) ∧
    ∀ ctx tail, tail.length ≤ intMax →
      ((∃ ctx', paraParse ctx tail = some (ctx',false)) ↔ ∃ s ∈ segments tail, eqSign ∉ s) :=
  ⟨parse_built hmethod hcmd hne hps hrest hamp hlen,paraParse_total,
    fun _ _ => paraParse_false_iff⟩

end

theorem parse_build_get :
    new.parse (build (ascii "GET") (ascii "getVideo")
        [⟨ascii "ftp",ascii "a=b"⟩,⟨[],ascii "1?"⟩] (ascii " HTTP/1.1\r\n\r\n")) =
      some (⟨ascii "GET",ascii "getVideo",[⟨ascii "ftp",ascii "a=b"⟩,⟨[],ascii "1?"⟩]⟩,true) :=
  (parse_build (by decide) (by decide) (by decide)
    (by
      intro p hp
      fin_cases hp
      · exact ⟨by decide,by decide,by decide,by decide,by decide⟩
      · exact ⟨by decide,by decide,by decide,by decide,by decide⟩)
    ⟨_,rfl⟩ (by decide) (by decide)).1

end ReqContex
end PcEnv
