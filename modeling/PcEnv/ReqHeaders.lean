import PcEnv.ReqContex

/-! What the header of a request does to its parameters: `parse` looks for `?` and `&` in the
whole request and not only in the request line. -/
namespace PcEnv
namespace ReqContex

open Text Word

def crlf : List UInt8 := ascii "\r\n"

def version : List UInt8 := ascii " HTTP/1.1"++crlf

def headerBlock (lines : List (List UInt8)) : List UInt8 :=
  lines.flatMap (fun line => line++crlf)++crlf

def request (method target : List UInt8) (lines : List (List UInt8)) : List UInt8 :=
  method++slash++target++(version++headerBlock lines)

/-- The text of the request line behind its first ` /`. -/
def resource (method target : List UInt8) : List UInt8 :=
  (method++slash++target).drop (find (method++slash++target) slash+2)

/-- The header block does not reach into the fields: without `?` in the request line there is none
in the block; with one there is no `&` in the block, or a segment without `=` ends `paraParse`
before, or at, the segment that goes on into the block. -/
def Harmless (resource block : List UInt8) : Prop :=
  (question ∉ resource ∧ question ∉ block) ∨
    (question ∈ resource ∧
      (amp ∉ block ∨ (∃ s ∈ initPieces amp (after question resource), eqSign ∉ s) ∨
        (eqSign ∉ lastPiece amp (after question resource) ∧ eqSign ∉ before amp block)))

instance (resource block : List UInt8) : Decidable (Harmless resource block) :=
  inferInstanceAs (Decidable (_ ∨ _))

/-- The same pieces of both texts are taken for the command and for parameters. -/
def SameFields (t u : List UInt8) : Prop :=
  cmdText t = cmdText u ∧ (queryText t).takeWhile hasEq = (queryText u).takeWhile hasEq ∧
    (queryText t).all hasEq = (queryText u).all hasEq

instance (t u : List UInt8) : Decidable (SameFields t u) :=
  inferInstanceAs (Decidable (_ ∧ _))

section

variable {q r s t u v x y : List UInt8}

theorem SameFields.symm (h : SameFields t u) : SameFields u t :=
  ⟨h.1.symm,h.2.1.symm,h.2.2.symm⟩

theorem SameFields.trans (h : SameFields t u) (h' : SameFields u v) : SameFields t v :=
  ⟨h.1.trans h'.1,h.2.1.trans h'.2.1,h.2.2.trans h'.2.2⟩

theorem pairText_params (segs : List (List UInt8)) :
    (params segs).map pairText = segs.takeWhile hasEq := by
  rw [params,List.map_map]
  refine (List.map_congr_left (fun s hs => ?_)).trans (List.map_id _)
  have heq : eqSign ∈ s := of_decide_eq_true (List.mem_takeWhile_imp (p:=hasEq) hs)
  exact before_after heq

theorem parse_line {ctx : ReqContex} {method target : List UInt8}
    (hlen : (method++slash++target++y).length ≤ intMax) :
    ctx.parse (method++slash++target++y) =
      some (⟨(method++slash++target).take (find (method++slash++target) slash),
          cmdText (resource method target++y),
          ctx.mParams++params (queryText (resource method target++y))⟩,
        (queryText (resource method target++y)).all hasEq) := by
  have hmore := hlen
  rw [List.length_append] at hmore
  have hat : slash <+: (method++slash++target).drop method.length := by
    rw [List.append_assoc,List.drop_left]
    exact List.prefix_append _ _
  have hfound := find_ne_npos (by simp) hat (by omega)
  obtain ⟨hle,hfirst,-⟩ := find_spec rfl hfound
  have hroom := hfirst.length_le
  rw [List.length_drop,show slash.length = 2 from rfl] at hroom
  rw [parse_eq (find_append_right rfl hfound y) hfound hlen
    (List.drop_append_of_le_length (by omega)).symm,List.take_append_of_le_length hle]
  rfl

theorem parse_same_iff {ctx : ReqContex} {method target : List UInt8}
    (hy : (method++slash++target++y).length ≤ intMax)
    (ht : (method++slash++target++t).length ≤ intMax) :
    ctx.parse (method++slash++target++y) = ctx.parse (method++slash++target++t) ↔
      SameFields (resource method target++y) (resource method target++t) := by
  rw [parse_line hy,parse_line ht]
  simp only [Option.some_inj,Prod.mk.injEq,ReqContex.mk.injEq,true_and,List.append_cancel_left_eq]
  refine ⟨fun ⟨⟨hcmd,hparams⟩,hall⟩ => ⟨hcmd,?_,hall⟩,
    fun ⟨hcmd,htake,hall⟩ => ⟨⟨hcmd,congrArg (List.map param) htake⟩,hall⟩⟩
  rw [← pairText_params,hparams,pairText_params]

theorem segments_append (q r : List UInt8) :
    segments (q++r) = initPieces amp q++segments (lastPiece amp q++r) := by
  obtain ⟨hinit,hlast⟩ := pieces_append amp q r
  rw [segments,hinit,hlast,List.append_assoc]
  rfl

theorem cut_version (q y : List UInt8) : cut (q++(version++y)) = before blank q := by
  have hblank : version++y = blank::(version.tail++y) := rfl
  rw [hblank,cut,if_pos (by simp),before_append_cons]

theorem segments_clean (h : amp ∉ y) :
    segments (lastPiece amp q++(version++y)) = [before blank (lastPiece amp q)] := by
  have hamp : amp ∉ lastPiece amp q++(version++y) := by
    rw [List.mem_append,List.mem_append,not_or,not_or]
    exact ⟨not_mem_lastPiece amp q,by decide,h⟩
  rw [segments_last hamp,cut_version]

theorem segments_reach (h : amp ∈ y) :
    ∃ rest, segments (lastPiece amp q++(version++y)) =
      (lastPiece amp q++(version++before amp y))::rest := by
  have hamp : amp ∈ lastPiece amp q++(version++y) := by simp [h]
  have hversion : amp ∉ version := by decide
  refine ⟨segments (after amp (lastPiece amp q++(version++y))),?_⟩
  rw [segments_amp hamp,before_append_not_mem (not_mem_lastPiece amp q),
    before_append_not_mem hversion]

/-- A segment without `=` hides what comes after it. -/
theorem takeWhile_hidden {init : List (List UInt8)} (h : ∃ s ∈ init, eqSign ∉ s)
    (z : List (List UInt8)) :
    (init++z).takeWhile hasEq = init.takeWhile hasEq ∧ (init++z).all hasEq = false := by
  obtain ⟨s,hs,hno⟩ := h
  refine ⟨?_,List.all_eq_false.mpr ⟨s,List.mem_append_left z hs,by simp [hasEq_not_mem hno]⟩⟩
  have hshort : (init.takeWhile hasEq).length ≠ init.length := by
    intro heq
    have hall := (List.takeWhile_sublist hasEq).eq_of_length heq
    have hyes := List.takeWhile_eq_self_iff.mp hall s hs
    exact hno (of_decide_eq_true hyes)
  rw [List.takeWhile_append,if_neg hshort]

theorem takeWhile_shown {init : List (List UInt8)} (h : ∀ s ∈ init, eqSign ∈ s)
    (z : List (List UInt8)) :
    (init++z).takeWhile hasEq = init++z.takeWhile hasEq ∧
      (init++z).all hasEq = z.all hasEq := by
  have hall : ∀ s ∈ init, hasEq s = true := fun s hs => hasEq_mem (h s hs)
  rw [List.takeWhile_append_of_pos hall,List.all_append,List.all_eq_true.mpr hall,Bool.true_and]
  exact ⟨rfl,rfl⟩

theorem reach_iff {l z : List UInt8} (rest : List (List UInt8)) :
    (((l++(version++z))::rest).takeWhile hasEq = [before blank l].takeWhile hasEq ∧
      ((l++(version++z))::rest).all hasEq = [before blank l].all hasEq) ↔
    eqSign ∉ l ∧ eqSign ∉ z := by
  have hversion : eqSign ∉ version := by decide
  have hmem : eqSign ∈ l++(version++z) ↔ eqSign ∈ l ∨ eqSign ∈ z := by
    rw [List.mem_append,List.mem_append]
    exact ⟨fun h => h.imp_right (fun h => h.resolve_left hversion),
      fun h => h.imp_right Or.inr⟩
  by_cases heq : eqSign ∈ l++(version++z)
  · refine iff_of_false ?_ (fun h => (hmem.mp heq).elim h.1 h.2)
    rintro ⟨htake,-⟩
    rw [List.takeWhile_cons_of_pos (hasEq_mem heq)] at htake
    -- the longer segment has a blank in it
    have hin : l++(version++z) ∈ [before blank l] :=
      List.takeWhile_subset hasEq (htake ▸ List.mem_cons_self)
    have hblank : blank ∈ l++(version++z) := by
      rw [List.mem_append,List.mem_append]
      exact Or.inr (Or.inl (by decide))
    rw [List.mem_singleton.mp hin] at hblank
    exact not_mem_before hblank
  · have hno := not_or.mp (fun h => heq (hmem.mpr h))
    have hcut : eqSign ∉ before blank l := fun h => hno.1 (mem_before h)
    refine iff_of_true ?_ hno
    rw [List.takeWhile_cons_of_neg (by simp [hasEq_not_mem heq]),
      List.takeWhile_cons_of_neg (by simp [hasEq_not_mem hcut]),List.all_cons,List.all_cons,
      hasEq_not_mem heq,hasEq_not_mem hcut]
    exact ⟨rfl,rfl⟩

/-- A block is harmless if and only if the fields are those of a request without header lines. -/
theorem harmless_iff (x y : List UInt8) :
    Harmless x y ↔ SameFields (x++(version++y)) (x++(version++crlf)) := by
  have hversion : question ∉ version := by decide
  have hcrlf : question ∉ crlf := by decide
  by_cases hx : question ∈ x
  · have hyes : ∀ z, question ∈ x++z := fun z => List.mem_append_left z hx
    simp only [Harmless,SameFields,cmdText,queryText,if_pos (hyes _),before_append_of_mem hx,
      after_append_of_mem hx,hx,not_true,false_and,false_or,true_and]
    generalize after question x = q
    rw [segments_append q (version++y),segments_append q (version++crlf),
      segments_clean (show amp ∉ crlf by decide)]
    by_cases hearly : ∃ s ∈ initPieces amp q, eqSign ∉ s
    · refine iff_of_true (Or.inr (Or.inl hearly)) ?_
      simp only [(takeWhile_hidden hearly _).1,(takeWhile_hidden hearly _).2,and_self]
    · have hshown : ∀ s ∈ initPieces amp q, eqSign ∈ s := by
        intro s hs
        by_contra hno
        exact hearly ⟨s,hs,hno⟩
      simp only [hearly,false_or,(takeWhile_shown hshown _).1,(takeWhile_shown hshown _).2,
        List.append_cancel_left_eq]
      by_cases hy : amp ∈ y
      · obtain ⟨rest,hrest⟩ := segments_reach (q:=q) hy
        rw [hrest,reach_iff rest]
        simp only [hy,not_true,false_or]
      · rw [segments_clean hy]
        simp only [hy,not_false_iff,true_or,and_self]
  · have hnone : ∀ z, question ∉ z → question ∉ x++(version++z) := by
      intro z hz
      rw [List.mem_append,List.mem_append,not_or,not_or]
      exact ⟨hx,hversion,hz⟩
    simp only [Harmless,SameFields,cmdText,queryText,if_neg (hnone crlf hcrlf),cut_version,hx,
      not_false_iff,true_and,false_and,or_false]
    by_cases hy : question ∈ y
    · have hin : question ∈ x++(version++y) := by simp [hy]
      refine iff_of_false (not_not_intro hy) (fun h => ?_)
      -- the command goes on behind the blank of the version
      have hcmd := h.1
      rw [if_pos hin,before_append_not_mem hx,before_append_not_mem hversion] at hcmd
      have hblank : blank ∈ x++(version++before question y) := by
        rw [List.mem_append,List.mem_append]
        exact Or.inr (Or.inl (by decide))
      rw [hcmd] at hblank
      exact not_mem_before hblank
    · simp only [if_neg (hnone y hy),hy,not_false_iff,and_self]

end

/-- Two header blocks give the same result and the same fields if and only if both are harmless,
or neither is and the same pieces of both requests are taken for the fields. -/
theorem headers_iff (ctx : ReqContex) (method target : List UInt8) (hs hs' : List (List UInt8))
    (hlen : (request method target hs).length ≤ intMax)
    (hlen' : (request method target hs').length ≤ intMax) :
    ctx.parse (request method target hs) = ctx.parse (request method target hs') ↔
      (Harmless (resource method target) (headerBlock hs) ∧
        Harmless (resource method target) (headerBlock hs')) ∨
      (¬Harmless (resource method target) (headerBlock hs) ∧
        ¬Harmless (resource method target) (headerBlock hs') ∧
        SameFields (resource method target++(version++headerBlock hs))
          (resource method target++(version++headerBlock hs'))) := by
  rw [request,request,parse_same_iff hlen hlen',harmless_iff,harmless_iff]
  constructor
  · intro hsame
    by_cases hone : SameFields (resource method target++(version++headerBlock hs))
        (resource method target++(version++crlf))
    · exact Or.inl ⟨hone,hsame.symm.trans hone⟩
    · exact Or.inr ⟨hone,fun htwo => hone (hsame.trans htwo),hsame⟩
  · rintro (⟨hone,htwo⟩ | ⟨-,-,hsame⟩)
    · exact hone.trans htwo.symm
    · exact hsame

theorem headers_iff_host :
    new.parse (request (ascii "GET") (ascii "getVideo?time=1") [ascii "Host: cam"]) =
      new.parse (request (ascii "GET") (ascii "getVideo?time=1") []) :=
  (headers_iff new _ _ _ _ (by decide) (by decide)).mpr (Or.inl ⟨by decide,by decide⟩)

/-- A `?` in a header is taken for the one of the request line. -/
theorem referer_changes_cmd :
    new.parse (request (ascii "GET") (ascii "getVideo") [ascii "Referer: cam?a=b"]) ≠
      new.parse (request (ascii "GET") (ascii "getVideo") []) := by
  rw [request,request,Ne,parse_same_iff (by decide) (by decide)]
  decide

end ReqContex
end PcEnv
