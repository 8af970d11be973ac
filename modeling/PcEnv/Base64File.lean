import PcEnv.Sextets
import PcEnv.Word

/-! The base64 file tool: `base64Encode`, `base64Decode` and the loop of `main`.
`fileBase64` and `myBase64` have the same code over two tables. Every stored value is masked, so
the sign of `char` does not show and the bytes are `UInt8`. -/
namespace PcEnv
namespace Base64File

open Sextets Word

def pad : UInt8 := 61
def newline : UInt8 := 10
def maxUserBufBytes : ℕ := 512
def userBufBytesOne : ℕ := 16

structure Base64Char where
  char : List UInt8
  length_eq : char.length = 64
  nodup : char.Nodup
  pad_notMem : pad ∉ char
  newline_notMem : newline ∉ char
  nul_notMem : 0 ∉ char

/-- `0-9A-Z`, `a-z`, `+/`, of `fileBase64`. -/
def fileBase64Char : Base64Char where
  char := [48,49,50,51,52,53,54,55,56,57,65,66,67,68,69,70,71,72,73,74,75,76,77,78,79,80,81,82,83,
    84,85,86,87,88,89,90,97,98,99,100,101,102,103,104,105,106,107,108,109,110,111,112,113,114,
    115,116,117,118,119,120,121,122,43,47]
  length_eq := by decide
  nodup := by decide
  pad_notMem := by decide
  newline_notMem := by decide
  nul_notMem := by decide

/-- `A-Z`, `a-z`, `0-9`, `+/`, of `misc.c`, which `myBase64` uses. -/
def miscBase64Char : Base64Char where
  char := [65,66,67,68,69,70,71,72,73,74,75,76,77,78,79,80,81,82,83,84,85,86,87,88,89,90,97,98,99,
    100,101,102,103,104,105,106,107,108,109,110,111,112,113,114,115,116,117,118,119,120,121,122,
    48,49,50,51,52,53,54,55,56,57,43,47]
  length_eq := by decide
  nodup := by decide
  pad_notMem := by decide
  newline_notMem := by decide
  nul_notMem := by decide

variable (tbl : Base64Char)

def charAt (current : UInt8) : UInt8 := tbl.char.getD current.toNat 0

/-- `base64Encode` with `j` characters stored; nothing when it returns `-1`. -/
def base64Encode (baseSize j : ℕ) : List UInt8 → Option (List UInt8)
  | [] => some []
  | [a] =>
    if baseSize ≤ j+4 then none
    else some [charAt tbl (sextet0 a),charAt tbl ((a <<< (4 : UInt8)) &&& (0x30 : UInt8)),pad,pad]
  | [a,b] =>
    if baseSize ≤ j+4 then none
    else some [charAt tbl (sextet0 a),charAt tbl (sextet1 a b),
      charAt tbl ((b <<< (2 : UInt8)) &&& (0x3C : UInt8)),pad]
  | a::b::c::bin =>
    if baseSize ≤ j+4 then none
    else (base64Encode baseSize (j+4) bin).map (fun rest =>
      charAt tbl (sextet0 a)::charAt tbl (sextet1 a b)::charAt tbl (sextet2 b c)::
        charAt tbl (sextet3 c)::rest)

/-- The loop of `base64Decode` from `i` on. It reads up to three bytes past `baseSize`. -/
def decodeFrom (base64 : ℕ → UInt8) (baseSize i : ℕ) : List UInt8 :=
  if i < baseSize then
    let temp := fun k => lookUp tbl.char (base64 (i+k))
    octet0 (temp 0) (temp 1)::
      if base64 (i+2) = pad then [] else octet1 (temp 1) (temp 2)::
        if base64 (i+3) = pad then [] else octet2 (temp 2) (temp 3)::
          decodeFrom base64 baseSize (i+4)
  else []
termination_by baseSize-i

/-- `base64Decode`; nothing when it returns `-1`. The test is one of `size_t`s. -/
def base64Decode (base64 : ℕ → UInt8) (baseSize binSize : ℕ) : Option (List UInt8) :=
  if binSize < sizeMul (sizeSub (baseSize/4) 1) 3 then none
  else some (decodeFrom tbl base64 baseSize 0)

/-- The loop of `main` in the mode `encode`; `fread` sets the end of the file when it comes back
with less than it was asked for. -/
def encodeFile (ifp : List UInt8) : List UInt8 :=
  let iBuf := ifp.take userBufBytesOne
  if _h : iBuf = [] then []
  else
    match base64Encode tbl (maxUserBufBytes-1) 0 iBuf with
    | none => []
    | some oBuf =>
      if oBuf = [] then []
      else
        let out := oBuf++[newline]
        if iBuf.length < userBufBytesOne then out
        else out++encodeFile (ifp.drop userBufBytesOne)
termination_by ifp.length
decreasing_by
  have hone : 0 < userBufBytesOne := by decide
  have hpos : 0 < ifp.length := List.length_pos_iff.mpr (fun hnil => _h (by simp [iBuf,hnil]))
  rw [List.length_drop]
  omega

def getlines : List UInt8 → List (List UInt8)
  | [] => []
  | b::ifp =>
    if b = newline then [b]::getlines ifp
    else
      match getlines ifp with
      | [] => [[b]]
      | line::lines => (b::line)::lines

def lineBuf (line : List UInt8) (stale : ℕ → UInt8) (i : ℕ) : UInt8 :=
  if i = line.length then 0 else line.getD i (stale i)

/-- The loop of `main` in the mode `decode`, with `n` lines taken; `stale n` is what the buffer
holds after the next one. -/
def decodeLines (stale : ℕ → ℕ → UInt8) (n : ℕ) : List (List UInt8) → List UInt8
  | [] => []
  | line::lines =>
    (base64Decode tbl (lineBuf line (stale n)) line.length maxUserBufBytes).elim [] (fun oBuf =>
      if oBuf = [] then [] else oBuf++decodeLines stale (n+1) lines)

inductive WorkMode
  | encode | decode
  deriving DecidableEq, Repr

def main (stale : ℕ → ℕ → UInt8) (ifp : List UInt8) : WorkMode → List UInt8
  | .encode => encodeFile tbl ifp
  | .decode => decodeLines tbl stale 0 (getlines ifp)

variable {tbl}

theorem charAt_eq {s : UInt8} (h : s.toNat < 64) :
    tbl.char[s.toNat]? = some (charAt tbl s) := by
  have hlt : s.toNat < tbl.char.length := by rw [tbl.length_eq]; exact h
  rw [charAt,List.getD_eq_getElem?_getD,List.getElem?_eq_getElem hlt,Option.getD_some]

theorem charAt_mem {s : UInt8} (h : s.toNat < 64) : charAt tbl s ∈ tbl.char :=
  List.mem_of_getElem? (charAt_eq h)

theorem lookUp_charAt {s : UInt8} (h : s.toNat < 64) : lookUp tbl.char (charAt tbl s) = s := by
  rw [lookUp_of_mem tbl.nodup tbl.length_eq (charAt_eq h),UInt8.ofNat_toNat]

theorem charAt_ne_pad {s : UInt8} (h : s.toNat < 64) : charAt tbl s ≠ pad :=
  fun heq => tbl.pad_notMem (heq ▸ charAt_mem h)

theorem charAt_ne_newline {s : UInt8} (h : s.toNat < 64) : newline ≠ charAt tbl s :=
  fun heq => tbl.newline_notMem (heq ▸ charAt_mem h)

/-- The text of `bin` is taken back by a decoder that meets it at `i` with more to come: after a
padded group the decoder stops, else it goes on. -/
structure Encodes (tbl : Base64Char) (bin enc : List UInt8) : Prop where
  length_eq : enc.length = (bin.length+2)/3*4
  newline_notMem : newline ∉ enc
  decode : ∀ base64 baseSize i, (∀ p c, enc[p]? = some c → base64 (i+p) = c) →
    i+enc.length < baseSize → decodeFrom tbl base64 baseSize i =
      if bin.length%3 = 0 then bin++decodeFrom tbl base64 baseSize (i+enc.length) else bin

theorem decodeFrom_group {base64 : ℕ → UInt8} {baseSize i : ℕ} {s t : UInt8} (h : i < baseSize)
    (hs : s.toNat < 64) (ht : t.toNat < 64) (h0 : base64 (i+0) = charAt tbl s)
    (h1 : base64 (i+1) = charAt tbl t) :
    decodeFrom tbl base64 baseSize i = octet0 s t::
      if base64 (i+2) = pad then [] else octet1 t (lookUp tbl.char (base64 (i+2)))::
        if base64 (i+3) = pad then [] else
          octet2 (lookUp tbl.char (base64 (i+2))) (lookUp tbl.char (base64 (i+3)))::
            decodeFrom tbl base64 baseSize (i+4) := by
  rw [decodeFrom,if_pos h]
  simp only [h0,h1,lookUp_charAt hs,lookUp_charAt ht]

theorem newline_ne_pad : newline ≠ pad := by decide

theorem encodes_nil : Encodes tbl [] [] :=
  ⟨rfl,by simp,fun base64 baseSize i _ _ => by simp⟩

theorem encodes_one (a : UInt8) :
    Encodes tbl [a] [charAt tbl (sextet0 a),charAt tbl (sextet1 a 0),pad,pad] := by
  refine ⟨by simp,?_,?_⟩
  · simp [charAt_ne_newline (sextet0_lt a),charAt_ne_newline (sextet1_lt a 0),newline_ne_pad]
  · intro base64 baseSize i hbuf hi
    have h2 : base64 (i+2) = pad := hbuf 2 _ rfl
    rw [decodeFrom_group (by omega) (sextet0_lt a) (sextet1_lt a 0) (hbuf 0 _ rfl)
      (hbuf 1 _ rfl),if_pos h2]
    simp

theorem encodes_two (a b : UInt8) :
    Encodes tbl [a,b] [charAt tbl (sextet0 a),charAt tbl (sextet1 a b),
      charAt tbl (sextet2 b 0),pad] := by
  refine ⟨by simp,?_,?_⟩
  · simp [charAt_ne_newline (sextet0_lt a),charAt_ne_newline (sextet1_lt a b),
      charAt_ne_newline (sextet2_lt b 0),newline_ne_pad]
  · intro base64 baseSize i hbuf hi
    have h2 : base64 (i+2) = charAt tbl (sextet2 b 0) := hbuf 2 _ rfl
    have h3 : base64 (i+3) = pad := hbuf 3 _ rfl
    rw [decodeFrom_group (by omega) (sextet0_lt a) (sextet1_lt a b) (hbuf 0 _ rfl)
      (hbuf 1 _ rfl),h2,if_neg (charAt_ne_pad (sextet2_lt b 0)),if_pos h3,
      lookUp_charAt (sextet2_lt b 0)]
    simp

theorem Encodes.group {bin enc : List UInt8} (h : Encodes tbl bin enc) (a b c : UInt8) :
    Encodes tbl (a::b::c::bin) (charAt tbl (sextet0 a)::charAt tbl (sextet1 a b)::
      charAt tbl (sextet2 b c)::charAt tbl (sextet3 c)::enc) := by
  refine ⟨?_,?_,?_⟩
  · simp only [List.length_cons,h.length_eq]
    omega
  · simp [charAt_ne_newline (sextet0_lt a),charAt_ne_newline (sextet1_lt a b),
      charAt_ne_newline (sextet2_lt b c),charAt_ne_newline (sextet3_lt c),h.newline_notMem]
  · intro base64 baseSize i hbuf hi
    have h2 : base64 (i+2) = charAt tbl (sextet2 b c) := hbuf 2 _ rfl
    have h3 : base64 (i+3) = charAt tbl (sextet3 c) := hbuf 3 _ rfl
    have hrest : ∀ p c, enc[p]? = some c → base64 (i+4+p) = c := by
      intro p c hp
      rw [show i+4+p = i+(p+4) by omega]
      exact hbuf (p+4) c hp
    simp only [List.length_cons] at hi ⊢
    have hmod : (bin.length+1+1+1)%3 = bin.length%3 := by omega
    have hnext := h.decode base64 baseSize (i+4) hrest (by omega)
    rw [decodeFrom_group (by omega) (sextet0_lt a) (sextet1_lt a b) (hbuf 0 _ rfl)
      (hbuf 1 _ rfl),h2,h3,if_neg (charAt_ne_pad (sextet2_lt b c)),
      if_neg (charAt_ne_pad (sextet3_lt c)),lookUp_charAt (sextet2_lt b c),
      lookUp_charAt (sextet3_lt c),octet0_sextets,octet1_sextets,octet2_sextets,hnext,hmod,
      show i+(enc.length+1+1+1+1) = i+4+enc.length by omega]
    split_ifs <;> rfl

theorem base64Encode_spec {bin : List UInt8} {baseSize j : ℕ}
    (h : j+(bin.length+2)/3*4 < baseSize) :
    ∃ enc, base64Encode tbl baseSize j bin = some enc ∧ Encodes tbl bin enc := by
  fun_induction base64Encode tbl baseSize j bin with
  | case1 j => exact ⟨[],rfl,encodes_nil⟩
  | case2 j a hfull => simp at h; omega
  | case3 j a hroom =>
    rw [← sextet1_zero]
    exact ⟨_,rfl,encodes_one a⟩
  | case4 j a b hfull => simp at h; omega
  | case5 j a b hroom =>
    rw [← sextet2_zero]
    exact ⟨_,rfl,encodes_two a b⟩
  | case6 j a b c bin hfull => simp at h; omega
  | case7 j a b c bin hroom ih =>
    have hthird : (bin.length+1+1+1+2)/3 = (bin.length+2)/3+1 := by omega
    simp only [List.length_cons,hthird] at h
    obtain ⟨enc,henc,hspec⟩ := ih (by omega)
    rw [henc]
    exact ⟨_,rfl,hspec.group a b c⟩

theorem decodeFrom_newline {base64 : ℕ → UInt8} {baseSize i : ℕ} (hi : i < baseSize)
    (h0 : base64 (i+0) = newline) (h1 : base64 (i+1) = 0) :
    (decodeFrom tbl base64 baseSize i).head? = some 0xFF := by
  rw [decodeFrom,if_pos hi]
  simp only [h0,h1,lookUp_of_notMem tbl.newline_notMem,lookUp_of_notMem tbl.nul_notMem,
    List.head?_cons]
  decide

/-- A line goes through the decoder: what comes out begins with what went in, and there is more,
from a byte `0xFF` on, exactly when the text has no padding. -/
theorem line_decodes {bin : List UInt8} (hpos : bin ≠ []) (hle : bin.length ≤ userBufBytesOne) :
    ∃ enc, base64Encode tbl (maxUserBufBytes-1) 0 bin = some enc ∧ enc ≠ [] ∧ newline ∉ enc ∧
      ∀ stale, ∃ extra, extra.head? = (if bin.length%3 = 0 then some 0xFF else none) ∧
        base64Decode tbl (lineBuf (enc++[newline]) stale) (enc++[newline]).length
          maxUserBufBytes = some (bin++extra) := by
  have hlen : 0 < bin.length := List.length_pos_iff.mpr hpos
  simp only [userBufBytesOne] at hle
  obtain ⟨enc,henc,hspec⟩ : ∃ enc, base64Encode tbl (maxUserBufBytes-1) 0 bin = some enc ∧ _ :=
    base64Encode_spec (by simp only [maxUserBufBytes]; omega)
  have hencLen := hspec.length_eq
  have hnil : enc ≠ [] := fun hnil => by
    rw [hnil,List.length_nil] at hencLen
    omega
  refine ⟨enc,henc,hnil,hspec.newline_notMem,?_⟩
  intro stale
  have hbuf : ∀ p c, enc[p]? = some c → lineBuf (enc++[newline]) stale (0+p) = c := by
    intro p c hp
    obtain ⟨hlt,hget⟩ := List.getElem?_eq_some_iff.mp hp
    rw [Nat.zero_add,lineBuf,if_neg (by simp; omega),List.getD_eq_getElem?_getD,
      List.getElem?_append_left hlt,hp,Option.getD_some]
  have hsize : (enc++[newline]).length = enc.length+1 := by simp
  have hroom : ¬ maxUserBufBytes < sizeMul (sizeSub ((enc.length+1)/4) 1) 3 := by
    rw [sizeSub_eq (by omega) (by simp only [sizeMod]; omega),
      sizeMul_eq (by simp only [sizeMod]; omega)]
    simp only [maxUserBufBytes]
    omega
  have hdecode := hspec.decode (lineBuf (enc++[newline]) stale) (enc.length+1) 0 hbuf (by omega)
  rw [base64Decode,hsize,if_neg hroom,hdecode]
  split_ifs with hmod
  · refine ⟨_,decodeFrom_newline (by omega) ?_ ?_,rfl⟩
    · simp [lineBuf]
    · simp [lineBuf]
  · exact ⟨[],rfl,by rw [List.append_nil]⟩

theorem getlines_line {line rest : List UInt8} (h : newline ∉ line) :
    getlines (line++newline::rest) = (line++[newline])::getlines rest := by
  induction line with
  | nil => simp [getlines]
  | cons b line ih =>
    have hb : b ≠ newline := fun hb => h (by simp [hb])
    have hline : newline ∉ line := fun hl => h (by simp [hl])
    simp only [List.cons_append,getlines,if_neg hb,ih hline]

theorem encodeFile_nil : encodeFile tbl [] = [] := by
  simp [encodeFile]

theorem turn {ifp : List UInt8} (hne : ifp ≠ []) (stale : ℕ → ℕ → UInt8) (n : ℕ) :
    ∃ extra : List UInt8, (extra = [] ↔ (ifp.take userBufBytesOne).length%3 ≠ 0) ∧
      decodeLines tbl stale n (getlines (encodeFile tbl ifp)) =
        ifp.take userBufBytesOne++extra++
          if ifp.length < userBufBytesOne then []
          else decodeLines tbl stale (n+1)
            (getlines (encodeFile tbl (ifp.drop userBufBytesOne))) := by
  have hbuf : ifp.take userBufBytesOne ≠ [] := by simp [hne,userBufBytesOne]
  have hle : (ifp.take userBufBytesOne).length ≤ userBufBytesOne := List.length_take_le _ _
  have hshort : (ifp.take userBufBytesOne).length < userBufBytesOne ↔
      ifp.length < userBufBytesOne := by
    rw [List.length_take]
    omega
  obtain ⟨enc,henc,hencNil,hnewline,hline⟩ :
    ∃ enc, base64Encode tbl (maxUserBufBytes-1) 0 (ifp.take userBufBytesOne) = some enc ∧ _ :=
      line_decodes hbuf hle
  obtain ⟨extra,hhead,hdecode⟩ := hline (stale n)
  have hextra : extra = [] ↔ (ifp.take userBufBytesOne).length%3 ≠ 0 := by
    rw [← List.head?_eq_none_iff,hhead]
    split_ifs with hmod
    · exact iff_of_false not_false (not_not_intro hmod)
    · exact iff_of_true rfl hmod
  have hout : ifp.take userBufBytesOne++extra ≠ [] := List.append_ne_nil_of_left_ne_nil hbuf _
  refine ⟨extra,hextra,?_⟩
  rw [encodeFile]
  simp only [dif_neg hbuf,henc,if_neg hencNil,hshort]
  split_ifs
  · rw [getlines_line hnewline,decodeLines,hdecode]
    simp only [Option.elim_some,if_neg hout,getlines,decodeLines]
  · rw [List.append_assoc,List.singleton_append,getlines_line hnewline,decodeLines,hdecode]
    simp only [Option.elim_some,if_neg hout]

/-- The lines that the encoder writes give the file back unless its last line is full of
characters without being full of bytes. -/
theorem decodeLines_encodeFile (stale : ℕ → ℕ → UInt8) (n : ℕ) (ifp : List UInt8) :
    decodeLines tbl stale n (getlines (encodeFile tbl ifp)) = ifp ↔
      ifp.length%16 = 0 ∨ ifp.length%16%3 ≠ 0 := by
  induction hm : ifp.length using Nat.strong_induction_on generalizing ifp n with
  | h m ih =>
    by_cases hnil : ifp = []
    · subst hnil
      simp [← hm,encodeFile_nil,getlines,decodeLines]
    · have hpos : 0 < ifp.length := List.length_pos_iff.mpr hnil
      obtain ⟨extra,hextra,hturn⟩ : ∃ extra, (extra = [] ↔ _) ∧ decodeLines tbl _ _ _ = _ :=
        turn hnil stale n
      rw [List.length_take] at hextra
      rw [hturn]
      by_cases hshort : ifp.length < userBufBytesOne
      · have hmod : m%16 = m := Nat.mod_eq_of_lt (hm ▸ hshort)
        rw [if_pos hshort,List.take_of_length_le hshort.le,List.append_nil,
          List.append_right_eq_self,hextra,Nat.min_eq_right hshort.le,hm,hmod]
        omega
      · rw [if_neg hshort]
        simp only [userBufBytesOne] at hshort hextra ⊢
        have hfull : extra = [] := hextra.mpr (by omega)
        have hih := ih (m-16) (by omega) (n+1) (ifp.drop 16) (by rw [List.length_drop,hm])
        have hsplit : ∀ xs, ifp.take 16++xs = ifp ↔ xs = ifp.drop 16 := by
          intro xs
          constructor
          · intro h
            exact List.append_cancel_left (h.trans (List.take_append_drop 16 ifp).symm)
          · rintro rfl
            exact List.take_append_drop 16 ifp
        have hmod : (m-16)%16 = m%16 := by omega
        rw [hfull,List.append_nil,hsplit,hih,hmod]

/-- Both tools, for every file and whatever the buffer holds: the file comes back exactly when
the bytes of its last line, if it is not full, are no multiple of three. -/
theorem round_trip_iff (tbl : Base64Char) (stale : ℕ → ℕ → UInt8) (ifp : List UInt8) :
    main tbl stale (main tbl stale ifp .encode) .decode = ifp ↔
      ifp.length%16 = 0 ∨ ifp.length%16%3 ≠ 0 :=
  decodeLines_encodeFile stale 0 ifp

/-- Three bytes come back as six. -/
theorem three_bytes_grow :
    main fileBase64Char (fun _ _ => 0) [1,2,3] .encode = [48,71,56,51,10] ∧
    main fileBase64Char (fun _ _ => 0) (main fileBase64Char (fun _ _ => 0) [1,2,3] .encode)
      .decode = [1,2,3,255,255,255] ∧
    main miscBase64Char (fun _ _ => 0) [1,2,3] .encode = [65,81,73,68,10] ∧
    main miscBase64Char (fun _ _ => 0) (main miscBase64Char (fun _ _ => 0) [1,2,3] .encode)
      .decode = [1,2,3,255,255,255] := by
  decide +kernel

end Base64File
end PcEnv
