import PcEnv.Base64File
import PcEnv.Runs

/-! `base64Encode` and `base64Decode` of `misc.c` over their buffers.
A `char` is signed and the counters are `int`s. Both functions store at `j++` only, so what they
store is a list that begins at the first byte of the output. -/
namespace PcEnv
namespace Base64

open Runs Sextets Word
open Base64File (pad miscBase64Char charAt)

def base64GetEncodeSafeOutBytes (x : ℕ) : ℕ := if x%3 ≠ 0 then (x/3+1)*4 else x/3*4
def base64GetDecodeSafeOutBytes (x : ℕ) : ℕ := sizeMul x 3/4

/-- What a call returns, as a `size_t`, and what it has stored. -/
structure Stored (A : Type) where
  ret : ℕ
  out : List A
  deriving DecidableEq, Repr

/-- `-1` as a `size_t`. -/
def failed : ℕ := sizeMod-1

def Stored.behind {A : Type} (before : List A) (s : Stored A) : Stored A :=
  { s with out := before++s.out }

def current0 (a : Int8) : Int8 := (a >>> (2 : Int8)) &&& (0x3F : Int8)
def current1 (a : Int8) : Int8 := (a <<< (4 : Int8)) &&& (0x30 : Int8)
def current1Or (a b : Int8) : Int8 := current1 a ||| ((b >>> (4 : Int8)) &&& (0x0F : Int8))
def current2 (b : Int8) : Int8 := (b <<< (2 : Int8)) &&& (0x3C : Int8)
def current2Or (b c : Int8) : Int8 := current2 b ||| ((c >>> (6 : Int8)) &&& (0x03 : Int8))
def current3 (c : Int8) : Int8 := c &&& (0x3F : Int8)

def bin0 (s t : Int8) : Int8 :=
  ((s <<< (2 : Int8)) &&& (0xFC : Int8)) ||| ((t >>> (4 : Int8)) &&& (0x03 : Int8))
def bin1 (t u : Int8) : Int8 :=
  ((t <<< (4 : Int8)) &&& (0xF0 : Int8)) ||| ((u >>> (2 : Int8)) &&& (0x0F : Int8))
def bin2 (u v : Int8) : Int8 :=
  ((u <<< (6 : Int8)) &&& (0xF0 : Int8)) ||| (v &&& (0x3F : Int8))

def base64Char (current : Int8) : UInt8 := charAt miscBase64Char current.toUInt8

def encodeFrom (baseSize : ℕ) : ℕ → ℕ → List Int8 → Except Halt (Stored UInt8)
  | _,j,[] => .ok ⟨j,[0]⟩
  | _,j,[a] =>
    if intMax < j+4 then .error .fault
    else if baseSize ≤ j+4 then .ok ⟨failed,[0]⟩
    else .ok ⟨j+4,[base64Char (current0 a),base64Char (current1 a),pad,pad,0]⟩
  | _,j,[a,b] =>
    if intMax < j+4 then .error .fault
    else if baseSize ≤ j+4 then .ok ⟨failed,[0]⟩
    else .ok ⟨j+4,[base64Char (current0 a),base64Char (current1Or a b),base64Char (current2 b),
      pad,0]⟩
  | i,j,a::b::c::bin =>
    if intMax < j+4 then .error .fault
    else if baseSize ≤ j+4 then .ok ⟨failed,[0]⟩
    else if intMax < i+3 then .error .fault
    else (encodeFrom baseSize (i+3) (j+4) bin).map (Stored.behind [base64Char (current0 a),
      base64Char (current1Or a b),base64Char (current2Or b c),base64Char (current3 c)])

def base64Encode (bin : List Int8) (baseSize : ℕ) : Except Halt (Stored UInt8) :=
  encodeFrom baseSize 0 0 bin

/-- `temp` for the character at `i`: its place in the table, `0xFF` without one. -/
def temp (base64 : ℕ → UInt8) (i : ℕ) : Int8 := (lookUp miscBase64Char.char (base64 i)).toInt8

/-- The loop of `base64Decode`. -/
def decodeFrom (base64 : ℕ → UInt8) (baseSize i : ℕ) : Except Halt (List Int8) :=
  if i < baseSize then
    let first := bin0 (temp base64 i) (temp base64 (i+1))
    if base64 (i+2) = pad then .ok [first]
    else
      let second := bin1 (temp base64 (i+1)) (temp base64 (i+2))
      if base64 (i+3) = pad then .ok [first,second]
      else
        let third := bin2 (temp base64 (i+2)) (temp base64 (i+3))
        if intMax < i+4 then .error .fault
        else (decodeFrom base64 baseSize (i+4)).map (fun out => first::second::third::out)
  else .ok []
termination_by baseSize-i

def base64Decode (base64 : ℕ → UInt8) (baseSize binSize : ℕ) : Except Halt (Stored Int8) :=
  if binSize < sizeMul (sizeSub (baseSize/4) 1) 3 then .ok ⟨failed,[]⟩
  else (decodeFrom base64 baseSize 0).map (fun out => ⟨out.length,out⟩)

def symbol (v : ℕ) : UInt8 :=
  if v < 26 then UInt8.ofNat (65+v) else if v < 52 then UInt8.ofNat (97+(v-26))
  else if v < 62 then UInt8.ofNat (48+(v-52)) else if v = 62 then 43 else 47

def digit (n k : ℕ) : UInt8 := symbol (n/64^k%64)

def number (a b c : UInt8) : ℕ := a.toNat*2^16+b.toNat*2^8+c.toNat

/-- The standard encoding: three octets are a number of 24 bits, which is written with four digits
to the base 64; a last group of one or two octets is filled up with zero bits and padded. -/
def standard : List UInt8 → List UInt8
  | [] => []
  | [a] => let n := number a 0 0; [digit n 3,digit n 2,pad,pad]
  | [a,b] => let n := number a b 0; [digit n 3,digit n 2,digit n 1,pad]
  | a::b::c::octets =>
    let n := number a b c
    digit n 3::digit n 2::digit n 1::digit n 0::standard octets

def octets (bin : List Int8) : List UInt8 := bin.map Int8.toUInt8

section

variable (a b c s t u v : Int8)

/-- Behind a mask that takes none of the copies of the sign, the shift of a `char` is that of an
octet. -/
theorem shiftRight_masked :
    ((a >>> (2 : Int8)) &&& (0x3F : Int8)).toUInt8 = (a.toUInt8 >>> (2 : UInt8)) &&& (0x3F : UInt8) ∧
    ((a >>> (2 : Int8)) &&& (0x0F : Int8)).toUInt8 = (a.toUInt8 >>> (2 : UInt8)) &&& (0x0F : UInt8) ∧
    ((a >>> (4 : Int8)) &&& (0x0F : Int8)).toUInt8 = (a.toUInt8 >>> (4 : UInt8)) &&& (0x0F : UInt8) ∧
    ((a >>> (4 : Int8)) &&& (0x03 : Int8)).toUInt8 = (a.toUInt8 >>> (4 : UInt8)) &&& (0x03 : UInt8) ∧
    ((a >>> (6 : Int8)) &&& (0x03 : Int8)).toUInt8 = (a.toUInt8 >>> (6 : UInt8)) &&& (0x03 : UInt8) := by
  refine ⟨?_,?_,?_,?_,?_⟩
  all_goals
    apply UInt8.eq_of_toBitVec_eq
    ext i hi
    interval_cases i <;> simp [BitVec.getElem_sshiftRight]

theorem shiftLeft_toUInt8 : (a <<< (2 : Int8)).toUInt8 = a.toUInt8 <<< (2 : UInt8) ∧
    (a <<< (4 : Int8)).toUInt8 = a.toUInt8 <<< (4 : UInt8) ∧
    (a <<< (6 : Int8)).toUInt8 = a.toUInt8 <<< (6 : UInt8) := ⟨rfl,rfl,rfl⟩

theorem current0_eq : (current0 a).toUInt8 = sextet0 a.toUInt8 := (shiftRight_masked a).1

theorem current1_eq : (current1 a).toUInt8 = sextet1 a.toUInt8 0 := by
  rw [current1,Int8.toUInt8_and,(shiftLeft_toUInt8 a).2.1,sextet1_zero]
  rfl

theorem current1Or_eq : (current1Or a b).toUInt8 = sextet1 a.toUInt8 b.toUInt8 := by
  rw [current1Or,Int8.toUInt8_or,current1_eq,sextet1_zero,(shiftRight_masked b).2.2.1,sextet1]

theorem current2_eq : (current2 b).toUInt8 = sextet2 b.toUInt8 0 := by
  rw [current2,Int8.toUInt8_and,(shiftLeft_toUInt8 b).1,sextet2_zero]
  rfl

theorem current2Or_eq : (current2Or b c).toUInt8 = sextet2 b.toUInt8 c.toUInt8 := by
  rw [current2Or,Int8.toUInt8_or,current2_eq,sextet2_zero,(shiftRight_masked c).2.2.2.2,sextet2]

theorem current3_eq : (current3 c).toUInt8 = sextet3 c.toUInt8 := by
  rw [current3,Int8.toUInt8_and]
  rfl

theorem bin0_eq : (bin0 s t).toUInt8 = octet0 s.toUInt8 t.toUInt8 := by
  rw [bin0,Int8.toUInt8_or,Int8.toUInt8_and,(shiftLeft_toUInt8 s).1,(shiftRight_masked t).2.2.2.1]
  rfl

theorem bin1_eq : (bin1 t u).toUInt8 = octet1 t.toUInt8 u.toUInt8 := by
  rw [bin1,Int8.toUInt8_or,Int8.toUInt8_and,(shiftLeft_toUInt8 t).2.1,(shiftRight_masked u).2.1]
  rfl

theorem bin2_eq : (bin2 u v).toUInt8 = octet2 u.toUInt8 v.toUInt8 := by
  rw [bin2,Int8.toUInt8_or,Int8.toUInt8_and,Int8.toUInt8_and,(shiftLeft_toUInt8 u).2.2]
  rfl

end

theorem symbol_eq {s : UInt8} (h : s.toNat < 64) : charAt miscBase64Char s = symbol s.toNat := by
  have hall : ∀ k < 64, miscBase64Char.char.getD k 0 = symbol k := by decide
  exact hall s.toNat h

section

variable (x y z : UInt8)

theorem charAt_sextet0 : charAt miscBase64Char (sextet0 x) = digit (number x y z) 3 := by
  have hx := x.toNat_lt
  have hy := y.toNat_lt
  have hz := z.toNat_lt
  rw [symbol_eq (sextet0_lt _),sextet0_toNat,digit,number]
  congr 1
  omega

theorem charAt_sextet1 : charAt miscBase64Char (sextet1 x y) = digit (number x y z) 2 := by
  have hy := y.toNat_lt
  have hz := z.toNat_lt
  rw [symbol_eq (sextet1_lt _ _),sextet1_toNat,digit,number]
  congr 1
  omega

theorem charAt_sextet2 : charAt miscBase64Char (sextet2 y z) = digit (number x y z) 1 := by
  have hz := z.toNat_lt
  rw [symbol_eq (sextet2_lt _ _),sextet2_toNat,digit,number]
  congr 1
  omega

theorem charAt_sextet3 : charAt miscBase64Char (sextet3 z) = digit (number x y z) 0 := by
  rw [symbol_eq (sextet3_lt _),sextet3_toNat,digit,number]
  congr 1
  omega

end

section

variable (a b c : Int8)

theorem standard_one : standard (octets [a]) =
    [base64Char (current0 a),base64Char (current1 a),pad,pad] := by
  rw [base64Char,base64Char,current0_eq,current1_eq,charAt_sextet0 _ 0 0,charAt_sextet1 _ 0 0]
  rfl

theorem standard_two : standard (octets [a,b]) =
    [base64Char (current0 a),base64Char (current1Or a b),base64Char (current2 b),pad] := by
  rw [base64Char,base64Char,base64Char,current0_eq,current1Or_eq,current2_eq,
    charAt_sextet0 _ b.toUInt8 0,charAt_sextet1 _ _ 0,charAt_sextet2 a.toUInt8 _ 0]
  rfl

theorem standard_group (bin : List Int8) : standard (octets (a::b::c::bin)) =
    [base64Char (current0 a),base64Char (current1Or a b),base64Char (current2Or b c),
      base64Char (current3 c)]++standard (octets bin) := by
  rw [base64Char,base64Char,base64Char,base64Char,current0_eq,current1Or_eq,current2Or_eq,
    current3_eq,charAt_sextet0 _ b.toUInt8 c.toUInt8,charAt_sextet1 _ _ c.toUInt8,
    charAt_sextet2 a.toUInt8 _ _,charAt_sextet3 a.toUInt8 b.toUInt8 _]
  rfl

end

theorem standard_length (octets : List UInt8) :
    (standard octets).length = (octets.length+2)/3*4 := by
  fun_induction standard octets with
  | case1 => rfl
  | case2 a n => simp
  | case3 a b n => simp
  | case4 a b c octets n ih =>
    simp only [List.length_cons,ih]
    omega

theorem octets_length (bin : List Int8) : (octets bin).length = bin.length := List.length_map _

/-- From `j` characters on: with room for the whole rest and a `NUL` it is encoded; else as many
groups as there is room for. -/
structure Encoded (baseSize j : ℕ) (bin : List Int8) (e : Stored UInt8) : Prop where
  whole : j+(bin.length+2)/3*4 < baseSize →
    e = ⟨j+(bin.length+2)/3*4,standard (octets bin)++[0]⟩
  part : baseSize ≤ j+(bin.length+2)/3*4 → ∃ k, j+4*k < baseSize ∧ baseSize ≤ j+4*(k+1) ∧
    e = ⟨failed,standard (octets (bin.take (3*k)))++[0]⟩

theorem Encoded.full {baseSize j : ℕ} {bin : List Int8} (hroom : j < baseSize)
    (hfull : baseSize ≤ j+4) (hne : bin ≠ []) : Encoded baseSize j bin ⟨failed,[0]⟩ := by
  have hpos := List.length_pos_iff.mpr hne
  refine ⟨by omega,fun _ => ⟨0,by omega,by omega,?_⟩⟩
  rw [Nat.mul_zero,List.take_zero]
  rfl

theorem Encoded.behind {baseSize j : ℕ} {bin : List Int8} {e : Stored UInt8}
    (h : Encoded baseSize (j+4) bin e) (a b c : Int8) :
    Encoded baseSize j (a::b::c::bin) (Stored.behind [base64Char (current0 a),
      base64Char (current1Or a b),base64Char (current2Or b c),base64Char (current3 c)] e) := by
  have hthird : ((a::b::c::bin).length+2)/3*4 = 4+(bin.length+2)/3*4 := by
    simp only [List.length_cons]
    omega
  constructor
  · intro hlt
    rw [hthird] at hlt ⊢
    rw [h.whole (by omega),standard_group,Stored.behind,← Nat.add_assoc,List.append_assoc]
  · intro hle
    rw [hthird] at hle
    obtain ⟨k,hlt,hmax,he⟩ := h.part (by omega)
    refine ⟨k+1,by omega,by omega,?_⟩
    rw [he,show 3*(k+1) = 3*k+1+1+1 by omega,List.take_succ_cons,List.take_succ_cons,
      List.take_succ_cons,standard_group,Stored.behind,List.append_assoc]

theorem encodeFrom_spec {baseSize i j : ℕ} {bin : List Int8} (hroom : j < baseSize)
    (hi : i+bin.length ≤ intMax) (hj : j+(bin.length+2)/3*4 ≤ intMax) :
    ∃ e, encodeFrom baseSize i j bin = .ok e ∧ Encoded baseSize j bin e := by
  fun_induction encodeFrom baseSize i j bin with
  | case1 i j => exact ⟨_,rfl,⟨fun _ => rfl,by simp; omega⟩⟩
  | case2 i j a hover => simp at hj; omega
  | case3 i j a hfits hfull => exact ⟨_,rfl,.full hroom hfull (by simp)⟩
  | case4 i j a hfits hless =>
    exact ⟨_,rfl,⟨fun _ => by simp [standard_one],by simp; omega⟩⟩
  | case5 i j a b hover => simp at hj; omega
  | case6 i j a b hfits hfull => exact ⟨_,rfl,.full hroom hfull (by simp)⟩
  | case7 i j a b hfits hless =>
    exact ⟨_,rfl,⟨fun _ => by simp [standard_two],by simp; omega⟩⟩
  | case8 i j a b c bin hover => simp at hj; omega
  | case9 i j a b c bin hfits hfull => exact ⟨_,rfl,.full hroom hfull (by simp)⟩
  | case10 i j a b c bin hfits hless hover =>
    simp only [List.length_cons] at hi
    omega
  | case11 i j a b c bin hfits hless hnext ih =>
    simp only [List.length_cons] at hi hj
    obtain ⟨e,he,hspec⟩ := ih (by omega) (by omega) (by omega)
    rw [he]
    exact ⟨_,rfl,hspec.behind a b c⟩

theorem safeOutBytes_eq (n : ℕ) : base64GetEncodeSafeOutBytes n = (n+2)/3*4 := by
  unfold base64GetEncodeSafeOutBytes
  split_ifs <;> omega

/-- With room for the whole text and its `NUL` the encoder stores the standard encoding; else it
fails with that of the first bytes, as many groups of them as leave room for the `NUL`. It never
stores past the end. -/
theorem encode_standard (bin : List Int8) (baseSize : ℕ) (hne : bin ≠ [])
    (hlen : bin.length < 2^30) (hbase : 1 ≤ baseSize) :
    ∃ e, base64Encode bin baseSize = .ok e ∧
      (e.ret ≠ failed ↔ 4*((bin.length+2)/3) < baseSize) ∧
      (4*((bin.length+2)/3) < baseSize →
        4*((bin.length+2)/3) = base64GetEncodeSafeOutBytes bin.length ∧
        e = ⟨4*((bin.length+2)/3),standard (octets bin)++[0]⟩) ∧
      (baseSize ≤ 4*((bin.length+2)/3) → ∃ k, 4*k < baseSize ∧
        (∀ k', 4*k' < baseSize → k' ≤ k) ∧
        e = ⟨failed,standard (octets (bin.take (3*k)))++[0]⟩) ∧
      e.out.length ≤ baseSize := by
  have hsafe : (bin.length+2)/3*4 = 4*((bin.length+2)/3) := Nat.mul_comm _ _
  have hmax : 2^30*2-1 = intMax := by decide
  have hpos := List.length_pos_iff.mpr hne
  obtain ⟨e,he,hspec⟩ : ∃ e, encodeFrom baseSize 0 0 bin = .ok e ∧ _ :=
    encodeFrom_spec hbase (by omega) (by omega)
  have hwhole := hspec.whole
  have hpart := hspec.part
  rw [Nat.zero_add,hsafe] at hwhole hpart
  refine ⟨e,he,?_,fun hlt => ⟨?_,hwhole hlt⟩,?_,?_⟩
  · constructor
    · intro hok
      by_contra hle
      obtain ⟨k,-,-,rfl⟩ := hpart (by omega)
      exact hok rfl
    · intro hlt hfail
      rw [hwhole hlt] at hfail
      have hbig : intMax < failed := by decide
      simp only at hfail
      omega
  · rw [safeOutBytes_eq,hsafe]
  · intro hle
    obtain ⟨k,hlt,hmost,rfl⟩ := hpart hle
    exact ⟨k,by omega,fun k' hk' => by omega,rfl⟩
  · by_cases hlt : 4*((bin.length+2)/3) < baseSize
    · rw [hwhole hlt,List.length_append,standard_length,octets_length]
      simp only [List.length_singleton]
      omega
    · obtain ⟨k,hk,-,rfl⟩ := hpart (by omega)
      rw [List.length_append,standard_length,octets_length,List.length_take]
      simp only [List.length_singleton]
      omega

theorem encode_standard_man :
    base64Encode [77,97,-1] 5 = .ok ⟨4,[84,87,72,47,0]⟩ ∧
      standard [77,97,255] = [84,87,72,47] := by
  obtain ⟨e,he,-,hwhole,-⟩ := encode_standard [77,97,-1] 5 (by decide) (by decide) (by decide)
  have hstd : standard (octets [77,97,-1]) = [84,87,72,47] := by decide
  rw [he,(hwhole (by decide)).2,hstd]
  exact ⟨rfl,hstd⟩

section

variable {base64 : ℕ → UInt8} {i : ℕ} {a b c cur : Int8}

theorem toUInt8_injective : Function.Injective Int8.toUInt8 := fun a b h => by
  rw [← Int8.toInt8_toUInt8 a,h,Int8.toInt8_toUInt8]

theorem current1_eq_or (a : Int8) : current1 a = current1Or a 0 := by
  apply toUInt8_injective
  rw [current1_eq,current1Or_eq]
  rfl

theorem current2_eq_or (b : Int8) : current2 b = current2Or b 0 := by
  apply toUInt8_injective
  rw [current2_eq,current2Or_eq]
  rfl

theorem temp_base64Char (hcur : cur.toUInt8.toNat < 64) (h : base64 i = base64Char cur) :
    (temp base64 i).toUInt8 = cur.toUInt8 := by
  rw [temp,h,base64Char,Base64File.lookUp_charAt hcur]
  rfl

theorem bin0_group (h0 : base64 i = base64Char (current0 a))
    (h1 : base64 (i+1) = base64Char (current1Or a b)) :
    bin0 (temp base64 i) (temp base64 (i+1)) = a := by
  have hs := temp_base64Char (by rw [current0_eq]; exact sextet0_lt _) h0
  have ht := temp_base64Char (by rw [current1Or_eq]; exact sextet1_lt _ _) h1
  apply toUInt8_injective
  rw [bin0_eq,hs,ht,current0_eq,current1Or_eq,octet0_sextets]

theorem bin1_group (h1 : base64 (i+1) = base64Char (current1Or a b))
    (h2 : base64 (i+2) = base64Char (current2Or b c)) :
    bin1 (temp base64 (i+1)) (temp base64 (i+2)) = b := by
  have ht := temp_base64Char (by rw [current1Or_eq]; exact sextet1_lt _ _) h1
  have hu := temp_base64Char (by rw [current2Or_eq]; exact sextet2_lt _ _) h2
  apply toUInt8_injective
  rw [bin1_eq,ht,hu,current1Or_eq,current2Or_eq,octet1_sextets]

theorem bin2_group (h2 : base64 (i+2) = base64Char (current2Or b c))
    (h3 : base64 (i+3) = base64Char (current3 c)) :
    bin2 (temp base64 (i+2)) (temp base64 (i+3)) = c := by
  have hu := temp_base64Char (by rw [current2Or_eq]; exact sextet2_lt _ _) h2
  have hv := temp_base64Char (by rw [current3_eq]; exact sextet3_lt _) h3
  apply toUInt8_injective
  rw [bin2_eq,hu,hv,current2Or_eq,current3_eq,octet2_sextets]

theorem current2Or_ne_pad (b c : Int8) : base64Char (current2Or b c) ≠ pad :=
  Base64File.charAt_ne_pad (by rw [current2Or_eq]; exact sextet2_lt _ _)

theorem current3_ne_pad (c : Int8) : base64Char (current3 c) ≠ pad :=
  Base64File.charAt_ne_pad (by rw [current3_eq]; exact sextet3_lt _)

variable {baseSize : ℕ}

theorem decodeFrom_one (hi : i < baseSize) (h0 : base64 i = base64Char (current0 a))
    (h1 : base64 (i+1) = base64Char (current1 a)) (h2 : base64 (i+2) = pad) :
    decodeFrom base64 baseSize i = .ok [a] := by
  rw [current1_eq_or] at h1
  rw [decodeFrom,if_pos hi]
  simp only [bin0_group h0 h1,if_pos h2]

theorem decodeFrom_two (hi : i < baseSize) (h0 : base64 i = base64Char (current0 a))
    (h1 : base64 (i+1) = base64Char (current1Or a b)) (h2 : base64 (i+2) = base64Char (current2 b))
    (h3 : base64 (i+3) = pad) : decodeFrom base64 baseSize i = .ok [a,b] := by
  rw [current2_eq_or] at h2
  have hno : base64 (i+2) ≠ pad := h2 ▸ current2Or_ne_pad b 0
  rw [decodeFrom,if_pos hi]
  simp only [bin0_group h0 h1,bin1_group h1 h2,if_neg hno,if_pos h3]

theorem decodeFrom_group (hi : i < baseSize) (h0 : base64 i = base64Char (current0 a))
    (h1 : base64 (i+1) = base64Char (current1Or a b))
    (h2 : base64 (i+2) = base64Char (current2Or b c)) (h3 : base64 (i+3) = base64Char (current3 c))
    (hmax : i+4 ≤ intMax) :
    decodeFrom base64 baseSize i =
      (decodeFrom base64 baseSize (i+4)).map (fun out => a::b::c::out) := by
  have hno2 : base64 (i+2) ≠ pad := h2 ▸ current2Or_ne_pad b c
  have hno3 : base64 (i+3) ≠ pad := h3 ▸ current3_ne_pad c
  rw [decodeFrom,if_pos hi]
  simp only [bin0_group h0 h1,bin1_group h1 h2,bin2_group h2 h3,if_neg hno2,if_neg hno3,
    if_neg (not_lt.mpr hmax)]

end

theorem decodeFrom_standard {base64 : ℕ → UInt8} {baseSize : ℕ} (hmax : baseSize ≤ intMax) :
    ∀ (bin : List Int8) (i : ℕ), (∀ p c, (standard (octets bin))[p]? = some c → base64 (i+p) = c) →
      i+(standard (octets bin)).length = baseSize → decodeFrom base64 baseSize i = .ok bin
  | [],i,_,hend => by
    have hdone : ¬ i < baseSize := by simp [octets,standard] at hend; omega
    rw [decodeFrom,if_neg hdone]
  | [a],i,htext,hend => by
    rw [standard_one] at htext hend
    have hi : i < baseSize := by simp at hend; omega
    exact decodeFrom_one hi (htext 0 _ rfl) (htext 1 _ rfl) (htext 2 _ rfl)
  | [a,b],i,htext,hend => by
    rw [standard_two] at htext hend
    have hi : i < baseSize := by simp at hend; omega
    exact decodeFrom_two hi (htext 0 _ rfl) (htext 1 _ rfl) (htext 2 _ rfl) (htext 3 _ rfl)
  | a::b::c::bin,i,htext,hend => by
    rw [standard_group] at htext hend
    have hrest : ∀ p c, (standard (octets bin))[p]? = some c → base64 (i+4+p) = c := by
      intro p c hp
      rw [show i+4+p = i+(p+4) by omega]
      exact htext (p+4) c hp
    rw [List.length_append] at hend
    simp only [List.length_cons,List.length_nil] at hend
    have hnext := decodeFrom_standard hmax bin (i+4) hrest (by omega)
    have hturn : decodeFrom base64 baseSize i = _ := decodeFrom_group (by omega) (htext 0 _ rfl)
      (htext 1 _ rfl) (htext 2 _ rfl) (htext 3 _ rfl) (by omega)
    rw [hturn,hnext]
    rfl

theorem decode_room {n binSize : ℕ} (h : n ≤ binSize) (hlen : n < 2^30) (hpos : 0 < n) :
    ¬ binSize < sizeMul (sizeSub ((n+2)/3*4/4) 1) 3 := by
  have hmod : sizeMod = 2^64 := rfl
  rw [sizeSub_eq (by omega) (by omega),sizeMul_eq (by omega)]
  omega

/-- The encoder's text is decoded whatever lies behind it, into every output that has room for the
bytes. -/
theorem decode_encode (bin : List Int8) (hne : bin ≠ []) (hlen : bin.length < 2^30)
    (baseSize : ℕ) (hbase : 4*((bin.length+2)/3) < baseSize) :
    ∃ e, base64Encode bin baseSize = .ok e ∧ e.ret ≠ failed ∧
      ∀ base64 : ℕ → UInt8, (∀ p c, e.out[p]? = some c → base64 p = c) →
        ∀ binSize, bin.length ≤ binSize →
          base64Decode base64 e.ret binSize = .ok ⟨bin.length,bin⟩ := by
  have hmax : 2^30*2-1 = intMax := by decide
  have hfar : intMax < failed := by decide
  have hpos := List.length_pos_iff.mpr hne
  obtain ⟨e,he,hspec⟩ : ∃ e, encodeFrom baseSize 0 0 bin = .ok e ∧ _ :=
    encodeFrom_spec (by omega) (by omega) (by omega)
  have hwhole := hspec.whole (by omega)
  rw [Nat.zero_add] at hwhole
  refine ⟨e,he,?_,?_⟩
  · rw [hwhole]
    simp only [ne_eq]
    omega
  · intro base64 hbase64 binSize hbin
    rw [hwhole] at hbase64 ⊢
    have htext : ∀ p c, (standard (octets bin))[p]? = some c → base64 (0+p) = c := by
      intro p c hp
      rw [Nat.zero_add]
      exact hbase64 p c (List.getElem?_append_left (List.getElem?_eq_some_iff.mp hp).1 ▸ hp)
    have hend : 0+(standard (octets bin)).length = (bin.length+2)/3*4 := by
      rw [Nat.zero_add,standard_length,octets_length]
    have hdec := decodeFrom_standard (by omega) bin 0 htext hend
    rw [base64Decode,if_neg (decode_room hbin hlen hpos),hdec]
    rfl

theorem decode_encode_man : ∃ base64 : ℕ → UInt8,
    base64Encode [77,97,-1] 5 = .ok ⟨4,[84,87,72,47,0]⟩ ∧
      base64Decode base64 4 3 = .ok ⟨3,[77,97,-1]⟩ := by
  obtain ⟨e,he,-,hdec⟩ := decode_encode [77,97,-1] (by decide) (by decide) 5 (by decide)
  have hman : base64Encode [77,97,-1] 5 = .ok ⟨4,[84,87,72,47,0]⟩ := by decide
  obtain rfl : Stored.mk 4 [84,87,72,47,0] = e := by
    rw [hman] at he
    exact Except.ok.inj he
  refine ⟨fun p => [84,87,72,47,0].getD p 0,hman,hdec _ ?_ 3 (by decide)⟩
  intro p c hp
  rw [List.getD_eq_getElem?_getD,hp]
  rfl

/-- Symbols in groups of four, the last group with up to two `=` at its end. -/
structure Padded where
  body : List UInt8
  pads : ℕ
  symbols : ∀ c ∈ body, c ∈ miscBase64Char.char
  pads_le : pads ≤ 2
  groups : (body.length+pads)%4 = 0
  fits : body.length+pads < sizeMod

def Padded.chars (text : Padded) : List UInt8 := text.body++List.replicate text.pads pad

/-- How many bytes the text stands for. -/
def Padded.decoded (text : Padded) : ℕ := text.chars.length/4*3-text.pads

/-- The text at the begin of what a caller's buffer holds. -/
def Padded.within (text : Padded) (behind : ℕ → UInt8) (p : ℕ) : UInt8 :=
  text.chars.getD p (behind p)

/-- The call comes back, without a byte past the end of the output, and refuses only what does not
fit. -/
def Respects (text : Padded) (behind : ℕ → UInt8) (binSize : ℕ) : Prop :=
  ∃ e, base64Decode (text.within behind) text.chars.length binSize = .ok e ∧
    ((e.ret = failed ∧ e.out = []) ∨ e.out.length ≤ binSize) ∧
    (e.ret = failed → binSize < text.decoded)

/-- The first test counts all groups but the last one: for the empty text it wraps around, and a
text that passes has to fit with its last group too. -/
def Padded.Room (text : Padded) (binSize : ℕ) : Prop :=
  if text.chars = [] then sizeMod-3 ≤ binSize
  else binSize < (text.chars.length/4-1)*3 ∨ (text.decoded ≤ binSize ∧ text.body.length ≤ intMax)

section

variable (text : Padded) (behind : ℕ → UInt8)

theorem Padded.chars_length : text.chars.length = text.body.length+text.pads := by
  rw [chars,List.length_append,List.length_replicate]

theorem Padded.decoded_eq : text.decoded = text.body.length*3/4 := by
  have hpads := text.pads_le
  have hgroups := text.groups
  rw [decoded,text.chars_length]
  omega

theorem pad_notMem : pad ∉ miscBase64Char.char := by decide

theorem Padded.within_eq_pad {p : ℕ} (hp : p < text.chars.length) :
    text.within behind p = pad ↔ text.body.length ≤ p := by
  rw [within,List.getD_eq_getElem?_getD,List.getElem?_eq_getElem hp,Option.getD_some]
  simp only [chars] at hp ⊢
  constructor
  · intro hpad
    by_contra hbody
    rw [List.getElem_append_left (by omega)] at hpad
    exact pad_notMem (hpad ▸ text.symbols _ (List.getElem_mem _))
  · intro hbody
    rw [List.getElem_append_right hbody,List.getElem_replicate]

theorem decodeFrom_length (i : ℕ) (hfour : i%4 = 0) (hi : i ≤ text.body.length)
    (hmax : i ≤ intMax) :
    (text.body.length ≤ intMax → ∃ out,
      decodeFrom (text.within behind) text.chars.length i = .ok out ∧
        out.length = (text.body.length-i)*3/4) ∧
    (intMax < text.body.length →
      decodeFrom (text.within behind) text.chars.length i = .error .fault) := by
  have hpads := text.pads_le
  have hgroups := text.groups
  have hlen := text.chars_length
  have hint : intMax = 2^31-1 := rfl
  fun_induction decodeFrom (text.within behind) text.chars.length i with
  | case1 i hlt first hpad =>
    rw [text.within_eq_pad behind (by omega)] at hpad
    refine ⟨fun _ => ⟨_,rfl,?_⟩,by omega⟩
    rw [List.length_singleton]
    omega
  | case2 i hlt first hno second hpad =>
    rw [text.within_eq_pad behind (by omega)] at hno hpad
    refine ⟨fun _ => ⟨_,rfl,?_⟩,by omega⟩
    rw [List.length_cons,List.length_singleton]
    omega
  | case3 i hlt hno hno3 hover =>
    rw [text.within_eq_pad behind (by omega)] at hno3
    exact ⟨by omega,fun _ => rfl⟩
  | case4 i hlt first hno second hno3 third hnext ih =>
    rw [text.within_eq_pad behind (by omega)] at hno3
    obtain ⟨hok,hfault⟩ := ih (by omega) (by omega) (by omega)
    constructor
    · intro hbody
      obtain ⟨out,hout,houtlen⟩ := hok hbody
      rw [hout]
      refine ⟨_,rfl,?_⟩
      simp only [List.length_cons]
      omega
    · intro hbody
      rw [hfault hbody]
      rfl
  | case5 i hdone =>
    refine ⟨fun _ => ⟨_,rfl,?_⟩,by omega⟩
    rw [List.length_nil]
    omega

theorem decodeFrom_out {out : List Int8}
    (h : decodeFrom (text.within behind) text.chars.length 0 = .ok out) :
    text.body.length ≤ intMax ∧ out.length = text.decoded := by
  obtain ⟨hok,hfault⟩ := decodeFrom_length text behind 0 rfl (by omega) (by omega)
  by_cases hbody : text.body.length ≤ intMax
  · obtain ⟨out',hout',hlen⟩ := hok hbody
    rw [h] at hout'
    obtain rfl := Except.ok.inj hout'
    rw [text.decoded_eq]
    exact ⟨hbody,hlen⟩
  · rw [hfault (by omega)] at h
    exact absurd h (by simp)

theorem decodeFrom_returns (hbody : text.body.length ≤ intMax) :
    ∃ out, decodeFrom (text.within behind) text.chars.length 0 = .ok out ∧
      out.length = text.decoded := by
  obtain ⟨out,hout,-⟩ := (decodeFrom_length text behind 0 rfl (by omega) (by omega)).1 hbody
  exact ⟨out,hout,(decodeFrom_out text behind hout).2⟩

theorem respects_of_passed {binSize : ℕ}
    (hpass : ¬ binSize < sizeMul (sizeSub (text.chars.length/4) 1) 3) :
    Respects text behind binSize ↔ text.decoded ≤ binSize ∧ text.body.length ≤ intMax := by
  have hsmall : intMax < failed := by decide
  constructor
  · rintro ⟨e,he,hout,hfail⟩
    rw [base64Decode,if_neg hpass] at he
    cases hdec : decodeFrom (text.within behind) text.chars.length 0 with
    | error h =>
      rw [hdec] at he
      simp [Except.map] at he
    | ok out =>
      rw [hdec] at he
      obtain rfl := Except.ok.inj he
      obtain ⟨hbody,hlen⟩ := decodeFrom_out text behind hdec
      rw [text.decoded_eq] at hlen ⊢
      simp only at hout
      omega
  · rintro ⟨hroom,hbody⟩
    obtain ⟨out,hout,hlen⟩ := decodeFrom_returns text behind hbody
    refine ⟨⟨out.length,out⟩,?_,Or.inr (by rw [hlen]; exact hroom),?_⟩
    · rw [base64Decode,if_neg hpass,hout]
      rfl
    · intro hfail
      rw [text.decoded_eq] at hlen
      simp only at hfail
      omega

theorem respects_of_refused {binSize : ℕ}
    (hrefused : binSize < sizeMul (sizeSub (text.chars.length/4) 1) 3) :
    Respects text behind binSize ↔ binSize < text.decoded := by
  have hdec : base64Decode (text.within behind) text.chars.length binSize = .ok ⟨failed,[]⟩ := by
    rw [base64Decode,if_pos hrefused]
  constructor
  · rintro ⟨e,he,-,hfail⟩
    rw [hdec] at he
    obtain rfl := Except.ok.inj he
    exact hfail rfl
  · intro hless
    exact ⟨_,hdec,Or.inl ⟨rfl,rfl⟩,fun _ => hless⟩

/-- The output size is respected exactly where the first test is right about the text. -/
theorem decode_respects_iff (binSize : ℕ) :
    Respects text behind binSize ↔ text.Room binSize := by
  have hmod : sizeMod = 2^64 := rfl
  have hfits := text.fits
  have hgroups := text.groups
  have hpads := text.pads_le
  have hlen := text.chars_length
  have hdecoded := text.decoded_eq
  unfold Padded.Room
  split_ifs with hempty
  · have hzero : text.chars.length = 0 := by rw [hempty]; rfl
    have hwrap : sizeMul (sizeSub (text.chars.length/4) 1) 3 = sizeMod-3 := by
      rw [hzero]
      rfl
    by_cases hpass : binSize < sizeMul (sizeSub (text.chars.length/4) 1) 3
    · rw [respects_of_refused text behind hpass]
      omega
    · rw [respects_of_passed text behind hpass]
      omega
  · have hpos := List.length_pos_iff.mpr hempty
    have hexact : sizeMul (sizeSub (text.chars.length/4) 1) 3 = (text.chars.length/4-1)*3 := by
      rw [sizeSub_eq (by omega) (by omega),sizeMul_eq (by omega)]
    by_cases hpass : binSize < sizeMul (sizeSub (text.chars.length/4) 1) 3
    · rw [respects_of_refused text behind hpass]
      omega
    · rw [respects_of_passed text behind hpass]
      omega

/-- The size that `misc.h` names for the output is enough. -/
theorem respects_safeOutBytes {binSize : ℕ} (hne : text.chars ≠ [])
    (hmax : text.chars.length ≤ intMax)
    (hsafe : base64GetDecodeSafeOutBytes text.chars.length ≤ binSize) :
    ∃ out, base64Decode (text.within behind) text.chars.length binSize = .ok ⟨out.length,out⟩ ∧
      out.length = text.decoded ∧ out.length ≤ binSize := by
  have hmod : sizeMod = 2^64 := rfl
  have hint : intMax = 2^31-1 := rfl
  have hpos := List.length_pos_iff.mpr hne
  have hlen := text.chars_length
  have hgroups := text.groups
  have hdecoded := text.decoded_eq
  rw [base64GetDecodeSafeOutBytes,sizeMul_eq (by omega)] at hsafe
  have hpass : ¬ binSize < sizeMul (sizeSub (text.chars.length/4) 1) 3 := by
    rw [sizeSub_eq (by omega) (by omega),sizeMul_eq (by omega)]
    omega
  obtain ⟨out,hout,houtlen⟩ := decodeFrom_returns text behind (by omega)
  refine ⟨out,?_,houtlen,by omega⟩
  rw [base64Decode,if_neg hpass,hout]
  rfl

end

def zeros : Padded where
  body := [65,65,65,65]
  pads := 0
  symbols := by
    intro c hc
    obtain rfl : c = 65 := List.eq_of_mem_replicate (n:=4) hc
    exact List.mem_cons_self
  pads_le := Nat.zero_le _
  groups := rfl
  fits := by decide

theorem respects_safeOutBytes_zeros : ∃ out, base64Decode (zeros.within fun _ => 0) 4 3 =
    .ok ⟨out.length,out⟩ ∧ out.length = zeros.decoded ∧ out.length ≤ 3 :=
  respects_safeOutBytes zeros (fun _ => 0) (by decide) (by decide) (by decide)

/-- The text stands for three bytes, and an output of two is not refused. -/
theorem last_group_past_end : zeros.decoded = 3 ∧ ∀ behind, ¬ Respects zeros behind 2 := by
  refine ⟨rfl,fun behind => ?_⟩
  rw [respects_of_passed _ _ (by decide)]
  decide

end Base64
end PcEnv
