import PcEnv.AmfFormat

/-! What `amf_load` reads after the switch to AMF3. -/
namespace PcEnv
namespace Amf

def groups (n : ℕ) (bytes : List UInt8) : ℕ :=
  bytes.foldl (fun n b => 128*n+b.toNat % 128) n

/-- The bytes of an integer of at most `k` bytes after `value`: all but the last have their high
bit, and the `k`-th counts with all its bits. -/
structure Amf3Bytes (k value : ℕ) (w : List UInt8) (n : ℕ) : Prop where
  split : ∃ hi b, w = hi++[b] ∧ (∀ c ∈ hi, 128 ≤ c.toNat) ∧
    (hi.length+1 = k ∧ n = 256*groups value hi+b.toNat ∨
      hi.length+1 < k ∧ b.toNat < 128 ∧ n = 128*groups value hi+b.toNat)

/-- The bytes that stand for a value in AMF3. An integer is its type byte. -/
inductive Form3 : List UInt8 → AMFValue → Prop
  | string {len s : List UInt8} {n : ℕ} (hlen : Amf3Bytes 4 0 len n) (hs : s.length = n/2) :
      Form3 (amf3String::(len++s)) (.string s)
  | integer : Form3 [amf3Integer] (.integer 4)
  | false : Form3 [amf3False] (.boolean false)
  | true : Form3 [amf3True] (.boolean true)
  | null : Form3 [amf3Null] .null
  | undefined : Form3 [amf3Undefined] .undefined

section

variable {dec dec' : Decoder} {b : UInt8} {k value n : ℕ}

theorem getByte3_ok_iff (hv : dec.version = 3) :
    getByte dec = .ok (b,dec') ↔ Took dec [b] dec' := by
  rw [took_one_iff]
  constructor
  · intro h
    rcases getByte_cases h with ⟨hp,-,rfl⟩ | ⟨hz,-⟩
    · exact ⟨hp,rfl⟩
    · omega
  · rintro ⟨hp,rfl⟩
    exact getByte_plain hp (Or.inl (by omega))

theorem groups_cons (value : ℕ) (b : UInt8) (hi : List UInt8) :
    groups value (b::hi) = groups (128*value+b.toNat % 128) hi := rfl

theorem amf3Loop_ok_iff (hv : dec.version = 3) :
    amf3Loop (k+1) value dec = .ok (n,dec') ↔
      ∃ w, Amf3Bytes (k+1) value w n ∧ Took dec w dec' := by
  induction k generalizing value dec with
  | zero =>
    rw [amf3Loop,bind_ok_iff]
    constructor
    · rintro ⟨⟨b,d⟩,hb,h⟩
      cases h
      exact ⟨[b],⟨[],b,rfl,by simp,Or.inl ⟨rfl,rfl⟩⟩,(getByte3_ok_iff hv).mp hb⟩
    · rintro ⟨_,⟨hi,b,rfl,-,⟨hk,rfl⟩ | ⟨hk,-⟩⟩,ht⟩
      · obtain rfl : hi = [] := List.eq_nil_of_length_eq_zero (by omega)
        exact ⟨(b,dec'),(getByte3_ok_iff hv).mpr ht,rfl⟩
      · omega
  | succ k ih =>
    rw [amf3Loop,bind_ok_iff]
    constructor
    · rintro ⟨⟨b,d⟩,hb,h⟩
      have ht := (getByte3_ok_iff hv).mp hb
      simp only [if_neg (Nat.succ_ne_zero k)] at h
      split_ifs at h with hlt
      · cases h
        have hmod : b.toNat % 128 = b.toNat := Nat.mod_eq_of_lt hlt
        exact ⟨[b],⟨[],b,rfl,by simp,Or.inr ⟨by simp,hlt,by rw [hmod]; rfl⟩⟩,ht⟩
      · obtain ⟨_,⟨hi,c,rfl,hhi,hlast⟩,hrest⟩ := (ih (ht.version.trans hv)).mp h
        refine ⟨b::(hi++[c]),⟨b::hi,c,rfl,?_,?_⟩,took_cons_iff.mpr ⟨d,ht,hrest⟩⟩
        · exact List.forall_mem_cons.mpr ⟨not_lt.mp hlt,hhi⟩
        · rw [List.length_cons,groups_cons]
          simpa using hlast
    · rintro ⟨_,⟨hi,c,rfl,hhi,hlast⟩,ht⟩
      cases hi with
      | nil =>
        obtain ⟨hk,-⟩ | ⟨-,hlt,rfl⟩ := hlast
        · simp at hk
        · refine ⟨(c,dec'),(getByte3_ok_iff hv).mpr ht,?_⟩
          have hmod : c.toNat % 128 = c.toNat := Nat.mod_eq_of_lt hlt
          simp only [if_neg (Nat.succ_ne_zero k),if_pos hlt,hmod]
          rfl
      | cons b hi =>
        obtain ⟨d,hb,hrest⟩ := took_cons_iff.mp ht
        obtain ⟨hge,hhi⟩ := List.forall_mem_cons.mp hhi
        refine ⟨(b,d),(getByte3_ok_iff hv).mpr hb,?_⟩
        simp only [if_neg (Nat.succ_ne_zero k),if_neg (not_lt.mpr hge)]
        refine (ih (hb.version.trans hv)).mpr ⟨hi++[c],⟨hi,c,rfl,hhi,?_⟩,hrest⟩
        rw [List.length_cons,groups_cons] at hlast
        simpa using hlast

theorem amfLoadString3_ok_iff {s : List UInt8} (hv : dec.version = 3) (hp : peek dec = .ok amf3String) :
    amfLoadString dec = .ok (s,dec') ↔ ∃ w, Form3 w (.string s) ∧ Took dec w dec' := by
  have hbyte : Took dec [amf3String] (dec.advance 1) := took_one_iff.mpr ⟨hp,rfl⟩
  have hthree : (dec.advance 1).version = 3 := hv
  rw [amfLoadString,(getByte3_ok_iff hv).mpr hbyte]
  simp only [bind,Except.bind,if_pos hthree,ne_eq,not_true_eq_false,if_false]
  constructor
  · intro h
    obtain ⟨⟨n,d⟩,hn,h⟩ := bind_ok_iff.mp h
    obtain ⟨len,hlen,ht⟩ := (amf3Loop_ok_iff hthree).mp hn
    obtain ⟨hs,ht'⟩ := getChars_ok_iff.mp h
    exact ⟨_,.string hlen hs,took_cons_iff.mpr ⟨_,hbyte,ht.append ht'⟩⟩
  · rintro ⟨_,hform,ht⟩
    cases hform with
    | string hlen hs =>
    obtain ⟨d,hd,ht⟩ := took_cons_iff.mp ht
    obtain rfl := hd.eq
    obtain ⟨e,he,ht⟩ := took_append_iff.mp ht
    exact bind_ok_iff.mpr ⟨(_,e),(amf3Loop_ok_iff hthree).mpr ⟨_,hlen,he⟩,
      getChars_ok_iff.mpr ⟨hs,ht⟩⟩

theorem loadAmf3Integer_small (hv : dec.version = 3) (hp : peek dec = .ok b)
    (hb : b.toNat < 128) : loadAmf3Integer dec = .ok (b.toNat,dec.advance 1) := by
  refine (amf3Loop_ok_iff hv).mpr ⟨[b],⟨[],b,rfl,by simp,Or.inr ⟨by decide,hb,?_⟩⟩,
    took_one_iff.mpr ⟨hp,rfl⟩⟩
  exact (Nat.zero_add _).symm

theorem typed_throws {α : Type} {f : UInt8 × Decoder → Except Exn (α × Decoder)} {e : Exn}
    (hv : dec.version = 3) (hp : peek dec = .ok b) (h : ∀ d, f (b,d) = .error e) :
    getByte dec >>= f = .error e := by
  rw [getByte_plain hp (Or.inl (by omega))]
  exact h _

end

/-- After the switch every integer is 4, and numbers, objects and arrays are not accepted. -/
theorem amfLoad3_iff (buf : List UInt8) (pos n : ℕ) (v : AMFValue) (dec' : Decoder) :
    amfLoad (n+1) ⟨buf,pos,3⟩ = .ok (v,dec') ↔
      ∃ w, Form3 w v ∧ Took ⟨buf,pos,3⟩ w dec' := by
  obtain ⟨dec,hdec⟩ : ∃ dec : Decoder, dec = ⟨buf,pos,3⟩ := ⟨_,rfl⟩
  rw [← hdec]
  have hv : dec.version = 3 := by rw [hdec]
  rw [amfLoad,bind_ok_iff]
  simp only [if_pos hv]
  constructor
  · rintro ⟨type,hp,h⟩
    have htag {x : AMFValue} (hx : Form3 [type] x)
        (h : (.ok (x,dec.advance 1) : Except Exn (AMFValue × Decoder)) = .ok (v,dec')) :
        ∃ w, Form3 w v ∧ Took dec w dec' := by
      cases h
      exact ⟨[type],hx,took_one_iff.mpr ⟨hp,rfl⟩⟩
    split_ifs at h with hstring hnumber hint hfalse htrue hobject harray hnull hundefined
    · obtain ⟨⟨s,d⟩,hs,h⟩ := map_ok_iff.mp h
      cases h
      exact (amfLoadString3_ok_iff hv (hstring ▸ hp)).mp hs
    · rw [amfLoadNumber,typed_throws hv hp (e:=.runtimeError "Expected a string")] at h
      · cases h
      · intro d
        rw [hnumber]
        rfl
    · rw [loadAmf3Integer_small hv hp (by rw [hint]; decide)] at h
      subst hint
      exact htag .integer h
    · exact htag (hfalse ▸ .false) h
    · exact htag (htrue ▸ .true) h
    · rw [loadObjectWith,typed_throws hv hp (e:=.runtimeError "Expected an object")] at h
      · cases h
      · intro d
        rw [hobject]
        rfl
    · rw [loadEcmaWith,typed_throws hv hp (e:=.runtimeError "Expected an ECMA array")] at h
      · cases h
      · intro d
        rw [harray]
        rfl
    · exact htag (hnull ▸ .null) h
    · exact htag (hundefined ▸ .undefined) h
  · rintro ⟨w,hform,ht⟩
    cases hform with
    | @string len s n hlen hs =>
      have hp := peek_took ht
      refine ⟨amf3String,hp,?_⟩
      rw [if_pos rfl,(amfLoadString3_ok_iff hv hp).mpr ⟨_,.string hlen hs,ht⟩]
      rfl
    | integer =>
      have hp := peek_took ht
      refine ⟨amf3Integer,hp,?_⟩
      rw [if_neg (by decide),if_neg (by decide),if_pos rfl,
        loadAmf3Integer_small hv hp (by decide),ht.eq]
      rfl
    | false =>
      refine ⟨amf3False,peek_took ht,?_⟩
      rw [if_neg (by decide),if_neg (by decide),if_neg (by decide),if_pos rfl,ht.eq]
      rfl
    | true =>
      refine ⟨amf3True,peek_took ht,?_⟩
      rw [if_neg (by decide),if_neg (by decide),if_neg (by decide),if_neg (by decide),if_pos rfl,
        ht.eq]
      rfl
    | null =>
      refine ⟨amf3Null,peek_took ht,?_⟩
      rw [if_neg (by decide),if_neg (by decide),if_neg (by decide),if_neg (by decide),
        if_neg (by decide),if_neg (by decide),if_neg (by decide),if_pos rfl,ht.eq]
      rfl
    | undefined =>
      refine ⟨amf3Undefined,peek_took ht,?_⟩
      rw [if_neg (by decide),if_neg (by decide),if_neg (by decide),if_neg (by decide),
        if_neg (by decide),if_neg (by decide),if_neg (by decide),if_neg (by decide),if_pos rfl,
        ht.eq]
      rfl

end Amf
end PcEnv
