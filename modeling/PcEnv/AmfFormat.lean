import PcEnv.Amf

/-! What `amf_load` accepts as AMF0. -/
namespace PcEnv
namespace Amf

open Bytes

/-- A key with the bytes of its value and the value. -/
structure Item where
  key : List UInt8
  bytes : List UInt8
  value : AMFValue

def Item.wire (i : Item) : List UInt8 := amfWriteKey i.key++i.bytes

def KeyOk (key : List UInt8) : Prop := key ≠ [] ∧ key.length < 2^16

def members (items : List Item) : List UInt8 :=
  items.flatMap Item.wire++amfWriteKey []++[amf0ObjectEnd]

/-- The first entry with a key counts. -/
def collect (items : List Item) (o : AmfObject) : AmfObject :=
  items.foldl (fun o i => OrderedMap.insert i.key i.value o) o

/-- The bytes that stand for a value in AMF0. -/
inductive Form : List UInt8 → AMFValue → Prop
  | string {s} (h : s.length < 2^16) : Form (amfWriteString s) (.string s)
  | number (n) : Form (amfWriteNumber n) (.number n)
  | boolean {b} (h : b ≠ amf0SwitchAmf3) : Form [amf0Boolean,b] (.boolean (decide (b ≠ 0)))
  | object {items : List Item} (hkey : ∀ i ∈ items, KeyOk i.key)
      (hvalue : ∀ i ∈ items, Form i.bytes i.value) :
      Form (amf0Object::members items) (.object (collect items []))
  | ecma {count : List UInt8} {items : List Item} (h : count.length = 4)
      (hkey : ∀ i ∈ items, KeyOk i.key) (hvalue : ∀ i ∈ items, Form i.bytes i.value) :
      Form (amf0EcmaArray::(count++members items)) (.object (collect items []))
  | null : Form [amf0Null] .null
  | undefined : Form [amf0Undefined] .undefined

/-- The cursor has gone over these bytes, which are in the buffer. -/
structure Took (dec : Decoder) (w : List UInt8) (dec' : Decoder) : Prop where
  rest : dec.rest = w++dec'.rest
  le : dec.pos+w.length ≤ dec.buf.length
  eq : dec' = dec.advance w.length

@[simp] theorem rest_advance (dec : Decoder) (n : ℕ) : (dec.advance n).rest = dec.rest.drop n := by
  simp [Decoder.rest,Decoder.advance,List.drop_drop]

@[simp] theorem version_advance (dec : Decoder) (n : ℕ) : (dec.advance n).version = dec.version := rfl

@[simp] theorem advance_zero (dec : Decoder) : dec.advance 0 = dec := rfl

@[simp] theorem advance_advance (dec : Decoder) (m n : ℕ) :
    (dec.advance m).advance n = dec.advance (m+n) := by
  simp [Decoder.advance,Nat.add_assoc]

theorem length_rest (dec : Decoder) : dec.rest.length = dec.buf.length-dec.pos := List.length_drop

section

variable {dec dec' dec'' : Decoder} {v w : List UInt8} {b : UInt8}

theorem took_begins (h : w <+: dec.rest) (hle : dec.pos+w.length ≤ dec.buf.length) :
    Took dec w (dec.advance w.length) := by
  obtain ⟨r,hr⟩ := h
  refine ⟨?_,hle,rfl⟩
  rw [rest_advance,← hr,List.drop_left]

theorem took_between (before w after : List UInt8) (version : ℕ) :
    Took ⟨before++w++after,before.length,version⟩ w
      ⟨before++w++after,before.length+w.length,version⟩ := by
  refine took_begins ⟨after,?_⟩ ?_
  · simp [Decoder.rest]
  · simp only [List.length_append]
    omega

theorem took_start (w after : List UInt8) (version : ℕ) :
    Took ⟨w++after,0,version⟩ w ⟨w++after,w.length,version⟩ := by
  have h := took_between [] w after version
  rwa [List.nil_append,List.length_nil,Nat.zero_add] at h

theorem Took.begins (h : Took dec w dec') : w <+: dec.rest := ⟨dec'.rest,h.rest.symm⟩

theorem Took.version (h : Took dec w dec') : dec'.version = dec.version := by
  rw [h.eq,version_advance]

theorem Took.append (h : Took dec v dec') (h' : Took dec' w dec'') : Took dec (v++w) dec'' := by
  refine ⟨?_,?_,?_⟩
  · rw [h.rest,h'.rest,List.append_assoc]
  · have hle := h'.le
    rw [h.eq] at hle
    rw [List.length_append,← Nat.add_assoc]
    exact hle
  · rw [h'.eq,h.eq,advance_advance,List.length_append]

theorem took_append_iff :
    Took dec (v++w) dec'' ↔ ∃ dec', Took dec v dec' ∧ Took dec' w dec'' := by
  constructor
  · intro h
    have hle := h.le
    rw [List.length_append] at hle
    have hv : Took dec v (dec.advance v.length) :=
      took_begins ((List.prefix_append v w).trans h.begins) (by omega)
    refine ⟨_,hv,?_,?_,?_⟩
    · have hrest := hv.rest.symm.trans h.rest
      rw [List.append_assoc] at hrest
      exact List.append_cancel_left hrest
    · simp only [Decoder.advance]
      omega
    · rw [h.eq,advance_advance,List.length_append]
  · rintro ⟨dec',h,h'⟩
    exact h.append h'

theorem took_cons_iff :
    Took dec (b::w) dec'' ↔ ∃ dec', Took dec [b] dec' ∧ Took dec' w dec'' :=
  took_append_iff (v:=[b])

theorem took_nil_iff : Took dec [] dec' ↔ dec.pos ≤ dec.buf.length ∧ dec' = dec := by
  constructor
  · exact fun h => ⟨h.le,h.eq⟩
  · rintro ⟨hle,rfl⟩
    exact ⟨rfl,hle,rfl⟩

theorem Took.length (h : Took dec w dec') : w.length+dec'.rest.length = dec.rest.length := by
  rw [h.rest,List.length_append]

theorem peek_ok_iff : peek dec = .ok b ↔ ∃ r, dec.rest = b::r := by
  unfold peek
  cases h : dec.rest with
  | nil => simp
  | cons c r => simp [eq_comm]

theorem peek_took (h : Took dec (b::w) dec') : peek dec = .ok b :=
  peek_ok_iff.mpr ⟨w++dec'.rest,h.rest⟩

theorem took_one_iff : Took dec [b] dec' ↔ peek dec = .ok b ∧ dec' = dec.advance 1 := by
  constructor
  · exact fun h => ⟨peek_took h,h.eq⟩
  · rintro ⟨hb,rfl⟩
    obtain ⟨r,hr⟩ := peek_ok_iff.mp hb
    have hlen := length_rest dec
    rw [hr,List.length_cons] at hlen
    exact took_begins ⟨r,hr.symm⟩ (by rw [List.length_singleton]; omega)

theorem bind_ok_iff {α β : Type} {x : Except Exn α} {f : α → Except Exn β} {c : β} :
    (x >>= f) = .ok c ↔ ∃ a, x = .ok a ∧ f a = .ok c := by
  cases x <;> simp [bind,Except.bind]

theorem map_ok_iff {α β : Type} {x : Except Exn α} {f : α → β} {c : β} :
    x.map f = .ok c ↔ ∃ a, x = .ok a ∧ f a = c := by
  cases x <;> simp [Except.map]

theorem getChars_ok_iff {n : ℕ} :
    getChars n dec = .ok (w,dec') ↔ w.length = n ∧ Took dec w dec' := by
  unfold getChars
  split_ifs with hgt
  · refine iff_of_false (by simp) ?_
    rintro ⟨rfl,h⟩
    exact absurd h.le (by omega)
  · have hlen := length_rest dec
    simp only [Except.ok.injEq,Prod.mk.injEq]
    constructor
    · rintro ⟨rfl,rfl⟩
      have htake : (dec.rest.take n).length = n := List.length_take_of_le (by omega)
      have htook := took_begins (List.take_prefix n dec.rest) (by omega)
      rw [htake] at htook
      exact ⟨htake,htook⟩
    · rintro ⟨rfl,h⟩
      exact ⟨(List.prefix_iff_eq_take.mp h.begins).symm,h.eq.symm⟩

theorem took_toBe_iff {k n : ℕ} (hn : n < 256^k) :
    Took dec (toBe k n) dec' ↔
      dec.pos+k ≤ dec.buf.length ∧ ofBe (dec.rest.take k) = n ∧ dec' = dec.advance k := by
  have hlen := length_rest dec
  constructor
  · intro h
    have hle := h.le
    have htake := List.prefix_iff_eq_take.mp h.begins
    have heq := h.eq
    rw [length_toBe] at hle htake heq
    rw [← htake,ofBe_toBe hn]
    exact ⟨hle,rfl,heq⟩
  · rintro ⟨hle,rfl,rfl⟩
    have hk : (dec.rest.take k).length = k := List.length_take_of_le (by omega)
    have hdigits := toBe_ofBe (dec.rest.take k)
    have htook := took_begins (List.take_prefix k dec.rest) (by omega)
    rw [hk] at hdigits htook
    rw [hdigits]
    exact htook

theorem amfLoadKey_ok_iff :
    amfLoadKey dec = .ok (w,dec') ↔ w.length < 2^16 ∧ Took dec (amfWriteKey w) dec' := by
  have hlen := length_rest dec
  have hlt := ofBe_lt (dec.rest.take 2)
  have htwo : (dec.rest.take 2).length ≤ 2 := List.length_take_le _ _
  have hpow : 256^(dec.rest.take 2).length ≤ 256^2 := Nat.pow_le_pow_right (by decide) htwo
  rw [amfWriteKey,took_append_iff]
  unfold amfLoadKey
  split_ifs with hgt
  · refine iff_of_false (by simp) ?_
    rintro ⟨hw,d,hd,-⟩
    have hd := (took_toBe_iff (by omega)).mp hd
    omega
  · rw [getChars_ok_iff]
    constructor
    · rintro ⟨hw,h⟩
      exact ⟨by omega,dec.advance 2,(took_toBe_iff (by omega)).mpr ⟨by omega,hw.symm,rfl⟩,h⟩
    · rintro ⟨hw,d,hd,h⟩
      obtain ⟨-,hn,rfl⟩ := (took_toBe_iff (by omega)).mp hd
      exact ⟨hn.symm,h⟩

theorem getByte_plain (hp : peek dec = .ok b) (h : dec.version ≠ 0 ∨ b ≠ amf0SwitchAmf3) :
    getByte dec = .ok (b,dec.advance 1) := by
  unfold getByte
  by_cases hv : dec.version = 0
  · have hb : b ≠ amf0SwitchAmf3 := h.resolve_left (not_not.mpr hv)
    simp only [if_pos hv,hp,bind,Except.bind,if_neg hb]
  · simp only [if_neg hv,hp,bind,Except.bind]

/-- What the switch to AMF3 leaves. -/
def Decoder.switched (dec : Decoder) : Decoder := { dec with pos := dec.pos+1, version := 3 }

theorem getByte_switch (hv : dec.version = 0) (hp : peek dec = .ok amf0SwitchAmf3) :
    getByte dec = (peek dec.switched).map (fun b => (b,dec.switched.advance 1)) := by
  unfold getByte
  simp only [if_pos hv,hp,bind,Except.bind,if_pos]
  rfl

theorem getByte_end (h : dec.rest = []) : getByte dec = .error notEnough := by
  have hp : peek dec = .error notEnough := by rw [peek,h]
  unfold getByte
  by_cases hv : dec.version = 0
  · simp only [if_pos hv,hp,bind,Except.bind]
  · simp only [if_neg hv,hp,bind,Except.bind]

/-- A byte is read as it stands, or after the switch to AMF3. -/
theorem getByte_cases (h : getByte dec = .ok (b,dec')) :
    (peek dec = .ok b ∧ (dec.version ≠ 0 ∨ b ≠ amf0SwitchAmf3) ∧ dec' = dec.advance 1) ∨
      (dec.version = 0 ∧ peek dec = .ok amf0SwitchAmf3 ∧ peek dec.switched = .ok b ∧
        dec' = dec.switched.advance 1) := by
  cases hr : dec.rest with
  | nil =>
    rw [getByte_end hr] at h
    cases h
  | cons c r =>
    have hp : peek dec = .ok c := peek_ok_iff.mpr ⟨r,hr⟩
    by_cases hc : dec.version ≠ 0 ∨ c ≠ amf0SwitchAmf3
    · rw [getByte_plain hp hc] at h
      cases h
      exact Or.inl ⟨hp,hc,rfl⟩
    · push Not at hc
      obtain ⟨hv,rfl⟩ := hc
      rw [getByte_switch hv hp,map_ok_iff] at h
      obtain ⟨d,hd,h⟩ := h
      cases h
      exact Or.inr ⟨hv,hp,hd,rfl⟩

theorem getByte_ok_iff :
    getByte dec = .ok (b,dec') ∧ dec'.version = 0 ↔
      dec.version = 0 ∧ b ≠ amf0SwitchAmf3 ∧ Took dec [b] dec' := by
  rw [took_one_iff]
  constructor
  · rintro ⟨h,hz⟩
    rcases getByte_cases h with ⟨hp,hb,rfl⟩ | ⟨-,-,-,rfl⟩
    · rw [version_advance] at hz
      exact ⟨hz,hb.resolve_left (not_not.mpr hz),hp,rfl⟩
    · cases hz
  · rintro ⟨hv,hb,hp,rfl⟩
    exact ⟨getByte_plain hp (Or.inr hb),hv⟩

end

section

variable {α β : Type} {x : Except Exn (α × Decoder)} {dec : Decoder}

def Sound (x : Except Exn (α × Decoder)) (dec : Decoder) (F : List UInt8 → α → Prop) : Prop :=
  ∀ a dec', x = .ok (a,dec') → dec'.version = 0 → dec.version = 0 ∧ ∃ w, F w a ∧ Took dec w dec'

def Complete (x : Except Exn (α × Decoder)) (dec : Decoder) (F : List UInt8 → α → Prop) : Prop :=
  ∀ a w dec', dec.version = 0 → F w a → Took dec w dec' → x = .ok (a,dec')

theorem Sound.map {F : List UInt8 → α → Prop} {G : List UInt8 → β → Prop} {f : α → β}
    (h : Sound x dec F) (hf : ∀ w a, F w a → G w (f a)) :
    Sound (x.map (Prod.map f id)) dec G := by
  intro b dec' hx hv
  obtain ⟨⟨a,d⟩,ha,hb⟩ := map_ok_iff.mp hx
  cases hb
  obtain ⟨hz,w,hw,ht⟩ := h a d ha hv
  exact ⟨hz,w,hf w a hw,ht⟩

theorem getByte_sound (dec : Decoder) :
    Sound (getByte dec) dec (fun w b => b ≠ amf0SwitchAmf3 ∧ w = [b]) := by
  intro b dec' hx hv
  obtain ⟨hz,hb,ht⟩ := getByte_ok_iff.mp ⟨hx,hv⟩
  exact ⟨hz,[b],⟨hb,rfl⟩,ht⟩

theorem getByte_complete {b : UInt8} {dec' : Decoder} (hv : dec.version = 0)
    (hb : b ≠ amf0SwitchAmf3) (h : Took dec [b] dec') : getByte dec = .ok (b,dec') :=
  (getByte_ok_iff.mpr ⟨hv,hb,h⟩).1

theorem Sound.typed {f : UInt8 × Decoder → Except Exn (α × Decoder)} {t : UInt8}
    {F : List UInt8 → α → Prop}
    (ht : ∀ b d a d', f (b,d) = .ok (a,d') → d'.version = 0 → b = t)
    (h : ∀ d, Sound (f (t,d)) d (fun v a => F (t::v) a)) : Sound (getByte dec >>= f) dec F := by
  intro a dec' hx hv
  obtain ⟨⟨b,d⟩,hb,hf⟩ := bind_ok_iff.mp hx
  obtain rfl := ht b d a dec' hf hv
  obtain ⟨hz,v,hF,hv'⟩ := h d a dec' hf hv
  obtain ⟨hz',w,⟨-,rfl⟩,hw⟩ := getByte_sound dec b d hb hz
  exact ⟨hz',b::v,hF,took_cons_iff.mpr ⟨d,hw,hv'⟩⟩

theorem Complete.typed {f : UInt8 × Decoder → Except Exn (α × Decoder)} {t : UInt8}
    {F : List UInt8 → α → Prop} (ht : t ≠ amf0SwitchAmf3) (hF : ∀ w a, F w a → ∃ v, w = t::v)
    (h : ∀ d, d.version = 0 → Complete (f (t,d)) d (fun v a => F (t::v) a)) :
    Complete (getByte dec >>= f) dec F := by
  intro a w dec' hv hwa hw
  obtain ⟨v,rfl⟩ := hF w a hwa
  obtain ⟨d,hd,hrest⟩ := took_cons_iff.mp hw
  rw [getByte_complete hv ht hd]
  exact h d (hd.version.trans hv) a v dec' (hd.version.trans hv) hwa hrest

end

section

variable {dec dec' : Decoder} {b : UInt8}

theorem getByte_version (h : getByte dec = .ok (b,dec')) (hv : dec.version ≠ 0) :
    dec'.version ≠ 0 := by
  rcases getByte_cases h with ⟨-,-,rfl⟩ | ⟨hz,-⟩
  · exact hv
  · exact (hv hz).elim

theorem amf3Loop_version {n value m : ℕ} (h : amf3Loop n value dec = .ok (m,dec'))
    (hv : dec.version ≠ 0) : dec'.version ≠ 0 := by
  induction n generalizing value dec with
  | zero =>
    cases h
    exact hv
  | succ n ih =>
    obtain ⟨⟨b,d⟩,hb,h⟩ := bind_ok_iff.mp h
    have hd := getByte_version hb hv
    simp only at h
    split_ifs at h
    · cases h
      exact hd
    · cases h
      exact hd
    · exact ih h hd

theorem string3_version {s : List UInt8} (hthree : dec.version = 3)
    (h : (do let (n,d) ← loadAmf3Integer dec; getChars (n/2) d) = .ok (s,dec')) :
    dec'.version ≠ 0 := by
  obtain ⟨⟨n,d⟩,hn,h⟩ := bind_ok_iff.mp h
  rw [(getChars_ok_iff.mp h).2.version]
  exact amf3Loop_version hn (by omega)

def StringForm (w s : List UInt8) : Prop := s.length < 2^16 ∧ w = amfWriteString s

def NumberForm (w : List UInt8) (n : UInt64) : Prop := w = amfWriteNumber n

def BooleanForm (w : List UInt8) (x : Bool) : Prop :=
  ∃ b, b ≠ amf0SwitchAmf3 ∧ w = [amf0Boolean,b] ∧ x = decide (b ≠ 0)

theorem amfLoadString_sound (dec : Decoder) : Sound (amfLoadString dec) dec StringForm := by
  refine Sound.typed (t:=amf0String) ?_ ?_
  · intro b d s d' hf hv
    simp only at hf
    split_ifs at hf with hthree hsix htwo
    · exact absurd hv (string3_version hthree hf)
    · exact not_not.mp htwo
  · intro d s d' hf hv
    simp only at hf
    split_ifs at hf with hthree hsix htwo
    · exact absurd hv (string3_version hthree hf)
    · obtain ⟨hs,ht⟩ := amfLoadKey_ok_iff.mp hf
      exact ⟨ht.version ▸ hv,_,⟨hs,rfl⟩,ht⟩

theorem amfLoadString_complete (dec : Decoder) : Complete (amfLoadString dec) dec StringForm := by
  refine Complete.typed (t:=amf0String) (by decide) (fun w s h => ⟨_,h.2⟩) ?_
  rintro d hd s v d' - ⟨hs,hw⟩ hv
  obtain rfl := (List.cons.inj hw).2
  have hthree : ¬ d.version = 3 := by omega
  simp only [if_neg hthree,ne_eq,not_true_eq_false,if_false]
  exact amfLoadKey_ok_iff.mpr ⟨hs,hv⟩

theorem amfWriteNumber_eq (n : UInt64) : amfWriteNumber n = amf0Number::toBe 8 n.toNat := by
  have hpow : (2 : ℕ)^32 = 256^4 := by norm_num
  rw [amfWriteNumber,toBe_add 4 4,hpow]

theorem getDouble_ok_iff {n : UInt64} :
    getDouble dec = .ok (n,dec') ↔ Took dec (toBe 8 n.toNat) dec' := by
  have hlen := length_rest dec
  rw [took_toBe_iff n.toNat_lt]
  unfold getDouble
  split_ifs with hgt
  · exact iff_of_false (by simp) (fun h => by omega)
  · have hlow : ((dec.rest.drop 4).take 4).length = 4 :=
      List.length_take_of_le (by rw [List.length_drop]; omega)
    have hboth : dec.rest.take 8 = dec.rest.take 4++(dec.rest.drop 4).take 4 :=
      List.take_add (i:=4) (j:=4)
    have hpow : (2 : ℕ)^32 = 256^4 := by norm_num
    have hval : 2^32*ofBe (dec.rest.take 4)+ofBe ((dec.rest.drop 4).take 4) =
        ofBe (dec.rest.take 8) := by
      rw [hboth,ofBe_append,hlow,hpow]
    have hlt := ofBe_lt (dec.rest.take 8)
    rw [List.length_take_of_le (by omega)] at hlt
    rw [hval,Except.ok.injEq,Prod.mk.injEq,← UInt64.toNat_inj,UInt64.toNat_ofNat',
      Nat.mod_eq_of_lt (by omega)]
    constructor
    · rintro ⟨hn,rfl⟩
      exact ⟨by omega,hn,rfl⟩
    · rintro ⟨-,hn,rfl⟩
      exact ⟨hn,rfl⟩

theorem amfLoadNumber_sound (dec : Decoder) : Sound (amfLoadNumber dec) dec NumberForm := by
  refine Sound.typed (t:=amf0Number) ?_ ?_
  · intro b d n d' hf _
    simp only at hf
    split_ifs at hf with hb
    exact not_not.mp hb
  · intro d n d' hf hv
    simp only [ne_eq,not_true_eq_false,if_false] at hf
    have ht := getDouble_ok_iff.mp hf
    exact ⟨ht.version ▸ hv,_,(amfWriteNumber_eq n).symm,ht⟩

theorem amfLoadNumber_complete (dec : Decoder) : Complete (amfLoadNumber dec) dec NumberForm := by
  refine Complete.typed (t:=amf0Number) (by decide) (fun w n h => ⟨_,h⟩) ?_
  intro d _ n v d' _ hw hv
  obtain rfl := (List.cons.inj (hw.trans (amfWriteNumber_eq n))).2
  simp only [ne_eq,not_true_eq_false,if_false]
  exact getDouble_ok_iff.mpr hv

theorem amfLoadBoolean_sound (dec : Decoder) : Sound (amfLoadBoolean dec) dec BooleanForm := by
  refine Sound.typed (t:=amf0Boolean) ?_ ?_
  · intro b d x d' hf _
    simp only at hf
    split_ifs at hf with hb
    exact not_not.mp hb
  · intro d x d' hf hv
    simp only [ne_eq,not_true_eq_false,if_false] at hf
    obtain ⟨⟨b,e⟩,hb,hf⟩ := bind_ok_iff.mp hf
    cases hf
    obtain ⟨hz,w,⟨hne,rfl⟩,ht⟩ := getByte_sound d b e hb hv
    exact ⟨hz,[b],⟨b,hne,rfl,rfl⟩,ht⟩

theorem amfLoadBoolean_complete (dec : Decoder) :
    Complete (amfLoadBoolean dec) dec BooleanForm := by
  refine Complete.typed (t:=amf0Boolean) (by decide) (fun w x h => ⟨_,h.choose_spec.2.1⟩) ?_
  rintro d hd x v d' - ⟨b,hb,hw,rfl⟩ hv
  obtain rfl := (List.cons.inj hw).2
  simp only [ne_eq,not_true_eq_false,if_false]
  rw [getByte_complete hd hb hv]
  rfl

end

/-- The items of an object whose values are read by `load`. -/
structure Items (F : List UInt8 → AMFValue → Prop) (items : List Item) : Prop where
  key : ∀ i ∈ items, KeyOk i.key
  value : ∀ i ∈ items, F i.bytes i.value

section

variable {load : Decoder → Except Exn (AMFValue × Decoder)} {F : List UInt8 → AMFValue → Prop}
  {items : List Item} {o : AmfObject} {dec dec' : Decoder} {w : List UInt8}

theorem Items.nil : Items F [] := ⟨by simp,by simp⟩

theorem Items.cons {i : Item} (hk : KeyOk i.key) (hv : F i.bytes i.value) (h : Items F items) :
    Items F (i::items) :=
  ⟨List.forall_mem_cons.mpr ⟨hk,h.key⟩,List.forall_mem_cons.mpr ⟨hv,h.value⟩⟩

theorem loadEntries_sound (hload : ∀ d, Sound (load d) d F) (fuel : ℕ) (o : AmfObject)
    (dec : Decoder) :
    Sound (loadEntries load fuel o dec) dec
      (fun w o' => ∃ items, Items F items ∧ w = items.flatMap Item.wire++amfWriteKey [] ∧
        o' = collect items o) := by
  induction fuel generalizing o dec with
  | zero =>
    intro o' dec' h
    cases h
  | succ fuel ih =>
    intro o' dec' h hv
    obtain ⟨⟨key,d⟩,hkey,h⟩ := bind_ok_iff.mp h
    obtain ⟨hlen,hk⟩ := amfLoadKey_ok_iff.mp hkey
    simp only at h
    split_ifs at h with hnil
    · cases h
      subst hnil
      exact ⟨hk.version ▸ hv,_,⟨[],Items.nil,rfl,rfl⟩,hk⟩
    · obtain ⟨⟨v,e⟩,hvalue,h⟩ := bind_ok_iff.mp h
      obtain ⟨hze,rest,⟨items,hitems,rfl,rfl⟩,hrest⟩ := ih (OrderedMap.insert key v o) e _ _ h hv
      obtain ⟨hzd,bytes,hF,hbytes⟩ := hload d v e hvalue hze
      refine ⟨hk.version ▸ hzd,_,⟨⟨key,bytes,v⟩::items,hitems.cons ⟨hnil,hlen⟩ hF,?_,rfl⟩,
        (hk.append hbytes).append hrest⟩
      simp [Item.wire]

/-- A value of the items is read wherever it stands. -/
def ReadsItems (load : Decoder → Except Exn (AMFValue × Decoder)) (items : List Item) : Prop :=
  ∀ i ∈ items, ∀ d d', d.version = 0 → Took d i.bytes d' → load d = .ok (i.value,d')

theorem loadEntries_items (hload : ReadsItems load items) (hkey : ∀ i ∈ items, KeyOk i.key)
    (fuel : ℕ) (hv : dec.version = 0) (h : Took dec (items.flatMap Item.wire) dec') :
    loadEntries load (items.length+fuel) o dec = loadEntries load fuel (collect items o) dec' := by
  induction items generalizing o dec with
  | nil =>
    obtain ⟨-,rfl⟩ := took_nil_iff.mp h
    rw [List.length_nil,Nat.zero_add]
    rfl
  | cons i items ih =>
    obtain ⟨hne,hlen⟩ := hkey i List.mem_cons_self
    rw [List.flatMap_cons,Item.wire,List.append_assoc,took_append_iff] at h
    obtain ⟨d,hd,h⟩ := h
    obtain ⟨e,he,h⟩ := took_append_iff.mp h
    have hzd := hd.version.trans hv
    have hk : amfLoadKey dec = .ok (i.key,d) := amfLoadKey_ok_iff.mpr ⟨hlen,hd⟩
    have hvalue := hload i List.mem_cons_self d e hzd he
    have hrest := ih (o:=OrderedMap.insert i.key i.value o)
      (fun j hj => hload j (List.mem_cons_of_mem i hj))
      (fun j hj => hkey j (List.mem_cons_of_mem i hj)) (he.version.trans hzd) h
    rw [List.length_cons,Nat.add_right_comm,loadEntries,hk]
    simp only [bind,Except.bind,if_neg hne,hvalue]
    exact hrest

theorem loadEntries_complete (hload : ReadsItems load items) (hkey : ∀ i ∈ items, KeyOk i.key)
    {fuel : ℕ} (hfuel : items.length < fuel) (hv : dec.version = 0)
    (h : Took dec (items.flatMap Item.wire++amfWriteKey []) dec') :
    loadEntries load fuel o dec = .ok (collect items o,dec') := by
  obtain ⟨n,rfl⟩ : ∃ n, fuel = items.length+(n+1) := ⟨fuel-items.length-1,by omega⟩
  obtain ⟨d,hd,hend⟩ := took_append_iff.mp h
  have hk : amfLoadKey d = .ok ([],dec') := amfLoadKey_ok_iff.mpr ⟨by decide,hend⟩
  rw [loadEntries_items hload hkey (n+1) hv hd,loadEntries,hk]
  rfl

theorem loadMembers_sound (hload : ∀ d, Sound (load d) d F) (fuel : ℕ) (dec : Decoder) :
    Sound (loadMembers load fuel dec) dec
      (fun w o => ∃ items, Items F items ∧ w = members items ∧ o = collect items []) := by
  intro o dec' h hv
  obtain ⟨⟨o',d⟩,hentries,h⟩ := bind_ok_iff.mp h
  obtain ⟨⟨b,e⟩,hb,h⟩ := bind_ok_iff.mp h
  simp only at h
  split_ifs at h with hend
  cases h
  obtain rfl := not_not.mp hend
  obtain ⟨hzd,_,⟨-,rfl⟩,hbyte⟩ := getByte_sound d _ dec' hb hv
  obtain ⟨hz,_,⟨items,hitems,rfl,rfl⟩,ht⟩ := loadEntries_sound hload fuel [] dec _ d hentries hzd
  exact ⟨hz,_,⟨items,hitems,rfl,rfl⟩,ht.append hbyte⟩

theorem loadMembers_complete (hload : ReadsItems load items) (hkey : ∀ i ∈ items, KeyOk i.key)
    {fuel : ℕ} (hfuel : items.length < fuel) (hv : dec.version = 0)
    (h : Took dec (members items) dec') :
    loadMembers load fuel dec = .ok (collect items [],dec') := by
  obtain ⟨d,hd,hend⟩ := took_append_iff.mp h
  have hbyte := getByte_complete (hd.version.trans hv) (by decide) hend
  rw [loadMembers,loadEntries_complete hload hkey hfuel hv hd]
  simp only [bind,Except.bind,hbyte]
  rfl

theorem loadObjectWith_sound (hload : ∀ d, Sound (load d) d F) (fuel : ℕ) (dec : Decoder) :
    Sound (loadObjectWith load fuel dec) dec
      (fun w o => ∃ items, Items F items ∧ w = amf0Object::members items ∧
        o = collect items []) := by
  refine Sound.typed (t:=amf0Object) ?_ ?_
  · intro b d o d' hf _
    simp only at hf
    split_ifs at hf with hb
    exact not_not.mp hb
  · intro d o d' hf hv
    simp only [ne_eq,not_true_eq_false,if_false] at hf
    obtain ⟨hz,_,⟨items,hitems,rfl,rfl⟩,ht⟩ := loadMembers_sound hload fuel d o d' hf hv
    exact ⟨hz,_,⟨items,hitems,rfl,rfl⟩,ht⟩

theorem loadObjectWith_complete (hload : ReadsItems load items) (hkey : ∀ i ∈ items, KeyOk i.key)
    {fuel : ℕ} (hfuel : items.length < fuel) (hv : dec.version = 0)
    (h : Took dec (amf0Object::members items) dec') :
    loadObjectWith load fuel dec = .ok (collect items [],dec') := by
  obtain ⟨d,hd,h⟩ := took_cons_iff.mp h
  rw [loadObjectWith,getByte_complete hv (by decide) hd]
  exact loadMembers_complete hload hkey hfuel (hd.version.trans hv) h

theorem loadEcmaWith_sound (hload : ∀ d, Sound (load d) d F) (fuel : ℕ) (dec : Decoder) :
    Sound (loadEcmaWith load fuel dec) dec
      (fun w o => ∃ count items, count.length = 4 ∧ Items F items ∧
        w = amf0EcmaArray::(count++members items) ∧ o = collect items []) := by
  refine Sound.typed (t:=amf0EcmaArray) ?_ ?_
  · intro b d o d' hf _
    simp only at hf
    split_ifs at hf with hb
    · exact not_not.mp hb
  · intro d o d' hf hv
    simp only [ne_eq,not_true_eq_false,if_false] at hf
    split_ifs at hf with hgt
    have hlen := length_rest d
    have hfour : (d.rest.take 4).length = 4 := List.length_take_of_le (by omega)
    have hcount := took_begins (List.take_prefix 4 d.rest) (by omega)
    rw [hfour] at hcount
    obtain ⟨hz,_,⟨items,hitems,rfl,rfl⟩,ht⟩ := loadMembers_sound hload fuel _ o d' hf hv
    exact ⟨hz,_,⟨_,items,hfour,hitems,rfl,rfl⟩,hcount.append ht⟩

theorem loadEcmaWith_eq (hv : dec.version = 0) (hw : w.length = 4) (fuel : ℕ)
    (h : Took dec (amf0EcmaArray::w) dec') :
    loadEcmaWith load fuel dec = loadMembers load fuel dec' := by
  obtain ⟨d,hd,he⟩ := took_cons_iff.mp h
  have hle := he.le
  have heq := he.eq
  rw [hw] at hle heq
  subst dec'
  rw [loadEcmaWith,getByte_complete hv (by decide) hd]
  simp only [bind,Except.bind,ne_eq,not_true_eq_false,if_false,if_neg (not_lt.mpr hle)]

theorem loadEcmaWith_complete (hload : ReadsItems load items) (hkey : ∀ i ∈ items, KeyOk i.key)
    {fuel : ℕ} (hfuel : items.length < fuel) (hv : dec.version = 0) (hw : w.length = 4)
    (h : Took dec (amf0EcmaArray::(w++members items)) dec') :
    loadEcmaWith load fuel dec = .ok (collect items [],dec') := by
  obtain ⟨d,hd,h⟩ := (took_append_iff (v:=amf0EcmaArray::w)).mp h
  rw [loadEcmaWith_eq hv hw fuel hd]
  exact loadMembers_complete hload hkey hfuel (hd.version.trans hv) h

end

section

variable {dec dec' : Decoder} {w : List UInt8} {v : AMFValue}

theorem Form.of_string {s : List UInt8} (h : StringForm w s) : Form w (.string s) := by
  obtain ⟨hs,rfl⟩ := h
  exact .string hs

theorem Form.of_number {n : UInt64} (h : NumberForm w n) : Form w (.number n) := by
  obtain rfl := h
  exact .number n

theorem Form.of_boolean {x : Bool} (h : BooleanForm w x) : Form w (.boolean x) := by
  obtain ⟨b,hb,rfl,rfl⟩ := h
  exact .boolean hb

theorem tag_sound {t : UInt8} (hp : peek dec = .ok t) (hv : Form [t] v) :
    Sound (Except.ok (v,dec.advance 1)) dec Form := by
  intro a d h hz
  cases h
  exact ⟨hz,[t],hv,took_one_iff.mpr ⟨hp,rfl⟩⟩

theorem amfLoad_sound (fuel : ℕ) (dec : Decoder) : Sound (amfLoad fuel dec) dec Form := by
  induction fuel generalizing dec with
  | zero =>
    intro v dec' h
    cases h
  | succ fuel ih =>
    have hstring := (amfLoadString_sound dec).map (fun _ _ => Form.of_string)
    have hnumber := (amfLoadNumber_sound dec).map (fun _ _ => Form.of_number)
    have hboolean := (amfLoadBoolean_sound dec).map (fun _ _ => Form.of_boolean)
    have hobject : Sound ((loadObjectWith (amfLoad fuel) fuel dec).map (Prod.map .object id)) dec
        Form := by
      refine (loadObjectWith_sound ih fuel dec).map ?_
      rintro w o ⟨items,hitems,rfl,rfl⟩
      exact .object hitems.key hitems.value
    have hecma : Sound ((loadEcmaWith (amfLoad fuel) fuel dec).map (Prod.map .object id)) dec
        Form := by
      refine (loadEcmaWith_sound ih fuel dec).map ?_
      rintro w o ⟨count,items,hcount,hitems,rfl,rfl⟩
      exact .ecma hcount hitems.key hitems.value
    intro v dec' h hv
    obtain ⟨type,hp,h⟩ := bind_ok_iff.mp h
    split_ifs at h with hthree _ _ _ _ _ _ _ _ _ hsix hsix hsix hsix hsix hnull hundefined
    · exact hstring v dec' h hv
    · exact hnumber v dec' h hv
    · obtain ⟨⟨n,d⟩,hn,h⟩ := map_ok_iff.mp h
      cases h
      exact absurd hv (amf3Loop_version hn (by omega))
    · cases h
      exact absurd hv (by rw [version_advance,hthree]; decide)
    · cases h
      exact absurd hv (by rw [version_advance,hthree]; decide)
    · exact hobject v dec' h hv
    · exact hecma v dec' h hv
    · cases h
      exact absurd hv (by rw [version_advance,hthree]; decide)
    · cases h
      exact absurd hv (by rw [version_advance,hthree]; decide)
    · exact hstring v dec' h hv
    · exact hnumber v dec' h hv
    · exact hboolean v dec' h hv
    · exact hobject v dec' h hv
    · exact hecma v dec' h hv
    · exact tag_sound hp (hnull ▸ Form.null) v dec' h hv
    · exact tag_sound hp (hundefined ▸ Form.undefined) v dec' h hv

theorem length_bytes_lt {items : List Item} {i : Item} (hi : i ∈ items) :
    i.bytes.length < (members items).length := by
  have hle : i.wire.length ≤ (items.flatMap Item.wire).length := by
    rw [List.length_flatMap]
    exact List.le_sum_of_mem (List.mem_map_of_mem hi)
  simp only [Item.wire,amfWriteKey,List.length_append,length_toBe] at hle
  simp only [members,amfWriteKey,List.length_append,length_toBe]
  omega

theorem length_le_members (items : List Item) : items.length < (members items).length := by
  have hle : items.length ≤ (items.flatMap Item.wire).length := by
    induction items with
    | nil => exact Nat.zero_le _
    | cons i items ih =>
      simp only [List.flatMap_cons,Item.wire,amfWriteKey,List.length_append,length_toBe,
        List.length_cons]
      omega
  simp only [members,amfWriteKey,List.length_append,length_toBe]
  omega

theorem amfLoad_eq {fuel : ℕ} {t : UInt8} (hv : dec.version = 0) (hp : peek dec = .ok t) :
    amfLoad (fuel+1) dec =
      if t = amf0String then (amfLoadString dec).map (Prod.map .string id)
      else if t = amf0Number then (amfLoadNumber dec).map (Prod.map .number id)
      else if t = amf0Boolean then (amfLoadBoolean dec).map (Prod.map .boolean id)
      else if t = amf0Object then
        (loadObjectWith (amfLoad fuel) fuel dec).map (Prod.map .object id)
      else if t = amf0EcmaArray then
        (loadEcmaWith (amfLoad fuel) fuel dec).map (Prod.map .object id)
      else if t = amf0Null then .ok (.null,dec.advance 1)
      else if t = amf0Undefined then .ok (.undefined,dec.advance 1)
      else .error (.runtimeError ("Unsupported AMF0 type: "++hex t)) := by
  have hthree : ¬ dec.version = 3 := by omega
  rw [amfLoad,hp]
  simp only [bind,Except.bind,if_neg hthree]

/-- A form is read, whatever comes after it. -/
theorem amfLoad_complete (hF : Form w v) {fuel : ℕ} (hfuel : w.length < fuel)
    (hv : dec.version = 0) (h : Took dec w dec') : amfLoad fuel dec = .ok (v,dec') := by
  induction hF generalizing fuel dec dec' with
  | @string s hs =>
    obtain ⟨fuel,rfl⟩ : ∃ n, fuel = n+1 := ⟨fuel-1,by omega⟩
    have hload := amfLoadString_complete dec s _ dec' hv ⟨hs,rfl⟩ h
    rw [amfLoad_eq hv (peek_took h),if_pos rfl,hload]
    rfl
  | number n =>
    obtain ⟨fuel,rfl⟩ : ∃ n, fuel = n+1 := ⟨fuel-1,by omega⟩
    have hload := amfLoadNumber_complete dec n _ dec' hv rfl h
    rw [amfLoad_eq hv (peek_took h),if_neg (by decide),if_pos rfl,hload]
    rfl
  | @boolean b hb =>
    obtain ⟨fuel,rfl⟩ : ∃ n, fuel = n+1 := ⟨fuel-1,by omega⟩
    have hload := amfLoadBoolean_complete dec _ _ dec' hv ⟨b,hb,rfl,rfl⟩ h
    rw [amfLoad_eq hv (peek_took h),if_neg (by decide),if_neg (by decide),if_pos rfl,hload]
    rfl
  | @object items hkey hvalue ih =>
    obtain ⟨fuel,rfl⟩ : ∃ n, fuel = n+1 := ⟨fuel-1,by omega⟩
    rw [List.length_cons] at hfuel
    have hitems := length_le_members items
    have hreads : ReadsItems (amfLoad fuel) items := by
      intro i hi d d' hd ht
      have hlen := length_bytes_lt hi
      exact ih i hi (by omega) hd ht
    have hlt : items.length < fuel := by omega
    have hload := loadObjectWith_complete hreads hkey hlt hv h
    rw [amfLoad_eq hv (peek_took h),if_neg (by decide),if_neg (by decide),if_neg (by decide),
      if_pos rfl,hload]
    rfl
  | @ecma count items hcount hkey hvalue ih =>
    obtain ⟨fuel,rfl⟩ : ∃ n, fuel = n+1 := ⟨fuel-1,by omega⟩
    rw [List.length_cons,List.length_append] at hfuel
    have hitems := length_le_members items
    have hreads : ReadsItems (amfLoad fuel) items := by
      intro i hi d d' hd ht
      have hlen := length_bytes_lt hi
      exact ih i hi (by omega) hd ht
    have hlt : items.length < fuel := by omega
    have hload := loadEcmaWith_complete hreads hkey hlt hv hcount h
    rw [amfLoad_eq hv (peek_took h),if_neg (by decide),if_neg (by decide),if_neg (by decide),
      if_neg (by decide),if_pos rfl,hload]
    rfl
  | null =>
    obtain ⟨fuel,rfl⟩ : ∃ n, fuel = n+1 := ⟨fuel-1,by omega⟩
    rw [amfLoad_eq hv (peek_took h),if_neg (by decide),if_neg (by decide),if_neg (by decide),
      if_neg (by decide),if_neg (by decide),if_pos rfl,h.eq]
    rfl
  | undefined =>
    obtain ⟨fuel,rfl⟩ : ∃ n, fuel = n+1 := ⟨fuel-1,by omega⟩
    rw [amfLoad_eq hv (peek_took h),if_neg (by decide),if_neg (by decide),if_neg (by decide),
      if_neg (by decide),if_neg (by decide),if_neg (by decide),if_pos rfl,h.eq]
    rfl

end

end Amf
end PcEnv
