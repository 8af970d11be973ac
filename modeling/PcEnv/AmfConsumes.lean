import PcEnv.AmfFormat

/-! The readers end, and `amf_load` decides the format. -/
namespace PcEnv
namespace Amf

open Bytes

def Throws {α : Type} (x : Except Exn α) : Prop := ∀ e, x = .error e → ∃ what, e = .runtimeError what

/-- A call that comes to its end, at least `n` bytes further when it returns. -/
def Consumes {α : Type} (n : ℕ) (x : Except Exn (α × Decoder)) (dec : Decoder) : Prop :=
  Throws x ∧ ∀ a d, x = .ok (a,d) → d.rest.length+n ≤ dec.rest.length

section

variable {α β : Type} {x : Except Exn (α × Decoder)} {dec : Decoder} {m n : ℕ}

theorem throws_ok (a : α) : Throws (.ok a : Except Exn α) := by
  intro e he
  cases he

theorem throws_error (what : String) : Throws (.error (.runtimeError what) : Except Exn α) := by
  intro e he
  cases he
  exact ⟨what,rfl⟩

theorem Consumes.mono (h : Consumes n x dec) (hle : m ≤ n) : Consumes m x dec := by
  refine ⟨h.1,?_⟩
  intro a d hx
  have hd := h.2 a d hx
  omega

theorem Consumes.bind {f : α × Decoder → Except Exn (β × Decoder)} (h : Consumes m x dec)
    (hf : ∀ a d, d.rest.length+m ≤ dec.rest.length → Consumes n (f (a,d)) d) :
    Consumes (m+n) (x >>= f) dec := by
  cases hx : x with
  | error e =>
    obtain ⟨what,rfl⟩ := h.1 e hx
    refine ⟨throws_error what,?_⟩
    intro b d he
    cases he
  | ok p =>
    have hd := h.2 p.1 p.2 hx
    obtain ⟨hthrows,hlen⟩ := hf p.1 p.2 hd
    refine ⟨hthrows,?_⟩
    intro b d hb
    have hb := hlen b d hb
    omega

theorem Consumes.map {f : α → β} (h : Consumes n x dec) :
    Consumes n (x.map (Prod.map f id)) dec := by
  refine ⟨?_,?_⟩
  · cases hx : x with
    | error e =>
      obtain ⟨what,rfl⟩ := h.1 e hx
      exact throws_error what
    | ok p => exact throws_ok _
  · intro b d hb
    obtain ⟨p,hp,hb⟩ := map_ok_iff.mp hb
    cases hb
    exact h.2 p.1 p.2 hp

theorem consumes_error (what : String) :
    Consumes n (.error (.runtimeError what) : Except Exn (α × Decoder)) dec :=
  ⟨throws_error what,by simp⟩

theorem consumes_ok {a : α} {d : Decoder} (h : d.rest.length+n ≤ dec.rest.length) :
    Consumes n (.ok (a,d)) dec := by
  refine ⟨throws_ok _,?_⟩
  intro b e hb
  cases hb
  exact h

theorem Took.consumes {w : List UInt8} {d : Decoder} (h : Took dec w d) (hn : n ≤ w.length) :
    d.rest.length+n ≤ dec.rest.length := by
  have hlen := h.length
  omega

theorem getByte_consumes (dec : Decoder) : Consumes 1 (getByte dec) dec := by
  have hone {d : Decoder} {b : UInt8} (hp : peek d = .ok b) :
      (d.advance 1).rest.length+1 ≤ d.rest.length := by
    obtain ⟨r,hr⟩ := peek_ok_iff.mp hp
    rw [rest_advance,hr]
    exact le_rfl
  refine ⟨?_,?_⟩
  · cases hr : dec.rest with
    | nil =>
      rw [getByte_end hr]
      exact throws_error _
    | cons b r =>
      have hp : peek dec = .ok b := peek_ok_iff.mpr ⟨r,hr⟩
      by_cases hb : dec.version ≠ 0 ∨ b ≠ amf0SwitchAmf3
      · rw [getByte_plain hp hb]
        exact throws_ok _
      · push Not at hb
        obtain ⟨hv,rfl⟩ := hb
        rw [getByte_switch hv hp,peek]
        cases dec.switched.rest with
        | nil => exact throws_error _
        | cons c r => exact throws_ok _
  · intro b d hd
    rcases getByte_cases hd with ⟨hp,-,rfl⟩ | ⟨-,hp,hq,rfl⟩
    · exact hone hp
    · have hle := hone hq
      have hswitch : dec.switched.rest = (dec.advance 1).rest := rfl
      have hlt := hone hp
      rw [hswitch] at hle
      omega

theorem getChars_consumes (n : ℕ) (dec : Decoder) : Consumes n (getChars n dec) dec := by
  refine ⟨?_,?_⟩
  · unfold getChars
    split_ifs
    · exact throws_error _
    · exact throws_ok _
  · intro w d hd
    obtain ⟨hn,ht⟩ := getChars_ok_iff.mp hd
    exact ht.consumes hn.ge

theorem amf3Loop_consumes (n value : ℕ) (dec : Decoder) :
    Consumes 0 (amf3Loop n value dec) dec := by
  induction n generalizing value dec with
  | zero => exact consumes_ok le_rfl
  | succ n ih =>
    refine ((getByte_consumes dec).bind (n:=0) ?_).mono (by omega)
    intro b d _
    simp only
    split_ifs
    · exact consumes_ok le_rfl
    · exact consumes_ok le_rfl
    · exact ih _ d

theorem loadAmf3Integer_consumes (dec : Decoder) : Consumes 1 (loadAmf3Integer dec) dec := by
  refine (getByte_consumes dec).bind (n:=0) ?_
  intro b d _
  simp only [if_neg (show ¬3 = 0 by decide)]
  split_ifs
  · exact consumes_ok le_rfl
  · exact amf3Loop_consumes 3 _ d

theorem amfLoadKey_consumes (dec : Decoder) : Consumes 2 (amfLoadKey dec) dec := by
  refine ⟨?_,?_⟩
  · unfold amfLoadKey
    split_ifs
    · exact throws_error _
    · exact (getChars_consumes _ _).1
  · intro w d hd
    obtain ⟨-,ht⟩ := amfLoadKey_ok_iff.mp hd
    exact ht.consumes (by simp [amfWriteKey])

theorem amfLoadString_consumes (dec : Decoder) : Consumes 1 (amfLoadString dec) dec := by
  refine (getByte_consumes dec).bind (n:=0) ?_
  intro b d _
  simp only
  split_ifs
  · exact consumes_error _
  · refine ((loadAmf3Integer_consumes d).bind (n:=0) ?_).mono (by omega)
    intro n e _
    exact (getChars_consumes _ e).mono (Nat.zero_le _)
  · exact consumes_error _
  · exact (amfLoadKey_consumes d).mono (by omega)

theorem getDouble_consumes (dec : Decoder) : Consumes 8 (getDouble dec) dec := by
  refine ⟨?_,?_⟩
  · unfold getDouble
    split_ifs
    · exact throws_error _
    · exact throws_ok _
  · intro n d hd
    exact (getDouble_ok_iff.mp hd).consumes (by simp)

theorem amfLoadNumber_consumes (dec : Decoder) : Consumes 1 (amfLoadNumber dec) dec := by
  refine (getByte_consumes dec).bind (n:=0) ?_
  intro b d _
  simp only
  split_ifs
  · exact consumes_error _
  · exact (getDouble_consumes d).mono (by omega)

theorem amfLoadBoolean_consumes (dec : Decoder) : Consumes 1 (amfLoadBoolean dec) dec := by
  refine (getByte_consumes dec).bind (n:=0) ?_
  intro b d _
  simp only
  split_ifs
  · exact consumes_error _
  · refine ((getByte_consumes d).bind (n:=0) ?_).mono (by omega)
    intro c e _
    exact consumes_ok le_rfl

end

section

variable {load : Decoder → Except Exn (AMFValue × Decoder)} {dec : Decoder} {fuel : ℕ}

theorem loadEntries_consumes (hload : ∀ d, d.rest.length < dec.rest.length → Consumes 1 (load d) d)
    (o : AmfObject) (hfuel : dec.rest.length < fuel) :
    Consumes 2 (loadEntries load fuel o dec) dec := by
  induction fuel generalizing o dec with
  | zero => omega
  | succ fuel ih =>
    refine ((amfLoadKey_consumes dec).bind (n:=0) ?_).mono (by omega)
    intro key d hd
    simp only
    split_ifs
    · exact consumes_ok le_rfl
    · refine ((hload d (by omega)).bind (n:=0) ?_).mono (by omega)
      intro v e he
      simp only
      exact (ih (fun d' hd' => hload d' (by omega)) _ (by omega)).mono (by omega)

theorem loadMembers_consumes (hload : ∀ d, d.rest.length < dec.rest.length → Consumes 1 (load d) d)
    (hfuel : dec.rest.length < fuel) : Consumes 0 (loadMembers load fuel dec) dec := by
  refine ((loadEntries_consumes hload [] hfuel).bind (n:=0) ?_).mono (by omega)
  intro o d _
  refine ((getByte_consumes d).bind (n:=0) ?_).mono (by omega)
  intro b e _
  simp only
  split_ifs
  · exact consumes_error _
  · exact consumes_ok le_rfl

theorem loadObjectWith_consumes
    (hload : ∀ d, d.rest.length < dec.rest.length → Consumes 1 (load d) d)
    (hfuel : dec.rest.length ≤ fuel) : Consumes 1 (loadObjectWith load fuel dec) dec := by
  refine (getByte_consumes dec).bind (n:=0) ?_
  intro b d hd
  simp only
  split_ifs
  · exact consumes_error _
  · exact loadMembers_consumes (fun d' hd' => hload d' (by omega)) (by omega)

theorem loadEcmaWith_consumes
    (hload : ∀ d, d.rest.length < dec.rest.length → Consumes 1 (load d) d)
    (hfuel : dec.rest.length ≤ fuel) : Consumes 1 (loadEcmaWith load fuel dec) dec := by
  refine (getByte_consumes dec).bind (n:=0) ?_
  intro b d hd
  simp only
  split_ifs
  · exact consumes_error _
  · exact consumes_error _
  · have hskip : (d.advance 4).rest.length ≤ d.rest.length := by
      rw [rest_advance,List.length_drop]
      omega
    have hmembers : Consumes 0 (loadMembers load fuel (d.advance 4)) (d.advance 4) :=
      loadMembers_consumes (fun d' hd' => hload d' (by omega)) (by omega)
    refine ⟨hmembers.1,?_⟩
    intro o e he
    have hle := hmembers.2 o e he
    omega

end

/-- With fuel for the bytes that are left, a value or an exception comes of them. -/
theorem amfLoad_consumes {fuel : ℕ} {dec : Decoder} (hfuel : dec.rest.length < fuel) :
    Consumes 1 (amfLoad fuel dec) dec := by
  induction fuel generalizing dec with
  | zero => omega
  | succ fuel ih =>
    cases hr : dec.rest with
    | nil =>
      have hp : peek dec = .error notEnough := by rw [peek,hr]
      rw [amfLoad,hp]
      exact consumes_error _
    | cons b r =>
      have hp : peek dec = .ok b := peek_ok_iff.mpr ⟨r,hr⟩
      have hone {v : AMFValue} :
          Consumes 1 (Except.ok (v,dec.advance 1) : Except Exn (AMFValue × Decoder)) dec :=
        consumes_ok (by rw [rest_advance,hr]; exact le_rfl)
      have hload (d : Decoder) (hd : d.rest.length < dec.rest.length) :
          Consumes 1 (amfLoad fuel d) d := ih (by omega)
      have hobject : Consumes 1 (loadObjectWith (amfLoad fuel) fuel dec) dec :=
        loadObjectWith_consumes hload (by omega)
      have hecma : Consumes 1 (loadEcmaWith (amfLoad fuel) fuel dec) dec :=
        loadEcmaWith_consumes hload (by omega)
      rw [amfLoad,hp]
      simp only [bind,Except.bind]
      split_ifs
      · exact (amfLoadString_consumes dec).map
      · exact (amfLoadNumber_consumes dec).map
      · exact (loadAmf3Integer_consumes dec).map
      · exact hone
      · exact hone
      · exact hobject.map
      · exact hecma.map
      · exact hone
      · exact hone
      · exact consumes_error _
      · exact (amfLoadString_consumes dec).map
      · exact (amfLoadNumber_consumes dec).map
      · exact (amfLoadBoolean_consumes dec).map
      · exact hobject.map
      · exact hecma.map
      · exact hone
      · exact hone
      · exact consumes_error _

/-- `amf_load` accepts the forms, whatever stands after them, and nothing else. On any bytes and in
either version it comes to its end, with a value or an exception. -/
theorem amfLoad_iff (dec dec' : Decoder) (v : AMFValue) (n : ℕ) :
    (amfLoad (dec.rest.length+1+n) dec = .ok (v,dec') ∧ dec'.version = 0 ↔
      dec.version = 0 ∧ ∃ w, Form w v ∧ Took dec w dec') ∧
    Throws (amfLoad (dec.rest.length+1+n) dec) := by
  refine ⟨⟨?_,?_⟩,(amfLoad_consumes (by omega)).1⟩
  · rintro ⟨h,hv⟩
    exact amfLoad_sound _ dec v dec' h hv
  · rintro ⟨hv,w,hw,ht⟩
    have hlen := ht.length
    exact ⟨amfLoad_complete hw (by omega) hv ht,ht.version.trans hv⟩

/-- No form is the beginning of another, and each stands for one value. -/
theorem form_unique {w w' r r' : List UInt8} {v v' : AMFValue} (h : Form w v) (h' : Form w' v')
    (heq : w++r = w'++r') : w = w' ∧ v = v' := by
  have hw : Took ⟨w++r,0,0⟩ w _ := took_start w r 0
  have hw' : Took ⟨w++r,0,0⟩ w' _ := heq ▸ took_start w' r' 0
  have hfuel : w.length < w.length+w'.length+1 := by omega
  have hfuel' : w'.length < w.length+w'.length+1 := by omega
  have hread := (amfLoad_complete h hfuel rfl hw).symm.trans (amfLoad_complete h' hfuel' rfl hw')
  obtain ⟨hv,hd⟩ := Prod.mk.inj (Except.ok.inj hread)
  exact ⟨(List.append_inj heq (congrArg Decoder.pos hd)).1,hv⟩

theorem form_unique_flag : {v | Form [1,1] v} = {.boolean true} := by
  have hflag : Form [1,1] (.boolean true) := Form.boolean (b:=1) (by decide)
  refine Set.eq_singleton_iff_unique_mem.mpr ⟨hflag,fun v hv => ?_⟩
  exact (form_unique hv hflag (rfl : [1,1]++([] : List UInt8) = [1,1]++[])).2

end Amf
end PcEnv
