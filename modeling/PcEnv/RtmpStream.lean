import PcEnv.RtmpChunks

/-! A connection's bytes give the same messages however they come in. -/
namespace PcEnv
namespace Rtmp

open Bytes Incremental
open Amf (Exn notEnough)

section

variable {buf piece : List UInt8} {msg msg' : RTMPMessage} {hlen n c : ℕ} {e : Exn}
  {h : RTMPHeader}

theorem headD_append (hne : buf ≠ []) : (buf++piece).headD 0 = buf.headD 0 := by
  cases buf with
  | nil => exact absurd rfl hne
  | cons b buf => rfl

theorem headerLen_pos (flags : UInt8) : 0 < headerLen flags := by
  unfold headerLen
  split <;> decide

theorem headLen_append (hne : buf ≠ []) : headLen (buf++piece) = headLen buf := by
  rw [headLen,headLen,headD_append hne]

theorem header_append (hne : buf ≠ []) (hle : headLen buf ≤ buf.length) :
    header (buf++piece) = header buf := by
  rw [header,header,headLen_append hne,List.take_append_of_le_length hle]

theorem ne_nil_of_headLen (hle : headLen buf ≤ buf.length) : buf ≠ [] := by
  rintro rfl
  exact absurd hle (by decide)

theorem loadHeader_ok (hm : loadHeader h hlen msg = .ok msg') :
    msg'.buf = msg.buf ∧ msg'.timestamp = msg.timestamp ∧
      (msg.buf.length ≤ msg.len → msg'.buf.length ≤ msg'.len) ∧
      loadHeader h hlen msg' = .ok msg' := by
  unfold loadHeader at hm
  split_ifs at hm with height hlt htwelve
  · cases hm
    exact ⟨rfl,rfl,fun _ => not_lt.mp hlt,by simp [loadHeader,height,hlt,htwelve]⟩
  · cases hm
    exact ⟨rfl,rfl,fun _ => not_lt.mp hlt,by simp [loadHeader,height,hlt,htwelve]⟩
  · cases hm
    exact ⟨rfl,rfl,id,by simp [loadHeader,height]⟩

theorem readBody_append (hle : headLen buf ≤ buf.length) :
    readBody c msg buf = .more msg ∨
      readBody c msg (buf++piece) = readBody c msg buf ∧ ∀ m, readBody c msg buf ≠ .more m := by
  have hne := ne_nil_of_headLen hle
  unfold readBody
  simp only [headLen_append hne,header_append hne hle,List.length_append]
  by_cases hzero : msg.len = 0
  · exact Or.inr (by simp [hzero])
  · by_cases hshort : buf.length < headLen buf+min (msg.len-msg.buf.length) c
    · exact Or.inl (by simp only [if_neg hzero,if_pos hshort])
    · have hlong : ¬ buf.length+piece.length < headLen buf+min (msg.len-msg.buf.length) c := by
        omega
      have htake : ((buf++piece).drop (headLen buf)).take (min (msg.len-msg.buf.length) c) =
          (buf.drop (headLen buf)).take (min (msg.len-msg.buf.length) c) := by
        rw [List.drop_append_of_le_length hle,List.take_append_of_le_length]
        rw [List.length_drop]
        omega
      simp only [if_neg hzero,if_neg hshort,if_neg hlong,htake]
      cases loadTimestamp (header buf) (headLen buf) msg <;> simp

theorem readBody_took (ht : readBody c msg buf = .took msg' n) :
    n = headLen buf+min (msg.len-msg.buf.length) c ∧ n ≤ buf.length ∧ msg.len ≠ 0 ∧
      ∃ ts, loadTimestamp (header buf) (headLen buf) msg = .ok ts ∧
        msg' = { msg with
          timestamp := ts
          buf := msg.buf++(buf.drop (headLen buf)).take (min (msg.len-msg.buf.length) c) } := by
  unfold readBody at ht
  simp only at ht
  split_ifs at ht with hzero hshort
  cases hts : loadTimestamp (header buf) (headLen buf) msg with
  | error e =>
    rw [hts] at ht
    cases ht
  | ok ts =>
    rw [hts] at ht
    cases ht
    exact ⟨rfl,not_lt.mp hshort,hzero,ts,rfl,rfl⟩

theorem readChunk_took (ht : readChunk c msg buf = .took msg' n) :
    headLen buf ≤ buf.length ∧ ∃ m, loadHeader (header buf) (headLen buf) msg = .ok m ∧
      readBody c m buf = .took msg' n := by
  unfold readChunk at ht
  split_ifs at ht with hshort
  cases hm : loadHeader (header buf) (headLen buf) msg with
  | error e =>
    rw [hm] at ht
    cases ht
  | ok m =>
    rw [hm] at ht
    exact ⟨not_lt.mp hshort,m,rfl,ht⟩

theorem readChunk_append (c : ℕ) (msg : RTMPMessage) (hne : buf ≠ []) (piece : List UInt8) :
    (∃ m, readChunk c msg buf = .more m ∧
      readChunk c m (buf++piece) = readChunk c msg (buf++piece)) ∨
    readChunk c msg (buf++piece) = readChunk c msg buf ∧ ∀ m, readChunk c msg buf ≠ .more m := by
  by_cases hshort : buf.length < headLen buf
  · exact Or.inl ⟨msg,by rw [readChunk,if_pos hshort],rfl⟩
  · have hle := not_lt.mp hshort
    have hlong : ¬ (buf++piece).length < headLen buf := by
      rw [List.length_append]
      omega
    unfold readChunk
    simp only [headLen_append hne,header_append hne hle,if_neg hshort,if_neg hlong]
    cases hm : loadHeader (header buf) (headLen buf) msg with
    | error e => exact Or.inr (by simp)
    | ok m =>
      rcases @readBody_append buf piece m c hle with h | h
      · exact Or.inl ⟨m,h,by rw [(loadHeader_ok hm).2.2.2]⟩
      · exact Or.inr h

end

section

variable {ρ : Type} {chunkLen : ρ → ℕ} {handle : Channel → RTMPMessage → ρ → Except Exn Unit × ρ}
  {s s' : Messages × ρ} {buf : List UInt8} {n : ℕ} {e : Exn}

inductive Turned (chunkLen : ρ → ℕ) (handle : Channel → RTMPMessage → ρ → Except Exn Unit × ρ)
    (s : Messages × ρ) (buf : List UInt8) : Turn (Messages × ρ) Exn → Prop
  | more {m : RTMPMessage}
      (h : readChunk (chunkLen s.2) (s.1 (channel (buf.headD 0))) buf = .more m) :
      Turned chunkLen handle s buf (.more (Function.update s.1 (channel (buf.headD 0)) m,s.2))
  | fail {m : RTMPMessage} {e : Exn}
      (h : readChunk (chunkLen s.2) (s.1 (channel (buf.headD 0))) buf = .fail m e) :
      Turned chunkLen handle s buf (.fail (Function.update s.1 (channel (buf.headD 0)) m,s.2) e)
  | part {m : RTMPMessage} {n : ℕ}
      (h : readChunk (chunkLen s.2) (s.1 (channel (buf.headD 0))) buf = .took m n)
      (hpart : m.buf.length ≠ m.len) :
      Turned chunkLen handle s buf (.took (Function.update s.1 (channel (buf.headD 0)) m,s.2) n)
  | handled {m : RTMPMessage} {n : ℕ} {r : ρ}
      (h : readChunk (chunkLen s.2) (s.1 (channel (buf.headD 0))) buf = .took m n)
      (hfull : m.buf.length = m.len) (hh : handle (channel (buf.headD 0)) m s.2 = (.ok (),r)) :
      Turned chunkLen handle s buf
        (.took (Function.update s.1 (channel (buf.headD 0)) { m with buf := [] },r) n)
  | thrown {m : RTMPMessage} {n : ℕ} {r : ρ} {e : Exn}
      (h : readChunk (chunkLen s.2) (s.1 (channel (buf.headD 0))) buf = .took m n)
      (hfull : m.buf.length = m.len) (hh : handle (channel (buf.headD 0)) m s.2 = (.error e,r)) :
      Turned chunkLen handle s buf (.fail (Function.update s.1 (channel (buf.headD 0)) m,r) e)

theorem recvTurn_nil (s : Messages × ρ) : recvTurn chunkLen handle s [] = .more s := by
  simp [recvTurn]

theorem recvTurn_turned (hne : buf ≠ []) :
    Turned chunkLen handle s buf (recvTurn chunkLen handle s buf) := by
  unfold recvTurn
  rw [if_neg hne]
  cases hread : readChunk (chunkLen s.2) (s.1 (channel (buf.headD 0))) buf with
  | more m => simpa only [hread] using Turned.more hread
  | fail m e => simpa only [hread] using Turned.fail hread
  | took m n =>
    simp only [hread]
    by_cases hfull : m.buf.length = m.len
    · rw [if_pos hfull]
      cases hh : handle (channel (buf.headD 0)) m s.2 with
      | mk x r =>
        cases x with
        | ok u => exact .handled hread hfull hh
        | error e => exact .thrown hread hfull hh
    · rw [if_neg hfull]
      exact .part hread hfull

theorem Turned.eq {t : Turn (Messages × ρ) Exn} (h : Turned chunkLen handle s buf t)
    (hne : buf ≠ []) : recvTurn chunkLen handle s buf = t := by
  unfold recvTurn
  cases h with
  | more h => simp only [if_neg hne,h]
  | fail h => simp only [if_neg hne,h]
  | part h hpart => simp only [if_neg hne,h,if_neg hpart]
  | handled h hfull hh => simp only [if_neg hne,h,if_pos hfull,hh]
  | thrown h hfull hh => simp only [if_neg hne,h,if_pos hfull,hh]

theorem readChunk_bounds {c : ℕ} {msg m : RTMPMessage} (h : readChunk c msg buf = .took m n) :
    0 < n ∧ n ≤ buf.length := by
  obtain ⟨-,k,-,hbody⟩ := readChunk_took h
  obtain ⟨hn,hle,-⟩ := readBody_took hbody
  have hpos := headerLen_pos (buf.headD 0)
  rw [hn]
  exact ⟨Nat.add_pos_left hpos _,hn ▸ hle⟩

theorem recvTurn_took (ht : recvTurn chunkLen handle s buf = .took s' n) :
    0 < n ∧ n ≤ buf.length := by
  have hne : buf ≠ [] := by
    rintro rfl
    rw [recvTurn_nil] at ht
    cases ht
  have hturn : Turned chunkLen handle s buf (recvTurn chunkLen handle s buf) :=
    recvTurn_turned hne
  rw [ht] at hturn
  cases hturn with
  | part h _ => exact readChunk_bounds h
  | handled h _ _ => exact readChunk_bounds h

theorem recvTurn_append (hne : buf ≠ []) (piece : List UInt8) :
    (∃ t, recvTurn chunkLen handle s buf = .more t ∧
      recvTurn chunkLen handle t (buf++piece) = recvTurn chunkLen handle s (buf++piece)) ∨
    recvTurn chunkLen handle s (buf++piece) = recvTurn chunkLen handle s buf ∧
      ∀ t, recvTurn chunkLen handle s buf ≠ .more t := by
  have hne' : buf++piece ≠ [] := by simp [hne]
  unfold recvTurn
  simp only [if_neg hne,if_neg hne',headD_append hne]
  rcases readChunk_append (chunkLen s.2) (s.1 (channel (buf.headD 0))) hne piece with
    ⟨msg,hmore,h⟩ | ⟨h,hmore⟩
  · refine Or.inl ⟨_,by rw [hmore],?_⟩
    simp only [Function.update_self,h,Function.update_idem]
  · refine Or.inr ⟨by rw [h],?_⟩
    cases hread : readChunk (chunkLen s.2) (s.1 (channel (buf.headD 0))) buf with
    | more m => exact absurd hread (hmore m)
    | fail m e => simp
    | took m n =>
      simp only
      split_ifs
      · cases handle (channel (buf.headD 0)) m s.2 with
        | mk x r => cases x <;> simp
      · simp

/-- The loop of `recv_from_client` may stop anywhere and go on when more has come. -/
theorem recvTurn_stable (chunkLen : ρ → ℕ)
    (handle : Channel → RTMPMessage → ρ → Except Exn Unit × ρ) :
    Stable (recvTurn chunkLen handle) := by
  have hnil (s : Messages × ρ) : recvTurn chunkLen handle s [] = .more s := by simp [recvTurn]
  constructor
  · intro s buf s' n ht
    obtain ⟨hpos,hle⟩ := recvTurn_took ht
    have hne : buf ≠ [] := List.ne_nil_of_length_pos (by omega)
    refine ⟨hpos,hle,?_⟩
    intro piece
    rcases recvTurn_append hne piece with ⟨t,hmore,-⟩ | ⟨h,-⟩
    · rw [ht] at hmore
      cases hmore
    · rw [h,ht]
  · intro s buf s' e hf piece
    have hne : buf ≠ [] := by
      rintro rfl
      rw [hnil] at hf
      cases hf
    rcases recvTurn_append hne piece with ⟨t,hmore,-⟩ | ⟨h,-⟩
    · rw [hf] at hmore
      cases hmore
    · rw [h,hf]
  · intro s buf s' hm piece
    by_cases hne : buf = []
    · subst hne
      rw [hnil] at hm
      cases hm
      rfl
    · rcases recvTurn_append hne piece with ⟨t,hmore,h⟩ | ⟨-,hmore⟩
      · rw [hm] at hmore
        cases hmore
        exact h
      · exact absurd hm (hmore s')

/-- What is buffered of each message has room in it. -/
def Sized (msgs : Messages) : Prop :=
  ∀ i, (msgs i).buf.length ≤ (msgs i).len ∧ (msgs i).len < 2^24

structure Whole (msg : RTMPMessage) : Prop where
  len : msg.buf.length = msg.len
  pos : 0 < msg.len
  lt : msg.len < 2^24

end

theorem loadHeader_lt {buf : List UInt8} {hlen : ℕ} {msg m : RTMPMessage} (hlt : msg.len < 2^24)
    (hm : loadHeader (header buf) hlen msg = .ok m) : m.len < 2^24 := by
  have hfield : (header buf).msgLen < 2^24 := by
    have hbound := ofBe_lt (((buf.take (headLen buf)).drop 4).take 3)
    have hthree : (((buf.take (headLen buf)).drop 4).take 3).length ≤ 3 := List.length_take_le _ _
    have hpow : 256^(((buf.take (headLen buf)).drop 4).take 3).length ≤ 256^3 :=
      Nat.pow_le_pow_right (by decide) hthree
    have hval : (256 : ℕ)^3 = 2^24 := by norm_num
    exact hbound.trans_le (hpow.trans hval.le)
  unfold loadHeader at hm
  split_ifs at hm
  · cases hm
    exact hfield
  · cases hm
    exact hfield
  · cases hm
    exact hlt

theorem readChunk_sized {c : ℕ} {msg : RTMPMessage} {buf : List UInt8}
    (hmsg : msg.buf.length ≤ msg.len ∧ msg.len < 2^24) :
    (readChunk c msg buf).state.buf.length ≤ (readChunk c msg buf).state.len ∧
      (readChunk c msg buf).state.len < 2^24 := by
  unfold readChunk
  split_ifs
  · exact hmsg
  · cases hm : loadHeader (header buf) (headLen buf) msg with
    | error e => exact hmsg
    | ok m =>
      have hlt := loadHeader_lt hmsg.2 hm
      have hle := (loadHeader_ok hm).2.2.1 hmsg.1
      have hstate : (readBody c m buf).state.buf.length ≤ m.len ∧
          (readBody c m buf).state.len = m.len := by
        unfold readBody
        simp only
        split_ifs
        · exact ⟨hle,rfl⟩
        · exact ⟨hle,rfl⟩
        · cases loadTimestamp (header buf) (headLen buf) m with
          | error e => exact ⟨hle,rfl⟩
          | ok ts =>
            refine ⟨?_,rfl⟩
            simp only [Turn.state,List.length_append,List.length_take]
            omega
      simp only [hstate.2]
      exact ⟨hstate.1,hlt⟩

theorem headerLen_le (flags : UInt8) : headerLen flags ≤ 12 := by
  unfold headerLen
  split <;> decide

theorem readChunk_more {n : ℕ} {msg m : RTMPMessage} {buf : List UInt8}
    (hmsg : msg.buf.length ≤ msg.len ∧ msg.len < 2^24) (h : readChunk n msg buf = .more m) :
    buf.length < 12+min n (2^24) := by
  have hhead : headLen buf ≤ 12 := headerLen_le _
  have hlt := (@readChunk_sized n msg buf hmsg).2
  rw [h] at hlt
  unfold readChunk at h
  split_ifs at h with hshort
  · omega
  · cases hload : loadHeader (header buf) (headLen buf) msg with
    | error e =>
      rw [hload] at h
      cases h
    | ok m' =>
      simp only [hload,readBody] at h
      split_ifs at h with hzero hwait
      · cases h
        simp only [Turn.state] at hlt
        omega
      · cases hstamp : loadTimestamp (header buf) (headLen buf) m' with
        | error e =>
          rw [hstamp] at h
          cases h
        | ok ts =>
          rw [hstamp] at h
          cases h

section

variable {ρ : Type} {chunkLen : ρ → ℕ} {handle : Channel → RTMPMessage → ρ → Except Exn Unit × ρ}
  {s s' : Messages × ρ} {buf : List UInt8}

/-- The messages that are handed over are whole, and the others have room for what is missing. -/
theorem recvTurn_invariant {I : ρ → Prop}
    (hI : ∀ i msg r, Whole msg → I r → I (handle i msg r).2) (hs : Sized s.1 ∧ I s.2) :
    Sized (recvTurn chunkLen handle s buf).state.1 ∧
      I (recvTurn chunkLen handle s buf).state.2 := by
  obtain ⟨hsized,hr⟩ := hs
  by_cases hne : buf = []
  · rw [hne,recvTurn_nil]
    exact ⟨hsized,hr⟩
  · have hupdate {m : RTMPMessage} {i : Channel} (hm : m.buf.length ≤ m.len ∧ m.len < 2^24) :
        Sized (Function.update s.1 i m) := by
      intro j
      by_cases hj : j = i
      · rw [hj,Function.update_self]
        exact hm
      · rw [Function.update_of_ne hj]
        exact hsized j
    have hmsg := @readChunk_sized (chunkLen s.2) _ buf (hsized (channel (buf.headD 0)))
    have hhanded {m : RTMPMessage} {n : ℕ}
        (h : readChunk (chunkLen s.2) (s.1 (channel (buf.headD 0))) buf = .took m n)
        (hfull : m.buf.length = m.len) :
        m.len < 2^24 ∧ I (handle (channel (buf.headD 0)) m s.2).2 := by
      rw [h] at hmsg
      obtain ⟨-,k,-,hbody⟩ := readChunk_took h
      obtain ⟨-,-,hzero,ts,-,rfl⟩ := readBody_took hbody
      exact ⟨hmsg.2,hI _ _ _ ⟨hfull,Nat.pos_of_ne_zero hzero,hmsg.2⟩ hr⟩
    have hturn : Turned chunkLen handle s buf (recvTurn chunkLen handle s buf) :=
      recvTurn_turned hne
    generalize recvTurn chunkLen handle s buf = t at hturn ⊢
    cases hturn with
    | more h =>
      rw [h] at hmsg
      exact ⟨hupdate hmsg,hr⟩
    | fail h =>
      rw [h] at hmsg
      exact ⟨hupdate hmsg,hr⟩
    | part h _ =>
      rw [h] at hmsg
      exact ⟨hupdate hmsg,hr⟩
    | handled h hfull hh =>
      obtain ⟨hlt,hi⟩ := hhanded h hfull
      rw [hh] at hi
      exact ⟨hupdate ⟨Nat.zero_le _,hlt⟩,hi⟩
    | thrown h hfull hh =>
      obtain ⟨hlt,hi⟩ := hhanded h hfull
      rw [hh] at hi
      exact ⟨hupdate ⟨hfull.le,hlt⟩,hi⟩

theorem recvTurn_more (hs : Sized s.1) (h : recvTurn chunkLen handle s buf = .more s') :
    buf.length < 12+min (chunkLen s'.2) (2^24) := by
  by_cases hne : buf = []
  · rw [hne,List.length_nil]
    omega
  · have hturn : Turned chunkLen handle s buf (recvTurn chunkLen handle s buf) :=
      recvTurn_turned hne
    rw [h] at hturn
    cases hturn with
    | more hread => exact readChunk_more (hs _) hread

end

end Rtmp
end PcEnv
