import PcEnv.Text
import PcEnv.Word

/-! How `SockServer` sends a response: `TCPSocket::Send` and the loops of
`SockClient::ResponseText` and `SockClient::ResponseMime` around it.
What the calls of one `Send` come to is an answer; a loop that needs more answers than there are
has not come back. -/
namespace PcEnv
namespace SockSend

open Text Word

inductive WebserverError
  | noError | errorGetaddr | errorBind | errorListen | errorSend | errorRecv | errorSelect
  | errorNoSocket | errorNotReadable | errorNotWriteable
  deriving DecidableEq, Repr

/-- An enumerator without a value of its own is one more than the one before it. -/
def WebserverError.value : WebserverError → ℤ
  | .noError => 0
  | .errorGetaddr => -1
  | .errorBind => 0
  | .errorListen => 1
  | .errorSend => 2
  | .errorRecv => 3
  | .errorSelect => 4
  | .errorNoSocket => 5
  | .errorNotReadable => 6
  | .errorNotWriteable => 7

/-- What `m_exitWork`, `select` and `send` are in one call of `Send`. -/
inductive Answer
  | exitWork | timeOut | selectError | sendFailed
  | sent (count : ℕ)
  deriving DecidableEq, Repr

/-- Of the bytes asked for, `send` takes at least one. -/
def taken (count : ℕ) (len : ℤ) : ℤ := max 1 (min (count : ℤ) len)

def send (len : ℤ) : Answer → ℤ
  | .exitWork => 0
  | .timeOut | .selectError => WebserverError.errorNotWriteable.value
  | .sendFailed => -1
  | .sent count => taken count len

def put (buf : List UInt8) (sendIdx : ℕ) (len : ℤ) : Answer → List UInt8
  | .sent count => (buf.drop sendIdx).take (taken count len).toNat
  | _ => []

/-- The bytes put on the socket, and the answer to the last `Send`. -/
structure Response where
  bytes : List UInt8
  last : Option Answer
  deriving DecidableEq, Repr

/-- `while (totalLen > 0)` of both functions. -/
def sendLoop (buf : List UInt8) : ℕ → ℤ → List Answer → Option Response
  | _, totalLen, [] => if 0 < totalLen then none else some ⟨[],none⟩
  | sendIdx, totalLen, a::as =>
    if 0 < totalLen then
      let sendLen := send totalLen a
      if sendLen ≤ 0 then some ⟨[],some a⟩
      else (sendLoop buf (sendIdx+sendLen.toNat) (totalLen-sendLen) as).map (fun r =>
        { bytes := put buf sendIdx totalLen a++r.bytes, last := r.last.or (some a) })
    else some ⟨[],none⟩

def sendAll (strBuf : List UInt8) (as : List Answer) : Option Response :=
  sendLoop strBuf 0 (toInt strBuf.length) as

def statusText (txt : List UInt8) : List UInt8 :=
  ascii "serverReply"++ascii "?status="++txt++ascii "\r\n\r\n"

def responseText (txt : List UInt8) (as : List Answer) : Option Response :=
  sendAll (statusText txt) as

/-- `bytes` is what `get_size_by_path` returns; `0` is sent as the `size_t` `-1`. -/
def mimeText (strDate : List UInt8) (bytes : ℕ) : List UInt8 :=
  ascii "HTTP/1.1 200 OK\r\n"++ascii "Accept-Ranges: bytes\r\n"++
    ascii "Date: "++strDate++ascii "\r\n"++
    ascii "Content-Type: "++ascii "application/octet-stream"++ascii "\r\n"++
    ascii "Content-Length: "++
    ascii (toString (if bytes ≤ 0 then sizeSub 0 1 else bytes))++ascii "\r\n\r\n"

def responseMime (strDate : List UInt8) (bytes : ℕ) (as : List Answer) : Option Response :=
  sendAll (mimeText strDate bytes) as

def Answer.Select (a : Answer) : Prop := a = .timeOut ∨ a = .selectError

def Answer.Failed : Answer → Prop
  | .sent _ => False
  | _ => True

/-- The loop comes back, what it has put on the socket is a beginning of what was due, and it is
all of it unless the last `Send` failed. -/
def Whole (due : List UInt8) (r : Option Response) : Prop :=
  ∃ x, r = some x ∧ x.bytes <+: due ∧ (x.bytes = due ∨ ∃ a, x.last = some a ∧ a.Failed)

/-- The answers that do no harm when `placed` bytes of `buf` are on the socket and `skipped` bytes
after them were taken for sent: a count accepted after a skip finds in the text, at the place
where it is read, the bytes that are due. -/
inductive Unbroken (buf : List UInt8) : ℕ → ℕ → ℤ → List Answer → Prop
  | done {placed skipped left as} (h : left ≤ 0) (hend : buf.length ≤ placed) :
      Unbroken buf placed skipped left as
  | failed {placed skipped left a as} (h : 0 < left) (ha : send left a ≤ 0) :
      Unbroken buf placed skipped left (a::as)
  | sent {placed skipped left count as} (h : 0 < left)
      (hdue : (buf.drop (placed+skipped)).take (taken count left).toNat <+: buf.drop placed)
      (hrest : Unbroken buf (placed+(taken count left).toNat) skipped
        (left-taken count left) as) :
      Unbroken buf placed skipped left (.sent count::as)
  | expired {placed skipped left a as} (h : 0 < left) (hle : left ≤ 7) (ha : a.Select) :
      Unbroken buf placed skipped left (a::as)
  | skip {placed skipped left a as} (h : 7 < left) (ha : a.Select)
      (hrest : Unbroken buf placed (skipped+7) (left-7) as) :
      Unbroken buf placed skipped left (a::as)

section

variable {buf : List UInt8} {i placed skipped : ℕ} {left : ℤ} {a : Answer} {as : List Answer}

theorem sendLoop_done (h : left ≤ 0) : sendLoop buf i left as = some ⟨[],none⟩ := by
  cases as with
  | nil => exact if_neg (by omega)
  | cons a as => exact if_neg (by omega)

theorem sendLoop_failed (h : 0 < left) (ha : send left a ≤ 0) :
    sendLoop buf i left (a::as) = some ⟨[],some a⟩ := by
  simp only [sendLoop,if_pos h,if_pos ha]

theorem sendLoop_go (h : 0 < left) (ha : 0 < send left a) :
    sendLoop buf i left (a::as) =
      (sendLoop buf (i+(send left a).toNat) (left-send left a) as).map (fun r =>
        { bytes := put buf i left a++r.bytes, last := r.last.or (some a) }) := by
  simp only [sendLoop,if_pos h,if_neg (not_le.mpr ha)]

theorem taken_pos (count : ℕ) (len : ℤ) : 0 < taken count len := by
  unfold taken
  omega

theorem taken_le {count : ℕ} {len : ℤ} (h : 0 < len) : taken count len ≤ len := by
  unfold taken
  omega

theorem send_select (ha : a.Select) : send left a = 7 := by
  rcases ha with rfl | rfl <;> rfl

theorem put_select (ha : a.Select) : put buf i left a = [] := by
  rcases ha with rfl | rfl <;> rfl

theorem Answer.Select.failed (ha : a.Select) : a.Failed := by
  rcases ha with rfl | rfl <;> trivial

theorem answer_cases (left : ℤ) (a : Answer) :
    (∃ count, a = .sent count) ∨ a.Select ∨ send left a ≤ 0 ∧ a.Failed := by
  cases a with
  | exitWork => exact Or.inr (Or.inr ⟨le_refl 0,trivial⟩)
  | timeOut => exact Or.inr (Or.inl (Or.inl rfl))
  | selectError => exact Or.inr (Or.inl (Or.inr rfl))
  | sendFailed => exact Or.inr (Or.inr ⟨by simp only [send]; omega,trivial⟩)
  | sent count => exact Or.inl ⟨count,rfl⟩

theorem sendLoop_back (h : left ≤ as.length) : ∃ r, sendLoop buf i left as = some r := by
  induction as generalizing i left with
  | nil => exact ⟨_,sendLoop_done (by simpa using h)⟩
  | cons a as ih =>
    rw [List.length_cons] at h
    rcases le_or_gt left 0 with hle | hgt
    · exact ⟨_,sendLoop_done hle⟩
    rcases le_or_gt (send left a) 0 with ha | ha
    · exact ⟨_,sendLoop_failed hgt ha⟩
    have hrest : ∃ r, sendLoop buf (i+(send left a).toNat) (left-send left a) as = some r :=
      ih (by omega)
    obtain ⟨r,hr⟩ := hrest
    exact ⟨_,by rw [sendLoop_go hgt ha,hr]; rfl⟩

theorem whole_done (h : left ≤ 0) :
    Whole (buf.drop placed) (sendLoop buf i left as) ↔ buf.length ≤ placed := by
  rw [sendLoop_done h]
  refine ⟨?_,fun hp => ⟨_,rfl,List.nil_prefix,Or.inl (List.drop_eq_nil_of_le hp).symm⟩⟩
  rintro ⟨x,hx,-,hend⟩
  cases hx
  rcases hend with hend | ⟨a,ha,-⟩
  · exact List.drop_eq_nil_iff.mp hend.symm
  · cases ha

theorem whole_failed (h : 0 < left) (ha : send left a ≤ 0) (hf : a.Failed) :
    Whole (buf.drop placed) (sendLoop buf i left (a::as)) := by
  rw [sendLoop_failed h ha]
  exact ⟨_,rfl,List.nil_prefix,Or.inr ⟨a,rfl,hf⟩⟩

theorem sendLoop_last {r : Response} (h : 0 < left) (hr : sendLoop buf i left as = some r) :
    ∃ a, r.last = some a := by
  cases as with
  | nil => simp only [sendLoop,if_pos h,reduceCtorEq] at hr
  | cons a as =>
    rcases le_or_gt (send left a) 0 with ha | ha
    · rw [sendLoop_failed h ha] at hr
      cases hr
      exact ⟨a,rfl⟩
    · rw [sendLoop_go h ha,Option.map_eq_some_iff] at hr
      obtain ⟨x,-,rfl⟩ := hr
      cases hl : x.last with
      | none => exact ⟨a,by simp only [Option.none_or]⟩
      | some b => exact ⟨b,by simp only [Option.some_or]⟩

theorem last_failed_iff {l : Option Answer} (hf : ¬ a.Failed) :
    (∃ b, l.or (some a) = some b ∧ b.Failed) ↔ ∃ b, l = some b ∧ b.Failed := by
  cases l with
  | none =>
    rw [Option.none_or]
    constructor
    · rintro ⟨b,hb,hfail⟩
      cases hb
      exact (hf hfail).elim
    · rintro ⟨b,hb,-⟩
      cases hb
  | some c => rw [Option.some_or]

theorem whole_chunk {chunk due : List UInt8} {r : Option Response} (hf : ¬ a.Failed) :
    Whole due (r.map (fun r => { bytes := chunk++r.bytes, last := r.last.or (some a) })) ↔
      chunk <+: due ∧ Whole (due.drop chunk.length) r := by
  have hdue (h : chunk <+: due) : due = chunk++due.drop chunk.length := by
    obtain ⟨t,ht⟩ := h
    rw [← ht,List.drop_left]
  constructor
  · rintro ⟨x,hx,hpre,hend⟩
    obtain ⟨r,hr,rfl⟩ := Option.map_eq_some_iff.mp hx
    have hfirst : chunk <+: due := (List.prefix_append _ _).trans hpre
    refine ⟨hfirst,r,hr,?_,hend.imp (fun hall => ?_) (last_failed_iff hf).mp⟩
    · rw [hdue hfirst] at hpre
      exact (List.prefix_append_right_inj chunk).mp hpre
    · rw [hdue hfirst] at hall
      exact List.append_cancel_left hall
  · rintro ⟨hfirst,r,rfl,hpre,hend⟩
    refine ⟨_,rfl,?_,hend.imp (fun hall => ?_) (last_failed_iff hf).mpr⟩
    · rw [hdue hfirst]
      exact (List.prefix_append_right_inj chunk).mpr hpre
    · rw [hdue hfirst,← hall]

theorem whole_sent {count : ℕ} (h : 0 < left) (hin : (i : ℤ)+left ≤ buf.length) :
    Whole (buf.drop placed) (sendLoop buf i left (.sent count::as)) ↔
      (buf.drop i).take (taken count left).toNat <+: buf.drop placed ∧
      Whole (buf.drop (placed+(taken count left).toNat))
        (sendLoop buf (i+(taken count left).toNat) (left-taken count left) as) := by
  have hpos := taken_pos count left
  have hle : taken count left ≤ left := taken_le h
  have hlen : ((buf.drop i).take (taken count left).toNat).length = (taken count left).toNat := by
    rw [List.length_take,List.length_drop]
    omega
  rw [sendLoop_go (a:=.sent count) h hpos]
  simp only [send,put]
  rw [whole_chunk id,hlen,List.drop_drop]

theorem whole_expired (h : 0 < left) (hle : left ≤ 7) (ha : a.Select) :
    Whole (buf.drop placed) (sendLoop buf i left (a::as)) := by
  have hsend : send left a = 7 := send_select ha
  rw [sendLoop_go h (by omega),hsend,sendLoop_done (by omega),put_select ha]
  exact ⟨_,rfl,List.nil_prefix,Or.inr ⟨a,rfl,ha.failed⟩⟩

theorem whole_skip (h : 7 < left) (ha : a.Select) :
    Whole (buf.drop placed) (sendLoop buf i left (a::as)) ↔
      Whole (buf.drop placed) (sendLoop buf (i+7) (left-7) as) := by
  have hsend : send left a = 7 := send_select ha
  rw [sendLoop_go (by omega) (by omega),hsend,put_select ha,show (7 : ℤ).toNat = 7 from rfl]
  cases hr : sendLoop buf (i+7) (left-7) as with
  | none => exact Iff.rfl
  | some r =>
    obtain ⟨b,hb⟩ := sendLoop_last (by omega) hr
    have hsame : ({ bytes := []++r.bytes, last := r.last.or (some a) } : Response) = r := by
      rw [List.nil_append,hb,Option.some_or,← hb]
    rw [Option.map_some,hsame]

/-- What the loop puts on the socket is what was due if and only if the answers do no harm. -/
theorem whole_iff (hin : ((placed+skipped : ℕ) : ℤ)+left ≤ buf.length) :
    Whole (buf.drop placed) (sendLoop buf (placed+skipped) left as) ↔
      Unbroken buf placed skipped left as := by
  induction as generalizing placed skipped left with
  | nil =>
    rcases le_or_gt left 0 with hle | hgt
    · rw [whole_done hle]
      exact ⟨fun hp => .done hle hp,fun h => by cases h with | done _ hp => exact hp⟩
    · refine ⟨?_,fun h => by cases h with | done hle _ => omega⟩
      rintro ⟨x,hx,-⟩
      simp only [sendLoop,if_pos hgt,reduceCtorEq] at hx
  | cons a as ih =>
    rcases le_or_gt left 0 with hle | hgt
    · rw [whole_done hle]
      refine ⟨fun hp => .done hle hp,fun h => ?_⟩
      cases h with
      | done _ hp => exact hp
      | failed hpos _ => omega
      | sent hpos _ _ => omega
      | expired hpos _ _ => omega
      | skip hpos _ _ => omega
    rcases answer_cases left a with ⟨count,rfl⟩ | ha | ⟨ha,hf⟩
    · have hpos := taken_pos count left
      have hle : taken count left ≤ left := taken_le hgt
      have hnext : ((placed+(taken count left).toNat+skipped : ℕ) : ℤ)+
          (left-taken count left) ≤ buf.length := by omega
      rw [whole_sent hgt hin,show placed+skipped+(taken count left).toNat
        = placed+(taken count left).toNat+skipped by omega,ih hnext]
      refine ⟨fun h => .sent hgt h.1 h.2,fun h => ?_⟩
      cases h with
      | done hle _ => omega
      | failed _ ha => simp only [send] at ha; omega
      | sent _ hdue hrest => exact ⟨hdue,hrest⟩
      | expired _ _ ha => rcases ha with ha | ha <;> cases ha
      | skip _ ha _ => rcases ha with ha | ha <;> cases ha
    · have hsend : send left a = 7 := send_select ha
      rcases le_or_gt left 7 with hle | hgt7
      · exact iff_of_true (whole_expired hgt hle ha) (.expired hgt hle ha)
      · have hnext : ((placed+(skipped+7) : ℕ) : ℤ)+(left-7) ≤ buf.length := by omega
        rw [whole_skip hgt7 ha,Nat.add_assoc,ih hnext]
        refine ⟨fun h => .skip hgt7 ha h,fun h => ?_⟩
        cases h with
        | done hle _ => omega
        | failed _ hle => omega
        | sent _ _ _ => rcases ha with ha | ha <;> cases ha
        | expired _ hle _ => omega
        | skip _ _ hrest => exact hrest
    · exact iff_of_true (whole_failed hgt ha hf) (.failed hgt ha)

/-- No byte is accepted after a failed `select`. -/
def Quiet (as : List Answer) : Prop :=
  as.Pairwise (fun a b => a.Select → ∀ count, b ≠ .sent count)

theorem unbroken_of_silent (h : 0 < left) (hback : left ≤ as.length)
    (hno : ∀ b ∈ as, ∀ count, b ≠ .sent count) : Unbroken buf placed skipped left as := by
  induction as generalizing skipped left with
  | nil => exact absurd hback (by simpa using h)
  | cons a as ih =>
    rw [List.length_cons] at hback
    rcases answer_cases left a with ⟨count,ha⟩ | ha | ⟨ha,-⟩
    · exact absurd ha (hno a List.mem_cons_self count)
    · rcases le_or_gt left 7 with hle | hgt
      · exact .expired h hle ha
      · exact .skip hgt ha (ih (by omega) (by omega)
          (fun b hb => hno b (List.mem_cons_of_mem a hb)))
    · exact .failed h ha

theorem Quiet.unbroken (hq : Quiet as) (hall : (placed : ℤ)+left = buf.length)
    (hback : left ≤ as.length) : Unbroken buf placed 0 left as := by
  induction as generalizing placed left with
  | nil =>
    rw [List.length_nil] at hback
    exact .done (by simpa using hback) (by simp only [Nat.cast_zero] at hback; omega)
  | cons a as ih =>
    obtain ⟨hlater,hrest⟩ := List.pairwise_cons.mp hq
    rw [List.length_cons] at hback
    rcases le_or_gt left 0 with hle | hgt
    · exact .done hle (by omega)
    rcases answer_cases left a with ⟨count,rfl⟩ | ha | ⟨ha,-⟩
    · have hpos := taken_pos count left
      have hle : taken count left ≤ left := taken_le hgt
      exact .sent hgt (List.take_prefix _ _) (ih hrest (by omega) (by omega))
    · rcases le_or_gt left 7 with hle | hgt7
      · exact .expired hgt hle ha
      · exact .skip hgt7 ha (unbroken_of_silent (by omega) (by omega)
          (fun b hb => hlater b hb ha))
    · exact .failed hgt ha

end

theorem sendAll_iff (strBuf : List UInt8) (as : List Answer) :
    Whole strBuf (sendAll strBuf as) ↔ Unbroken strBuf 0 0 (toInt strBuf.length) as := by
  have hle := toInt_le strBuf.length
  have hin : ((0+0 : ℕ) : ℤ)+toInt strBuf.length ≤ strBuf.length := by omega
  exact whole_iff hin

theorem sendAll_quiet {strBuf : List UInt8} {as : List Answer} (hlen : strBuf.length ≤ intMax)
    (hback : strBuf.length ≤ as.length) (hq : Quiet as) : Whole strBuf (sendAll strBuf as) := by
  rw [sendAll_iff,toInt_eq hlen]
  exact hq.unbroken (by omega) (by omega)

/-- Both loops come back, and they send a beginning of the response, all of it or up to a failed
`Send`, if and only if every byte accepted after a failed `select` is the byte that is due. It is enough
that after a failed `select` nothing is accepted. -/
theorem response_iff (as : List Answer) :
    (∀ txt, Whole (statusText txt) (responseText txt as) ↔
      Unbroken (statusText txt) 0 0 (toInt (statusText txt).length) as) ∧
    (∀ strDate bytes, Whole (mimeText strDate bytes) (responseMime strDate bytes as) ↔
      Unbroken (mimeText strDate bytes) 0 0 (toInt (mimeText strDate bytes).length) as) ∧
    (Quiet as →
      (∀ txt, (statusText txt).length ≤ intMax → (statusText txt).length ≤ as.length →
        Whole (statusText txt) (responseText txt as)) ∧
      ∀ strDate bytes, (mimeText strDate bytes).length ≤ intMax →
        (mimeText strDate bytes).length ≤ as.length →
          Whole (mimeText strDate bytes) (responseMime strDate bytes as)) ∧
    ∀ strBuf, as.length < strBuf.length ∨ ∃ r, sendAll strBuf as = some r := by
  refine ⟨fun txt => sendAll_iff (statusText txt) as,
    fun strDate bytes => sendAll_iff (mimeText strDate bytes) as,
    fun hq => ⟨fun _ hlen hback => sendAll_quiet hlen hback hq,
      fun _ _ hlen hback => sendAll_quiet hlen hback hq⟩,fun strBuf => ?_⟩
  rcases lt_or_ge as.length strBuf.length with hlt | hge
  · exact Or.inl hlt
  · have hle := toInt_le strBuf.length
    exact Or.inr (sendLoop_back (by omega))

/-- `select` times out once and then all the rest is accepted: the first seven bytes are missing. -/
theorem timeOut_leaves_hole :
    ¬Whole (statusText (ascii "urlParseErr"))
      (responseText (ascii "urlParseErr") [.timeOut,.sent 27]) := by
  have hsent : responseText (ascii "urlParseErr") [.timeOut,.sent 27] =
      some ⟨(statusText (ascii "urlParseErr")).drop 7,some (.sent 27)⟩ := by decide
  rintro ⟨x,hx,hpre,-⟩
  cases hsent.symm.trans hx
  exact absurd hpre (by decide)

end SockSend
end PcEnv
