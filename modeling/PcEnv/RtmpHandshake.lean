import PcEnv.RtmpServer

/-! The handshake of `do_handshake`, over a socket that blocks. -/
namespace PcEnv
namespace Rtmp

open Act (throw)

def handshakePlaintext : UInt8 := 0x03

def randomLen : ℕ := 1536-8

/-- A call throws, waits for what does not come, or a `SIGPIPE` ends the process. -/
inductive Stop
  | runtimeError (what : String)
  | blocked
  | killed
  deriving DecidableEq, Repr

/-- What the next calls of `recv` and `send` do. `sent` is not in the program: what the socket has
taken. -/
structure Socket where
  recvs : List RecvAnswer
  sends : List SendAnswer
  sent : List UInt8

/-- The loop of `recv_all`. What a call does not ask for is there for the next. -/
def recvLoopAll : List RecvAnswer → ℕ → Except Stop (List UInt8) × List RecvAnswer
  | recvs, 0 => (.ok [],recvs)
  | [], _+1 => (.error .blocked,[])
  | .again::recvs, len+1 => recvLoopAll recvs (len+1)
  | .failed why::recvs, _+1 => (.error (.runtimeError ("unable to recv: "++why)),recvs)
  | .eof::recvs, _+1 => (.ok [],.eof::recvs)
  | .data bytes::recvs, len+1 =>
    if bytes = [] then (.ok [],.data bytes::recvs)
    else if bytes.length ≤ len+1 then
      let (r,recvs) := recvLoopAll recvs (len+1-bytes.length)
      (r.map (bytes++·),recvs)
    else (.ok (bytes.take (len+1)),.data (bytes.drop (len+1))::recvs)

def sendLoopAll : List SendAnswer → List UInt8 → Except Stop Unit × List SendAnswer × List UInt8
  | sends, [] => (.ok (),sends,[])
  | [], _::_ => (.error .blocked,[],[])
  | .again::sends, b::buf => sendLoopAll sends (b::buf)
  | .failed why::sends, _::_ => (.error (.runtimeError ("unable to send: "++why)),sends,[])
  | .broken::sends, _::_ => (.error .killed,sends,[])
  | .wrote n::sends, b::buf =>
    if n = 0 then (.ok (),.wrote n::sends,[])
    else
      let (r,sends,taken) := sendLoopAll sends ((b::buf).drop n)
      (r,sends,(b::buf).take n++taken)

def recvAll (len : ℕ) : Act Socket Stop (List UInt8) := fun s =>
  let (r,recvs) := recvLoopAll s.recvs len
  (r,{ s with recvs := recvs })

def sendAll (buf : List UInt8) : Act Socket Stop ℕ := fun s =>
  let (r,sends,taken) := sendLoopAll s.sends buf
  (r.map fun _ => taken.length,{ s with sends := sends, sent := s.sent++taken })

def serversig (random : List UInt8) : List UInt8 := [3,0,0,0,0,0,0,0]++random

/-- `random` is what `rand` gives. Whether it comes to its end, where it sets `read_seq` and
`written_seq`; the early returns do not, and do not throw. -/
def doHandshake (random : List UInt8) : Act Socket Stop Bool := do
  let c ← recvAll 1
  if c.length < 1 then pure false
  else if c ≠ [handshakePlaintext] then
    throw (.runtimeError "only plaintext handshake supported")
  else do
    let n ← sendAll c
    if n < 1 then pure false
    else do
      let n ← sendAll (serversig random)
      if n < 8+randomLen then pure false
      else do
        let clientsig ← recvAll (8+randomLen)
        if clientsig.length < 8+randomLen then pure false
        else do
          let n ← sendAll clientsig
          if n < 8+randomLen then pure false
          else do
            let clientsig ← recvAll (8+randomLen)
            if clientsig.length < 8+randomLen then pure false
            else if clientsig.drop 8 ≠ random then throw (.runtimeError "invalid handshake")
            else pure true

inductive Closing
  | eof
  | failed (why : String)
  | stalled

def received : List RecvAnswer → List UInt8 × Closing
  | [] => ([],.stalled)
  | .again::recvs => received recvs
  | .failed why::_ => ([],.failed why)
  | .eof::_ => ([],.eof)
  | .data bytes::recvs =>
    if bytes = [] then ([],.eof) else (bytes++(received recvs).1,(received recvs).2)

def Closing.result {α : Type} (a : α) : Closing → Except Stop α
  | .eof => .ok a
  | .failed why => .error (.runtimeError ("unable to recv: "++why))
  | .stalled => .error .blocked

theorem recvLoopAll_whole {recvs : List RecvAnswer} {len : ℕ}
    (h : len ≤ (received recvs).1.length) :
    ∃ rest, recvLoopAll recvs len = (.ok ((received recvs).1.take len),rest) ∧
      received rest = ((received recvs).1.drop len,(received recvs).2) := by
  induction recvs generalizing len with
  | nil =>
    obtain rfl : len = 0 := by simpa [received] using h
    exact ⟨[],rfl,rfl⟩
  | cons answer recvs ih =>
    cases len with
    | zero => exact ⟨answer::recvs,by simp [recvLoopAll],by simp⟩
    | succ len =>
      cases answer with
      | again => exact ih h
      | eof => simp [received] at h
      | failed why => simp [received] at h
      | data bytes =>
        rw [received] at h ⊢
        by_cases hnil : bytes = []
        · simp [hnil] at h
        · rw [if_neg hnil] at h ⊢
          rw [recvLoopAll,if_neg hnil]
          by_cases hle : bytes.length ≤ len+1
          · rw [List.length_append] at h
            obtain ⟨rest,hrest,hleft⟩ := @ih (len+1-bytes.length) (by omega)
            refine ⟨rest,?_,?_⟩
            · simp [if_pos hle,hrest,Except.map,List.take_append,List.take_of_length_le hle]
            · simp [hleft,List.drop_append,List.drop_eq_nil_of_le hle]
          · have hdrop : bytes.drop (len+1) ≠ [] := by
              rw [Ne,List.drop_eq_nil_iff]
              omega
            refine ⟨.data (bytes.drop (len+1))::recvs,?_,?_⟩
            · rw [if_neg hle,List.take_append_of_le_length (by omega)]
            · rw [received,if_neg hdrop,List.drop_append_of_le_length (by omega)]

theorem recvLoopAll_short {recvs : List RecvAnswer} {len : ℕ}
    (h : (received recvs).1.length < len) :
    (recvLoopAll recvs len).1 = (received recvs).2.result (received recvs).1 := by
  induction recvs generalizing len with
  | nil =>
    obtain ⟨len,rfl⟩ : ∃ k, len = k+1 := ⟨len-1,by omega⟩
    rfl
  | cons answer recvs ih =>
    obtain ⟨len,rfl⟩ : ∃ k, len = k+1 := ⟨len-1,by omega⟩
    cases answer with
    | again => exact ih h
    | eof => rfl
    | failed why => rfl
    | data bytes =>
      rw [received] at h ⊢
      rw [recvLoopAll]
      by_cases hnil : bytes = []
      · rw [if_pos hnil,if_pos hnil]
        rfl
      · rw [if_neg hnil] at h ⊢
        rw [List.length_append] at h
        have hle : bytes.length ≤ len+1 := by omega
        have hnext := @ih (len+1-bytes.length) (by omega)
        simp only [if_neg hnil,if_pos hle,hnext]
        cases (received recvs).2 <;> rfl

/-- A socket that takes bytes whenever it is asked to come back, and at least `n` times. -/
def Takes (sends : List SendAnswer) (n : ℕ) : Prop :=
  (∀ a ∈ sends, a = .again ∨ ∃ m, a = .wrote (m+1)) ∧ n ≤ (sends.filter (· ≠ .again)).length

theorem sendLoopAll_takes {sends : List SendAnswer} {n : ℕ} (buf : List UInt8)
    (h : Takes sends (buf.length+n)) :
    ∃ rest, sendLoopAll sends buf = (.ok (),rest,buf) ∧ Takes rest n := by
  induction sends generalizing buf with
  | nil =>
    obtain ⟨rfl,rfl⟩ : buf = [] ∧ n = 0 := by simpa [Takes] using h
    exact ⟨[],rfl,h⟩
  | cons answer sends ih =>
    obtain ⟨hall,hcount⟩ := h
    obtain ⟨hanswer,hsends⟩ := List.forall_mem_cons.mp hall
    cases buf with
    | nil => exact ⟨answer::sends,by simp [sendLoopAll],hall,by simpa using hcount⟩
    | cons b buf =>
      rcases hanswer with rfl | ⟨m,rfl⟩
      · exact ih (b::buf) ⟨hsends,by simpa using hcount⟩
      · have hdrop : ((b::buf).drop (m+1)).length+n ≤ (sends.filter (· ≠ .again)).length := by
          have hless : buf.length+1+n ≤ (sends.filter (· ≠ .again)).length+1 := by
            simpa using hcount
          rw [List.drop_succ_cons,List.length_drop]
          omega
        obtain ⟨rest,hrest,hleft⟩ := ih ((b::buf).drop (m+1)) ⟨hsends,hdrop⟩
        refine ⟨rest,?_,hleft⟩
        rw [sendLoopAll,if_neg (Nat.succ_ne_zero m),hrest]
        simp [List.take_append_drop]

section

variable {s : Socket} {x : Except Stop Bool × Socket} {len : ℕ}

/-- `recv_all` and the early return behind it: the bytes end before, or they are there. -/
theorem recvAll_stage {f : List UInt8 → Act Socket Stop Bool}
    (hx : (recvAll len >>= fun got => if got.length < len then pure false else f got) s = x) :
    ((received s.recvs).1.length < len ∧ x.1 = (received s.recvs).2.result false) ∨
      (len ≤ (received s.recvs).1.length ∧
        ∃ rest, f ((received s.recvs).1.take len) { s with recvs := rest } = x ∧
          received rest = ((received s.recvs).1.drop len,(received s.recvs).2)) := by
  by_cases h : (received s.recvs).1.length < len
  · refine Or.inl ⟨h,?_⟩
    have hshort := recvLoopAll_short h
    cases hloop : recvLoopAll s.recvs len with
    | mk r recvs =>
      rw [hloop] at hshort
      have hrecv : recvAll len s = (r,{ s with recvs := recvs }) := by simp [recvAll,hloop]
      rw [← hx]
      cases hclosing : (received s.recvs).2 with
      | eof =>
        rw [hclosing] at hshort
        rw [Act.bind_ok (hrecv.trans (congrArg (·,_) hshort)),if_pos h]
        rfl
      | failed why | stalled =>
        rw [hclosing] at hshort
        rw [Act.bind_error (hrecv.trans (congrArg (·,_) hshort))]
        rfl
  · obtain ⟨rest,hrest,hleft⟩ := recvLoopAll_whole (not_lt.mp h)
    have hrecv : recvAll len s = (.ok ((received s.recvs).1.take len),{ s with recvs := rest }) := by
      simp [recvAll,hrest]
    rw [Act.bind_ok hrecv,if_neg (by rw [List.length_take]; omega)] at hx
    exact Or.inr ⟨not_lt.mp h,rest,hx,hleft⟩

theorem sendAll_stage {buf : List UInt8} {n : ℕ} {f : Act Socket Stop Bool}
    (htakes : Takes s.sends (len+n)) (hlen : buf.length = len)
    (hx : (sendAll buf >>= fun n => if n < len then pure false else f) s = x) :
    ∃ rest, f { s with sends := rest, sent := s.sent++buf } = x ∧ Takes rest n := by
  obtain ⟨rest,hrest,hleft⟩ := sendLoopAll_takes buf (hlen ▸ htakes)
  have hsend : sendAll buf s = (.ok buf.length,{ s with sends := rest, sent := s.sent++buf }) := by
    simp [sendAll,hrest,Except.map]
  rw [Act.bind_ok hsend,if_neg (by omega)] at hx
  exact ⟨rest,hx,hleft⟩

end

def verdict (random bytes : List UInt8) (closing : Closing) : Except Stop Bool :=
  if bytes.length < 1 then closing.result false
  else if bytes.take 1 ≠ [handshakePlaintext] then
    .error (.runtimeError "only plaintext handshake supported")
  else if bytes.length < 1+2*(8+randomLen) then closing.result false
  else if (bytes.drop (1+(8+randomLen)+8)).take randomLen ≠ random then
    .error (.runtimeError "invalid handshake")
  else .ok true

/-- How the bytes of the peer are cut, and which calls have to be made again, makes no difference.
When the handshake comes to its end the peer has got the version, a signature and its own one back,
and what it sent behind the handshake has not been touched. -/
theorem doHandshake_spec {random : List UInt8} {s : Socket} (hrandom : random.length = randomLen)
    (hsends : Takes s.sends (1+2*(8+randomLen))) {x : Except Stop Bool × Socket}
    (hx : doHandshake random s = x) :
    x.1 = verdict random (received s.recvs).1 (received s.recvs).2 ∧
      (x.1 = .ok true →
        x.2.sent = s.sent++([handshakePlaintext]++serversig random++
          ((received s.recvs).1.drop 1).take (8+randomLen)) ∧
        received x.2.recvs =
          ((received s.recvs).1.drop (1+2*(8+randomLen)),(received s.recvs).2)) := by
  generalize hbytes : (received s.recvs).1 = bytes
  generalize hend : (received s.recvs).2 = closing
  have hfail {P : Prop} {y : Except Stop Bool} (hy : x.1 = y) (hne : y ≠ .ok true) :
      x.1 = y ∧ (x.1 = .ok true → P) := ⟨hy,fun h => absurd (hy.symm.trans h) hne⟩
  have hclosing : closing.result false ≠ .ok true := by cases closing <;> simp [Closing.result]
  have hlen : (serversig random).length = 8+randomLen := by
    rw [serversig,List.length_append,hrandom]
    rfl
  unfold verdict
  rcases recvAll_stage hx with ⟨hshort,hx⟩ | ⟨hlen₁,r₁,hx,hr₁⟩
  · rw [hbytes] at hshort
    rw [hend] at hx
    rw [if_pos hshort]
    exact hfail hx hclosing
  rw [hbytes] at hlen₁ hx hr₁
  rw [hend] at hr₁
  rw [if_neg (not_lt.mpr hlen₁)]
  by_cases hversion : bytes.take 1 ≠ [handshakePlaintext]
  · rw [if_pos hversion] at hx ⊢
    exact hfail (congrArg Prod.fst hx).symm (by simp)
  rw [if_neg hversion] at hx ⊢
  have hone : (bytes.take 1).length = 1 := by
    rw [List.length_take]
    omega
  obtain ⟨s₁,hx,hs₁⟩ := sendAll_stage (by convert hsends using 1) hone hx
  obtain ⟨s₂,hx,hs₂⟩ := sendAll_stage (n:=8+randomLen) (by convert hs₁ using 1; omega) hlen hx
  rcases recvAll_stage hx with ⟨hshort,hx⟩ | ⟨hlen₂,r₂,hx,hr₂⟩
  · simp only [hr₁,List.length_drop] at hshort hx
    rw [if_pos (by omega)]
    exact hfail hx hclosing
  simp only [hr₁,List.length_drop] at hlen₂ hx hr₂
  have hecho : ((bytes.drop 1).take (8+randomLen)).length = 8+randomLen := by
    rw [List.length_take,List.length_drop]
    omega
  obtain ⟨s₃,hx,-⟩ := sendAll_stage (n:=0) hs₂ hecho hx
  rcases recvAll_stage hx with ⟨hshort,hx⟩ | ⟨hlen₃,r₃,hx,hr₃⟩
  · simp only [hr₂,List.length_drop] at hshort hx
    rw [if_pos (by omega)]
    exact hfail hx hclosing
  simp only [hr₂,List.length_drop,List.drop_drop] at hlen₃ hx hr₃
  rw [if_neg (by omega)]
  have hcompare : ((bytes.drop (1+(8+randomLen))).take (8+randomLen)).drop 8 =
      (bytes.drop (1+(8+randomLen)+8)).take randomLen := by
    rw [List.drop_take,List.drop_drop,Nat.add_sub_cancel_left]
  rw [hcompare] at hx
  split_ifs at hx ⊢
  · exact hfail (congrArg Prod.fst hx).symm (by simp)
  · subst hx
    refine ⟨rfl,fun _ => ⟨?_,?_⟩⟩
    · have hplain : bytes.take 1 = [handshakePlaintext] := not_not.mp hversion
      simp [hplain]
    · refine hr₃.trans ?_
      congr 2

theorem verdict_right {random signature own rest : List UInt8} (closing : Closing)
    (hrandom : random.length = randomLen) (hsignature : signature.length = 8+randomLen)
    (hown : own.length = 8) :
    verdict random (handshakePlaintext::(signature++(own++random++rest))) closing = .ok true ∧
      (handshakePlaintext::(signature++(own++random++rest))).drop (1+2*(8+randomLen)) = rest := by
  have hlen : (handshakePlaintext::(signature++own)).length = 1+(8+randomLen)+8 := by
    simp [hsignature,hown]
    omega
  have hsplit : handshakePlaintext::(signature++(own++random++rest)) =
      (handshakePlaintext::(signature++own))++(random++rest) := by simp
  have htake : ((handshakePlaintext::(signature++(own++random++rest))).drop
      (1+(8+randomLen)+8)).take randomLen = random := by
    rw [hsplit,List.drop_left' hlen,List.take_left' hrandom]
  constructor
  · unfold verdict
    rw [if_neg (by simp),if_neg (by simp),if_neg (by simp; omega),htake,if_neg (by simp)]
  · have hall : (handshakePlaintext::(signature++own)++random).length = 1+2*(8+randomLen) := by
      rw [List.length_append,hlen,hrandom]
      omega
    rw [hsplit,← List.append_assoc,List.drop_left' hall]

/-- A peer whose bytes come in three reads and go on behind the handshake. -/
theorem doHandshake_done :
    let random := List.replicate randomLen 0
    let signature := List.replicate (8+randomLen) 7
    let x := doHandshake random
      ⟨[.again,.data (handshakePlaintext::signature),.data (List.replicate 8 0++random++[9])],
        List.replicate 3073 (.wrote 1),[]⟩
    x.1 = .ok true ∧ x.2.sent = [handshakePlaintext]++serversig random++signature ∧
      received x.2.recvs = ([9],.stalled) := by
  intro random signature x
  have htakes : Takes (List.replicate 3073 (.wrote 1)) (1+2*(8+randomLen)) := by
    refine ⟨fun a ha => Or.inr ⟨0,List.eq_of_mem_replicate ha⟩,?_⟩
    rw [List.filter_replicate_of_pos (by decide),List.length_replicate]
    decide
  have hrandom : random.length = randomLen := List.length_replicate
  have hsignature : signature.length = 8+randomLen := List.length_replicate
  obtain ⟨hverdict,hdone⟩ := @doHandshake_spec random _ hrandom htakes x rfl
  have hbytes : received [.again,.data (handshakePlaintext::signature),
      .data (List.replicate 8 0++random++[9])] =
        (handshakePlaintext::(signature++(List.replicate 8 0++random++[9])),.stalled) := by
    simp [received]
  rw [hbytes] at hverdict hdone
  obtain ⟨hok,hdrop⟩ := verdict_right .stalled hrandom hsignature
    (List.length_replicate (n:=8) (a:=0))
  obtain ⟨hsent,hrest⟩ := hdone (hverdict.trans hok)
  refine ⟨hverdict.trans hok,?_,?_⟩
  · have htake : ((handshakePlaintext::(signature++(List.replicate 8 0++random++[9]))).drop 1).take
        (8+randomLen) = signature := List.take_left' hsignature
    rw [htake] at hsent
    exact hsent
  · rw [hdrop] at hrest
    exact hrest

end Rtmp
end PcEnv
