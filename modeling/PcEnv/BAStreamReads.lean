import PcEnv.BAStream

/-! `readBuf`, which every upload calls for its next bytes. Its read cursor is one set of
`static` variables for all streams. -/
namespace PcEnv
namespace BAStream

open Runs

/-- The `static` variables of `readBuf`. -/
structure Cursor where
  frame : Option FrameData
  ri : ℕ
  ctx : ℕ
  deriving DecidableEq

/-- `readBuf` from `r_get` on, with the bytes it copies out. -/
def copyOut (c : Cursor) (size : ℕ) : Except Halt (Cursor × List UInt8) :=
  match c.frame with
  | none => .error .fault
  | some frame =>
    let rGet := if size < c.ctx then size else c.ctx
    if c.ri+rGet ≤ frame.getSize then
      .ok ({ frame := if c.ctx-rGet = 0 then none else some frame, ri := c.ri+rGet,
             ctx := c.ctx-rGet },(frame.data.drop c.ri).take rGet)
    else .error .fault

/-- Where an upload is in `readBuf(pBuf,size)`. -/
inductive Reader
  | idle
  | readOne (place : ReadAt) (size : ℕ)
  | copy (size : ℕ)
  deriving DecidableEq

/-- The streams `I`, each with its upload. `owner` is the stream whose frame was put in the
cursor last; `read` are the frames its `readOne` returned, `rets` the bytes its `readBuf`
returned, `none` for `-1`. -/
structure Uploads (I : Type) where
  streams : I → BAStream
  cursor : Cursor
  owner : Option I
  reader : I → Reader
  read : I → List FrameData
  rets : I → List (Option (List UInt8))

inductive Event (I : Type)
  | readBuf (i : I) (size : ℕ)
  | readOne (i : I) (expired : Bool)
  | copy (i : I)
  | writeBefor (i : I) (pkt : AVPacket)
  | writeAfter (i : I) (pkt : AVPacket)
  | setWaitExitCond (i : I)
  deriving DecidableEq

variable {I : Type} [DecidableEq I]

def fresh (streams : I → BAStream) : Uploads I :=
  { streams := streams, cursor := { frame := none, ri := 0, ctx := 0 }, owner := none,
    reader := fun _ => .idle, read := fun _ => [], rets := fun _ => [] }

def callReadBuf (s : Uploads I) (i : I) (size : ℕ) : Uploads I :=
  match s.cursor.frame with
  | some _ => { s with reader := Function.update s.reader i (.copy size) }
  | none =>
    let (b,place) := (s.streams i).readOne
    { s with streams := Function.update s.streams i b,
             reader := Function.update s.reader i (.readOne place size) }

/-- What `readOne` returned is assigned to `frame`, and `readBuf` returns `-1` or goes on. -/
def gotFrame (s : Uploads I) (i : I) (size : ℕ) : Option FrameData → Uploads I
  | none => { s with cursor := { s.cursor with frame := none },
                     reader := Function.update s.reader i .idle,
                     rets := Function.update s.rets i (s.rets i++[none]) }
  | some frame => { s with cursor := { frame := some frame, ri := 0, ctx := frame.getSize },
                           owner := some i,
                           reader := Function.update s.reader i (.copy size),
                           read := Function.update s.read i (s.read i++[frame]) }

def stepReadOne (s : Uploads I) (i : I) (expired : Bool) : Except Halt (Uploads I) :=
  match s.reader i with
  | .readOne place size =>
    match (s.streams i).readOneAt expired place with
    | (b,.inl place) =>
      .ok { s with streams := Function.update s.streams i b,
                   reader := Function.update s.reader i (.readOne place size) }
    | (b,.inr frame) =>
      .ok (gotFrame { s with streams := Function.update s.streams i b } i size frame)
  | _ => .error .blocked

def copied (s : Uploads I) (i : I) (cursor : Cursor) (bytes : List UInt8) : Uploads I :=
  { s with cursor := cursor, reader := Function.update s.reader i .idle,
           rets := Function.update s.rets i (s.rets i++[some bytes]) }

def stepCopy (s : Uploads I) (i : I) : Except Halt (Uploads I) :=
  match s.reader i with
  | .copy size =>
    match copyOut s.cursor size with
    | .ok (cursor,bytes) => .ok (copied s i cursor bytes)
    | .error h => .error h
  | _ => .error .blocked

def readStep (s : Uploads I) : Event I → Except Halt (Uploads I)
  | .readBuf i size =>
    match s.reader i with
    | .idle => .ok (callReadBuf s i size)
    | _ => .error .blocked
  | .readOne i expired => stepReadOne s i expired
  | .copy i => stepCopy s i
  | .writeBefor i pkt =>
    match (s.streams i).writeBefor pkt with
    | .ok b => .ok { s with streams := Function.update s.streams i b }
    | .error h => .error h
  | .writeAfter i pkt =>
    .ok { s with streams := Function.update s.streams i ((s.streams i).writeAfter pkt).1 }
  | .setWaitExitCond i =>
    .ok { s with streams := Function.update s.streams i (s.streams i).setWaitExitCond }

theorem callReadBuf_eq {s t : Uploads I} {i : I} {size : ℕ}
    (ht : readStep s (.readBuf i size) = .ok t) : t = callReadBuf s i size := by
  simp only [readStep] at ht
  split at ht <;> cases ht
  rfl

theorem stepReadOne_at {s t : Uploads I} {i : I} {expired : Bool}
    (ht : stepReadOne s i expired = .ok t) :
    ∃ place size, s.reader i = .readOne place size := by
  unfold stepReadOne at ht
  split at ht
  · next place size hreader => exact ⟨place,size,hreader⟩
  · cases ht

theorem stepReadOne_befor {s t : Uploads I} {i : I} {expired : Bool} {size : ℕ}
    (hreader : s.reader i = .readOne .befor size) (ht : stepReadOne s i expired = .ok t) :
    ((s.streams i).befor.content = [] ∧
      t = { s with streams := Function.update s.streams i (s.streams i),
                   reader := Function.update s.reader i (.readOne .befor size) }) ∨
    ∃ frame, (s.streams i).befor.content = frame::(s.streams i).befor.popBack.content ∧
      t = gotFrame
        { s with streams := Function.update s.streams i
                   { s.streams i with befor := (s.streams i).befor.popBack } }
        i size (some frame) := by
  rcases (s.streams i).readOneAt_befor expired with ⟨hnil,hone⟩ | ⟨frame,hcont,hone⟩
  · simp only [stepReadOne,hreader,hone] at ht
    cases ht
    exact Or.inl ⟨hnil,rfl⟩
  · simp only [stepReadOne,hreader,hone] at ht
    cases ht
    exact Or.inr ⟨frame,hcont,rfl⟩

theorem stepCopy_cases {s t : Uploads I} {i : I} (ht : stepCopy s i = .ok t) :
    ∃ size c bytes, s.reader i = .copy size ∧ copyOut s.cursor size = .ok (c,bytes) ∧
      t = copied s i c bytes := by
  unfold stepCopy at ht
  split at ht
  · next size hreader =>
    split at ht
    · next c bytes hcopy =>
      cases ht
      exact ⟨size,c,bytes,hreader,hcopy,rfl⟩
    · cases ht
  · cases ht

def bytesOf (frames : List FrameData) : List UInt8 := frames.flatMap FrameData.data

def returned (s : Uploads I) (i : I) : List UInt8 := (s.rets i).reduceOption.flatten

def held (s : Uploads I) (i : I) : List UInt8 :=
  match s.cursor.frame with
  | some frame => if s.owner = some i then frame.data.drop s.cursor.ri else []
  | none => []

def returns (s : Uploads I) (i : I) (expired : Bool) : Bool :=
  match s.reader i with
  | .readOne place _ => ((s.streams i).readOneAt expired place).2.isRight
  | _ => false

/-- A `readOne` that returns finds no frame in the cursor, and a step that copies finds one of
its own stream. -/
def OwnCursor (s : Uploads I) : Event I → Prop
  | .readOne i expired => returns s i expired = true → s.cursor.frame = none
  | .copy i => s.owner = some i
  | _ => True

instance (s : Uploads I) : DecidablePred (OwnCursor s)
  | .readOne i expired =>
    inferInstanceAs (Decidable (returns s i expired = true → s.cursor.frame = none))
  | .copy i => inferInstanceAs (Decidable (s.owner = some i))
  | .readBuf _ _ | .writeBefor _ _ | .writeAfter _ _ | .setWaitExitCond _ => .isTrue trivial

/-- The bytes of each stream's frames are returned to its upload, in order, and what is not yet
returned is in the cursor. -/
structure Own (s : Uploads I) : Prop where
  whole : ∀ f, s.cursor.frame = some f → s.cursor.ri+s.cursor.ctx = f.data.length
  account : ∀ i, returned s i++held s i = bytesOf (s.read i)

theorem fresh_own (streams : I → BAStream) : Own (fresh streams) where
  whole := fun f hf => by simp [fresh] at hf
  account := fun i => by simp [returned,held,fresh,bytesOf]

theorem Own.same {s t : Uploads I} (h : Own s) (hc : t.cursor = s.cursor)
    (ho : t.owner = s.owner) (hrets : t.rets = s.rets) (hread : t.read = s.read) : Own t := by
  obtain ⟨hwhole,hacc⟩ := h
  refine ⟨by rw [hc]; exact hwhole,?_⟩
  intro i
  have hi := hacc i
  simp only [returned,held] at hi ⊢
  rw [hc,ho,hrets,hread]
  exact hi

theorem callReadBuf_own {s : Uploads I} (h : Own s) (i : I) (size : ℕ) :
    Own (callReadBuf s i size) := by
  unfold callReadBuf
  split <;> exact h.same rfl rfl rfl rfl

theorem gotFrame_own {s : Uploads I} (h : Own s) (hnone : s.cursor.frame = none) (i : I)
    (size : ℕ) (frame : Option FrameData) : Own (gotFrame s i size frame) := by
  have hacc (j : I) : returned s j = bytesOf (s.read j) := by
    have hj := h.account j
    simpa [held,hnone] using hj
  cases frame with
  | none =>
    refine ⟨fun f hf => by simp [gotFrame] at hf,?_⟩
    intro j
    have hrets : returned (gotFrame s i size none) j = returned s j := by
      by_cases hj : j = i
      · subst j
        simp [returned,gotFrame,List.reduceOption_append]
      · simp [returned,gotFrame,hj]
    rw [hrets,hacc j]
    simp [held,gotFrame]
  | some f =>
    refine ⟨?_,?_⟩
    · intro g hg
      cases hg
      simp [gotFrame,FrameData.getSize]
    · intro j
      have hrets : returned (gotFrame s i size (some f)) j = returned s j := rfl
      rw [hrets,hacc j]
      by_cases hj : j = i
      · subst j
        simp [held,gotFrame,bytesOf]
      · simp [held,gotFrame,bytesOf,hj,Ne.symm hj]

theorem stepReadOne_own {s t : Uploads I} (h : Own s) {i : I} {expired : Bool}
    (hok : returns s i expired = true → s.cursor.frame = none)
    (ht : stepReadOne s i expired = .ok t) : Own t := by
  unfold stepReadOne at ht
  split at ht
  · next place size hreader =>
    split at ht
    · cases ht
      exact h.same rfl rfl rfl rfl
    · next b frame hone =>
      cases ht
      have hs : Own { s with streams := Function.update s.streams i b } := h.same rfl rfl rfl rfl
      exact gotFrame_own hs (hok (by simp [returns,hreader,hone])) i size frame
  · cases ht

theorem copyOut_ok {c c' : Cursor} {size : ℕ} {bytes : List UInt8} {frame : FrameData}
    (hf : c.frame = some frame) (hw : c.ri+c.ctx = frame.data.length)
    (h : copyOut c size = .ok (c',bytes)) :
    frame.data.drop c.ri = bytes++frame.data.drop c'.ri ∧ c'.ri+c'.ctx = frame.data.length ∧
      (c'.frame = some frame ∨ c'.frame = none ∧ frame.data.drop c'.ri = []) := by
  simp only [copyOut,hf] at h
  obtain ⟨n,hn⟩ : ∃ n, (if size < c.ctx then size else c.ctx) = n := ⟨_,rfl⟩
  have hle : n ≤ c.ctx := by
    rw [← hn]
    split_ifs <;> omega
  rw [hn] at h
  split_ifs at h with hbound hzero
  · cases h
    refine ⟨?_,by change c.ri+n+(c.ctx-n) = _; omega,Or.inr ⟨rfl,?_⟩⟩
    · rw [← List.drop_drop,List.take_append_drop]
    · rw [List.drop_eq_nil_iff]
      change _ ≤ c.ri+n
      omega
  · cases h
    refine ⟨?_,by change c.ri+n+(c.ctx-n) = _; omega,Or.inl rfl⟩
    rw [← List.drop_drop,List.take_append_drop]

theorem stepCopy_own {s t : Uploads I} (h : Own s) {i : I} (hok : s.owner = some i)
    (ht : stepCopy s i = .ok t) : Own t := by
  obtain ⟨size,c,bytes,-,hcopy,rfl⟩ := stepCopy_cases ht
  cases hf : s.cursor.frame with
  | none => simp [copyOut,hf] at hcopy
  | some f =>
    obtain ⟨hsplit,hwhole,hrest⟩ := copyOut_ok hf (h.whole f hf) hcopy
    refine ⟨?_,?_⟩
    · intro g hg
      have hg : c.frame = some g := hg
      rcases hrest with hsome | ⟨hnone,-⟩
      · rw [hsome] at hg
        cases hg
        exact hwhole
      · rw [hnone] at hg
        cases hg
    · intro j
      have hj := h.account j
      by_cases hij : j = i
      · subst j
        -- the bytes go from the cursor to the caller
        have hheld : held s i = f.data.drop s.cursor.ri := by simp [held,hf,hok]
        rw [hheld,hsplit] at hj
        have hrets : returned (copied s i c bytes) i = returned s i++bytes := by
          simp [returned,copied,List.reduceOption_append,List.reduceOption_cons_of_some]
        have hleft : held (copied s i c bytes) i = f.data.drop c.ri := by
          rcases hrest with hsome | ⟨hnone,hnil⟩
          · simp [held,copied,hsome,hok]
          · simp [held,copied,hnone,hnil]
        rw [hrets,hleft,List.append_assoc]
        exact hj
      · have hne : s.owner ≠ some j := by
          rw [hok]
          exact fun h => hij (Option.some.inj h).symm
        have hrets : returned (copied s i c bytes) j = returned s j := by
          simp [returned,copied,hij]
        have hleft : held (copied s i c bytes) j = held s j := by
          rcases hrest with hsome | ⟨hnone,-⟩
          · simp only [held,copied,hsome,hf,hne,if_false]
          · simp only [held,copied,hnone,hf,hne,if_false]
        rw [hrets,hleft]
        exact hj

theorem readStep_own {s t : Uploads I} {e : Event I} (h : Own s) (hok : OwnCursor s e)
    (ht : readStep s e = .ok t) : Own t := by
  cases e with
  | readBuf i size => exact callReadBuf_eq ht ▸ callReadBuf_own h i size
  | readOne i expired => exact stepReadOne_own h hok ht
  | copy i => exact stepCopy_own h hok ht
  | writeBefor i pkt =>
    simp only [readStep] at ht
    split at ht <;> cases ht
    exact h.same rfl rfl rfl rfl
  | writeAfter i pkt | setWaitExitCond i =>
    cases ht
    exact h.same rfl rfl rfl rfl

theorem run_own {streams : I → BAStream} {es : List (Event I)} {s : Uploads I}
    (ha : Along readStep OwnCursor (fresh streams) es)
    (hs : exec readStep (fresh streams) es = .ok s) : Own s :=
  exec_invariant Own (fun _ _ _ h hok ht => readStep_own h hok ht) (fresh_own streams) ha hs

/-- Uploads get bytes of their own frames only, in every run in which the cursor they use is
their own. -/
theorem uploads_do_not_leak (streams : I → BAStream) (es : List (Event I)) (s : Uploads I)
    (ha : Along readStep OwnCursor (fresh streams) es)
    (hs : exec readStep (fresh streams) es = .ok s) (i : I) :
    returned s i <+: bytesOf (s.read i) :=
  ⟨_,(run_own ha hs).account i⟩

def streamOf (frames : List (List UInt8)) : BAStream :=
  { befor := { q := (frames.map (fun data => { data := data, flags := 0 })).reverse, maxCount := 9,
               mIsWaitWasExited := false },
    after := .create _ 9 9, isBeforReadDone := false }

def twoStreams : Bool → BAStream
  | true => streamOf [[1,2,3],[4]]
  | false => streamOf [[7,8]]

def readAll (i : Bool) (size : ℕ) : List (Event Bool) :=
  [.readBuf i size,.readOne i false,.copy i]

theorem uploads_do_not_leak_two : ∃ s,
    exec readStep (fresh twoStreams) (readAll true 5++readAll false 5++readAll true 5) = .ok s ∧
      returned s true = [1,2,3,4] ∧ returned s true <+: bytesOf (s.read true) := by
  obtain ⟨s,hs,hr⟩ : ∃ s,
      exec readStep (fresh twoStreams) (readAll true 5++readAll false 5++readAll true 5) = .ok s ∧
        returned s true = [1,2,3,4] := observe_eq_some.mp (by decide +kernel)
  exact ⟨s,hs,hr,uploads_do_not_leak twoStreams _ s (by decide +kernel) hs true⟩

/-- An upload that stops inside a frame leaves the rest of it to the next caller. -/
theorem abandoned_frame_leaks : ∃ s,
    exec readStep (fresh twoStreams) (readAll true 2++[.readBuf false 5,.copy false]) = .ok s ∧
      returned s false = [3] ∧ ¬ returned s false <+: bytesOf (s.read false) := by
  obtain ⟨s,hs,hr⟩ : ∃ s,
      exec readStep (fresh twoStreams) (readAll true 2++[.readBuf false 5,.copy false]) = .ok s ∧
        (returned s false,s.read false) = ([3],[]) := observe_eq_some.mp (by decide +kernel)
  refine ⟨s,hs,congrArg Prod.fst hr,?_⟩
  rw [show returned s false = [3] from congrArg Prod.fst hr,
    show s.read false = [] from congrArg Prod.snd hr]
  decide

/-- No `readOne` is at `after`, and no `readBuf` has returned `-1`. -/
def Endless (s : Uploads I) : Prop :=
  ∀ i, none ∉ s.rets i ∧ ∀ size, s.reader i ≠ .readOne .after size

theorem Endless.moved {s t : Uploads I} (h : Endless s) (i : I) (reader : Reader)
    (hreader : ∀ size, reader ≠ .readOne .after size)
    (ht : t.reader = Function.update s.reader i reader)
    (hrets : t.rets = s.rets ∨ ∃ bytes, t.rets = Function.update s.rets i (s.rets i++[some bytes])) :
    Endless t := by
  intro j
  constructor
  · rcases hrets with hrets | ⟨bytes,hrets⟩
    · rw [hrets]
      exact (h j).1
    · rw [hrets]
      by_cases hj : j = i
      · subst j
        simpa using (h i).1
      · simpa [hj] using (h j).1
  · rw [ht]
    by_cases hj : j = i
    · subst j
      simpa using hreader
    · simpa [hj] using (h j).2

theorem readStep_endless {s t : Uploads I} {e : Event I} (h : Endless s)
    (ht : readStep s e = .ok t) : Endless t := by
  cases e with
  | readBuf i size =>
    rw [callReadBuf_eq ht,callReadBuf]
    split
    · exact h.moved i (.copy size) (by simp) rfl (Or.inl rfl)
    · exact h.moved i (.readOne .befor size) (by simp) rfl (Or.inl rfl)
  | readOne i expired =>
    obtain ⟨place,size,hreader⟩ := stepReadOne_at ht
    cases place with
    | after => exact ((h i).2 size hreader).elim
    | befor =>
      rcases stepReadOne_befor hreader ht with ⟨-,rfl⟩ | ⟨frame,-,rfl⟩
      · exact h.moved i (.readOne .befor size) (by simp) rfl (Or.inl rfl)
      · exact h.moved i (.copy size) (by simp) rfl (Or.inl rfl)
  | copy i =>
    obtain ⟨size,c,bytes,-,-,rfl⟩ := stepCopy_cases ht
    exact h.moved i .idle (by simp) rfl (Or.inr ⟨bytes,rfl⟩)
  | writeBefor i pkt =>
    simp only [readStep] at ht
    split at ht <;> cases ht
    exact h
  | writeAfter i pkt | setWaitExitCond i =>
    cases ht
    exact h

theorem run_endless {streams : I → BAStream} {es : List (Event I)} {s : Uploads I}
    (hs : exec readStep (fresh streams) es = .ok s) : Endless s :=
  exec_invariant Endless (fun _ _ _ h _ ht => readStep_endless h ht) (fun i => by simp [fresh])
    (along_of_forall (fun _ _ => trivial) _ _) hs

def NoBefor (_ : Uploads Unit) : Event Unit → Prop
  | .writeBefor _ _ => False
  | _ => True

instance (s : Uploads Unit) : DecidablePred (NoBefor s)
  | .writeBefor _ _ => .isFalse id
  | .readBuf _ _ | .readOne _ _ | .copy _ | .writeAfter _ _ | .setWaitExitCond _ => .isTrue trivial

/-- The upload reads `befor`, and the cursor is its own. -/
structure Alone (frames : List FrameData) (s : Uploads Unit) : Prop where
  own : Own s
  read : s.read ()++(s.streams ()).befor.content = frames
  holder : s.cursor.frame ≠ none → s.owner = some ()
  copying : ∀ size, s.reader () = .copy size → s.owner = some ()
  reading : ∀ place size, s.reader () = .readOne place size → place = .befor ∧ s.cursor.frame = none

/-- The calls gave the bytes of these frames, and then `-1`. -/
def Delivered (frames : List FrameData) (rets : List (Option (List UInt8))) : Prop :=
  ∃ chunks : List (List UInt8), rets = chunks.map some++[none] ∧ chunks.flatten = bytesOf frames

theorem writeAfter_befor (b : BAStream) (pkt : AVPacket) : (b.writeAfter pkt).1.befor = b.befor := by
  rcases b.writeAfter_cases pkt with ⟨-,h⟩ | ⟨-,h⟩ <;> rw [h]

theorem readStep_alone {frames : List FrameData} {s t : Uploads Unit} {e : Event Unit}
    (h : Alone frames s) (hok : NoBefor s e) (ht : readStep s e = .ok t) : Alone frames t := by
  obtain ⟨hown,hread,hholder,hcopying,hreading⟩ := h
  have hcursor : OwnCursor s e := by
    cases e with
    | readOne i expired =>
      intro hret
      unfold returns at hret
      split at hret
      · next place size hreader => exact (hreading place size hreader).2
      · cases hret
    | copy i =>
      obtain ⟨size,-,-,hreader,-,-⟩ := stepCopy_cases ht
      exact hcopying size hreader
    | _ => trivial
  have hown' := readStep_own hown hcursor ht
  cases e with
  | readBuf i size =>
    rw [callReadBuf_eq ht,callReadBuf] at hown' ⊢
    cases hf : s.cursor.frame with
    | some f => exact ⟨by simpa [hf] using hown',hread,hholder,fun _ _ => hholder (by simp [hf]),by simp⟩
    | none => exact ⟨by simpa [hf] using hown',hread,hholder,by simp,by simp [hf,readOne_befor]⟩
  | readOne i expired =>
    obtain ⟨place,size,hreader⟩ := stepReadOne_at ht
    obtain ⟨rfl,hnone⟩ := hreading place size hreader
    rcases stepReadOne_befor hreader ht with ⟨-,rfl⟩ | ⟨frame,hcont,rfl⟩
    · exact ⟨hown',by simpa using hread,hholder,by simp,by simp [hnone]⟩
    · refine ⟨hown',?_,fun _ => rfl,fun _ _ => rfl,by simp [gotFrame]⟩
      rw [← hread,hcont]
      simp [gotFrame]
  | copy i =>
    obtain ⟨size,c,bytes,-,-,rfl⟩ := stepCopy_cases ht
    exact ⟨hown',hread,fun _ => hcursor,fun _ _ => hcursor,by simp [copied]⟩
  | writeBefor i pkt => exact hok.elim
  | writeAfter i pkt =>
    cases ht
    exact ⟨hown',by simpa [writeAfter_befor] using hread,hholder,hcopying,hreading⟩
  | setWaitExitCond i =>
    cases ht
    exact ⟨hown',by simpa [setWaitExitCond] using hread,hholder,hcopying,hreading⟩

theorem run_alone {b : BAStream} {es : List (Event Unit)} {s : Uploads Unit}
    (ha : Along readStep NoBefor (fresh (fun _ => b)) es)
    (hs : exec readStep (fresh (fun _ => b)) es = .ok s) : Alone b.befor.content s := by
  refine exec_invariant (Alone b.befor.content) (fun _ _ _ h hok ht => readStep_alone h hok ht)
    ?_ ha hs
  exact ⟨fresh_own _,by simp [fresh],by simp [fresh],by simp [fresh],by simp [fresh]⟩

structure Stuck (rets : List (Option (List UInt8))) (size : ℕ) (s : Uploads Unit) : Prop where
  befor : (s.streams ()).befor.content = []
  reader : s.reader () = .readOne .befor size
  rets : s.rets () = rets

theorem readStep_stuck {rets : List (Option (List UInt8))} {size : ℕ} {s t : Uploads Unit}
    {e : Event Unit} (h : Stuck rets size s) (hok : NoBefor s e) (ht : readStep s e = .ok t) :
    Stuck rets size t := by
  obtain ⟨hbefor,hreader,hrets⟩ := h
  cases e with
  | readBuf i size => simp [readStep,hreader] at ht
  | readOne i expired =>
    rcases stepReadOne_befor hreader ht with ⟨-,rfl⟩ | ⟨frame,hcont,-⟩
    · exact ⟨by simpa using hbefor,by simp,hrets⟩
    · rw [hbefor] at hcont
      cases hcont
  | copy i => simp [readStep,stepCopy,hreader] at ht
  | writeBefor i pkt => exact hok.elim
  | writeAfter i pkt =>
    cases ht
    exact ⟨by simpa [writeAfter_befor] using hbefor,hreader,hrets⟩
  | setWaitExitCond i =>
    cases ht
    exact ⟨by simpa [setWaitExitCond] using hbefor,hreader,hrets⟩

/-- An upload never gets to the end of a clip. It gets bytes of `befor`, never `-1`, and a call
that finds `befor` empty waits for good, whatever `after` holds. -/
theorem upload_never_ends (b : BAStream) (es : List (Event Unit)) (s : Uploads Unit)
    (ha : Along readStep NoBefor (fresh (fun _ => b)) es)
    (hs : exec readStep (fresh (fun _ => b)) es = .ok s) :
    (∀ frames, ¬ Delivered frames (s.rets ())) ∧
    returned s () <+: bytesOf b.befor.content ∧
    (s.reader () = .idle → s.cursor.frame = none → (s.streams ()).befor.content = [] →
      ∀ size fs t, Along readStep NoBefor (callReadBuf s () size) fs →
        exec readStep s (.readBuf () size::fs) = .ok t →
          t.rets () = s.rets () ∧ t.reader () = .readOne .befor size) := by
  have halone := run_alone ha hs
  refine ⟨?_,?_,?_⟩
  · rintro frames ⟨chunks,hrets,-⟩
    have hnone := (run_endless hs ()).1
    rw [hrets] at hnone
    exact hnone (by simp)
  · have hread : bytesOf (s.read ()) <+: bytesOf b.befor.content := by
      rw [← halone.read,bytesOf,bytesOf,List.flatMap_append]
      exact List.prefix_append _ _
    have hown : returned s () <+: bytesOf (s.read ()) := ⟨_,halone.own.account ()⟩
    exact hown.trans hread
  · intro hidle hframe hempty size fs t hfs ht
    obtain ⟨u,hu,ht⟩ := exec_cons_ok.mp ht
    simp only [readStep,hidle] at hu
    cases hu
    have hstuck : Stuck (s.rets ()) size (callReadBuf s () size) := by
      unfold callReadBuf
      rw [hframe]
      exact ⟨by simpa [readOne_befor] using hempty,by simp [readOne_befor],rfl⟩
    have hend := exec_invariant (Stuck (s.rets ()) size)
      (fun _ _ _ h hok ht => readStep_stuck h hok ht) hstuck hfs ht
    exact ⟨hend.rets,hend.reader⟩

def clipEvents : List (Event Unit) :=
  [.writeAfter () { data := [9], flags := 1 },.setWaitExitCond (),.readBuf () 9,.readOne () false,
   .copy ()]

theorem upload_never_ends_two : ∃ s,
    exec readStep (fresh (fun _ => streamOf [[1,2]])) clipEvents = .ok s ∧
      s.rets () = [some [1,2]] ∧ ∀ frames, ¬ Delivered frames (s.rets ()) := by
  obtain ⟨s,hs,hr⟩ : ∃ s, exec readStep (fresh (fun _ => streamOf [[1,2]])) clipEvents = .ok s ∧
      s.rets () = [some [1,2]] := observe_eq_some.mp (by decide +kernel)
  exact ⟨s,hs,hr,(upload_never_ends _ clipEvents s (by decide +kernel) hs).1⟩

/-- With a frame in `after` and its exit state set, the call after the last frame of `befor`
waits, and waits again whenever it is woken. -/
theorem empty_befor_blocks : ∃ s,
    exec readStep (fresh (fun _ => streamOf [[1,2]])) (clipEvents++[.readBuf () 9]) = .ok s ∧
      (s.streams ()).befor.content = [] ∧ (s.streams ()).after.content ≠ [] ∧
      (s.streams ()).after.mIsWaitWasExited = true ∧
      ∀ expired, ∃ t, readStep s (.readOne () expired) = .ok t ∧
        t.reader () = .readOne .befor 9 ∧ t.rets () = [some [1,2]] := by
  obtain ⟨s,hs,hx⟩ : ∃ s,
      exec readStep (fresh (fun _ => streamOf [[1,2]])) (clipEvents++[.readBuf () 9]) = .ok s ∧
        (s.streams (),s.reader (),s.rets ()) =
          (⟨⟨[],9,false⟩,⟨[⟨[9],1⟩],9,true⟩,false⟩,.readOne .befor 9,[some [1,2]]) :=
    observe_eq_some.mp (by decide +kernel)
  simp only [Prod.mk.injEq] at hx
  obtain ⟨hstream,hreader,hrets⟩ := hx
  have hempty : (s.streams ()).befor.content = [] := by simp [hstream,MTQueue.content]
  refine ⟨s,hs,hempty,by simp [hstream,MTQueue.content],by simp [hstream],?_⟩
  intro expired
  rcases (s.streams ()).readOneAt_befor expired with ⟨-,hone⟩ | ⟨frame,hcont,-⟩
  · have hstep : readStep s (.readOne () expired) =
        .ok { s with streams := Function.update s.streams () (s.streams ()),
                     reader := Function.update s.reader () (.readOne .befor 9) } := by
      simp only [readStep,stepReadOne,hreader,hone]
    exact ⟨_,hstep,by simp,hrets⟩
  · rw [hempty] at hcont
    cases hcont

end BAStream
end PcEnv
