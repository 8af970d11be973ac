import PcEnv.Framing
import PcEnv.Runs

/-! The read loop of `uartd`, which takes commands out of what the serial line delivers.
A command begins with `'^'` and ends before `'\n'`. -/
namespace PcEnv
namespace Uartd

open Runs Framing

def caret : UInt8 := 94
def newline : UInt8 := 10
def bufSize : ℕ := 128

/-- The variables that live from one read to the next; `handed` are the commands given to
`rFifo->writeOne`, whose result the loop ignores. -/
structure Loop where
  req : List UInt8
  needToGetNewCmd : Bool
  handed : List (List UInt8)

def start : Loop := ⟨[],true,[]⟩

/-- `req += buf` appends a C string: without a `NUL` in `buf` it reads past its end. -/
def cString (buf : List UInt8) : Except Halt (List UInt8) :=
  if 0 ∈ buf then .ok (buf.takeWhile (fun b => b ≠ 0)) else .error .fault

def findFirstOf (s : List UInt8) (c : UInt8) : Option ℕ := s.idxOf? c

def handOver (l : Loop) : Loop :=
  match findFirstOf l.req newline with
  | none => l
  | some tIdx =>
    { req := l.req.drop (tIdx+1), needToGetNewCmd := true,
      handed := l.handed++[l.req.take tIdx] }

def handle (l : Loop) : Loop :=
  if l.needToGetNewCmd then
    match findFirstOf l.req caret with
    | none => { l with req := [], needToGetNewCmd := true }
    | some hIdx => handOver { l with req := l.req.drop hIdx, needToGetNewCmd := false }
  else handOver l

/-- One turn of the loop. `read` returns at most `sizeof(buf)` bytes; without any the loop goes
on to the next read. -/
def hardReadProcess (l : Loop) (piece : List UInt8) : Except Halt Loop :=
  if bufSize < piece.length then .error .blocked
  else if piece = [] then .ok l
  else
    match cString (piece++List.replicate (bufSize-piece.length) 0) with
    | .ok chars => .ok (handle { l with req := l.req++chars })
    | .error h => .error h

abbrev commands (s : List UInt8) : List (List UInt8) := frames caret newline s

theorem caret_ne_newline : caret ≠ newline := by decide

theorem cString_piece {piece : List UInt8} (h : 0 ∉ piece) (hlt : piece.length < bufSize) :
    cString (piece++List.replicate (bufSize-piece.length) 0) = .ok piece := by
  obtain ⟨k,hk⟩ : ∃ k, bufSize-piece.length = k+1 := ⟨bufSize-piece.length-1,by omega⟩
  have hall : ∀ b ∈ piece, b ≠ 0 := fun b hb h0 => h (h0 ▸ hb)
  rw [hk,cString,if_pos (by simp),List.takeWhile_append_of_pos (by simpa using hall)]
  simp [List.replicate_succ]

theorem cString_full {piece : List UInt8} (h : 0 ∉ piece) (heq : piece.length = bufSize) :
    cString (piece++List.replicate (bufSize-piece.length) 0) = .error .fault := by
  rw [cString,heq,Nat.sub_self,if_neg (by simpa using h)]

/-- `l'` is `l` with the first of the commands in `l.req` handed over. -/
structure Handled (l l' : Loop) : Prop where
  state : (scan caret newline none l'.req).1 = (scan caret newline none l.req).1
  handed : l'.handed = l.handed++(commands l.req).take 1
  rest : commands l'.req = (commands l.req).drop 1
  opened : l'.needToGetNewCmd = false → ∃ body, l'.req = caret::body ∧ newline ∉ body

theorem handOver_handled {l : Loop} {body : List UInt8} (h : l.req = caret::body) :
    Handled l (handOver l) := by
  unfold handOver findFirstOf
  split
  · next hnone =>
    rw [List.idxOf?_eq_none_iff,h] at hnone
    have hbody : newline ∉ body := fun h' => hnone (by simp [h'])
    have hno : commands l.req = [] := by rw [h]; exact frames_open hbody
    exact ⟨rfl,by simp [hno],by simp [hno],fun _ => ⟨body,h,hbody⟩⟩
  · next tIdx hsome =>
    obtain ⟨-,hsplit,hnot⟩ := split_idxOf? hsome
    obtain ⟨head,hhead⟩ : ∃ head, l.req.take tIdx = caret::head := by
      cases ht : l.req.take tIdx with
      | nil =>
        rw [ht,h] at hsplit
        exact (caret_ne_newline (List.cons.inj hsplit).1).elim
      | cons b head =>
        rw [ht,h] at hsplit
        exact ⟨head,by rw [(List.cons.inj hsplit).1]⟩
    obtain ⟨rest,hrest⟩ : ∃ rest, l.req.drop (tIdx+1) = rest := ⟨_,rfl⟩
    rw [hhead] at hsplit hnot
    rw [hrest] at hsplit
    have hhnot : newline ∉ head := fun h' => hnot (by simp [h'])
    have hstate : scan caret newline none l.req =
        ((scan caret newline none rest).1,(caret::head)::commands rest) := by
      rw [hsplit]
      exact scan_frame rest hhnot
    have hcmds : commands l.req = (caret::head)::commands rest := by
      rw [hsplit]
      exact frames_frame rest hhnot
    simp only [hrest,hhead]
    exact ⟨(congrArg Prod.fst hstate).symm,by simp [hcmds],by simp [hcmds],by simp⟩

theorem handle_handled {l : Loop} (h : l.needToGetNewCmd = false → ∃ body, l.req = caret::body) :
    Handled l (handle l) := by
  unfold handle
  cases hneed : l.needToGetNewCmd with
  | false =>
    obtain ⟨body,hbody⟩ := h hneed
    exact handOver_handled hbody
  | true =>
    rw [if_pos rfl]
    unfold findFirstOf
    split
    · next hnone =>
      rw [List.idxOf?_eq_none_iff] at hnone
      have hstate : scan caret newline none l.req = (none,[]) := by
        rw [← List.append_nil l.req]
        exact scan_skip [] hnone
      have hno : commands l.req = [] := by
        rw [← List.append_nil l.req]
        exact frames_skip [] hnone
      exact ⟨(congrArg Prod.fst hstate).symm,by simp [hno],by rw [hno]; rfl,by simp⟩
    · next hIdx hsome =>
      obtain ⟨hdrop,hsplit,hnot⟩ := split_idxOf? hsome
      have hscan : scan caret newline none l.req =
          scan caret newline none (l.req.drop hIdx) := by
        rw [hdrop]
        nth_rewrite 1 [hsplit]
        exact scan_skip _ hnot
      have hcmds : commands l.req = commands (l.req.drop hIdx) := congrArg Prod.snd hscan
      obtain ⟨hstate,hhanded,hrest,hopened⟩ := handOver_handled
        (l:={ l with req := l.req.drop hIdx, needToGetNewCmd := false }) hdrop
      refine ⟨hstate.trans (congrArg Prod.fst hscan).symm,?_,?_,hopened⟩
      · rw [hcmds]
        exact hhanded
      · rw [hcmds]
        exact hrest

/-- After the bytes `s`: what is left in `req` leads on to the same commands as `s` does. -/
structure Inv (s : List UInt8) (l : Loop) : Prop where
  state : (scan caret newline none l.req).1 = (scan caret newline none s).1
  all : l.handed++commands l.req = commands s
  opened : l.needToGetNewCmd = false → ∃ body, l.req = caret::body ∧ newline ∉ body

theorem start_inv : Inv [] start := ⟨rfl,rfl,by simp [start]⟩

theorem hardReadProcess_inv {s piece : List UInt8} {l : Loop} (h : Inv s l) (hpos : piece ≠ [])
    (hlt : piece.length < bufSize) (h0 : 0 ∉ piece) :
    ∃ l', hardReadProcess l piece = .ok l' ∧ Inv (s++piece) l' ∧
      l'.handed.length = min (l.handed.length+1) (commands (s++piece)).length := by
  have hopened : l.needToGetNewCmd = false → ∃ body, l.req++piece = caret::body := by
    intro hneed
    obtain ⟨body,hbody,-⟩ := h.opened hneed
    exact ⟨body++piece,by rw [hbody]; rfl⟩
  have hh := handle_handled (l:={ l with req := l.req++piece }) hopened
  -- the new bytes are scanned from the same state, behind `req` and behind `s`
  have hreq : scan caret newline none (l.req++piece) = _ := scan_append none l.req piece
  have hs : scan caret newline none (s++piece) = _ := scan_append none s piece
  rw [h.state] at hreq
  have hstate := (congrArg Prod.fst hreq).trans (congrArg Prod.fst hs).symm
  have hall : l.handed++commands (l.req++piece) = commands (s++piece) := by
    have h₁ : commands (l.req++piece) = commands l.req++_ := congrArg Prod.snd hreq
    have h₂ : commands (s++piece) = commands s++_ := congrArg Prod.snd hs
    rw [h₁,h₂,← h.all,List.append_assoc]
  refine ⟨handle { l with req := l.req++piece },?_,⟨hh.state.trans hstate,?_,hh.opened⟩,?_⟩
  · rw [hardReadProcess,if_neg (by omega),if_neg hpos,cString_piece h0 hlt]
  · rw [hh.handed,hh.rest,List.append_assoc,List.take_append_drop]
    exact hall
  · rw [hh.handed,← hall]
    simp only [List.length_append,List.length_take]
    omega

/-- What `read` delivers on a line without `NUL`s. -/
def Piece (piece : List UInt8) : Prop :=
  1 ≤ piece.length ∧ piece.length ≤ bufSize ∧ 0 ∉ piece

instance (piece : List UInt8) : Decidable (Piece piece) :=
  inferInstanceAs (Decidable (_ ∧ _ ∧ _))

def arrived (pieces : List (List UInt8)) (k : ℕ) : ℕ := (commands (pieces.take k).flatten).length

theorem run_inv {pieces : List (List UInt8)} (hp : ∀ p ∈ pieces, Piece p)
    (hlt : ∀ p ∈ pieces, p.length < bufSize) :
    ∃ l, exec hardReadProcess start pieces = .ok l ∧ Inv pieces.flatten l ∧
      l.handed.length = served (arrived pieces) pieces.length := by
  induction pieces using List.reverseRecOn with
  | nil => exact ⟨start,rfl,start_inv,rfl⟩
  | append_singleton pieces piece ih =>
    obtain ⟨l,hl,hinv,hlen⟩ := ih (fun p h => hp p (by simp [h])) (fun p h => hlt p (by simp [h]))
    obtain ⟨hpos,-,h0⟩ := hp piece (by simp)
    obtain ⟨l',hl',hinv',hlen'⟩ :=
      hardReadProcess_inv hinv (List.ne_nil_of_length_pos hpos) (hlt piece (by simp)) h0
    have hflat : (pieces++[piece]).flatten = pieces.flatten++piece := by simp
    refine ⟨l',?_,by rw [hflat]; exact hinv',?_⟩
    · rw [exec_append_ok hl]
      simp only [exec,hl']
    · have hsame : served (arrived (pieces++[piece])) pieces.length =
          served (arrived pieces) pieces.length := by
        apply served_congr
        intro k hk
        rw [arrived,List.take_append_of_le_length hk,arrived]
      have hnow : arrived (pieces++[piece]) (pieces.length+1) =
          (commands (pieces.flatten++piece)).length := by
        rw [arrived,List.take_of_length_le (by simp),hflat]
      rw [List.length_append,List.length_singleton,served,hsame,hnow,← hlen]
      exact hlen'

/-- A piece that fills `buf` leaves no room for the terminator. -/
theorem run_full {pieces : List (List UInt8)} (hp : ∀ p ∈ pieces, Piece p)
    (hfull : ∃ p ∈ pieces, p.length = bufSize) (l : Loop) :
    exec hardReadProcess l pieces = .error .fault := by
  induction pieces generalizing l with
  | nil => simp at hfull
  | cons piece pieces ih =>
    obtain ⟨hpos,hle,h0⟩ := hp piece (by simp)
    have hne := List.ne_nil_of_length_pos hpos
    by_cases hlast : piece.length = bufSize
    · simp only [exec,hardReadProcess,if_neg (show ¬ bufSize < piece.length by omega),if_neg hne,
        cString_full h0 hlast]
    · obtain ⟨p,hmem,hpl⟩ := hfull
      have hrest : ∃ p ∈ pieces, p.length = bufSize := by
        rcases List.mem_cons.mp hmem with rfl | hmem
        · exact (hlast hpl).elim
        · exact ⟨p,hmem,hpl⟩
      have hturn : ∃ l', hardReadProcess l piece = .ok l' := by
        refine ⟨handle { l with req := l.req++piece },?_⟩
        rw [hardReadProcess,if_neg (by omega),if_neg hne,cString_piece h0 (by omega)]
      obtain ⟨l',hl'⟩ := hturn
      simp only [exec,hl']
      exact ih (fun p h => hp p (by simp [h])) hrest l'

/-- The commands handed over and those still in `req` are always those of the stream. -/
theorem framing_loses_nothing {pieces : List (List UInt8)}
    (hp : ∀ p ∈ pieces, 1 ≤ p.length ∧ p.length ≤ 127 ∧ 0 ∉ p) :
    ∃ l, exec hardReadProcess start pieces = .ok l ∧
      l.handed++frames caret newline l.req = frames caret newline pieces.flatten ∧
      l.handed <+: frames caret newline pieces.flatten := by
  have hpiece : ∀ p ∈ pieces, Piece p ∧ p.length < bufSize := by
    intro p h
    obtain ⟨hpos,hle,h0⟩ := hp p h
    exact ⟨⟨hpos,hle.trans (by decide),h0⟩,hle.trans_lt (by decide)⟩
  obtain ⟨l,hl,hinv,-⟩ := run_inv (fun p h => (hpiece p h).1) (fun p h => (hpiece p h).2)
  exact ⟨l,hl,hinv.all,⟨_,hinv.all⟩⟩

def mixedPieces : List (List UInt8) := [[120,94,97],[10,94,98,10,94]]

theorem framing_loses_nothing_mixed : ∃ l, exec hardReadProcess start mixedPieces = .ok l ∧
    l.handed++frames caret newline l.req = [[94,97],[94,98]] := by
  obtain ⟨l,hl,hall,-⟩ := framing_loses_nothing (by decide : ∀ p ∈ mixedPieces, _)
  exact ⟨l,hl,hall.trans (by decide)⟩

/-- No piece fills the buffer, and for every `j` the commands that the first `j` pieces do not
complete are at most as many as the pieces after them. -/
def KeepsUp (pieces : List (List UInt8)) : Prop :=
  (∀ p ∈ pieces, p.length < bufSize) ∧
    ∀ j ≤ pieces.length, arrived pieces pieces.length ≤ arrived pieces j+(pieces.length-j)

instance (pieces : List (List UInt8)) : Decidable (KeepsUp pieces) :=
  inferInstanceAs (Decidable (_ ∧ _))

theorem keepsUp_iff {pieces : List (List UInt8)} (hp : ∀ p ∈ pieces, Piece p) :
    (∃ l, exec hardReadProcess start pieces = .ok l ∧ l.handed = commands pieces.flatten) ↔
      KeepsUp pieces := by
  by_cases hlt : ∀ p ∈ pieces, p.length < bufSize
  · obtain ⟨l,hl,hinv,hlen⟩ := run_inv hp hlt
    have hall : arrived pieces pieces.length = (commands pieces.flatten).length := by
      rw [arrived,List.take_length]
    rw [KeepsUp,← served_eq_iff,← hlen,hall]
    constructor
    · rintro ⟨l',hl',hcmds⟩
      rw [hl] at hl'
      cases hl'
      exact ⟨hlt,congrArg List.length hcmds⟩
    · rintro ⟨-,heq⟩
      exact ⟨l,hl,List.IsPrefix.eq_of_length ⟨_,hinv.all⟩ heq⟩
  · constructor
    · rintro ⟨l,hl,-⟩
      push Not at hlt
      obtain ⟨p,hmem,hle⟩ := hlt
      have heq : p.length = bufSize := le_antisymm (hp p hmem).2.1 hle
      rw [run_full hp ⟨p,hmem,heq⟩] at hl
      cases hl
    · exact fun h => (hlt h.1).elim

/-- Two ways of cutting a stream give the same commands, those of the stream, exactly when both
leave enough reads to hand them over. -/
theorem cuts_agree_iff {ps qs : List (List UInt8)} (hp : ∀ p ∈ ps, Piece p)
    (hq : ∀ q ∈ qs, Piece q) (h : ps.flatten = qs.flatten) :
    (∃ a b, exec hardReadProcess start ps = .ok a ∧ exec hardReadProcess start qs = .ok b ∧
      a.handed = b.handed ∧ a.handed = frames caret newline ps.flatten) ↔
    KeepsUp ps ∧ KeepsUp qs := by
  rw [← keepsUp_iff hp,← keepsUp_iff hq,← h]
  constructor
  · rintro ⟨a,b,ha,hb,hab,hall⟩
    exact ⟨⟨a,ha,hall⟩,⟨b,hb,hab ▸ hall⟩⟩
  · rintro ⟨⟨a,ha,hall⟩,⟨b,hb,hall'⟩⟩
    exact ⟨a,b,ha,hb,hall.trans hall'.symm,hall⟩

theorem cuts_agree_iff_two : ∃ a b,
    exec hardReadProcess start [[94,97,10],[94,98,10]] = .ok a ∧
    exec hardReadProcess start [[94],[97,10,94],[98,10]] = .ok b ∧ a.handed = b.handed := by
  obtain ⟨a,b,ha,hb,hab,-⟩ := (cuts_agree_iff
    (by decide : ∀ p ∈ [[94,97,10],[94,98,10]], Piece p)
    (by decide : ∀ q ∈ [[94],[97,10,94],[98,10]], Piece q) rfl).mpr (by decide)
  exact ⟨a,b,ha,hb,hab⟩

/-- Two commands in one read: the second stays in `req`. And a read that fills `buf` is not a C
string. -/
theorem one_read_one_command :
    (∃ a b, exec hardReadProcess start [[94,97,10,94,98,10]] = .ok a ∧
      exec hardReadProcess start [[94,97,10],[94,98,10]] = .ok b ∧
      a.handed = [[94,97]] ∧ b.handed = [[94,97],[94,98]] ∧
      frames caret newline [94,97,10,94,98,10] = [[94,97],[94,98]]) ∧
    exec hardReadProcess start [List.replicate 128 65] = .error .fault := by
  obtain ⟨a,ha,hah⟩ : ∃ a, exec hardReadProcess start [[94,97,10,94,98,10]] = .ok a ∧
      a.handed = [[94,97]] := observe_eq_some.mp (by decide)
  obtain ⟨b,hb,hbh⟩ : ∃ b, exec hardReadProcess start [[94,97,10],[94,98,10]] = .ok b ∧
      b.handed = [[94,97],[94,98]] := observe_eq_some.mp (by decide)
  exact ⟨⟨a,b,ha,hb,hah,hbh,by decide⟩,faults_iff.mp (by decide +kernel)⟩

end Uartd
end PcEnv
