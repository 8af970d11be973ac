import PcEnv.Runs
import PcEnv.Text
import PcEnv.UserFifo

/-! The scan of one buffer in `user_fifo_read_proc`, with its two cursors as places counted from
`buf`. A length is a `size_t`, so a negative one is huge; a search that leaves what has been read
is a fault. -/
namespace PcEnv
namespace UserFifo

open Framing Runs Text Word

def memmem (buf : List UInt8) (start : ℤ) (len : ℕ) (b : UInt8) : Except Halt (Option ℤ) :=
  if 0 ≤ start ∧ start+len ≤ buf.length then
    .ok ((((buf.drop start.toNat).take len).idxOf? b).map (fun k : ℕ => start+k))
  else .error .fault

/-- The inner loop from `idx` on, with the calls of `handle` (or of `user_fifo_cmd_handle`);
`turns` bounds how often it is run through. -/
def scanLoop (buf : List UInt8) : ℕ → ℤ → Except Halt (List Call)
  | 0,_ => .error .blocked
  | turns+1,idx =>
    match memmem buf (idx+1) (sizeOfInt (buf.length-idx-1)) fmtPrefix with
    | .error x => .error x
    | .ok none => .ok []
    | .ok (some cmd) =>
      -- `idx` is `cmd` here
      match memmem buf (cmd+1) (sizeOfInt (buf.length-cmd-1)) fmtSubffix with
      | .error x => .error x
      | .ok none => .ok []
      | .ok (some idx) =>
        (scanLoop buf turns idx).map (fun calls =>
          { buf := buf.drop (cmd+1).toNat, len := sizeOfInt (idx-cmd-1) }::calls)

variable {buf : List UInt8}

theorem memmem_rest (hmax : buf.length ≤ bufSize) {p : ℕ} (hp : p ≤ buf.length) {i : ℤ}
    (hi : i = p) (b : UInt8) :
    memmem buf i (sizeOfInt (buf.length-i)) b =
      .ok (((buf.drop p).idxOf? b).map (fun k => ((p+k : ℕ) : ℤ))) := by
  subst hi
  have hmod : sizeMod = 2^64 := rfl
  have hbuf : bufSize = 1024 := rfl
  have hlen : sizeOfInt ((buf.length : ℤ)-p) = buf.length-p := by
    rw [← Nat.cast_sub hp,sizeOfInt_natCast (by omega)]
  have hall : (buf.drop p).take (buf.length-p) = buf.drop p :=
    List.take_of_length_le (by rw [List.length_drop])
  rw [memmem,hlen,if_pos (by omega),Int.toNat_natCast,hall]
  rfl

theorem scanLoop_eq (hmax : buf.length ≤ bufSize) {turns p : ℕ} (hp : p ≤ buf.length)
    (hturns : buf.length-p < turns) {idx : ℤ} (hidx : idx+1 = p) :
    scanLoop buf turns idx = .ok (handlePiece (buf.drop p)) := by
  have hmod : sizeMod = 2^64 := rfl
  have hbuf : bufSize = 1024 := rfl
  induction turns generalizing p idx with
  | zero => omega
  | succ turns ih =>
    have hfirst := memmem_rest hmax hp hidx fmtPrefix
    rw [scanLoop,show (buf.length : ℤ)-idx-1 = buf.length-(idx+1) by omega,hfirst,handlePiece]
    cases hcmd : (buf.drop p).idxOf? fmtPrefix with
    | none => rfl
    | some k =>
      have hk : k < buf.length-p := by
        rw [← List.length_drop]
        exact (List.idxOf?_eq_some_iff.mp hcmd).1
      have hsecond := @memmem_rest buf hmax (p+k+1) (by omega) _
        (show ((p+k : ℕ) : ℤ)+1 = ((p+k+1 : ℕ) : ℤ) from rfl) fmtSubffix
      simp only [Option.map_some]
      rw [show (buf.length : ℤ)-((p+k : ℕ) : ℤ)-1 = buf.length-(((p+k : ℕ) : ℤ)+1) by omega,hsecond,
        List.drop_drop,← Nat.add_assoc]
      cases hend : (buf.drop (p+k+1)).idxOf? fmtSubffix with
      | none => rfl
      | some m =>
        have hm : m < buf.length-(p+k+1) := by
          rw [← List.length_drop]
          exact (List.idxOf?_eq_some_iff.mp hend).1
        have hcount : sizeOfInt (((p+k+1+m : ℕ) : ℤ)-((p+k : ℕ) : ℤ)-1) = m := by
          rw [show ((p+k+1+m : ℕ) : ℤ)-((p+k : ℕ) : ℤ)-1 = (m : ℕ) by omega,
            sizeOfInt_natCast (by omega)]
        have hnext := @ih (p+k+1+m+1) (by omega) (by omega) ((p+k+1+m : ℕ) : ℤ) rfl
        simp only [Option.map_some]
        rw [hnext,hcount,List.drop_drop]
        rfl

/-- The scan of what one read has brought comes to an end and stays inside it: one call for each
frame, in order, with the text between its ends and the length of the text. -/
theorem scan_exact (buf : List UInt8) (hmax : buf.length ≤ bufSize) :
    ∃ calls, (∀ turns, buf.length < turns → scanLoop buf turns (-1) = .ok calls) ∧
      calls.map (fun c => fmtPrefix::c.text) = frames fmtPrefix fmtSubffix buf ∧
      ∀ c ∈ calls, c.text.length = c.len := by
  refine ⟨handlePiece buf,fun turns hturns => ?_,handlePiece_text buf,handlePiece_len buf⟩
  exact scanLoop_eq hmax (Nat.zero_le _) hturns rfl

theorem scan_exact_nested : ∃ calls,
    scanLoop (ascii "x^a^b\n^c") 10 (-1) = .ok calls ∧
      calls.map (fun c => fmtPrefix::c.text) = [ascii "^a^b"] := by
  obtain ⟨calls,hscan,htext,-⟩ := scan_exact (ascii "x^a^b\n^c") (by decide)
  exact ⟨calls,hscan 10 (by decide),htext.trans (by decide)⟩

end UserFifo
end PcEnv
