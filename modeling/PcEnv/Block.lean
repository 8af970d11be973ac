import PcEnv.Circular
import PcEnv.Runs

/-! Allocated blocks of bytes with checked accesses.
Every access outside the block is a fault, so a program that is shown not to fault is shown
to stay inside its blocks. -/
namespace PcEnv

open Runs Circular

/-- A block of `size` bytes; what `byte` says past `size` is never looked at. -/
structure Block where
  size : ℕ
  byte : ℕ → UInt8

namespace Block

def store (b : Block) (i : ℕ) (v : UInt8) : Except Halt Block :=
  if i < b.size then .ok { b with byte := Function.update b.byte i v } else .error .fault

def load (b : Block) (i : ℕ) : Except Halt UInt8 :=
  if i < b.size then .ok (b.byte i) else .error .fault

/-- `memcpy(dst + doff, src + soff, len)` between two blocks. -/
def memcpy (dst : Block) (doff : ℕ) (src : Block) (soff len : ℕ) : Except Halt Block :=
  if doff+len ≤ dst.size ∧ soff+len ≤ src.size then
    .ok { dst with byte := patch dst.byte doff (span src.byte soff len) }
  else .error .fault

theorem store_ok {b : Block} {i : ℕ} {v : UInt8} (h : i < b.size) :
    b.store i v = .ok { b with byte := Function.update b.byte i v } := if_pos h

theorem load_ok {b : Block} {i : ℕ} (h : i < b.size) : b.load i = .ok (b.byte i) := if_pos h

theorem memcpy_ok {dst src : Block} {doff soff len : ℕ} (hd : doff+len ≤ dst.size)
    (hs : soff+len ≤ src.size) :
    memcpy dst doff src soff len =
      .ok { dst with byte := patch dst.byte doff (span src.byte soff len) } :=
  if_pos ⟨hd,hs⟩

theorem memcpy_fault {dst src : Block} {doff soff len : ℕ} (h : src.size < soff+len) :
    memcpy dst doff src soff len = .error .fault := if_neg (by omega)

theorem memcpy_overruns {dst src : Block} {doff soff len : ℕ} (h : dst.size < doff+len) :
    memcpy dst doff src soff len = .error .fault := if_neg (by omega)

end Block
end PcEnv
