import TileProgram.Fault

/-!
# Instruction fragments

An atom is the part of a matrix operand that one warp holds for one matrix
instruction.  It says which lane keeps an element and in which of the lane's
registers.
-/

namespace TileProgram

/-- Fragment of one warp for one operand of one instruction. -/
inductive Atom where
  | mmaA (pack : Nat)
  | mmaB (pack : Nat)
  | mmaC
  /-- Left operand of a 64-lane instruction, four consecutive depths a lane. -/
  | mfmaA (m k : Nat)
  /-- Right operand of a 64-lane instruction, four consecutive depths a lane. -/
  | mfmaB (n k : Nat)
  /-- Accumulator of a 64-lane instruction, four consecutive rows a lane. -/
  | mfmaC (m n : Nat)
  deriving DecidableEq, Repr

namespace Atom

def rows : Atom → Checked Nat
  | mmaA _ | mmaC => .ok 16
  | mmaB pack => Checked.word32 (8 * pack)
  | mfmaA m _ | mfmaC m _ => .ok m
  | mfmaB _ k => .ok k

def cols : Atom → Checked Nat
  | mmaA pack => Checked.word32 (8 * pack)
  | mmaB _ | mmaC => .ok 8
  | mfmaA _ k => .ok k
  | mfmaB n _ | mfmaC _ n => .ok n

def lanes : Atom → Nat
  | mmaA _ | mmaB _ | mmaC => 32
  | _ => 64

def locals (a : Atom) : Checked Nat := do
  return (← Checked.word32 ((← a.rows) * (← a.cols))) / a.lanes

def slot (a : Atom) (r c : Nat) : Checked (Nat × Nat) :=
  match a with
  | mmaA pack => do
      let span ← Checked.word32 (4 * pack)
      let lane := r % 8 * 4 + (← Checked.mod c span) / pack
      let register ← Checked.word32
        (c % pack + pack * (r / 8 % 2) + 2 * pack * (c / span))
      return (lane, register)
  | mmaB pack => do
      let first ← Checked.word32 (c * 4)
      let span ← Checked.word32 (4 * pack)
      let lane ← Checked.word32 (first + (← Checked.mod r span) / pack)
      return (lane, r % pack + pack * (r / span))
  | mmaC => .ok (r % 8 * 4 + c % 8 / 2, c % 2 + 2 * (r / 8))
  | mfmaA m _ => do
      return (← Checked.word32 (r + m * (c / 4)), c % 4)
  | mfmaB n _ => do
      return (← Checked.word32 (c + n * (r / 4)), r % 4)
  | mfmaC _ n => do
      let groups ← Checked.div 64 n
      let group ← Checked.mod (r / 4) groups
      let lane ← Checked.word32 (c + n * group)
      return (lane, r / (4 * groups) * 4 + r % 4)

def text : Atom → String
  | mmaA pack => s!"MmaA \x7b pack: {pack} \x7d"
  | mmaB pack => s!"MmaB \x7b pack: {pack} \x7d"
  | mmaC => "MmaC"
  | mfmaA m k => s!"MfmaA \x7b m: {m}, k: {k} \x7d"
  | mfmaB n k => s!"MfmaB \x7b n: {n}, k: {k} \x7d"
  | mfmaC m n => s!"MfmaC \x7b m: {m}, n: {n} \x7d"

end Atom

end TileProgram
