import TileProgram.Fault

/-!
# Swizzles

A swizzle permutes linear offsets so that consecutive rows of a tile start in
different banks.  It takes the `bits` bits that start at `base + shift` and
adds them, bit by bit without carry, to the `bits` bits that start at `base`.
The upper field stays as it is, so the map undoes itself.
-/

namespace TileProgram

structure Swizzle where
  bits : Nat
  base : Nat
  shift : Nat
  deriving DecidableEq, Repr

namespace Swizzle

/-- Bytes of one chunk; every hardware mode moves chunks of this size. -/
def chunkBytes : Nat := 16

/-- The hardware mode of a width in bytes for an element size, if there is
one. -/
def ofBytes? (width elementBytes : Nat) : Option Swizzle := do
  let bits ← match width with
    | 32 => some 1
    | 64 => some 2
    | 128 => some 3
    | _ => none
  let base ← match elementBytes with
    | 1 => some 4
    | 2 => some 3
    | 4 => some 2
    | 8 => some 1
    | 16 => some 0
    | _ => none
  return ⟨bits, base, 3⟩

/-- The two bit fields do not overlap and fit a word. -/
def isWellFormed (s : Swizzle) : Checked Bool :=
  if 1 ≤ s.bits ∧ s.bits ≤ s.shift then do
    return (← Checked.word32 (s.base + s.shift + s.bits)) < 63
  else .ok false

def apply (s : Swizzle) (offset : Nat) : Checked Nat := do
  let field ← Checked.bit 64 s.bits
  let mask ← Checked.shiftLeft (field - 1) (← Checked.word32 (s.base + s.shift))
  return offset ^^^ (← Checked.shiftRight (offset &&& mask) s.shift)

/-- Offsets never leave their aligned block of this many elements. -/
def period (s : Swizzle) : Checked Nat := do
  Checked.bit 64 (← Checked.word32 (s.base + s.bits))

def widthBytes (s : Swizzle) (elementBytes : Nat) : Checked Nat := do
  let span ← Checked.bit 32 (← Checked.word32 (s.base + s.bits))
  Checked.word32 (span * elementBytes)

def chunkElements (s : Swizzle) : Checked Nat :=
  Checked.bit 32 s.base

def isHardwareMode (s : Swizzle) (elementBytes : Nat) : Checked Bool :=
  if s.shift = 3 ∧ 1 ≤ s.bits ∧ s.bits ≤ 3 then do
    return (← Checked.word32 ((← s.chunkElements) * elementBytes)) == chunkBytes
  else .ok false

end Swizzle

end TileProgram
