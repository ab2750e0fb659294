import TileProgram.ElementType
import TileProgram.Shape
import TileProgram.Layout.Register

/-!
# Matrix instructions

A matrix instruction multiplies an `m × k` by a `k × n` fragment with the lanes
of one warp.  Its vendor and operand type decide the atoms of its operands, and
`violation?` says why a shape cannot be expressed by them.
-/

namespace TileProgram

/-- Family of a target; it decides the lane count and the kind of atoms. -/
inductive Vendor where
  | nvidia
  | amd
  deriving DecidableEq, Repr

namespace Vendor

def name : Vendor → String
  | nvidia => "nvidia"
  | amd => "amd"

def lanes : Vendor → Nat
  | nvidia => 32
  | amd => 64

def ofName? (text : String) : Option Vendor :=
  [nvidia, amd].find? (·.name == text)

end Vendor

structure GemmShape where
  m : Nat
  n : Nat
  k : Nat
  deriving DecidableEq, Repr

def GemmShape.toList (s : GemmShape) : List Nat := [s.m, s.n, s.k]

inductive Role where
  | a
  | b
  | c
  deriving DecidableEq, Repr

def Role.name : Role → String
  | a => "A"
  | b => "B"
  | c => "C"

structure MatrixInstruction where
  name : String
  vendor : Vendor
  shape : GemmShape
  a : ElementType
  b : ElementType
  acc : ElementType
  lanes : Nat
  deriving DecidableEq, Repr

namespace MatrixInstruction

def accepts (i : MatrixInstruction) (a b acc : ElementType) : Bool :=
  i.a == a && i.b == b && i.acc == acc

/-- Operand elements that share a 32-bit register. -/
def pack (i : MatrixInstruction) : Nat := max 1 (4 / i.a.bytes)

def atom (i : MatrixInstruction) : Role → Atom :=
  match i.vendor with
  | .nvidia => fun
      | .a => .mmaA i.pack
      | .b => .mmaB i.pack
      | .c => .mmaC
  | .amd => fun
      | .a => .mfmaA i.shape.m i.shape.k
      | .b => .mfmaB i.shape.n i.shape.k
      | .c => .mfmaC i.shape.m i.shape.n

/-- Why the atoms of the vendor cannot express the instruction, if they
cannot. -/
def violation? (i : MatrixInstruction) : Option String :=
  if i.a ≠ i.b then
    some s!"mma.{i.name}: operands must share an element type ({i.a.name} vs {i.b.name})"
  else
    match i.vendor with
    | .nvidia =>
        let depth := 8 * (4 / i.a.bytes)
        if 2 < i.a.bytes then
          some s!"mma.{i.name}: operand type {i.a.name} is not a tensor-core input"
        else if i.shape ≠ ⟨16, 8, depth⟩ then
          some (s!"mma.{i.name}: shape {Shape.text i.shape.toList} does not match "
            ++ s!"m16n8k{depth} for {i.a.name}")
        else if i.lanes ≠ 32 then
          some s!"mma.{i.name}: nvidia warps have 32 lanes"
        else none
    | .amd =>
        if i.a.bytes ≠ 2 then
          some s!"mma.{i.name}: only 16-bit operand MFMA atoms are modeled"
        else if i.shape ≠ ⟨16, 16, 16⟩ ∧ i.shape ≠ ⟨32, 32, 8⟩ then
          some s!"mma.{i.name}: shape {Shape.text i.shape.toList} is not 16x16x16 or 32x32x8"
        else if i.lanes ≠ 64 then
          some s!"mma.{i.name}: wavefronts have 64 lanes"
        else none

/-- An instruction whose operands share a type, with the lanes of its vendor. -/
def uniform
    (name : String) (vendor : Vendor) (shape : GemmShape)
    (operand acc : ElementType) : MatrixInstruction :=
  ⟨name, vendor, shape, operand, operand, acc, vendor.lanes⟩

def nvidiaTable : List MatrixInstruction :=
  [uniform "mma.m16n8k16.f32.f16.f16.f32" .nvidia ⟨16, 8, 16⟩ .f16 .f32,
    uniform "mma.m16n8k16.f16.f16.f16.f16" .nvidia ⟨16, 8, 16⟩ .f16 .f16,
    uniform "mma.m16n8k16.f32.bf16.bf16.f32" .nvidia ⟨16, 8, 16⟩ .bf16 .f32,
    uniform "mma.m16n8k32.s32.s8.s8.s32" .nvidia ⟨16, 8, 32⟩ .i8 .i32]

def amdTable : List MatrixInstruction :=
  [uniform "v_mfma_f32_16x16x16f16" .amd ⟨16, 16, 16⟩ .f16 .f32,
    uniform "v_mfma_f32_32x32x8f16" .amd ⟨32, 32, 8⟩ .f16 .f32,
    uniform "v_mfma_f32_16x16x16bf16_1k" .amd ⟨16, 16, 16⟩ .bf16 .f32]

/-- A grid of warps and how far its share of the accumulator is from square. -/
structure Split where
  grid : WarpGrid
  skew : Nat
  deriving DecidableEq, Repr

/-- The split into `wm` warps along the rows, if it divides the accumulator
into whole instruction tiles. -/
def split? (i : MatrixInstruction) (m n warps wm : Nat) :
    Checked (Option Split) := do
  if warps % wm ≠ 0 then return none
  let wn := warps / wm
  if (← Checked.mod m (← Checked.word32 (i.shape.m * wm))) ≠ 0 then return none
  if (← Checked.mod n (← Checked.word32 (i.shape.n * wn))) ≠ 0 then return none
  let (height, width) := (m / wm, n / wn)
  return some ⟨⟨wm, wn⟩, (height - width) + (width - height)⟩

def squarer : Option Split → Option Split → Option Split
  | none, found => found
  | some b, some s => if s.skew < b.skew then some s else some b
  | some b, none => some b

def bestSplit (i : MatrixInstruction) (m n warps : Nat) :
    Nat → Option Split → Checked (Option Split)
  | 0, best => .ok best
  | wm + 1, best => do
      let found ← i.split? m n warps (wm + 1)
      bestSplit i m n warps wm (squarer best found)

/-- Grid of `warps` warps over an `m × n` accumulator.  Every warp gets whole
instruction tiles; the squarest share wins, then more warps along the rows. -/
def warpPartition (i : MatrixInstruction) (m n warps : Nat) :
    Checked (Option WarpGrid) := do
  return (← i.bestSplit m n warps warps none).map (·.grid)

end MatrixInstruction

end TileProgram
