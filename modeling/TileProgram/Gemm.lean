import TileProgram.Kernel.Basic
import TileProgram.Layout.Choice

/-!
# Matrix products on matrix instructions

A product is bound to the first instruction of the target that accepts its
operand types, together with a grid of warps over the accumulator.  The binding
fixes the register layout of every operand.
-/

namespace TileProgram

namespace GemmShape

/-- Rows and columns of a two-dimensional shape, swapped when transposed. -/
def matrix? (shape : Shape) (transposed : Bool) : Option (Nat × Nat) :=
  match shape with
  | [rows, cols] => some (if transposed then (cols, rows) else (rows, cols))
  | _ => none

def ofShapes? (a b c : Shape) (transposeA transposeB : Bool) :
    Option GemmShape := do
  let (m, k) ← matrix? a transposeA
  let (depth, n) ← matrix? b transposeB
  let (rows, cols) ← matrix? c false
  if k = depth ∧ rows = m ∧ cols = n then some ⟨m, n, k⟩ else none

end GemmShape

structure GemmBinding where
  instruction : MatrixInstruction
  dims : GemmShape
  warps : WarpGrid
  deriving DecidableEq, Repr

namespace GemmBinding

def repeats (b : GemmBinding) : Checked GemmShape := do
  let shape := b.instruction.shape
  return ⟨← Checked.div b.dims.m (← Checked.word32 (shape.m * b.warps.rows)),
    ← Checked.div b.dims.n (← Checked.word32 (shape.n * b.warps.cols)),
    ← Checked.div b.dims.k shape.k⟩

/-- Layout that an operand in registers must have.  The left operand is shared
by the warps of a row, the right one by the warps of a column. -/
def operandLayout (b : GemmBinding) (role : Role) (transposed : Bool) :
    RegisterLayout :=
  let atom := b.instruction.atom role
  match role with
  | .a => .operand atom ⟨b.warps.rows, 1⟩ b.warps.cols transposed
  | .b => .operand atom ⟨1, b.warps.cols⟩ b.warps.rows transposed
  | .c => .operand atom b.warps 1 transposed

end GemmBinding

namespace Kernel

def gemmOnChip (a b c : Tile) : Bool :=
  c.scope == .fragment && a.scope.isOnChip && b.scope.isOnChip

/-- Bind a product to an instruction of the target.  There is no binding when
types or scopes rule out every instruction; a shape that the instruction cannot
tile is an error. -/
def bindGemm
    (k : Kernel) (a b c : TileId) (transposeA transposeB : Bool)
    (target : Target) :
    Pass LayoutError (Option GemmBinding) := do
  let ta ← k.tile a
  let tb ← k.tile b
  let tc ← k.tile c
  if !gemmOnChip ta tb tc then return none
  match target.instruction? ta.type tb.type tc.type with
  | none => return none
  | some i =>
      let refuse (reason : String) : Pass LayoutError (Option GemmBinding) :=
        Pass.fail (.incompatibleShape tc.name tc.shape i.name reason)
      match GemmShape.ofShapes? ta.shape tb.shape tc.shape transposeA
        transposeB with
      | none =>
          refuse
            (s!"operand shapes {ta.shape.text} x {tb.shape.text} -> {tc.shape.text} "
              ++ "do not form a matrix product")
      | some dims =>
          let lanes := max 1 i.lanes
          let threads ← k.numThreads
          let warps ←
            if threads % lanes = 0 then
              i.warpPartition dims.m dims.n (threads / lanes)
            else pure none
          let depthLeft ← Checked.mod dims.k i.shape.k
          match warps with
          | some warps =>
              if depthLeft = 0 then return some ⟨i, dims, warps⟩
              else refuse (cannotSplit dims threads i)
          | none => refuse (cannotSplit dims threads i)
where
  cannotSplit (dims : GemmShape) (threads : Nat) (i : MatrixInstruction) :
    String :=
    s!"m={dims.m} n={dims.n} k={dims.k} with {threads} threads cannot be split into "
      ++ s!"{i.shape.m}x{i.shape.n}x{i.shape.k} tiles per warp"

end Kernel

end TileProgram
