import TileProgram.Inference.Check

/-!
# Demands on layouts

Every operation that touches a tile exerts a demand on the layout of the tile.
Memory tiles are walked in a pattern; register tiles either must have the
layout of a matrix instruction, are accessed several elements at a time, or may
have any layout.
-/

namespace TileProgram

inductive Demand where
  /-- A walk over a memory tile, or the exact layout of a register tile. -/
  | pattern (pattern : AccessPattern)
  | vector (width : Nat)
  | free
  deriving DecidableEq, Repr

structure TileUse where
  op : OpId
  tile : TileId
  read : Bool
  write : Bool
  demand : Demand
  deriving DecidableEq, Repr

def halveToDivisor (extent : Nat) (width : Nat) : Nat :=
  if width ≤ 1 then 1
  else if extent % width = 0 then width
  else halveToDivisor extent (width / 2)
termination_by width

namespace Inference

def naturalWidth (target : Target) (t : Tile) (inner : Nat) : Nat :=
  halveToDivisor inner (min (target.vectorElements t.type) (max 1 inner))

/-- Demand of a walk; registers care only for runs of several elements. -/
def walkDemand (t : Tile) (p : AccessPattern) : Demand :=
  match t.scope, p with
  | .fragment, .rowMajor vector => if 1 < vector then .vector vector else .free
  | .fragment, _ => .free
  | _, p => .pattern p

def copyDemand (target : Target) (t : Tile) (width : Option Nat) (inner : Nat) :
    Demand :=
  match t.scope, width with
  | .fragment, some w => .vector w
  | .fragment, none => .free
  | _, some w => .pattern (.rowMajor w)
  | _, none => .pattern (.rowMajor (naturalWidth target t inner))

/-- Walk of an elementwise access: by columns when the innermost variable moves
an outer index and not the last one, else by rows. -/
def elementwisePattern (indices : List Affine) (inner : String) :
    Checked AccessPattern :=
  match indices.getLast? with
  | none => .ok (.rowMajor 1)
  | some last => do
      let still ← Checked.all (fun ix => return !(← ix.dependsOn inner))
        indices.dropLast
      if still then return .rowMajor 1
      if ← last.dependsOn inner then return .rowMajor 1
      return .columnMajor

section

variable (k : Kernel) (target : Target)

def accessUse (op : OpId) (inner : String) (read : Bool) (a : Access) :
    Checked TileUse := do
  let p ← elementwisePattern a.indices inner
  return ⟨op, a.tile, read, !read, walkDemand (← k.tile a.tile) p⟩

def assignUses (op : OpId) (inner : String) (assign : Assign) :
    Checked (List TileUse) := do
  let loads ← assign.value.loads.mapM (accessUse k op inner true)
  return loads ++ [← accessUse k op inner false assign.dst]

def tileDemand (tile : TileId) (p : AccessPattern) : Checked Demand := do
  return walkDemand (← k.tile tile) p

def opUses (op : OpId) : TileOp → Pass InferenceError (List TileUse)
  | .alloc _ => return []
  | .copy src dst width => do
      let inner := dst.extents.getLast?.getD 1
      let ts ← k.tile src.tile
      let td ← k.tile dst.tile
      return [⟨op, src.tile, true, false, copyDemand target ts width inner⟩,
        ⟨op, dst.tile, false, true, copyDemand target td width inner⟩]
  | .fill tile _ => do
      let t ← k.tile tile
      return [⟨op, tile, false, true, copyDemand target t none t.shape.cols⟩]
  | .parallel vars _ body => do
      let inner := vars.getLast?.getD ""
      let perAssign :
        List (List TileUse) ← (body.mapM (assignUses k op inner) : Checked _)
      return perAssign.flatten
  | .gemm a b c transposeA transposeB clear => do
      match ← Pass.within .layout
        (k.bindGemm a b c transposeA transposeB target) with
      | some binding =>
          let operand (role : Role) (transposed : Bool) : Demand :=
            .pattern (.operand (binding.operandLayout role transposed))
          return [⟨op, a, true, false, operand .a transposeA⟩,
            ⟨op, b, true, false, operand .b transposeB⟩,
            ⟨op, c, !clear, true, operand .c false⟩]
      | none =>
          return [⟨op, a, true, false, ← tileDemand k a (.rowMajor 1)⟩,
            ⟨op, b, true, false, ← tileDemand k b (.rowMajor 1)⟩,
            ⟨op, c, !clear, true, ← tileDemand k c (.rowMajor 1)⟩]
  | .reduce src dst axis _ clear => do
      let rank := (← k.tile src).shape.length
      let p : AccessPattern :=
        if (← Checked.word64 (axis + 1)) = rank then .columnMajor
          else .rowMajor 1
      return [⟨op, src, true, false, ← tileDemand k src p⟩,
        ⟨op, dst, !clear, true, ← tileDemand k dst (.rowMajor 1)⟩]
  | .relayout src dst =>
      return [⟨op, src, true, false, .free⟩, ⟨op, dst, false, true, .free⟩]

def uses : Pass InferenceError (List TileUse) := do
  let perOp ← k.ops.mapM fun
    | .step s => opUses k target s.id s.op
    | .loop .. => return []
  return perOp.flatten

end

end Inference

end TileProgram
