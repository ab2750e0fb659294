import TileProgram.Gemm
import TileProgram.Kernel.Effect

/-!
# Checks before inference

Every operation names tiles of the table, no two operations share a number, and
the shapes of the operands fit together.
-/

namespace TileProgram

inductive InferenceError where
  | noAccessPattern (tile : String)
  | unknownTile (op : OpId) (tile : TileId)
  | duplicateOpId (op : OpId)
  | shapeMismatch (op : OpId) (tile reason : String)
  | layout (error : LayoutError)
  deriving DecidableEq, Repr

namespace InferenceError

def message : InferenceError → String
  | noAccessPattern tile =>
      s!"no access pattern for tile '{tile}': it is declared but never used"
  | unknownTile op tile =>
      s!"op {op.text} references tile {tile.index} which is not declared"
  | duplicateOpId op => s!"op id {op.text} is used by more than one op"
  | shapeMismatch op tile reason =>
      s!"op {op.text} has mismatched shapes on tile '{tile}': {reason}"
  | layout e => e.message

def diagnostic (e : InferenceError) : Diagnostic :=
  match e with
  | noAccessPattern tile =>
      (Diagnostic.error e.message (.tile tile)).withHelp
        "remove the declaration or use the tile"
  | unknownTile op _ => Diagnostic.error e.message (.op op)
  | duplicateOpId op => Diagnostic.error e.message (.op op)
  | shapeMismatch op _ _ => Diagnostic.error e.message (.op op)
  | layout e => e.diagnostic

end InferenceError

namespace Inference

def missingTile? (k : Kernel) (op : Op) : Option TileId :=
  op.mentions.find? fun t => (k.tile? t).isNone

def checkReferences (k : Kernel) : List Op → Pass InferenceError Unit
  | [] => return ()
  | op :: rest =>
      match missingTile? k op with
      | some t => Pass.fail (.unknownTile op.id t)
      | none => checkReferences k rest

def checkDistinct : List OpId → List OpId → Pass InferenceError Unit
  | _, [] => return ()
  | seen, id :: rest =>
      if seen.contains id then Pass.fail (.duplicateOpId id)
      else checkDistinct (id :: seen) rest

def reserveOpIds (k : Kernel) : Pass InferenceError Kernel := do
  let ids := k.ops.map (·.id)
  checkDistinct [] ids
  match ids.map (·.number) with
  | [] => return k
  | n :: rest =>
      let next ← Checked.word32 (rest.foldl max n + 1)
      return { k with nextOp := max k.nextOp next }

section

variable (k : Kernel) (op : OpId)

def mismatch {α : Type} (tile : TileId) (reason : String) :
    Pass InferenceError α := do
  let t ← k.tile tile
  Pass.fail (.shapeMismatch op t.name reason)

def checkRegion (r : Region) : Pass InferenceError Unit := do
  let rank := (← k.tile r.tile).shape.length
  if r.extents.length ≠ rank ∨ r.offsets.length ≠ rank then
    let got := max r.extents.length r.offsets.length
    mismatch k op r.tile s!"region of rank {got} on a tile of rank {rank}"

def checkAccess (a : Access) : Pass InferenceError Unit := do
  let rank := (← k.tile a.tile).shape.length
  if a.indices.length ≠ rank then
    mismatch k op a.tile s!"{a.indices.length} indices on a tile of rank {rank}"

def checkOperands : TileOp → Pass InferenceError Unit
  | .alloc _ | .fill .. => return ()
  | .copy src dst _ => do
      checkRegion k op src
      checkRegion k op dst
      if src.extents.squeeze ≠ dst.extents.squeeze then
        mismatch k op dst.tile
          s!"copies {src.extents.text} elements into a {dst.extents.text} region"
  | .parallel _ _ body =>
      body.forM fun assign => do
        checkAccess k op assign.dst
        assign.value.loads.forM (checkAccess k op)
  | .gemm a b c transposeA transposeB _ => do
      let ta := (← k.tile a).shape
      let tb := (← k.tile b).shape
      let tc := (← k.tile c).shape
      if (GemmShape.ofShapes? ta tb tc transposeA transposeB).isNone then
        mismatch k op c
          s!"gemm of {ta.text} by {tb.text} cannot produce {tc.text}"
  | .reduce src dst axis _ _ => do
      let shape := (← k.tile src).shape
      if shape.length ≠ 2 ∨ shape.length ≤ axis then
        mismatch k op src s!"cannot reduce axis {axis} of a {shape.text} tile"
      let reduced : Shape := shape.eraseIdx axis
      let out := (← k.tile dst).shape
      if out ≠ reduced then
        mismatch k op dst s!"reduction yields {reduced.text}, not {out.text}"
  | .relayout src dst => do
      if (← k.tile src).shape ≠ (← k.tile dst).shape then
        mismatch k op dst "relayout changes the shape"

end

def checkShapes (k : Kernel) : Pass InferenceError Unit :=
  k.ops.forM fun
    | .step s => checkOperands k s.id s.op
    | .loop .. => return ()

end Inference

end TileProgram
