import TileProgram.Counted
import TileProgram.Index
import TileProgram.Kernel.Effect
import TileProgram.Simulation.Memory

/-!
# Evaluation of operations

An operation is evaluated against the memory as it stands and yields the writes
that it makes.  Elements outside a tile read as zero and are not written.
-/

namespace TileProgram

section

variable {α : Type} [Element α] (k : Kernel) (m : Memory α) (env : Bindings)

def Access.locate (a : Access) : Checked (Option Nat) := do
  let index ← a.indices.mapM (·.eval env)
  return (← k.tile a.tile).shape.linearIndex? index

@[specialize]
def Expr.eval : Expr → Checked α
  | .const c => .ok (Element.const c)
  | .load a => do
      match ← a.locate k env with
      | some i => m.read a.tile i
      | none => return Element.zero
  | .unary op x => do
      return Element.unary op (← x.eval)
  | .binary op l r => do
      let l ← l.eval
      return Element.binary op l (← r.eval)
  | .cast type x => do
      return Element.cast type (← x.eval)

@[specialize]
def Assign.eval (assign : Assign) : Checked (Option (Write α)) := do
  let value ← assign.value.eval k m env
  return (← assign.dst.locate k env).map fun i => ⟨assign.dst.tile, i, value⟩

end

def Bindings.bindAll (env : Bindings) (vars : List String) (point : List Nat) :
    Bindings :=
  (vars.zip point).foldl (fun env (name, i) => env.bind name i) env

namespace TileOp

variable {α : Type} [Element α] (k : Kernel) (m : Memory α) (env : Bindings)

def windowPosition (base : List Int) (extents : Shape) (linear : Nat) :
    Checked (List Int) :=
  ((extents.unravel linear).zip base).mapM fun (i, b) => Checked.int64 (i + b)

@[specialize]
def copyElement
    (src dst : Region) (srcBase dstBase : List Int) (srcShape dstShape : Shape)
    (data : Array α) (linear : Nat) : Checked (Option (Write α)) := do
  let source ← windowPosition srcBase src.extents linear
  let sink ← windowPosition dstBase dst.extents linear
  let value ← match srcShape.linearIndex? source with
    | none => pure Element.zero
    | some i =>
        match data[i]? with
        | some value => pure value
        | none => Except.error Fault.outOfRange
  return (dstShape.linearIndex? sink).map fun i => ⟨dst.tile, i, value⟩

@[specialize]
def evalCopy (src dst : Region) : Checked (List (Write α)) := do
  let srcShape := (← k.tile src.tile).shape
  let dstShape := (← k.tile dst.tile).shape
  let srcBase ← src.offsets.mapM (·.eval env)
  let dstBase ← dst.offsets.mapM (·.eval env)
  let count ← Checked.table Write.bytes (min (← src.numel) (← dst.numel))
  let data ← m.tile src.tile
  Counted.flatMapM (fun linear => do
    let write ← copyElement src dst srcBase dstBase srcShape dstShape data
      linear
    return write.toList) 0 count

/-- Entry of row `i` and column `j` of a matrix stored with `cols` columns,
which is transposed first if asked. -/
@[inline]
def matrixEntry (data : Array α) (cols : Nat) (transposed : Bool) (i j : Nat) :
    α :=
  data.getD (if transposed then j * cols + i else i * cols + j) Element.zero

@[specialize]
def dot (depth : Nat) (a b : Nat → α) (init : α) : α :=
  Counted.fold (fun p acc =>
    Element.binary .add acc (Element.binary .mul (a p) (b p))) 0 depth init

@[specialize]
def evalGemm (a b c : TileId) (transposeA transposeB clear : Bool) :
    Checked (List (Write α)) := do
  let ta ← k.tile a
  let tb ← k.tile b
  let tc ← k.tile c
  let rows ← tc.shape.rows
  let cols := tc.shape.cols
  let depth ← if transposeA then ta.shape.rows else pure ta.shape.cols
  let left := matrixEntry (← m.tile a) ta.shape.cols transposeA
  let right := matrixEntry (← m.tile b) tb.shape.cols transposeB
  let sums ← m.tile c
  return (List.range rows).flatMap fun i =>
    (List.range cols).map fun j =>
      let init :=
        if clear then Element.zero else sums.getD (i * cols + j) Element.zero
      ⟨c, i * cols + j, dot depth (left i) (fun p => right p j) init⟩

@[specialize]
def evalReduce
    (src dst : TileId) (axis : Nat) (kind : ReduceKind) (clear : Bool) :
    Checked (List (Write α)) := do
  let shape := (← k.tile src).shape
  let rows ← shape.rows
  let cols := shape.cols
  let data ← m.tile src
  let sums ← m.tile dst
  let outer := if axis = 0 then cols else rows
  let inner := if axis = 0 then rows else cols
  return (List.range outer).map fun o =>
    let init :=
      if clear then Element.const kind.identity else sums.getD o Element.zero
    let total := Counted.fold (fun i acc =>
      let place := if axis = 0 then i * cols + o else o * cols + i
      Element.combine kind acc (data.getD place Element.zero)) 0 inner init
    ⟨dst, o, total⟩

@[specialize]
def evalParallel (vars : List String) (extents : Shape) (body : List Assign) :
    Checked (List (Write α)) := do
  Counted.flatMapM (fun linear => do
    let env := env.bindAll vars (extents.unravel linear)
    return (← body.mapM (Assign.eval k m env)).reduceOption) 0 (← extents.numel)

@[specialize]
def eval : TileOp → Checked (List (Write α))
  | alloc _ => .ok []
  | copy src dst _ => evalCopy k m env src dst
  | fill tile value => do
      let data ← m.tile tile
      return (List.range data.size).map fun i => ⟨tile, i, Element.const value⟩
  | parallel vars extents body => evalParallel k m env vars extents body
  | gemm a b c transposeA transposeB clear =>
      evalGemm k m a b c transposeA transposeB clear
  | reduce src dst axis kind clear => evalReduce k m src dst axis kind clear
  | relayout src dst => do
      let data ← m.tile src
      return data.toList.zipIdx.map fun (value, i) => ⟨dst, i, value⟩

end TileOp

end TileProgram
