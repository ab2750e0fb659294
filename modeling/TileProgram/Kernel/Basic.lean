import TileProgram.Kernel.Expr
import TileProgram.Layout.Basic
import TileProgram.Staged.Basic
import TileProgram.Strategy

/-!
# Kernels

A kernel is a table of tiles and a body of operations.  A body is a sequence of
steps and of pipelined loops, which have bodies of their own.  The passes
annotate it: tiles get layouts, loops get schedules, operations get strategies.
-/

namespace TileProgram

structure Tile where
  name : String
  shape : Shape
  type : ElementType
  scope : Scope
  declared : Option Layout
  layout : Option Layout
  deriving DecidableEq, Repr

namespace Tile

def plain (name : String) (shape : Shape) (type : ElementType) (scope : Scope) :
    Tile :=
  ⟨name, shape, type, scope, none, none⟩

def footprintBytes (t : Tile) : Checked Nat := do
  let elements ← match t.layout with
    | some l => l.footprint
    | none => t.shape.numel
  Checked.word64 (elements * t.type.bytes)

end Tile

inductive TileOp where
  | alloc (tile : TileId)
  /-- Copy a window; `width` is the access width when the author pins it. -/
  | copy (src dst : Region) (width : Option Nat)
  | fill (tile : TileId) (value : Float)
  | parallel (vars : List String) (extents : Shape) (body : List Assign)
  /-- Matrix product, added to the accumulator unless it is cleared first. -/
  | gemm (a b c : TileId) (transposeA transposeB clear : Bool)
  | reduce (src dst : TileId) (axis : Nat) (kind : ReduceKind) (clear : Bool)
  | relayout (src dst : TileId)
  deriving Repr

def TileOp.mnemonic : TileOp → String
  | alloc _ => "alloc"
  | copy .. => "copy"
  | fill .. => "fill"
  | parallel .. => "parallel"
  | gemm .. => "gemm"
  | reduce .. => "reduce"
  | relayout .. => "relayout"

structure Step where
  id : OpId
  op : TileOp
  strategy : Option Strategy
  deriving Repr

/-- Head of a pipelined loop over `0 … tripCount - 1`. -/
structure Loop where
  id : OpId
  var : String
  tripCount : Nat
  stages : Nat
  schedule : Option StagedLoop
  strategy : Option Strategy
  deriving DecidableEq, Repr

inductive Body where
  | done
  | step (head : Step) (rest : Body)
  | loop (head : Loop) (body rest : Body)
  deriving Inhabited, Repr

inductive Op where
  | step (step : Step)
  | loop (head : Loop) (body : Body)
  deriving Repr

namespace Op

def id : Op → OpId
  | step s => s.id
  | loop head _ => head.id

def strategy : Op → Option Strategy
  | step s => s.strategy
  | loop head _ => head.strategy

def mnemonic : Op → String
  | step s => s.op.mnemonic
  | loop .. => "pipelined"

end Op

namespace Body

/-- The entries of a body itself, in order. -/
def entries : Body → List Op
  | done => []
  | step s rest => .step s :: rest.entries
  | loop head body rest => .loop head body :: rest.entries

def ofEntries : List Op → Body
  | [] => done
  | .step s :: rest => step s (ofEntries rest)
  | .loop head body :: rest => loop head body (ofEntries rest)

/-- All operations in program order; a loop stands before its body. -/
def ops : Body → List Op
  | done => []
  | step s rest => .step s :: rest.ops
  | loop head body rest => .loop head body :: (body.ops ++ rest.ops)

def find? (body : Body) (id : OpId) : Option Op :=
  body.ops.find? (·.id == id)

/-- Change the first operation with an identity; none if there is no such
operation. -/
def modify? (id : OpId) (onStep : Step → Step) (onLoop : Loop → Loop) :
    Body → Option Body
  | done => none
  | step s rest =>
      if s.id = id then some (step (onStep s) rest)
      else (rest.modify? id onStep onLoop).map (step s)
  | loop head body rest =>
      if head.id = id then some (loop (onLoop head) body rest)
      else
        match body.modify? id onStep onLoop with
        | some body => some (loop head body rest)
        | none => (rest.modify? id onStep onLoop).map (loop head body)

def append : Body → Body → Body
  | done, after => after
  | step s rest, after => step s (rest.append after)
  | loop head body rest, after => loop head body (rest.append after)

end Body

structure Rasterization where
  panelSize : Nat
  enable : Bool
  deriving DecidableEq, Repr

structure Kernel where
  name : String
  grid : Dim3
  threads : Dim3
  tiles : Array Tile
  body : Body
  rasterization : Option Rasterization
  nextOp : Nat
  deriving Repr

namespace Kernel

def empty (name : String) : Kernel :=
  ⟨name, ⟨1, 1, 1⟩, ⟨128, 1, 1⟩, #[], .done, none, 0⟩

def numThreads (k : Kernel) : Checked Nat :=
  Checked.product Checked.word32 k.threads.toList

def numBlocks (k : Kernel) : Checked Nat :=
  Checked.product Checked.word64 k.grid.toList

def tile? (k : Kernel) (id : TileId) : Option Tile := k.tiles[id.index]?

/-- The table has a tile under the identifier. -/
abbrev Has (k : Kernel) (id : TileId) : Prop := id.index < k.tiles.size

def tile (k : Kernel) (id : TileId) : Checked Tile :=
  Checked.entry k.tiles id.index

def findTile? (k : Kernel) (name : String) : Option TileId :=
  (k.tiles.findIdx? (·.name == name)).map TileId.mk

/-- Size of a table of tiles after `count` more.  Identifiers are words, and the
table is full when they run out. -/
def grownTable (size count : Nat) : Checked Nat :=
  if count = 0 then .ok size else Checked.word32 (size + count)

def addTile (k : Kernel) (t : Tile) : Checked (TileId × Kernel) := do
  let _ ← grownTable k.tiles.size 1
  return (⟨k.tiles.size⟩, { k with tiles := k.tiles.push t })

def modifyTile (k : Kernel) (id : TileId) (f : Tile → Tile) : Kernel :=
  { k with tiles := k.tiles.modify id.index f }

def ops (k : Kernel) : List Op := k.body.ops

def findOp? (k : Kernel) (id : OpId) : Option Op := k.body.find? id

end Kernel

end TileProgram
