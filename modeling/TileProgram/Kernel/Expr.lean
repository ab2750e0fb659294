import TileProgram.Id
import TileProgram.Affine
import TileProgram.ElementType

/-!
# Windows and element expressions

Copies move windows of tiles.  Elementwise loops assign expressions over
element accesses; reductions combine the elements of a row or a column.
-/

namespace TileProgram

structure Region where
  tile : TileId
  offsets : List Affine
  extents : Shape
  deriving DecidableEq, Repr

namespace Region

def full (tile : TileId) (shape : Shape) : Region :=
  ⟨tile, shape.map fun _ => Affine.ofInt 0, shape⟩

def numel (r : Region) : Checked Nat := r.extents.numel

def dependsOn (r : Region) (name : String) : Checked Bool :=
  return !(← Checked.all (fun o => return !(← o.dependsOn name)) r.offsets)

def covers (r : Region) (shape : Shape) : Bool :=
  r.extents == shape && r.offsets.all (· == Affine.ofInt 0)

end Region

structure Access where
  tile : TileId
  indices : List Affine
  deriving DecidableEq, Repr

inductive UnaryOp where
  | neg
  | abs
  | exp
  | relu
  deriving DecidableEq, Repr

namespace UnaryOp

def name : UnaryOp → String
  | neg => "neg"
  | abs => "abs"
  | exp => "exp"
  | relu => "relu"

def ofName? (text : String) : Option UnaryOp :=
  [neg, abs, exp, relu].find? (·.name == text)

end UnaryOp

inductive BinaryOp where
  | add
  | sub
  | mul
  | div
  | max
  | min
  deriving DecidableEq, Repr

namespace BinaryOp

def name : BinaryOp → String
  | add => "add"
  | sub => "sub"
  | mul => "mul"
  | div => "div"
  | max => "max"
  | min => "min"

def ofName? (text : String) : Option BinaryOp :=
  [add, sub, mul, div, max, min].find? (·.name == text)

end BinaryOp

inductive Expr where
  | load (access : Access)
  | const (value : Float)
  | unary (op : UnaryOp) (x : Expr)
  | binary (op : BinaryOp) (l r : Expr)
  | cast (type : ElementType) (x : Expr)
  deriving Inhabited, Repr

namespace Expr

def loads : Expr → List Access
  | load a => [a]
  | const _ => []
  | unary _ x | cast _ x => x.loads
  | binary _ l r => l.loads ++ r.loads

def mapTiles (f : TileId → TileId) : Expr → Expr
  | load a => load { a with tile := f a.tile }
  | const c => const c
  | unary op x => unary op (x.mapTiles f)
  | binary op l r => binary op (l.mapTiles f) (r.mapTiles f)
  | cast type x => cast type (x.mapTiles f)

end Expr

instance : Inhabited Access := ⟨⟨⟨0⟩, []⟩⟩

structure Assign where
  dst : Access
  value : Expr
  deriving Inhabited, Repr

inductive ReduceKind where
  | sum
  | max
  | min
  deriving DecidableEq, Repr

namespace ReduceKind

def name : ReduceKind → String
  | sum => "sum"
  | max => "max"
  | min => "min"

def ofName? (text : String) : Option ReduceKind :=
  [sum, max, min].find? (·.name == text)

def join : ReduceKind → BinaryOp
  | sum => .add
  | max => .max
  | min => .min

def identity : ReduceKind → Float
  | sum => 0
  | max => -1 / 0
  | min => 1 / 0

end ReduceKind

end TileProgram
