import TileProgram.Kernel.Expr

/-!
# Elements

Running a kernel needs constants and the arithmetic of expressions, and nothing
else of the values.  Doubles are one instance; layouts and schedules can be
studied over any.
-/

namespace TileProgram

class Element (α : Type) where
  const : Float → α
  unary : UnaryOp → α → α
  binary : BinaryOp → α → α → α
  cast : ElementType → α → α

namespace Element

variable {α : Type} [Element α]

def zero : α := const 0

def combine (kind : ReduceKind) (acc x : α) : α := binary kind.join acc x

end Element

namespace Double

/-- The larger of two numbers.  What is not a number gives way to the other, and
of two equal ones, such as zeros of either sign, the second is taken. -/
def max (x y : Float) : Float :=
  if x.isNaN then y else if y.isNaN then x else if y < x then x else y

/-- The smaller of two numbers.  What is not a number gives way to the other,
and of two equal ones, such as zeros of either sign, the second is taken. -/
def min (x y : Float) : Float :=
  if x.isNaN then y else if y.isNaN then x else if x < y then x else y

def trunc (x : Float) : Float := if x < 0 then x.ceil else x.floor

def unary : UnaryOp → Float → Float
  | .neg, x => -x
  | .abs, x => x.abs
  | .exp, x => x.exp
  | .relu, x => max x 0

def binary : BinaryOp → Float → Float → Float
  | .add, x, y => x + y
  | .sub, x, y => x - y
  | .mul, x, y => x * y
  | .div, x, y => x / y
  | .max, x, y => max x y
  | .min, x, y => min x y

/-- Conversion to an element type; only integers lose something. -/
def cast : ElementType → Float → Float
  | .i8, x => trunc x
  | .i32, x => trunc x
  | _, x => x

end Double

instance : Element Float :=
  ⟨fun c => c, Double.unary, Double.binary, Double.cast⟩

end TileProgram
