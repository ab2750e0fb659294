import TileProgram.Fault

/-!
# Shapes

A shape lists the extents of a tile, outermost first.  Every shape has a
two-dimensional view: the innermost extent counts the columns and the product
of the others counts the rows.
-/

namespace TileProgram

/-- Extents along each dimension, outermost first. -/
abbrev Shape := List Nat

namespace Shape

def numel (shape : Shape) : Checked Nat :=
  Checked.product Checked.word64 shape

def rows (shape : Shape) : Checked Nat :=
  Checked.product Checked.word32 shape.dropLast

def cols (shape : Shape) : Nat :=
  shape.getLast?.getD 1

/-- A shape with no dimension, or with an empty one, holds no tile. -/
def isDegenerate (shape : Shape) : Bool :=
  shape.isEmpty || shape.contains 0

def text (shape : Shape) : String :=
  "[" ++ ", ".intercalate (shape.map Nat.repr) ++ "]"

/-- The extents other than one, which decide whether two windows match. -/
def squeeze (shape : Shape) : Shape :=
  shape.filter (· != 1)

end Shape

structure Dim3 where
  x : Nat
  y : Nat
  z : Nat
  deriving DecidableEq, Repr

namespace Dim3

def toList (d : Dim3) : List Nat := [d.x, d.y, d.z]

/-- Up to three sizes; missing axes have size one. -/
def ofList (sizes : List Nat) : Dim3 :=
  ⟨sizes[0]?.getD 1, sizes[1]?.getD 1, sizes[2]?.getD 1⟩

def along (d : Dim3) : Nat → Nat
  | 0 => d.x
  | 1 => d.y
  | _ => d.z

end Dim3

/-- How many pieces of size `b` cover `a`; a zero size counts as one. -/
def ceilDiv (a b : Nat) : Nat :=
  (a + max b 1 - 1) / max b 1

/-- Largest width up to `vector` that divides `cols`, and at least one. -/
def fitVector (vector cols : Nat) : Nat :=
  descend (max 1 (min vector (max cols 1)))
where
  descend : Nat → Nat
    | 0 => 1
    | 1 => 1
    | v + 2 => if cols % (v + 2) = 0 then v + 2 else descend (v + 1)

end TileProgram
