import TileProgram.Shape

/-!
# Linear indices

The elements of a shape are numbered row by row.  `unravel` gives the position
of a number and `linearIndex?` the number of a position.
-/

namespace TileProgram
namespace Shape

def unravelFrom (linear : Nat) : Shape → List Nat × Nat
  | [] => ([], linear)
  | extent :: rest =>
      let (position, left) := unravelFrom linear rest
      (left % max 1 extent :: position, left / max 1 extent)

/-- Position of element `linear`; an empty extent counts as one. -/
def unravel (linear : Nat) (shape : Shape) : List Nat :=
  (unravelFrom linear shape).1

/-- Number of a position, `acc` being that of the dimensions before. -/
def linearFrom (acc : Nat) : Shape → List Int → Option Nat
  | [], [] => some acc
  | extent :: shape, i :: index =>
      if 0 ≤ i ∧ i < extent then linearFrom (acc * extent + i.toNat) shape index
        else none
  | _, _ => none

/-- Number of a position; none if it is outside or has another rank. -/
def linearIndex? (shape : Shape) (index : List Int) : Option Nat :=
  linearFrom 0 shape index

end Shape
end TileProgram
