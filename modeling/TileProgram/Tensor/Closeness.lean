import TileProgram.Decimal.Numeral
import TileProgram.Simulation.Element

/-!
# Closeness of tensors

Two tensors are close when no more than a fraction of their elements lie
outside a tolerance.
-/

namespace TileProgram

structure Tolerance where
  relative : Float
  absolute : Float
  mismatchedRatio : Float

namespace Tolerance

def standard : Tolerance := ⟨0.01, 0.001, 0.001⟩

def exact : Tolerance := ⟨0, 0, 0⟩

/-- The element lies outside the tolerance.  What is not a number only matches
what is not a number, and an infinity only itself. -/
def excludes (tol : Tolerance) (actual expected : Float) : Bool :=
  if actual.isNaN || expected.isNaN then actual.isNaN != expected.isNaN
  else if actual.isInf || expected.isInf then actual != expected
  else (actual - expected).abs > tol.absolute + tol.relative * expected.abs

def allowed (tol : Tolerance) (total : Nat) : Nat :=
  (total.toFloat * tol.mismatchedRatio).toUInt64.toNat

end Tolerance

structure Mismatch where
  mismatched : Nat
  allowed : Nat
  total : Nat
  maxDifference : Float
  first : Option (Nat × Float × Float)

namespace Mismatch

def message (m : Mismatch) : String :=
  let difference := Decimal.listingText m.maxDifference
  let summary :=
    s!"{m.mismatched} of {m.total} elements mismatched ({m.allowed} allowed), "
      ++ s!"greatest absolute difference {difference}"
  match m.first with
  | none => summary
  | some (i, actual, expected) =>
      let a := Decimal.listingText actual
      let e := Decimal.listingText expected
      summary ++ s!", first at [{i}]: {a} vs {e}"

def add (tol : Tolerance) (m : Mismatch) (pair : (Float × Float) × Nat) :
    Mismatch :=
  let ((actual, expected), i) := pair
  let m :=
    if tol.excludes actual expected then
      { m with
        mismatched := m.mismatched + 1
        first := m.first.or (some (i, actual, expected)) }
    else m
  let difference := (actual - expected).abs
  if difference.isFinite then
    { m with maxDifference := Double.max m.maxDifference difference }
  else m

/-- Difference of two tensors.  Elements without a partner count as
mismatched. -/
def between (actual expected : List Float) (tol : Tolerance) : Mismatch :=
  let total := max actual.length expected.length
  let unpaired := total - min actual.length expected.length
  (actual.zip expected).zipIdx.foldl (add tol)
    ⟨unpaired, tol.allowed total, total, 0, none⟩

def isExcessive (m : Mismatch) : Bool := m.allowed < m.mismatched

end Mismatch

def Tolerance.mismatch? (tol : Tolerance) (actual expected : List Float) :
    Option Mismatch :=
  let m := Mismatch.between actual expected tol
  if m.isExcessive then some m else none

end TileProgram
