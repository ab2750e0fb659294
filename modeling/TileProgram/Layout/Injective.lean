import Std.Data.HashSet
import TileProgram.Layout.Basic

/-!
# Injective layouts

A layout can hold a tile when no two elements share a slot and every slot lies
inside the footprint.  The test walks the elements in row-major order.
-/

namespace TileProgram
namespace Layout

def inside (l : Layout) : Checked (Slot → Bool) := do
  let footprint ← l.footprint
  match l.kind with
  | .fragment f =>
      let threads ← f.threads
      let locals ← f.localsPerThread (← l.shape.numel)
      return fun
        | .offset o => o < footprint
        | .register thread index => thread < threads && index < locals
  | _ =>
      return fun
        | .offset o => o < footprint
        | .register .. => false

def freshInRow (l : Layout) (accept : Slot → Bool) (r c : Nat) :
    Nat → Std.HashSet Slot → Checked (Option (Std.HashSet Slot))
  | 0, seen => .ok (some seen)
  | left + 1, seen => do
      let slot ← l.slotAt r c
      if accept slot && !seen.contains slot then
        freshInRow l accept r (c + 1) left (seen.insert slot)
      else return none

def freshRows (l : Layout) (accept : Slot → Bool) (cols r : Nat) :
    Nat → Std.HashSet Slot → Checked Bool
  | 0, _ => .ok true
  | left + 1, seen => do
      match ← l.freshInRow accept r 0 cols seen with
      | some seen => freshRows l accept cols (r + 1) left seen
      | none => return false

def slotBytes : Nat := 16

/-- Room in the set of slots seen.  It is at most seven eighths full, and its
size is a power of two, which may double it. -/
def roomFor (count : Nat) : Checked Nat :=
  Checked.table slotBytes (2 * (count * 8 / 7))

/-- Distinct elements have distinct slots, all inside the footprint. -/
def isInjective (l : Layout) : Checked Bool := do
  if ← l.isWellFormed then
    let accept ← l.inside
    let _ ← roomFor (← l.shape.numel)
    let rows ← l.shape.rows
    l.freshRows accept l.shape.cols 0 rows ∅
  else return false

end Layout
end TileProgram
