import TileProgram.Layout.Basic
import TileProgram.Target.Basic

/-!
# Contiguous runs

A vector access moves consecutive columns of a row, so it needs them in
consecutive slots.  The shortest run over all rows bounds the width that a
layout allows everywhere.
-/

namespace TileProgram
namespace Layout

/-- Shortest of `shortest` and the maximal runs of consecutive slots in a row,
the current run having reached `run` at slot `previous`, just before column
`c`. -/
def shortestRun
    (l : Layout) (r c : Nat) (previous : Slot) (run shortest : Nat) :
    Nat → Checked Nat
  | 0 => .ok (min shortest run)
  | left + 1 => do
      let next ← l.slotAt r c
      if previous.isSuccessor next then
        shortestRun l r (c + 1) next (run + 1) shortest left
      else shortestRun l r (c + 1) next 1 (min shortest run) left

/-- Shortest run of the rows from `r` on; a run of one ends the search. -/
def shortestRunFrom (l : Layout) (r : Nat) : Nat → Nat → Checked Nat
  | 0, shortest => .ok shortest
  | left + 1, shortest => do
      let shortest ← l.shortestRun r 1 (← l.slotAt r 0) 1 shortest
        (l.shape.cols - 1)
      if shortest = 1 then return shortest
      else shortestRunFrom l (r + 1) left shortest

/-- Length of the shortest maximal run of columns in consecutive slots. -/
def contiguousRun (l : Layout) : Checked Nat := do
  if l.shape.cols = 0 then return 0
  l.shortestRunFrom 0 (← l.shape.rows) l.shape.cols

def isBulkCompatible (l : Layout) (elementBytes : Nat) (target : Target) :
    Checked Bool :=
  match target.bulkCopy with
  | none => .ok false
  | some bulk =>
      match bulk.engine with
      | .tma =>
          match l.kind with
          | .rowMajor => .ok true
          | .swizzled s => s.isHardwareMode elementBytes
          | _ => .ok false
      | .cpAsync =>
          if l.isFragment then .ok false
          else do
            return Swizzle.chunkBytes ≤
              (← Checked.word32 ((← l.contiguousRun) * elementBytes))

/-- Bank that serves the first byte of an element; registers have none. -/
def bank
    (l : Layout) (index : List Nat) (elementBytes : Nat) (target : Target) :
    Checked (Option Nat) := do
  match ← l.offset index with
  | none => return none
  | some offset =>
      let byte ← Checked.word64 (offset * elementBytes)
      let word ← Checked.div byte target.shared.bankBytes
      return some (← Checked.mod word target.shared.banks)

end Layout
end TileProgram
