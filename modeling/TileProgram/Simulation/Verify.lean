import TileProgram.Simulation.Run
import TileProgram.Tensor.Closeness
import TileProgram.Tensor.Supply

/-!
# Verification of schedules

A kernel is run in sequence and by its schedules on the same synthetic inputs,
and the contents of its global tiles are compared.
-/

namespace TileProgram

structure RunOptions where
  supply : Supply
  seed : Nat
  /-- At most this many blocks; none runs the whole grid. -/
  maxBlocks : Option Nat
  deriving DecidableEq, Repr

def RunOptions.standard : RunOptions := ⟨.integer, 0, some 4⟩

structure Verified where
  blocks : Nat
  regions : Nat
  compared : Nat
  deriving DecidableEq, Repr

namespace Memory

def elementBytes : Nat := 8

/-- Contents of the tiles from `tiles` on: global tiles are supplied, on-chip
tiles are zero. -/
def supply (s : Supply) :
    List Tile → Random.Stream → Checked (List (Array Float))
  | [], _ => .ok []
  | t :: rest, stream => do
      let count ← Checked.table elementBytes (← t.shape.numel)
      let (data, stream) :=
        if t.scope = .global then s.generate count t.type stream
        else (Array.replicate count 0, stream)
      return data :: (← supply s rest stream)

def initial (k : Kernel) (opts : RunOptions) : Checked (Memory Float) := do
  return ⟨(← supply opts.supply k.tiles.toList (.ofSeed opts.seed)).toArray⟩

end Memory

namespace Kernel

def simulate (k : Kernel) (mode : RunMode) (opts : RunOptions) :
    Pass SimulationError (Memory Float) := do
  k.run mode opts.maxBlocks (← Memory.initial k opts)

def scheduledRegions (k : Kernel) : List Op :=
  k.ops.filter fun
    | .loop head _ => head.schedule.isSome
    | .step _ => false

def compareGlobals
    (k : Kernel) (actual expected : Memory Float) (tol : Tolerance) :
    Pass SimulationError Nat :=
  k.tiles.toList.zipIdx.foldlM (fun compared (t, i) => do
    if t.scope ≠ .global then return compared
    let a ← actual.tile ⟨i⟩
    let e ← expected.tile ⟨i⟩
    match tol.mismatch? a.toList e.toList with
    | some m => Pass.fail (.mismatch t.name m.message)
    | none => Checked.word64 (compared + (← t.shape.numel))) 0

def verify (k : Kernel) (opts : RunOptions) (tol : Tolerance) :
    Pass SimulationError Verified := do
  let start ← Memory.initial k opts
  let expected ← k.run .sequential opts.maxBlocks start
  let actual ← k.run .scheduled opts.maxBlocks start
  let compared ← k.compareGlobals actual expected tol
  return ⟨← k.blockCount opts.maxBlocks, k.scheduledRegions.length, compared⟩

end Kernel

end TileProgram
