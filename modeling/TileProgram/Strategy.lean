import TileProgram.Target.Basic

/-!
# Strategies

The hardware path that carries out an operation.
-/

namespace TileProgram

inductive Strategy where
  | bulk (engine : BulkEngine) (bytes : Nat)
  | vector (width : Nat)
  | matrix (instruction : String) (shape : GemmShape) (warps : WarpGrid)
      (repeats : GemmShape)
  | scalar
  deriving DecidableEq, Repr

def Strategy.text : Strategy → String
  | bulk engine bytes => s!"bulk[{engine.name}, {bytes}B]"
  | vector width => s!"vector[{width}]"
  | matrix instruction _ warps repeats =>
      s!"mma[{instruction}, warps {warps.rows}x{warps.cols}, "
        ++ s!"repeats {repeats.m}x{repeats.n}x{repeats.k}]"
  | scalar => "scalar"

end TileProgram
