import TileProgram.Format.Kernel
import TileProgram.Kernel.Matmul

/-!
# Configurations of the reference kernel as JSON
-/

namespace TileProgram

def MatmulConfig.decode : Decoder MatmulConfig := fun form depth j => do
  let f ← Fields.ofJson?
    ["m", "n", "k", "block_m", "block_n", "block_k", "stages", "threads",
      "dtype", "accum", "transpose_b", "rasterization"] form depth j
  return {
    m := ← f.required "m" Decoder.word32
    n := ← f.required "n" Decoder.word32
    k := ← f.required "k" Decoder.word32
    blockM := ← f.required "block_m" Decoder.word32
    blockN := ← f.required "block_n" Decoder.word32
    blockK := ← f.required "block_k" Decoder.word32
    stages := ← f.required "stages" Decoder.word32
    threads := ← f.required "threads" Decoder.word32
    type := ← f.required "dtype" ElementType.decode
    accum := ← f.required "accum" ElementType.decode
    transposeB := ← f.required "transpose_b" Decoder.bool
    rasterization := ← f.required "rasterization" Decoder.bool }

end TileProgram
