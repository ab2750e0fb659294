import TileProgram.Kernel.Basic

/-!
# The reference kernel

A block-tiled matrix product.  Block `(bx, by)` owns the output tile at row
`by · blockM` and column `bx · blockN` and walks the depth in steps of `blockK`
through a pipelined loop.
-/

namespace TileProgram

structure MatmulConfig where
  m : Nat
  n : Nat
  k : Nat
  blockM : Nat
  blockN : Nat
  blockK : Nat
  stages : Nat
  threads : Nat
  type : ElementType
  accum : ElementType
  /-- The right operand is stored by columns. -/
  transposeB : Bool
  rasterization : Bool
  deriving DecidableEq, Repr

namespace MatmulConfig

def default : MatmulConfig where
  m := 1024
  n := 1024
  k := 1024
  blockM := 128
  blockN := 128
  blockK := 32
  stages := 3
  threads := 128
  type := .f16
  accum := .f32
  transposeB := true
  rasterization := true

def row (cfg : MatmulConfig) : Affine := ⟨0, [(.block 1, cfg.blockM)]⟩

def col (cfg : MatmulConfig) : Affine := ⟨0, [(.block 0, cfg.blockN)]⟩

def depth (cfg : MatmulConfig) : Affine := ⟨0, [(.loop "k", cfg.blockK)]⟩

def storedB {α : Type} (cfg : MatmulConfig) (ofDepth ofCols : α) : List α :=
  if cfg.transposeB then [ofCols, ofDepth] else [ofDepth, ofCols]

def tiles (cfg : MatmulConfig) : List Tile :=
  [.plain "A" [cfg.m, cfg.k] cfg.type .global,
    .plain "B" (cfg.storedB cfg.k cfg.n) cfg.type .global,
    .plain "C" [cfg.m, cfg.n] cfg.type .global,
    .plain "A_shared" [cfg.blockM, cfg.blockK] cfg.type .shared,
    .plain "B_shared" (cfg.storedB cfg.blockK cfg.blockN) cfg.type .shared,
    .plain "C_local" [cfg.blockM, cfg.blockN] cfg.accum .fragment]

def iteration (cfg : MatmulConfig) : Body :=
  let shapeA := [cfg.blockM, cfg.blockK]
  let shapeB := cfg.storedB cfg.blockK cfg.blockN
  let loadA : TileOp :=
    .copy ⟨⟨0⟩, [cfg.row, cfg.depth], shapeA⟩ (Region.full ⟨3⟩ shapeA) none
  let loadB : TileOp :=
    .copy ⟨⟨1⟩, cfg.storedB cfg.depth cfg.col, shapeB⟩
      (Region.full ⟨4⟩ shapeB) none
  .step ⟨⟨4⟩, loadA, none⟩
    (.step ⟨⟨5⟩, loadB, none⟩
      (.step ⟨⟨6⟩, .gemm ⟨3⟩ ⟨4⟩ ⟨5⟩ false cfg.transposeB false, none⟩ .done))

def body (cfg : MatmulConfig) : Body :=
  let shapeC := [cfg.blockM, cfg.blockN]
  let store : TileOp :=
    .copy (Region.full ⟨5⟩ shapeC) ⟨⟨2⟩, [cfg.row, cfg.col], shapeC⟩ none
  let head : Loop :=
    { id := ⟨7⟩
      var := "k"
      tripCount := ceilDiv cfg.k cfg.blockK
      stages := cfg.stages
      schedule := none
      strategy := none }
  .step ⟨⟨0⟩, .alloc ⟨3⟩, none⟩
    (.step ⟨⟨1⟩, .alloc ⟨4⟩, none⟩
      (.step ⟨⟨2⟩, .alloc ⟨5⟩, none⟩
        (.step ⟨⟨3⟩, .fill ⟨5⟩ 0, none⟩
          (.loop head cfg.iteration
            (.step ⟨⟨8⟩, store, none⟩ .done)))))

def kernel (cfg : MatmulConfig) : Kernel where
  name := "matmul"
  grid := ⟨ceilDiv cfg.n cfg.blockN, ceilDiv cfg.m cfg.blockM, 1⟩
  threads := ⟨cfg.threads, 1, 1⟩
  tiles := cfg.tiles.toArray
  body := cfg.body
  rasterization := some ⟨10, cfg.rasterization⟩
  nextOp := 9

end MatmulConfig

end TileProgram
