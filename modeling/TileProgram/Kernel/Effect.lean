import TileProgram.Kernel.Basic

/-!
# Effects of operations

Which tiles an operation reads, writes and overwrites completely.  A loop reads
and writes what its body does.
-/

namespace TileProgram

namespace TileOp

def reads : TileOp → List TileId
  | alloc _ | fill .. => []
  | copy src _ _ => [src.tile]
  | parallel _ _ body =>
      body.flatMap fun assign => assign.value.loads.map (·.tile)
  | gemm a b c _ _ clear => if clear then [a, b] else [a, b, c]
  | reduce src dst _ _ clear => if clear then [src] else [src, dst]
  | relayout src _ => [src]

def writes : TileOp → List TileId
  | alloc _ => []
  | copy _ dst _ => [dst.tile]
  | fill tile _ => [tile]
  | parallel _ _ body => body.map (·.dst.tile)
  | gemm _ _ c _ _ _ => [c]
  | reduce _ dst _ _ _ => [dst]
  | relayout _ dst => [dst]

def mapTiles (f : TileId → TileId) : TileOp → TileOp
  | alloc tile => alloc (f tile)
  | copy src dst width =>
      copy { src with tile := f src.tile } { dst with tile := f dst.tile } width
  | fill tile value => fill (f tile) value
  | parallel vars extents body =>
      parallel vars extents (body.map fun assign =>
        ⟨{ assign.dst with tile := f assign.dst.tile },
          assign.value.mapTiles f⟩)
  | gemm a b c transposeA transposeB clear =>
      gemm (f a) (f b) (f c) transposeA transposeB clear
  | reduce src dst axis kind clear => reduce (f src) (f dst) axis kind clear
  | relayout src dst => relayout (f src) (f dst)

def replaceTile (source replacement : TileId) (op : TileOp) : TileOp :=
  op.mapTiles fun t => if t = source then replacement else t

end TileOp

namespace Body

def reads : Body → List TileId
  | done => []
  | step s rest => s.op.reads ++ rest.reads
  | loop _ body rest => body.reads ++ rest.reads

def writes : Body → List TileId
  | done => []
  | step s rest => s.op.writes ++ rest.writes
  | loop _ body rest => body.writes ++ rest.writes

end Body

namespace Op

def reads : Op → List TileId
  | step s => s.op.reads.eraseDups
  | loop _ body => body.reads.eraseDups

def writes : Op → List TileId
  | step s => s.op.writes.eraseDups
  | loop _ body => body.writes.eraseDups

/-- Tiles mentioned, each once; an allocation mentions its tile. -/
def mentions (op : Op) : List TileId :=
  let allocated := match op with
    | step ⟨_, .alloc tile, _⟩ => [tile]
    | _ => []
  (op.reads ++ op.writes ++ allocated).eraseDups

/-- Tiles of which no earlier element survives the operation. -/
def defines (k : Kernel) : Op → Checked (List TileId)
  | step ⟨_, .copy _ dst _, _⟩ => do
      return if dst.covers (← k.tile dst.tile).shape then [dst.tile] else []
  | step ⟨_, .fill tile _, _⟩ => .ok [tile]
  | step ⟨_, .gemm _ _ c _ _ true, _⟩ => .ok [c]
  | step ⟨_, .reduce _ dst _ _ true, _⟩ => .ok [dst]
  | step ⟨_, .relayout _ dst, _⟩ => .ok [dst]
  | _ => .ok []

end Op

end TileProgram
