import TileProgram.Layout.Atom

/-!
# Register layouts

How the elements of a tile are spread over the registers of a block.  Either
the atoms of a matrix instruction are laid over a grid of warps and repeated
until they cover the tile, or the elements are dealt to the threads in
row-major order.
-/

namespace TileProgram

structure WarpGrid where
  rows : Nat
  cols : Nat
  deriving DecidableEq, Repr

inductive RegisterLayout where
  /-- Layout that a matrix instruction demands.  `replicas` counts the copies
  held across the block; `transposed` says that the tile is stored transposed
  relative to the operand. -/
  | operand (atom : Atom) (warps : WarpGrid) (replicas : Nat)
      (transposed : Bool)
  /-- Row-major elements dealt to `threads` threads in runs of `vector`. -/
  | striped (threads vector : Nat)
  deriving DecidableEq, Repr

namespace RegisterLayout

def threads : RegisterLayout → Checked Nat
  | operand atom warps _ _ =>
      Checked.word32 (warps.rows * warps.cols * atom.lanes)
  | striped threads _ => .ok threads

def slot (f : RegisterLayout) (rows cols r c : Nat) : Checked (Nat × Nat) :=
  match f with
  | operand atom warps _ transposed => do
      let (r, c, rows, cols) :=
        if transposed then (c, r, cols, rows) else (r, c, rows, cols)
      let atomRows ← atom.rows
      let repeatRows :=
        max 1 (← Checked.div rows (← Checked.word32 (atomRows * warps.rows)))
      let atomCols ← atom.cols
      let repeatCols :=
        max 1 (← Checked.div cols (← Checked.word32 (atomCols * warps.cols)))
      let (blockRow, blockCol) := (r / atomRows, c / atomCols)
      let warp ← Checked.word32
        (blockRow / repeatRows * warps.cols + blockCol / repeatCols)
      let turn ← Checked.word32
        (blockRow % repeatRows * repeatCols + blockCol % repeatCols)
      let (lane, register) ← atom.slot (r % atomRows) (c % atomCols)
      let thread ← Checked.word32 (warp * atom.lanes + lane)
      return (thread, ← Checked.word32 (turn * (← atom.locals) + register))
  | striped threads vector => do
      let e ← Checked.word32 (r * cols + c)
      let chunk ← Checked.div e vector
      let thread ← Checked.mod chunk threads
      return (thread, chunk / threads * vector + e % vector)

def localsPerThread (f : RegisterLayout) (numel : Nat) : Checked Nat := do
  let threads := max 1 (← f.threads)
  match f with
  | operand .. => Checked.ceilDiv numel threads
  | striped _ vector => do
      Checked.word64 ((← Checked.ceilDiv numel (threads * vector)) * vector)

/-- The atoms tile `rows` by `cols` exactly, or the runs divide the rows. -/
def fits (f : RegisterLayout) (rows cols : Nat) : Checked Bool :=
  match f with
  | operand atom warps _ transposed => do
      let (rows, cols) := if transposed then (cols, rows) else (rows, cols)
      if (← Checked.mod rows
          (← Checked.word32 ((← atom.rows) * warps.rows))) = 0 then
        return (← Checked.mod cols
          (← Checked.word32 ((← atom.cols) * warps.cols))) == 0
      else return false
  | striped threads vector =>
      .ok (0 < threads && 0 < vector && cols % vector == 0)

def text : RegisterLayout → String
  | operand atom warps replicas transposed =>
      let copies := if 1 < replicas then s!" x{replicas}" else ""
      let turned := if transposed then " T" else ""
      s!"fragment({atom.text} warps={warps.rows}x{warps.cols}{copies}{turned})"
  | striped threads vector => s!"striped(threads={threads}, vector={vector})"

end RegisterLayout

end TileProgram
