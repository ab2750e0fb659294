import TileProgram.Kernel.Basic

/-!
# Building kernels

A script declares tiles and issues operations; the operations issued inside a
pipelined block land in the body of its loop.  Operations are numbered in the
order in which they are complete, so a loop comes after all of its body.
Allocating an on-chip tile is itself an operation.
-/

namespace TileProgram

inductive Window where
  | full (tile : TileId)
  | region (region : Region)
  deriving Repr

inductive Call where
  | tile (name : String) (shape : Shape) (type : ElementType) (scope : Scope)
  | declare (tile : TileId) (layout : Layout)
  | shape (tile : TileId)
  | copy (src dst : Window) (width : Option Nat)
  /-- Issue an elementwise loop over variables named `p0`, `p1` and so on. -/
  | parallel (extents : Shape) (body : List Assign)
  | issue (op : TileOp)
  | rasterize (panelSize : Nat) (enable : Bool)
  deriving Repr

inductive Script where
  | done
  | call (call : Call) (rest : Script)
  | pipelined (var : String) (tripCount stages : Nat) (body rest : Script)
  deriving Inhabited, Repr

inductive Reply where
  | nothing
  | tile (id : TileId)
  | shape (shape : Shape)
  | op (id : OpId)
  deriving Repr

inductive Replies where
  | done
  | call (reply : Reply) (rest : Replies)
  | pipelined (id : OpId) (body rest : Replies)
  deriving Inhabited, Repr

def pointVar (dimension : Nat) : String := s!"p{dimension}"

namespace Kernel

def freshOp (k : Kernel) : Checked (OpId × Kernel) := do
  return (⟨k.nextOp⟩, { k with nextOp := ← Checked.word32 (k.nextOp + 1) })

def region (k : Kernel) : Window → Checked Region
  | .full tile => do return Region.full tile (← k.tile tile).shape
  | .region r => .ok r

def issue (k : Kernel) (op : TileOp) :
    Checked (Reply × Option Step × Kernel) := do
  let (id, k) ← k.freshOp
  return (.op id, some ⟨id, op, none⟩, k)

/-- Answer a call: the reply, the operation it issues and the tables after
it. -/
def answer (k : Kernel) : Call → Checked (Reply × Option Step × Kernel)
  | .tile name shape type scope => do
      let (id, k) ← k.addTile (.plain name shape type scope)
      if scope.isOnChip then
        let (op, k) ← k.freshOp
        return (.tile id, some ⟨op, .alloc id, none⟩, k)
      else return (.tile id, none, k)
  | .declare tile layout => do
      let _ ← k.tile tile
      return (.nothing, none, k.modifyTile tile fun t =>
        { t with declared := some layout })
  | .shape tile => do
      return (.shape (← k.tile tile).shape, none, k)
  | .copy src dst width => do
      k.issue (.copy (← k.region src) (← k.region dst) width)
  | .parallel extents body =>
      k.issue
        (.parallel ((List.range extents.length).map pointVar) extents body)
  | .issue op => k.issue op
  | .rasterize panelSize enable =>
      .ok (.nothing, none, { k with rasterization := some ⟨panelSize, enable⟩ })

end Kernel

namespace Script

/-- Run a script over the tables of a kernel: the body it issues, its answers
and the tables after it. -/
def run : Script → Kernel → Checked (Body × Replies × Kernel)
  | done, k => .ok (.done, .done, k)
  | call c rest, k => do
      let (reply, issued, k) ← k.answer c
      let (body, replies, k) ← rest.run k
      let body := match issued with
        | some s => .step s body
        | none => body
      return (body, .call reply replies, k)
  | pipelined var tripCount stages inner rest, k => do
      let (innerBody, innerReplies, k) ← inner.run k
      let (id, k) ← k.freshOp
      let (body, replies, k) ← rest.run k
      return (.loop ⟨id, var, tripCount, stages, none, none⟩ innerBody body,
        .pipelined id innerReplies replies, k)

def build (script : Script) (name : String) (grid threads : Dim3) :
    Checked (Kernel × Replies) := do
  let start := { Kernel.empty name with grid := grid, threads := threads }
  let (body, replies, k) ← script.run start
  return ({ k with body := body }, replies)

end Script

end TileProgram
