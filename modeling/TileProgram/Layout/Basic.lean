import TileProgram.Shape
import TileProgram.Layout.Swizzle
import TileProgram.Layout.Register

/-!
# Layouts

A layout sends the logical index of an element to the place where the element
is stored: an offset in memory, or a register of a thread.  Tiles of higher
rank are seen as rows and columns.
-/

namespace TileProgram

inductive LayoutKind where
  | rowMajor
  /-- Row-major with `pad` unused elements after every row. -/
  | padded (pad : Nat)
  | swizzled (swizzle : Swizzle)
  | fragment (registers : RegisterLayout)
  deriving DecidableEq, Repr

structure Layout where
  shape : Shape
  kind : LayoutKind
  deriving DecidableEq, Repr

inductive Slot where
  | offset (offset : Nat)
  | register (thread index : Nat)
  deriving DecidableEq, Repr, Hashable

/-- The slot right after another one: the next offset, or the next register of
the same thread. -/
def Slot.isSuccessor : Slot → Slot → Bool
  | offset a, offset b => b == a + 1
  | register s i, register t j => s == t && j == i + 1
  | _, _ => false

namespace Layout

def rowMajor (shape : Shape) : Layout := ⟨shape, .rowMajor⟩

def isFragment (l : Layout) : Bool :=
  match l.kind with
  | .fragment _ => true
  | _ => false

def slotAt (l : Layout) (r c : Nat) : Checked Slot :=
  match l.kind with
  | .rowMajor => .ok (.offset (r * l.shape.cols + c))
  | .padded pad => do
      return .offset (← Checked.word64 (r * (l.shape.cols + pad) + c))
  | .swizzled s => do
      return .offset (← s.apply (r * l.shape.cols + c))
  | .fragment f => do
      let (thread, index) ← f.slot (← l.shape.rows) l.shape.cols r c
      return .register thread index

/-- Row and column of an index tuple; missing extents count as one. -/
def position (l : Layout) (index : List Nat) : Checked (Nat × Nat) :=
  match index.getLast? with
  | none => .ok (0, 0)
  | some col => do
      let row ← index.dropLast.zipIdx.foldlM
        (fun row (ix, i) => Checked.word32 (row * l.shape[i]?.getD 1 + ix)) 0
      return (row, col)

def slot (l : Layout) (index : List Nat) : Checked Slot := do
  let (row, col) ← l.position index
  l.slotAt row col

def offset (l : Layout) (index : List Nat) : Checked (Option Nat) := do
  match ← l.slot index with
  | .offset o => return some o
  | .register .. => return none

def footprint (l : Layout) : Checked Nat :=
  match l.kind with
  | .rowMajor | .swizzled _ => l.shape.numel
  | .padded pad => do
      return (← l.shape.rows) * (← Checked.word32 (l.shape.cols + pad))
  | .fragment f => do
      let threads ← f.threads
      Checked.word64 (threads * (← f.localsPerThread (← l.shape.numel)))

def isWellFormed (l : Layout) : Checked Bool :=
  if l.shape.isDegenerate then .ok false
  else
    match l.kind with
    | .rowMajor | .padded _ => .ok true
    | .swizzled s => do
        if ← s.isWellFormed then
          return (← l.shape.numel) % (← s.period) == 0
        else return false
    | .fragment f => do
        f.fits (← l.shape.rows) l.shape.cols

def text (l : Layout) : String :=
  match l.kind with
  | .rowMajor => "row_major"
  | .padded pad => s!"padded(+{pad})"
  | .swizzled s => s!"swizzle<{s.bits},{s.base},{s.shift}>"
  | .fragment f => f.text

end Layout

end TileProgram
