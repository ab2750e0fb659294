import TileProgram.Counted
import TileProgram.Kernel.Basic

/-!
# Launch order

Without rasterization the blocks of a plane start row by row.  With it they
start panel by panel: a panel is a few columns wide, its rows are walked one
after another, and successive panels walk the rows in opposite directions.
-/

namespace TileProgram
namespace LaunchOrder

/-- Column and row of a block in a plane of `gx` columns and `gy` rows that is
walked in panels. -/
def inPanels (linear gx gy panelSize : Nat) : Checked (Nat × Nat) := do
  let columns := max 1 gx
  let rows := max 1 gy
  let panel := min columns (max 1 panelSize)
  let fullPanels := columns / panel
  let perPanel := panel * rows
  let index := linear / perPanel
  let within := linear % perPanel
  let width :=
    if index < fullPanels then panel else columns - fullPanels * panel
  let x ← Checked.word64 (index * panel + (← Checked.mod within width))
  let y := within / width
  let y ← if index % 2 = 1 then Checked.sub (rows - 1) y else pure y
  return (low32 x, low32 y)

def plane (k : Kernel) : Nat := k.grid.x * k.grid.y

def block (k : Kernel) (n : Nat) : Checked Dim3 := do
  let linear := n % plane k
  let z := n / plane k
  let inRows := (linear % k.grid.x, linear / k.grid.x)
  let (x, y) ← match k.rasterization with
    | some r =>
        if r.enable && 0 < r.panelSize then
          inPanels linear k.grid.x k.grid.y r.panelSize
        else pure inRows
    | none => pure inRows
  return ⟨x, y, z⟩

def upTo (k : Kernel) (count : Nat) : Nat := min count (plane k * k.grid.z)

def first (k : Kernel) (count : Nat) : Checked (List Dim3) :=
  Counted.mapM (block k) 0 (upTo k count)

end LaunchOrder
end TileProgram
