import TileProgram.Layout.Run

/-!
# Access patterns

A pattern says how the lanes of a warp walk a tile.  Shared memory serves a
pattern in phases: the accesses of one phase are served together.
-/

namespace TileProgram

inductive AccessPattern where
  /-- Lanes walk the tile in row-major order, `vector` elements each. -/
  | rowMajor (vector : Nat)
  /-- Each lane owns a row; the warp touches one column at a time. -/
  | columnMajor
  /-- An operand of a matrix instruction, fetched from shared memory as row
  chunks of sixteen bytes, several rows a phase. -/
  | operand (registers : RegisterLayout)
  deriving DecidableEq, Repr

/-- What one lane touches: `width` elements of a row from a column on. -/
structure LaneAccess where
  row : Nat
  col : Nat
  width : Nat
  deriving DecidableEq, Repr

namespace AccessPattern

def text : AccessPattern → String
  | rowMajor vector => s!"row-major x{vector}"
  | columnMajor => "column-major"
  | operand f => s!"operand {f.text}"

/-- The numbers below `total` in groups of `size`; the last group may be
shorter. -/
def groups (size total : Nat) : List (List Nat) :=
  (List.range (ceilDiv total size)).map fun n =>
    List.range' (n * size) (min size (total - n * size))

def bands (height rows : Nat) : Checked (List (List Nat)) := do
  if 0 < rows then
    let _ ← Checked.word32 (ceilDiv rows height * height)
  return groups height rows

def rowMajorAccess (cols v chunk : Nat) : LaneAccess :=
  ⟨low32 (chunk * v / cols), low32 (chunk * v % cols), v⟩

def phases
    (p : AccessPattern) (rows cols elementBytes : Nat) (target : Target) :
    Checked (List (List LaneAccess)) := do
  let line ← target.shared.lineBytes
  let warp := max 1 target.warpSize
  match p with
  | rowMajor vector =>
      let v := fitVector vector cols
      let bytes ← Checked.word32 (v * elementBytes)
      let lanes := min warp (max 1 (line / max 1 bytes))
      return (groups lanes (rows * (cols / v))).map fun group =>
        group.map (rowMajorAccess cols v)
  | columnMajor =>
      let lanes := min warp (max 1 (line / max 1 elementBytes))
      if cols = 0 then return []
      let bands ← bands lanes rows
      return (List.range cols).flatMap fun c =>
        bands.map fun band => band.map fun r => ⟨r, c, 1⟩
  | operand _ =>
      let v := fitVector (max 1 (Swizzle.chunkBytes / max 1 elementBytes)) cols
      let bands ← bands (max 1 (line / Swizzle.chunkBytes)) rows
      return bands.flatMap fun band =>
        (List.range (ceilDiv cols v)).map fun i =>
          band.map fun r => ⟨r, i * v, v⟩

end AccessPattern

end TileProgram
