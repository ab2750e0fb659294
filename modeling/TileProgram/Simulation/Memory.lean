import TileProgram.Simulation.Element

/-!
# Memory

The contents of every tile, in the order of linear indices.  Layouts keep
elements apart and so have no effect on the values.
-/

namespace TileProgram

structure Memory (α : Type) where
  tiles : Array (Array α)
  deriving Repr

structure Write (α : Type) where
  tile : TileId
  index : Nat
  value : α
  deriving Repr

def Write.bytes : Nat := 24

namespace Memory

variable {α : Type}

def tile (m : Memory α) (id : TileId) : Checked (Array α) :=
  match m.tiles[id.index]? with
  | some data => .ok data
  | none => .error .outOfRange

def read (m : Memory α) (id : TileId) (index : Nat) : Checked α := do
  match (← m.tile id)[index]? with
  | some value => .ok value
  | none => .error .outOfRange

/-- Write one element; what is outside its tile is dropped. -/
def write (m : Memory α) (w : Write α) : Memory α :=
  ⟨m.tiles.modify w.tile.index fun data => data.setIfInBounds w.index w.value⟩

def commit (m : Memory α) (writes : List (Write α)) : Checked (Memory α) :=
  if writes.all fun w => w.tile.index < m.tiles.size then
    .ok (writes.foldl write m)
  else .error .outOfRange

def replace (m : Memory α) (id : TileId) (data : Array α) :
    Checked (Memory α) :=
  if id.index < m.tiles.size then .ok ⟨m.tiles.setIfInBounds id.index data⟩
  else .error .outOfRange

end Memory

end TileProgram
