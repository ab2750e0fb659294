/-!
# Identifiers

A tile is known by its place in the tile table of a kernel, an operation by a
number that no other operation of the kernel has.
-/

namespace TileProgram

structure TileId where
  index : Nat
  deriving DecidableEq, Repr

def TileId.text (id : TileId) : String := s!"t{id.index}"

structure OpId where
  number : Nat
  deriving DecidableEq, Hashable, Repr

def OpId.text (id : OpId) : String := s!"%{id.number}"

end TileProgram
