import TileProgram.Kernel.Effect

/-!
# Dependences in a loop body

Two operations of a body depend on each other through a tile: a flow dependence
from a write to a read, an anti dependence from a read to a write, an output
dependence between writes.  Dependences within an iteration follow the order of
the body.  A carried dependence leads from a write to a read of the next
iteration that no operation before the read shields from it.
-/

namespace TileProgram

inductive DependenceKind where
  | flow
  | anti
  | output
  deriving DecidableEq, Repr

structure Dependence where
  source : OpId
  sink : OpId
  kind : DependenceKind
  tile : TileId
  carried : Bool
  deriving DecidableEq, Repr

namespace Dependence

structure Effect where
  op : OpId
  reads : List TileId
  writes : List TileId
  defines : List TileId
  deriving DecidableEq, Repr

def effect (k : Kernel) (op : Op) : Checked Effect := do
  return ⟨op.id, op.reads, op.writes, ← op.defines k⟩

/-- Dependences of `b` on the earlier `a` in the same iteration. -/
def within (a b : Effect) : List Dependence :=
  let ofWrite (t : TileId) : List Dependence :=
    (if b.reads.contains t then [⟨a.op, b.op, .flow, t, false⟩] else [])
      ++ (if b.writes.contains t then [⟨a.op, b.op, .output, t, false⟩] else [])
  let ofRead (t : TileId) : List Dependence :=
    if b.writes.contains t then [⟨a.op, b.op, .anti, t, false⟩] else []
  a.writes.flatMap ofWrite ++ a.reads.flatMap ofRead

/-- Dependences of `b` on `a` of the iteration before, where `before` are the
operations that stand before `b`. -/
def across (before : List Effect) (a b : Effect) : List Dependence :=
  a.writes.flatMap fun t =>
    let shielded := before.any (·.defines.contains t)
    if b.reads.contains t && !shielded then
      [⟨a.op, b.op, .flow, t, true⟩]
    else []

def among (effects : List Effect) : List Dependence :=
  effects.zipIdx.flatMap fun (a, i) =>
    effects.zipIdx.flatMap fun (b, j) =>
      if i < j then within a b else across (effects.take j) a b

def ofBody (k : Kernel) (body : List Op) : Checked (List Dependence) := do
  return among (← body.mapM (effect k))

def grow (deps : List Dependence) (reached : List OpId) : List OpId :=
  let next := deps.filterMap fun d =>
    if !d.carried && reached.contains d.source then some d.sink else none
  (reached ++ next).eraseDups

def reach (deps : List Dependence) : Nat → List OpId → List OpId
  | 0, reached => reached
  | rounds + 1, reached =>
      let larger := grow deps reached
      if larger.length = reached.length then reached
        else reach deps rounds larger

/-- Whether `sink` depends on another operation of the same iteration, directly
or through others. -/
def dependsOn (deps : List Dependence) (source sink : OpId) : Bool :=
  source != sink && (reach deps deps.length [source]).contains sink

end Dependence

end TileProgram
