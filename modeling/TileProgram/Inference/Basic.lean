import TileProgram.Inference.Plan

/-!
# Layout inference

Inference gives every tile a layout.  An operation that needs another layout
than the one its tile keeps is redirected to a twin of the tile; relayouts
before and after it carry the contents over and back.
-/

namespace TileProgram

structure RelayoutRecord where
  op : OpId
  serves : OpId
  src : TileId
  dst : TileId
  deriving DecidableEq, Repr

structure Inferred where
  kernel : Kernel
  diagnostics : List Diagnostic
  relayouts : List RelayoutRecord

/-- An operation sees `twin` in place of `tile`. -/
structure Redirect where
  op : OpId
  tile : TileId
  twin : TileId
  read : Bool
  write : Bool
  deriving DecidableEq, Repr

namespace Inference

structure PlannedTile where
  id : TileId
  tile : Tile
  uses : List TileUse
  plan : TilePlan

def planEntry
    (k : Kernel) (uses : List TileUse) (target : Target) (entry : Tile × Nat) :
    Pass InferenceError PlannedTile := do
  let own := uses.filter (·.tile == ⟨entry.2⟩)
  return ⟨⟨entry.2⟩, entry.1, own, ← planTile k entry.1 own target⟩

/-- Plan tiles in turn; the twins of each are appended to a table of `size`
tiles. -/
def planFrom (k : Kernel) (uses : List TileUse) (target : Target) :
    Nat → List (Tile × Nat) → Pass InferenceError (List PlannedTile)
  | _, [] => return []
  | size, entry :: rest => do
      let planned ← planEntry k uses target entry
      let size ← Kernel.grownTable size planned.plan.twins.length
      return planned :: (← planFrom k uses target size rest)

def planTiles (k : Kernel) (uses : List TileUse) (target : Target) :
    Pass InferenceError (List PlannedTile) :=
  planFrom k uses target k.tiles.size k.tiles.toList.zipIdx

namespace PlannedTile

def resolved (p : PlannedTile) : Tile :=
  { p.tile with layout := some p.plan.layout }

def twinTiles (p : PlannedTile) : List Tile :=
  p.plan.twins.zipIdx.map fun (twin, n) =>
    { Tile.plain s!"{p.tile.name}_relayout{n}" p.tile.shape p.tile.type
      p.tile.scope with
      layout := some twin.layout }

def redirects (p : PlannedTile) (first : Nat) : List Redirect :=
  p.plan.twins.zipIdx.flatMap fun (twin, n) =>
    twin.ops.map fun op =>
      let own := p.uses.filter (·.op == op)
      ⟨op, p.id, ⟨first + n⟩, own.any (·.read), own.any (·.write)⟩

end PlannedTile

def allRedirects : Nat → List PlannedTile → List Redirect
  | _, [] => []
  | size, p :: rest =>
      p.redirects size ++ allRedirects (size + p.plan.twins.length) rest

structure Spliced where
  op : TileOp
  before : List Step
  after : List Step
  records : List RelayoutRecord
  nextOp : Nat

/-- Redirect an operation, with a relayout before it if it reads the tile and
one after it if it writes the tile. -/
def Spliced.redirect (s : Spliced) (r : Redirect) : Checked Spliced := do
  let s := { s with op := s.op.replaceTile r.tile r.twin }
  let s ← if r.read then do
      let id : OpId := ⟨s.nextOp⟩
      pure { s with
        before := s.before ++ [⟨id, .relayout r.tile r.twin, none⟩]
        records := s.records ++ [⟨id, r.op, r.tile, r.twin⟩]
        nextOp := ← Checked.word32 (s.nextOp + 1) }
    else pure s
  if r.write then do
    let id : OpId := ⟨s.nextOp⟩
    return { s with
      after := s.after ++ [⟨id, .relayout r.twin r.tile, none⟩]
      records := s.records ++ [⟨id, r.op, r.twin, r.tile⟩]
      nextOp := ← Checked.word32 (s.nextOp + 1) }
  else return s

def prepend (steps : List Step) (body : Body) : Body :=
  steps.foldr Body.step body

/-- Insert the relayouts of a body: the new body, the records by their numbers
and the next operation number. -/
def splice (redirects : List Redirect) :
    Body → Nat → Checked (Body × List RelayoutRecord × Nat)
  | .done, next => .ok (.done, [], next)
  | .step s rest, next => do
      let own := redirects.filter (·.op == s.id)
      let spliced ← own.foldlM Spliced.redirect ⟨s.op, [], [], [], next⟩
      let (rest, records, next) ← splice redirects rest spliced.nextOp
      let body := prepend spliced.before
        (.step { s with op := spliced.op } (prepend spliced.after rest))
      return (body, spliced.records ++ records, next)
  | .loop head body rest, next => do
      let (body, inner, next) ← splice redirects body next
      let (rest, records, next) ← splice redirects rest next
      return (.loop head body rest, inner ++ records, next)

def layoutNote (t : Tile) : String := (t.layout.map (·.text)).getD "?"

def relayoutWarning (k : Kernel) (r : RelayoutRecord) : Checked Diagnostic := do
  let src ← k.tile r.src
  let dst ← k.tile r.dst
  let message :=
    s!"inserted relayout {r.op.text} from '{src.name}' to '{dst.name}' " ++
      s!"for op {r.serves.text}"
  return (Diagnostic.warning message (.op r.op)).withNote
    s!"{layoutNote src} -> {layoutNote dst}"

end Inference

open Inference in
def Kernel.infer (k : Kernel) (target : Target) :
    Pass InferenceError Inferred := do
  checkReferences k k.ops
  let k ← reserveOpIds k
  checkShapes k
  let planned ← planTiles k (← uses k target) target
  let redirects := allRedirects k.tiles.size planned
  let (body, records, next) ← splice redirects k.body k.nextOp
  let k := { k with
    tiles := (planned.map (·.resolved) ++ planned.flatMap (·.twinTiles)).toArray
    body := body
    nextOp := next }
  let inserted ← (records.mapM (relayoutWarning k) : Checked _)
  return ⟨k, planned.flatMap (·.plan.warnings) ++ inserted, records⟩

end TileProgram
