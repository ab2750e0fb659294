import TileProgram.Inference.Demand
import TileProgram.Layout.Injective

/-!
# Plans

The demands on a tile are resolved together where they agree.  Where no single
layout serves them all, the tile keeps one layout and every other group of uses
gets a twin of the tile with the layout it needs.
-/

namespace TileProgram

structure Twin where
  layout : Layout
  ops : List OpId
  deriving DecidableEq, Repr

structure TilePlan where
  layout : Layout
  twins : List Twin
  warnings : List Diagnostic
  deriving DecidableEq, Repr

namespace Inference

/-- Patterns of each operation, operations in order of first use. -/
def patternsByOp (uses : List TileUse) : List (OpId × List AccessPattern) :=
  let wanted := uses.filterMap fun u =>
    match u.demand with
    | .pattern p => some (u.op, p)
    | _ => none
  (wanted.map (·.1)).eraseDups.map fun op =>
    (op, (wanted.filter (·.1 == op)).map (·.2))

/-- A group of operations under one layout, and the operations left over. -/
structure Grouping where
  patterns : List AccessPattern
  members : List OpId
  layout : Option Layout
  left : List (OpId × List AccessPattern)

/-- Take an operation into the group if a layout still serves all of it. -/
def Grouping.extend
    (req : LayoutRequest) (target : Target) (g : Grouping)
    (op : OpId × List AccessPattern) : Pass LayoutError Grouping :=
  let trial := g.patterns ++ op.2
  match req.resolve trial target with
  | .ok l =>
      return { g with
        patterns := trial
        members := g.members ++ [op.1]
        layout := some l }
  | .error (.error (.noConflictFree tile patterns best degree)) =>
      if g.members.isEmpty then
        Pass.fail (.noConflictFree tile patterns best degree)
      else return { g with left := g.left ++ [op] }
  | .error stop => .error stop

/-- Split operations into groups, each as large as program order allows.  The
first operation always joins, so `fuel` need not exceed the operations. -/
def groupOps (req : LayoutRequest) (target : Target) :
    Nat → List (OpId × List AccessPattern) → Pass LayoutError (List Twin)
  | _, [] => return []
  | 0, _ => return []
  | fuel + 1, ops => do
      let g ← ops.foldlM (Grouping.extend req target) ⟨[], [], none, []⟩
      let rest ← groupOps req target fuel g.left
      return match g.layout with
        | some l => ⟨l, g.members⟩ :: rest
        | none => rest

def planShared (req : LayoutRequest) (uses : List TileUse) (target : Target) :
    Pass LayoutError TilePlan :=
  let ops := patternsByOp uses
  match req.resolve (ops.flatMap (·.2)) target with
  | .ok l => return ⟨l, [], []⟩
  | .error (.error (.noConflictFree ..)) => do
      match ← groupOps req target ops.length ops with
      | [] => return ⟨Layout.rowMajor req.shape, [], []⟩
      | first :: twins => return ⟨first.layout, twins, []⟩
  | .error stop => .error stop

/-- Layout that a use of a register tile needs instead of the layout at hand,
whose runs have length `run`. -/
def wantedInstead?
    (req : LayoutRequest) (layout : Layout) (run : Nat) (target : Target) :
    Demand → Pass LayoutError (Option Layout)
  | .free => return none
  | .vector width =>
      if width ≤ 1 ∨ run % width = 0 then return none
      else return some (← req.resolve [.rowMajor width] target)
  | .pattern p => do
      let exact ← req.resolve [p] target
      return if exact = layout then none else some exact

def addTwin (layout : Layout) (op : OpId) : List Twin → List Twin
  | [] => [⟨layout, [op]⟩]
  | t :: rest =>
      if t.layout = layout then
        (if t.ops.contains op then t else { t with ops := t.ops ++ [op] })
          :: rest
      else t :: addTwin layout op rest

/-- Keep every operation in its first group only, and no empty group. -/
def firstGroups : List OpId → List Twin → List Twin
  | _, [] => []
  | seen, t :: rest =>
      let ops := t.ops.filter (!seen.contains ·)
      let rest := firstGroups (seen ++ ops) rest
      if ops.isEmpty then rest else { t with ops := ops } :: rest

def planFragment
    (req : LayoutRequest) (layout : Layout) (uses : List TileUse)
    (target : Target) : Pass LayoutError TilePlan := do
  let run ← layout.contiguousRun
  let twins ← uses.foldlM (fun twins u => do
    match ← wantedInstead? req layout run target u.demand with
    | none => return twins
    | some wanted => return addTwin wanted u.op twins) []
  return ⟨layout, firstGroups [] twins, []⟩

/-- First exact layout demanded of a register tile, else its widest access. -/
def fragmentPattern (uses : List TileUse) : AccessPattern :=
  let exact := uses.findSome? fun u =>
    match u.demand with
    | .pattern (.operand f) => some f
    | _ => none
  match exact with
  | some f => .operand f
  | none =>
      let widths := uses.filterMap fun u =>
        match u.demand with
        | .vector width => some width
        | _ => none
      .rowMajor (widths.max?.getD 1)

/-- A declared layout has the shape of its tile, suits its scope and keeps its
elements apart. -/
def checkDeclared (t : Tile) (declared : Layout) : Pass LayoutError Unit := do
  let refuse (reason : String) : Pass LayoutError Unit :=
    Pass.fail (.invalidDeclared t.name reason)
  if declared.shape ≠ t.shape then
    refuse
      s!"layout shape {declared.shape.text} does not match tile shape {t.shape.text}"
  else if declared.isFragment ≠ (t.scope == .fragment) then
    refuse s!"{declared.text} layout cannot describe a {t.scope.name} tile"
  else if !(← declared.isInjective) then
    refuse s!"{declared.text} maps two elements to the same slot"

def conflictWarnings (t : Tile) (declared : Layout) (target : Target) :
    List TileUse → Checked (List Diagnostic)
  | [] => return []
  | u :: rest => do
      let here ← match u.demand with
        | .pattern p => do
            let degree ← declared.conflictDegree p t.type.bytes target
            if 1 < degree then
              let message :=
                s!"declared layout {declared.text} of tile '{t.name}' " ++
                  s!"has {degree}-way bank conflicts"
              pure [(Diagnostic.warning message (.tile t.name)).withNote
                s!"access by op {u.op.text}: {p.text}"]
            else pure []
        | _ => pure []
      return here ++ (← conflictWarnings t declared target rest)

def planUsed (k : Kernel) (t : Tile) (uses : List TileUse) (target : Target) :
    Pass LayoutError TilePlan := do
  let req : LayoutRequest := ⟨t.name, t.shape, t.type, t.scope, ← k.numThreads⟩
  match t.scope, t.declared with
  | .global, some declared =>
      if declared.kind ≠ .rowMajor then
        Pass.fail (.invalidDeclared t.name "global tiles are always row-major")
      else return ⟨Layout.rowMajor t.shape, [], []⟩
  | .global, none => return ⟨Layout.rowMajor t.shape, [], []⟩
  | .shared, some declared =>
      checkDeclared t declared
      return ⟨declared, [], ← conflictWarnings t declared target uses⟩
  | .shared, none => planShared req uses target
  | .fragment, some declared =>
      checkDeclared t declared
      planFragment req declared uses target
  | .fragment, none =>
      let layout ← req.resolve [fragmentPattern uses] target
      planFragment req layout uses target

/-- Plan of any tile.  A global tile may be unused, an on-chip tile may not. -/
def planTile (k : Kernel) (t : Tile) (uses : List TileUse) (target : Target) :
    Pass InferenceError TilePlan :=
  if uses.isEmpty then
    if t.scope = .global then
      let warning := Diagnostic.warning s!"global tile '{t.name}' is never used"
        (.tile t.name)
      return ⟨Layout.rowMajor t.shape, [], [warning]⟩
    else Pass.fail (.noAccessPattern t.name)
  else Pass.within .layout (planUsed k t uses target)

end Inference

end TileProgram
