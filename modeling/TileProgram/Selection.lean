import TileProgram.Gemm
import TileProgram.Layout.Run

/-!
# Selection

Selection picks the hardware path of each operation from the layouts of its
tiles: a matrix instruction for a product, the bulk engine for a large and
contiguous copy between global and shared memory, else the widest vector access
that the layouts allow, else single elements.
-/

namespace TileProgram

inductive SelectionError where
  | layoutMismatch (op : OpId) (tile requirement : String)
  deriving DecidableEq, Repr

namespace SelectionError

def message : SelectionError → String
  | layoutMismatch op tile requirement =>
      s!"op {op.text}: tile '{tile}' does not satisfy {requirement}"

def diagnostic (e : SelectionError) : Diagnostic :=
  match e with
  | layoutMismatch op _ _ => Diagnostic.error e.message (.op op)

end SelectionError

namespace Selection

/-- Width `w` divides the innermost extent and the runs of every layout. -/
def fits (inner : Nat) (layouts : List Layout) (w : Nat) : Checked Bool := do
  if inner % w ≠ 0 then return false
  Checked.all (fun l => return (← l.contiguousRun) % w == 0) layouts

def halveToFit (inner : Nat) (layouts : List Layout) (w : Nat) :
    Checked Nat := do
  if w ≤ 1 then return w
  if ← fits inner layouts w then return w
  halveToFit inner layouts (w / 2)
termination_by w

/-- Widest vector access, starting from the natural width of the leading
type. -/
def vector
    (target : Target) (leading : ElementType) (inner : Nat)
    (layouts : List Layout) : Checked Strategy := do
  let width ← halveToFit inner layouts (target.vectorElements leading)
  return if 1 < width then .vector width else .scalar

/-- The innermost variable steps the last index by one and nothing else. -/
def unitStride (inner : String) (indices : List Affine) : Checked Bool :=
  match indices.getLast? with
  | none => .ok true
  | some last => do
      if (← last.coefficient inner) ≠ 1 then return false
      Checked.all (fun ix => return !(← ix.dependsOn inner)) indices.dropLast

section

variable (k : Kernel) (target : Target) (op : OpId)

def mismatch {α : Type} (tile : TileId) (requirement : String) :
    Pass SelectionError α := do
  let t ← k.tile tile
  Pass.fail (.layoutMismatch op t.name requirement)

def layoutOf (tile : TileId) : Pass SelectionError Layout := do
  let t ← k.tile tile
  match t.layout, t.scope with
  | some l, _ => return l
  | none, .global => return Layout.rowMajor t.shape
  | none, _ => mismatch k op tile "a resolved layout"

def vectorFor (leading : TileId) (inner : Nat) (layouts : List Layout) :
    Pass SelectionError Strategy := do
  let t ← k.tile leading
  vector target t.type inner layouts

def rowBytes (r : Region) : Checked Nat := do
  let t ← k.tile r.tile
  Checked.word32 (r.extents.getLast?.getD 1 * t.type.bytes)

def bulkReady (l : Layout) (elementBytes : Nat) : Checked Bool :=
  match l.kind with
  | .rowMajor => .ok true
  | .swizzled s => s.isHardwareMode elementBytes
  | _ => .ok false

/-- Engine for a window of a shared tile.  Asynchronous copies by threads only
load, and only whole chunks. -/
def bulkEngine?
    (bulk : BulkCopy) (l : Layout) (loading : Bool) (elementBytes : Nat) :
    Checked (Option BulkEngine) := do
  let ready ← bulkReady l elementBytes
  if bulk.engine = .tma ∧ ready then return some .tma
  if !loading then return none
  let run ← Checked.word32 ((← l.contiguousRun) * elementBytes)
  return if Swizzle.chunkBytes ≤ run then some .cpAsync else none

/-- Bulk copy between global and shared memory, if an engine can do it.  Every
row of the windows moves in whole chunks. -/
def bulk? (src dst : Region) (srcLayout dstLayout : Layout) :
    Checked (Option Strategy) := do
  let some bulk := target.bulkCopy | return none
  let ts ← k.tile src.tile
  let td ← k.tile dst.tile
  let side := match ts.scope, td.scope with
    | .global, .shared => some (td, dstLayout, true)
    | .shared, .global => some (ts, srcLayout, false)
    | _, _ => none
  let some (shared, layout, loading) := side | return none
  let elementBytes := td.type.bytes
  let bytes ← Checked.word64 ((← dst.numel) * elementBytes)
  let rows := [← rowBytes k src, ← rowBytes k dst,
    ← Checked.word32 (shared.shape.cols * elementBytes)]
  if !rows.all (· % Swizzle.chunkBytes == 0) || bytes < bulk.minBytes then
    return none
  return (← bulkEngine? bulk layout loading elementBytes).map (.bulk · bytes)

def pinned
    (width inner : Nat) (src dst : TileId) (srcLayout dstLayout : Layout) :
    Pass SelectionError Strategy := do
  if width = 0 then mismatch k op src "a non-zero coalesced width"
  if inner % width ≠ 0 then
    mismatch k op src
      s!"coalesced width {width} dividing the innermost extent {inner}"
  let narrow (side : TileId × Layout) : Checked Bool :=
    return (← side.2.contiguousRun) % width != 0
  if let some (tile, l) ← Checked.find? narrow
    [(src, srcLayout), (dst, dstLayout)] then
    let run ← l.contiguousRun
    mismatch k op tile
      s!"coalesced width {width} (layout {l.text} has contiguous runs of {run})"
  return if width = 1 then .scalar else .vector width

/-- An operand in registers has the layout of its role, any other is in
memory. -/
def operandFits (t : Tile) (l : Layout) (expected : RegisterLayout) : Bool :=
  match l.kind, t.scope with
  | .fragment f, .fragment => f == expected
  | .fragment _, _ => false
  | _, .fragment => false
  | _, _ => true

def checkOperand
    (binding : GemmBinding) (tile : TileId) (role : Role) (transposed : Bool) :
    Pass SelectionError Unit := do
  let l ← layoutOf k op tile
  let t ← k.tile tile
  let expected := binding.operandLayout role transposed
  if !operandFits t l expected then
    mismatch k op tile
      (s!"operand {role.name} layout {expected.text} of {binding.instruction.name} "
        ++ s!"(found {l.text})")

def gemm (a b c : TileId) (transposeA transposeB : Bool) :
    Pass SelectionError Strategy := do
  let failed (e : LayoutError) : SelectionError :=
    .layoutMismatch op e.tile e.message
  match ← Pass.within failed
    (k.bindGemm a b c transposeA transposeB target) with
  | none => return .scalar
  | some binding =>
      checkOperand k op binding a .a transposeA
      checkOperand k op binding b .b transposeB
      checkOperand k op binding c .c false
      let i := binding.instruction
      return .matrix i.name i.shape binding.warps (← binding.repeats)

def parallel (vars : List String) (extents : Shape) (body : List Assign) :
    Pass SelectionError Strategy := do
  let inner := vars.getLast?.getD ""
  let accesses := body.flatMap fun assign => assign.dst :: assign.value.loads
  let unit ← Checked.all (fun a => unitStride inner a.indices) accesses
  match accesses with
  | [] => return .scalar
  | leading :: _ =>
      if !unit then return .scalar
      let layouts ← accesses.mapM fun a => layoutOf k op a.tile
      vectorFor k target leading.tile (extents.getLast?.getD 1) layouts

def copy (src dst : Region) (width : Option Nat) :
    Pass SelectionError Strategy := do
  let s ← layoutOf k op src.tile
  let d ← layoutOf k op dst.tile
  let inner := dst.extents.getLast?.getD 1
  match width with
  | some w => pinned k op w inner src.tile dst.tile s d
  | none =>
      match ← bulk? k target src dst s d with
      | some strategy => return strategy
      | none => vectorFor k target dst.tile inner [s, d]

def strategy? : TileOp → Pass SelectionError (Option Strategy)
  | .alloc _ => return none
  | .copy src dst width => some <$> copy k target op src dst width
  | .fill tile _ => do
      let l ← layoutOf k op tile
      some <$> vectorFor k target tile (← k.tile tile).shape.cols [l]
  | .parallel vars extents body =>
      some <$> parallel k target op vars extents body
  | .gemm a b c transposeA transposeB _ =>
      some <$> gemm k target op a b c transposeA transposeB
  | .reduce src _ axis _ _ => do
      let l ← layoutOf k op src
      let shape := (← k.tile src).shape
      if (← Checked.word64 (axis + 1)) = shape.length then
        some <$> vectorFor k target src shape.cols [l]
      else return some .scalar
  | .relayout src dst => do
      let s ← layoutOf k op src
      let d ← layoutOf k op dst
      some <$> vectorFor k target dst (← k.tile dst).shape.cols [s, d]

end

end Selection

namespace Kernel

def select (k : Kernel) (target : Target) :
    Op → Pass SelectionError (Option Strategy)
  | .step s => Selection.strategy? k target s.id s.op
  | .loop .. => return none

def setStrategy (k : Kernel) (id : OpId) (s : Option Strategy) : Kernel :=
  match k.body.modify? id (fun step => { step with strategy := s })
      (fun head => { head with strategy := s }) with
  | some body => { k with body := body }
  | none => k

def selectAll (k : Kernel) (target : Target) : Pass SelectionError Kernel := do
  let chosen ← k.ops.mapM fun op => return (op.id, ← k.select target op)
  return chosen.foldl (fun k (id, s) => k.setStrategy id s) k

end Kernel

end TileProgram
