import TileProgram.Access.Conflict
import TileProgram.Diagnostic

/-!
# Choosing a layout

A tile in shared memory gets the first conflict-free candidate that the copy
engine can write, else the first conflict-free one.  A tile in registers gets
the layout of the matrix instruction that uses it, or its elements are dealt to
the threads.
-/

namespace TileProgram

inductive LayoutError where
  | degenerateShape (tile : String) (shape : Shape)
  | noConflictFree (tile : String) (patterns : List String) (best : String)
      (degree : Nat)
  | incompatibleShape (tile : String) (shape : Shape)
      (instruction reason : String)
  | conflictingFragments (tile first second : String)
  | invalidDeclared (tile reason : String)
  deriving DecidableEq, Repr

namespace LayoutError

def tile : LayoutError → String
  | degenerateShape tile _ => tile
  | noConflictFree tile .. => tile
  | incompatibleShape tile .. => tile
  | conflictingFragments tile .. => tile
  | invalidDeclared tile _ => tile

def message : LayoutError → String
  | degenerateShape tile shape =>
      s!"tile '{tile}' has degenerate shape {shape.text}"
  | noConflictFree tile _ best degree =>
      s!"no bank-conflict-free shared layout for tile '{tile}' "
        ++ s!"(best candidate {best} is {degree}-way conflicted)"
  | incompatibleShape tile shape instruction reason =>
      s!"incompatible fragment shape {shape.text} for tile '{tile}' "
        ++ s!"under {instruction}: {reason}"
  | conflictingFragments tile first second =>
      s!"tile '{tile}' is required to be both {first} and {second}"
  | invalidDeclared tile reason =>
      s!"declared layout of tile '{tile}' is invalid: {reason}"

def diagnostic (e : LayoutError) : Diagnostic :=
  let d := Diagnostic.error e.message (.tile e.tile)
  match e with
  | noConflictFree _ patterns _ _ =>
      (d.withNote ("access patterns: " ++ ", ".intercalate patterns)).withHelp
        "declare a layout for the tile to accept the conflicts"
  | incompatibleShape .. =>
      d.withHelp
        "choose block sizes that are multiples of the instruction shape times the warp grid"
  | _ => d

end LayoutError

structure LayoutRequest where
  tile : String
  shape : Shape
  type : ElementType
  scope : Scope
  threads : Nat

namespace Layout

def swizzledCandidates (shape : Shape) (elementBytes : Nat) :
    Checked (List Layout) :=
  (([32, 64, 128].filterMap fun width =>
    Swizzle.ofBytes? width elementBytes).map fun s =>
    (⟨shape, .swizzled s⟩ : Layout)).filterM (·.isWellFormed)

def paddedCandidates (shape : Shape) (elementBytes : Nat) : List Layout :=
  ([max 1 (4 / elementBytes),
    max 1 (Swizzle.chunkBytes / elementBytes)].eraseDups).map fun pad =>
    ⟨shape, .padded pad⟩

def sharedCandidates (shape : Shape) (type : ElementType) :
    Checked (List Layout) := do
  let swizzled ← swizzledCandidates shape type.bytes
  return rowMajor shape :: swizzled ++ paddedCandidates shape type.bytes

def worstDegree
    (l : Layout) (patterns : List AccessPattern) (elementBytes : Nat)
    (target : Target) : Checked Nat := do
  return (← patterns.mapM (l.conflictDegree · elementBytes target)).foldl max 0

end Layout

namespace LayoutRequest

/-- The least conflicted of the candidates that have conflicts, the first of
equals. -/
def leastConflicted : List (Layout × Nat) → Option (Layout × Nat)
  | [] => none
  | (l, degree) :: rest =>
      match leastConflicted rest with
      | some (other, least) =>
          if least < degree then some (other, least) else some (l, degree)
      | none => some (l, degree)

def resolveShared
    (req : LayoutRequest) (patterns : List AccessPattern) (target : Target) :
    Pass LayoutError Layout := do
  let bytes := req.type.bytes
  let candidates ← Layout.sharedCandidates req.shape req.type
  let graded ← candidates.mapM fun l => do
    return (l, ← l.worstDegree patterns bytes target)
  let free := (graded.filter (·.2 ≤ 1)).map (·.1)
  match ← Checked.find? (·.isBulkCompatible bytes target) free with
  | some l => return l
  | none =>
      match free with
      | l :: _ => return l
      | [] =>
          let (best, degree) := match leastConflicted graded with
            | some (l, degree) => (l.text, degree)
            | none => ("none", 0)
          Pass.fail
            (.noConflictFree req.tile (patterns.map (·.text)) best degree)

def demandedRegisters (req : LayoutRequest) :
    List AccessPattern → Option RegisterLayout →
      Pass LayoutError (Option RegisterLayout)
  | [], exact => return exact
  | .operand f :: rest, exact =>
      match exact with
      | some first =>
          if first ≠ f then
            Pass.fail (.conflictingFragments req.tile first.text f.text)
          else demandedRegisters req rest (some f)
      | none => demandedRegisters req rest (some f)
  | _ :: rest, exact => demandedRegisters req rest exact

def widestVector (patterns : List AccessPattern) : Nat :=
  patterns.foldl (fun widest p =>
    match p with
    | .rowMajor vector => max widest vector
    | _ => widest) 1

def resolveFragment (req : LayoutRequest) (patterns : List AccessPattern) :
    Pass LayoutError Layout := do
  let registers := match ← req.demandedRegisters patterns none with
    | some f => f
    | none =>
        .striped (max 1 req.threads)
          (fitVector (widestVector patterns) req.shape.cols)
  let l : Layout := ⟨req.shape, .fragment registers⟩
  if ← l.isWellFormed then return l
  else
    Pass.fail (.incompatibleShape req.tile req.shape l.text
      "the fragment grid does not tile the shape")

def resolve
    (req : LayoutRequest) (patterns : List AccessPattern) (target : Target) :
    Pass LayoutError Layout :=
  if req.shape.isDegenerate then Pass.fail (.degenerateShape req.tile req.shape)
  else
    match req.scope with
    | .global => .ok (Layout.rowMajor req.shape)
    | .shared => req.resolveShared patterns target
    | .fragment => req.resolveFragment patterns

end LayoutRequest

end TileProgram
