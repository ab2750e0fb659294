import TileProgram.Decimal.Numeral
import TileProgram.Diagnostic
import TileProgram.Kernel.Basic
import TileProgram.Staged.Text

/-!
# Listings

The listing of a kernel has one line for the header, for each tile and for each
operation, and further lines for the schedules of loops.  Every line but the
last kind has a site, and the listing records the span of its text.
-/

namespace TileProgram

structure Line where
  depth : Nat
  site : Site
  text : String
  deriving DecidableEq, Repr

structure Listing where
  text : String
  spans : SpanMap

namespace Listing

def empty : Listing := ⟨"", .empty⟩

/-- Append a line; the span of its site excludes indentation and line end. -/
def push (l : Listing) (line : Line) : Listing :=
  let first := l.text.utf8ByteSize + 2 * line.depth
  let last := first + line.text.utf8ByteSize
  { text := (l.text.pushn ' ' (2 * line.depth) ++ line.text).push '\n'
    spans :=
      if line.site = .nowhere then l.spans
      else l.spans.insert line.site ⟨low32 first, low32 last⟩ }

def ofLines (lines : List Line) : Listing :=
  lines.foldl push empty

end Listing

def Tile.layoutText (t : Tile) : String :=
  match t.layout, t.declared with
  | some l, _ => l.text
  | none, some l => "declared " ++ l.text
  | none, none => "?"

def Tile.text (t : Tile) : String :=
  s!"tile {t.name}: {t.scope.name} {t.type.name}{t.shape.text} {t.layoutText}"

namespace Kernel

/-- Name of a tile, or a mark for an identifier outside the table. -/
def tileName (k : Kernel) (id : TileId) : String :=
  ((k.tile? id).map (·.name)).getD "<unknown>"

def affineList (exprs : List Affine) : String :=
  ", ".intercalate (exprs.map Affine.text)

def regionText (k : Kernel) (r : Region) : String :=
  let extents := "x".intercalate (r.extents.map Nat.repr)
  s!"{k.tileName r.tile}[{affineList r.offsets} +: {extents}]"

def accessText (k : Kernel) (a : Access) : String :=
  s!"{k.tileName a.tile}[{affineList a.indices}]"

def exprText (k : Kernel) : Expr → String
  | .load a => k.accessText a
  | .const c => Decimal.listingText c
  | .unary op x => s!"{op.name}({k.exprText x})"
  | .binary op l r => s!"{op.name}({k.exprText l}, {k.exprText r})"
  | .cast type x => s!"cast<{type.name}>({k.exprText x})"

def assignText (k : Kernel) (a : Assign) : String :=
  s!"{k.accessText a.dst} = {k.exprText a.value}"

def opText (k : Kernel) : TileOp → String
  | .alloc tile => s!"alloc {k.tileName tile}"
  | .copy src dst width =>
      let pinned := match width with
        | some w => s!" coalesced={w}"
        | none => ""
      s!"copy {k.regionText src} -> {k.regionText dst}{pinned}"
  | .fill tile value => s!"fill {k.tileName tile} = {Decimal.listingText value}"
  | .parallel vars extents body =>
      let space :=
        ", ".intercalate ((vars.zip extents).map fun (v, e) => s!"{v} < {e}")
      let stmts := "; ".intercalate (body.map k.assignText)
      s!"parallel ({space}) \x7b {stmts} \x7d"
  | .gemm a b c transposeA transposeB clear =>
      let turnedA := if transposeA then "^T" else ""
      let turnedB := if transposeB then "^T" else ""
      let cleared := if clear then " clear" else ""
      s!"gemm {k.tileName a}{turnedA}, {k.tileName b}{turnedB} -> {k.tileName c}{cleared}"
  | .reduce src dst axis kind clear =>
      let cleared := if clear then " clear" else ""
      s!"reduce.{kind.name} {k.tileName src} -> {k.tileName dst} axis={axis}{cleared}"
  | .relayout src dst => s!"relayout {k.tileName src} -> {k.tileName dst}"

def strategyText : Option Strategy → String
  | some s => "  ; " ++ s.text
  | none => ""

def stepLine (k : Kernel) (depth : Nat) (s : Step) : Line :=
  ⟨depth, .op s.id, s!"{s.id.text} {k.opText s.op}{strategyText s.strategy}"⟩

def loopLine (depth : Nat) (l : Loop) : Line :=
  ⟨depth, .op l.id,
    s!"{l.id.text} pipelined {l.var} in 0..{l.tripCount} stages={l.stages}"
      ++ strategyText l.strategy⟩

def scheduleLines (depth : Nat) : Option StagedLoop → Checked (List Line)
  | none => .ok []
  | some s => do
      return (← s.lines).map fun text => ⟨depth, .nowhere, "| " ++ text⟩

def bodyLines (k : Kernel) (depth : Nat) : Body → Checked (List Line)
  | .done => .ok []
  | .step s rest => do
      return k.stepLine depth s :: (← k.bodyLines depth rest)
  | .loop head body rest => do
      let inner ← k.bodyLines (depth + 1) body
      let schedule ← scheduleLines (depth + 1) head.schedule
      return loopLine depth head :: inner ++ schedule ++
        (← k.bodyLines depth rest)

def panel? (k : Kernel) : Option Nat :=
  k.rasterization.bind fun r => if r.enable then some r.panelSize else none

def panelText : Option Nat → String
  | some width => s!" raster=panel({width})"
  | none => ""

def headerLine (k : Kernel) : Line :=
  ⟨0, .kernel,
    s!"kernel {k.name} grid={Shape.text k.grid.toList} threads={Shape.text k.threads.toList}"
      ++ panelText k.panel?⟩

def lines (k : Kernel) : Checked (List Line) := do
  let tiles := k.tiles.toList.map fun t => (⟨1, .tile t.name, t.text⟩ : Line)
  return k.headerLine :: tiles ++ (← k.bodyLines 1 k.body)

def listing (k : Kernel) : Checked Listing := do
  return Listing.ofLines (← k.lines)

end Kernel

end TileProgram
