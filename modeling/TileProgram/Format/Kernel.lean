import TileProgram.Format.Staged
import TileProgram.Json.Printer
import TileProgram.Json.Reader
import TileProgram.Kernel.Basic

/-!
# Kernels in files

Every field is written, those without a value as `null`.  A reader may leave
out the fields that have a natural default.
-/

namespace TileProgram

open Json (nat nats tagged)

namespace Var

def toJson : Var → Json
  | loop name => tagged "loop" (.string name)
  | block axis => tagged "block" (nat axis)

def decode : Decoder Var := fun form depth j => do
  let v ← Variant.ofJson? form depth j
  match v.tag with
  | "loop" => return loop (← v.content? Decoder.string)
  | "block" => return block (← v.content? Decoder.word8)
  | _ => none

end Var

namespace Affine

def termToJson : Var × Int → Json
  | (v, c) => .array [v.toJson, .int c]

def toJson (a : Affine) : Json :=
  .object [("constant", .int a.constant),
    ("terms", Json.list termToJson a.terms)]

def decode : Decoder Affine := fun form depth j => do
  let f ← Fields.ofJson? ["constant", "terms"] form depth j
  return ⟨← f.required "constant" Decoder.int64, ← f.withDefault "terms"
    (Decoder.list (Decoder.pair Var.decode Decoder.int64)) []⟩

end Affine

namespace Region

def toJson (r : Region) : Json :=
  .object [("tile", r.tile.toJson),
    ("offsets", Json.list Affine.toJson r.offsets), ("extents", nats r.extents)]

def decode : Decoder Region := fun form depth j => do
  let f ← Fields.ofJson? ["tile", "offsets", "extents"] form depth j
  return ⟨← f.required "tile" TileId.decode,
    ← f.required "offsets" (Decoder.list Affine.decode),
    ← f.required "extents" (Decoder.list Decoder.word32)⟩

end Region

namespace Access

def toJson (a : Access) : Json :=
  .object [("tile", a.tile.toJson),
    ("indices", Json.list Affine.toJson a.indices)]

def decode : Decoder Access := fun form depth j => do
  let f ← Fields.ofJson? ["tile", "indices"] form depth j
  return ⟨← f.required "tile" TileId.decode,
    ← f.required "indices" (Decoder.list Affine.decode)⟩

end Access

namespace Expr

def toJson : Expr → Json
  | load a => tagged "load" a.toJson
  | const c => tagged "const" (.float c)
  | unary op x => tagged "unary" (.array [.string op.name, x.toJson])
  | binary op l r =>
      tagged "binary" (.array [.string op.name, l.toJson, r.toJson])
  | cast type x => tagged "cast" (.array [type.toJson, x.toJson])

/-- Two brackets for each operator. -/
def decode : Decoder Expr
  | form, depth + 2, .object [("unary", .array [op, x])] => do
      return unary (← Decoder.name UnaryOp.ofName? form depth op)
        (← decode form depth x)
  | form, depth + 2, .object [("binary", .array [op, l, r])] => do
      return binary (← Decoder.name BinaryOp.ofName? form depth op)
        (← decode form depth l) (← decode form depth r)
  | form, depth + 2, .object [("cast", .array [type, x])] => do
      return cast (← ElementType.decode form depth type) (← decode form depth x)
  | form, depth + 1, .object [("load", a)] =>
      return load (← Access.decode form depth a)
  | form, depth + 1, .object [("const", c)] =>
      return const (← Decoder.float form depth c)
  | _, _, _ => none

end Expr

namespace Assign

def toJson (a : Assign) : Json :=
  .object [("dst", a.dst.toJson), ("value", a.value.toJson)]

def decode : Decoder Assign := fun form depth j => do
  let f ← Fields.ofJson? ["dst", "value"] form depth j
  return ⟨← f.required "dst" Access.decode, ← f.required "value" Expr.decode⟩

end Assign

def ReduceKind.decode : Decoder ReduceKind := Decoder.name ReduceKind.ofName?

namespace TileOp

def toJson : TileOp → Json
  | alloc tile => tagged "alloc" (.object [("tile", tile.toJson)])
  | copy src dst width =>
      tagged "copy" (.object [("src", src.toJson), ("dst", dst.toJson),
        ("coalesced_width", Json.option nat width)])
  | fill tile value =>
      tagged "fill" (.object [("tile", tile.toJson), ("value", .float value)])
  | parallel vars extents body =>
      tagged "parallel" (.object [("vars", Json.list Json.string vars),
        ("extents", nats extents), ("body", Json.list Assign.toJson body)])
  | gemm a b c transposeA transposeB clear =>
      tagged "gemm" (.object [("a", a.toJson), ("b", b.toJson), ("c", c.toJson),
        ("transpose_a", .bool transposeA), ("transpose_b", .bool transposeB),
        ("clear_accum", .bool clear)])
  | reduce src dst axis kind clear =>
      tagged "reduce" (.object [("src", src.toJson), ("dst", dst.toJson),
        ("axis", nat axis), ("kind", .string kind.name),
        ("clear", .bool clear)])
  | relayout src dst =>
      tagged "relayout" (.object [("src", src.toJson), ("dst", dst.toJson)])

def ofVariant? (v : Variant) : Option TileOp := do
  match v.tag with
  | "alloc" =>
      let f ← v.record? ["tile"]
      return alloc (← f.required "tile" TileId.decode)
  | "copy" =>
      let f ← v.record? ["src", "dst", "coalesced_width"]
      return copy (← f.required "src" Region.decode) (← f.required "dst"
        Region.decode) (← f.optional "coalesced_width" Decoder.word32)
  | "fill" =>
      let f ← v.record? ["tile", "value"]
      return fill (← f.required "tile" TileId.decode)
        (← f.required "value" Decoder.float)
  | "parallel" =>
      let f ← v.record? ["vars", "extents", "body"]
      return parallel (← f.required "vars" (Decoder.list Decoder.string))
        (← f.required "extents" (Decoder.list Decoder.word32))
        (← f.required "body" (Decoder.list Assign.decode))
  | "gemm" =>
      let f ← v.record?
        ["a", "b", "c", "transpose_a", "transpose_b", "clear_accum"]
      return gemm (← f.required "a" TileId.decode)
        (← f.required "b" TileId.decode) (← f.required "c" TileId.decode)
        (← f.withDefault "transpose_a" Decoder.bool false)
        (← f.withDefault "transpose_b" Decoder.bool false)
        (← f.withDefault "clear_accum" Decoder.bool false)
  | "reduce" =>
      let f ← v.record? ["src", "dst", "axis", "kind", "clear"]
      return reduce (← f.required "src" TileId.decode)
        (← f.required "dst" TileId.decode) (← f.required "axis" Decoder.word64)
        (← f.required "kind" ReduceKind.decode)
        (← f.withDefault "clear" Decoder.bool false)
  | "relayout" =>
      let f ← v.record? ["src", "dst"]
      return relayout (← f.required "src" TileId.decode)
        (← f.required "dst" TileId.decode)
  | _ => none

end TileOp

def opToJson (id : OpId) (kind : Json) (strategy : Option Strategy) : Json :=
  .object [("id", id.toJson), ("kind", kind),
    ("strategy", Json.option Strategy.toJson strategy)]

namespace Loop

def kindToJson (head : Loop) (body : List Json) : Json :=
  tagged "pipelined" (.object [("var", .string head.var),
    ("trip_count", nat head.tripCount), ("stages", nat head.stages),
    ("body", .array body),
    ("schedule", Json.option StagedLoop.toJson head.schedule)])

end Loop

namespace Body

def toJson : Body → List Json
  | done => []
  | step s rest => opToJson s.id s.op.toJson s.strategy :: rest.toJson
  | loop head body rest =>
      opToJson head.id (head.kindToJson body.toJson) head.strategy ::
        rest.toJson

structure Envelope where
  id : OpId
  kind : Variant
  strategy : Option Strategy

def decodeEnvelope : Decoder Envelope := fun form depth j => do
  let f ← Fields.ofJson? ["id", "kind", "strategy"] form depth j
  return ⟨← f.required "id" OpId.decode, ← f.required "kind" Variant.ofJson?,
    ← f.optional "strategy" Strategy.decode⟩

/-- One operation, given how the operations of a loop body are read. -/
def decodeOpWith (inner : Decoder Op) : Decoder Op := fun form depth j => do
  let e ← decodeEnvelope form depth j
  if e.kind.tag = "pipelined" then
    let f ← e.kind.record? ["var", "trip_count", "stages", "body", "schedule"]
    let body ← f.required "body" (Decoder.list inner)
    let head : Loop :=
      { id := e.id
        var := ← f.required "var" Decoder.string
        tripCount := ← f.required "trip_count" Decoder.word64
        stages := ← f.required "stages" Decoder.word32
        schedule := ← f.optional "schedule" StagedLoop.decode
        strategy := e.strategy }
    return .loop head (ofEntries body)
  else
    return .step ⟨e.id, ← TileOp.ofVariant? e.kind, e.strategy⟩

/-- One operation.  The operations of a loop stand four brackets deeper. -/
def decodeOp : Decoder Op
  | form, depth + 4, j =>
      decodeOpWith (fun form _ => decodeOp form depth) form (depth + 4) j
  | form, depth, j => decodeOpWith (fun _ _ _ => none) form depth j

def decode : Decoder Body := fun form depth j =>
  (Decoder.list decodeOp form depth j).map ofEntries

end Body

namespace Tile

def toJson (t : Tile) : Json :=
  .object [("name", .string t.name), ("shape", nats t.shape),
    ("dtype", t.type.toJson), ("scope", t.scope.toJson),
    ("declared", Json.option Layout.toJson t.declared),
    ("layout", Json.option Layout.toJson t.layout)]

def decode : Decoder Tile := fun form depth j => do
  let f ← Fields.ofJson?
    ["name", "shape", "dtype", "scope", "declared", "layout"] form depth j
  return {
    name := ← f.required "name" Decoder.string
    shape := ← f.required "shape" (Decoder.list Decoder.word32)
    type := ← f.required "dtype" ElementType.decode
    scope := ← f.required "scope" Scope.decode
    declared := ← f.optional "declared" Layout.decode
    layout := ← f.optional "layout" Layout.decode }

end Tile

namespace Rasterization

def toJson (r : Rasterization) : Json :=
  .object [("panel_size", nat r.panelSize), ("enable", .bool r.enable)]

def decode : Decoder Rasterization := fun form depth j => do
  let f ← Fields.ofJson? ["panel_size", "enable"] form depth j
  return ⟨← f.required "panel_size" Decoder.word32,
    ← f.required "enable" Decoder.bool⟩

end Rasterization

def Dim3.toJson (d : Dim3) : Json := nats d.toList

def Dim3.decode : Decoder Dim3 := Decoder.triple Decoder.word32 Dim3.mk

namespace Kernel

def toJson (k : Kernel) : Json :=
  .object [("name", .string k.name), ("grid", k.grid.toJson),
    ("threads", k.threads.toJson),
    ("tiles", Json.list Tile.toJson k.tiles.toList),
    ("body", .array k.body.toJson),
    ("rasterization", Json.option Rasterization.toJson k.rasterization),
    ("next_op", nat k.nextOp)]

def decode : Decoder Kernel := fun form depth j => do
  let f ← Fields.ofJson? ["name", "grid", "threads", "tiles", "body",
    "rasterization", "next_op"] form depth j
  return {
    name := ← f.required "name" Decoder.string
    grid := ← f.required "grid" Dim3.decode
    threads := ← f.required "threads" Dim3.decode
    tiles := (← f.required "tiles" (Decoder.list Tile.decode)).toArray
    body := ← f.required "body" Body.decode
    rasterization := ← f.optional "rasterization" Rasterization.decode
    nextOp := ← f.withDefault "next_op" Decoder.word32 0 }

def fileDepth : Nat := 127

def ofText? (text : String) : Option Kernel :=
  (Json.read? text).bind (decode .file fileDepth)

def toText (k : Kernel) : String := k.toJson.pretty 0

end Kernel

end TileProgram
