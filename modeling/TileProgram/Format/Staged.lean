import TileProgram.Format.Target
import TileProgram.Staged.Basic
import TileProgram.Strategy

/-!
# Schedules and strategies in files
-/

namespace TileProgram

open Json (nat nats tagged)

def TileId.toJson (id : TileId) : Json := nat id.index

def TileId.decode : Decoder TileId := fun form depth j =>
  (Decoder.word32 form depth j).map TileId.mk

def OpId.toJson (id : OpId) : Json := nat id.number

def OpId.decode : Decoder OpId := fun form depth j =>
  (Decoder.word32 form depth j).map OpId.mk

namespace StageRole

def name : StageRole → String
  | producer => "producer"
  | consumer => "consumer"

def decode : Decoder StageRole :=
  Decoder.name fun text => [producer, consumer].find? (·.name == text)

end StageRole

def Phase.name : Phase → String
  | prologue => "prologue"
  | steady => "steady"
  | epilogue => "epilogue"

namespace WaitKind

def name : WaitKind → String
  | acquire => "acquire"
  | release => "release"

def decode : Decoder WaitKind :=
  Decoder.name fun text => [acquire, release].find? (·.name == text)

end WaitKind

namespace Iteration

def toJson : Iteration → Json
  | fixed iter => tagged "fixed" (nat iter)
  | relative distance => tagged "relative" (.int distance)

def decode : Decoder Iteration := fun form depth j => do
  let v ← Variant.ofJson? form depth j
  match v.tag with
  | "fixed" => return fixed (← v.content? Decoder.word64)
  | "relative" => return relative (← v.content? Decoder.int64)
  | _ => none

end Iteration

namespace Action

def toJson : Action → Json
  | issue op role iter =>
      tagged "issue" (.object [("op", op.toJson), ("role", .string role.name),
        ("iter", iter.toJson)])
  | wait kind iter =>
      tagged "wait"
        (.object [("kind", .string kind.name), ("iter", iter.toJson)])

def decode : Decoder Action := fun form depth j => do
  let v ← Variant.ofJson? form depth j
  match v.tag with
  | "issue" =>
      let f ← v.record? ["op", "role", "iter"]
      return issue (← f.required "op" OpId.decode)
        (← f.required "role" StageRole.decode)
        (← f.required "iter" Iteration.decode)
  | "wait" =>
      let f ← v.record? ["kind", "iter"]
      return wait (← f.required "kind" WaitKind.decode)
        (← f.required "iter" Iteration.decode)
  | _ => none

def stepToJson (actions : List Action) : Json :=
  .object [("actions", Json.list toJson actions)]

def decodeStep : Decoder (List Action) := fun form depth j => do
  let f ← Fields.ofJson? ["actions"] form depth j
  f.required "actions" (Decoder.list decode)

end Action

namespace SteadyState

def toJson (s : SteadyState) : Json :=
  .object [("first", nat s.first), ("last", nat s.last),
    ("step", Action.stepToJson s.actions)]

def decode : Decoder SteadyState := fun form depth j => do
  let f ← Fields.ofJson? ["first", "last", "step"] form depth j
  return ⟨← f.required "first" Decoder.word64,
    ← f.required "last" Decoder.word64, ← f.required "step" Action.decodeStep⟩

end SteadyState

namespace RotatedBuffer

def toJson (r : RotatedBuffer) : Json :=
  .object [("logical", r.logical.toJson),
    ("slots", Json.list TileId.toJson r.slots.toList)]

def decode : Decoder RotatedBuffer := fun form depth j => do
  let f ← Fields.ofJson? ["logical", "slots"] form depth j
  let logical ← f.required "logical" TileId.decode
  let slots ← f.required "slots" (Decoder.list TileId.decode)
  return ⟨logical, slots.toArray⟩

end RotatedBuffer

namespace StagedLoop

def toJson (l : StagedLoop) : Json :=
  .object [("region", l.region.toJson), ("var", .string l.var),
    ("trip_count", nat l.tripCount),
    ("requested_stages", nat l.requestedStages), ("stages", nat l.stages),
    ("producers", Json.list OpId.toJson l.producers),
    ("consumers", Json.list OpId.toJson l.consumers),
    ("rotation", Json.list RotatedBuffer.toJson l.rotation),
    ("prologue", Json.list Action.stepToJson l.prologue),
    ("steady", Json.option SteadyState.toJson l.steady),
    ("epilogue", Json.list Action.stepToJson l.epilogue)]

def decode : Decoder StagedLoop := fun form depth j => do
  let f ← Fields.ofJson? ["region", "var", "trip_count", "requested_stages",
    "stages", "producers", "consumers", "rotation", "prologue", "steady",
    "epilogue"] form depth j
  return {
    region := ← f.required "region" OpId.decode
    var := ← f.required "var" Decoder.string
    tripCount := ← f.required "trip_count" Decoder.word64
    requestedStages := ← f.required "requested_stages" Decoder.word32
    stages := ← f.required "stages" Decoder.word32
    producers := ← f.required "producers" (Decoder.list OpId.decode)
    consumers := ← f.required "consumers" (Decoder.list OpId.decode)
    rotation := ← f.required "rotation" (Decoder.list RotatedBuffer.decode)
    prologue := ← f.required "prologue" (Decoder.list Action.decodeStep)
    steady := ← f.optional "steady" SteadyState.decode
    epilogue := ← f.required "epilogue" (Decoder.list Action.decodeStep) }

end StagedLoop

namespace Strategy

def toJson : Strategy → Json
  | bulk engine bytes =>
      .object [("kind", .string "bulk_async_copy"), ("engine", engine.toJson),
        ("bytes", nat bytes)]
  | vector width => .object [("kind", .string "vector"), ("width", nat width)]
  | matrix instruction shape warps repeats =>
      .object [("kind", .string "matrix_instruction"),
        ("instruction", .string instruction), ("shape", shape.toJson),
        ("warps", warps.toJson), ("repeats", repeats.toJson)]
  | scalar => .object [("kind", .string "scalar")]

/-- The field `kind` names the variant; its other fields stand beside it, or in
an array the fields follow the name.  The name may come last, so all of the
value has to be readable, and the fields are set aside until it is known. -/
def decode : Decoder Strategy := fun form depth j => do
  if !j.isReadable depth then none
  let (kind, rest) ← match j with
    | .object fields =>
        let (tags, rest) := fields.partition (·.1 == "kind")
        match tags with
        | [(_, kind)] => some (kind, Json.object rest)
        | _ => none
    | .array (kind :: rest) => some (kind, .array rest)
    | _ => none
  let fields (names : List String) := Fields.ofJson? names .setAside depth rest
  match ← Decoder.string form depth kind with
  | "bulk_async_copy" =>
      let f ← fields ["engine", "bytes"]
      return bulk (← f.required "engine" BulkEngine.decode)
        (← f.required "bytes" Decoder.word64)
  | "vector" =>
      let f ← fields ["width"]
      return vector (← f.required "width" Decoder.word32)
  | "matrix_instruction" =>
      let f ← fields ["instruction", "shape", "warps", "repeats"]
      return matrix (← f.required "instruction" Decoder.string) (← f.required
        "shape" GemmShape.decode) (← f.required "warps" WarpGrid.decode)
        (← f.required "repeats" GemmShape.decode)
  | "scalar" =>
      let _ ← fields []
      return scalar
  | _ => none

end Strategy

end TileProgram
