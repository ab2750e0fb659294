import TileProgram.Compile
import TileProgram.Format.Staged

/-!
# Analyses as JSON

Short forms of what the passes find out: slots, unrolled actions, dependences,
relayouts and the extent of a comparison.
-/

namespace TileProgram

open Json (nat nats)

def Slot.toJson : Slot → Json
  | offset o => nat o
  | register thread index => nats [thread, index]

def LaneAccess.toJson (a : LaneAccess) : Json := nats [a.row, a.col, a.width]

def ConcreteAction.toJson : ConcreteAction → Json
  | issue op role iter slot =>
      .array [.string "issue", op.toJson, .string role.name, nat iter, nat slot]
  | wait kind iter slot =>
      .array [.string "wait", .string kind.name, nat iter, nat slot]

def ConcreteStep.toJson (s : ConcreteStep) : Json :=
  .array [.string s.phase.name, Json.list ConcreteAction.toJson s.actions]

def SyncEdge.toJson (e : SyncEdge) : Json :=
  .array [e.producer.toJson, e.consumer.toJson, nat e.iter, nat e.slot]

def DependenceKind.name : DependenceKind → String
  | flow => "flow"
  | anti => "anti"
  | output => "output"

def Dependence.toJson (d : Dependence) : Json :=
  .array [d.source.toJson, d.sink.toJson, .string d.kind.name, d.tile.toJson,
    .bool d.carried]

def RelayoutRecord.toJson (r : RelayoutRecord) : Json :=
  .array [r.op.toJson, r.serves.toJson, r.src.toJson, r.dst.toJson]

def Verified.toJson (v : Verified) : Json :=
  .object [("blocks", nat v.blocks), ("regions", nat v.regions),
    ("compared", nat v.compared)]

end TileProgram
