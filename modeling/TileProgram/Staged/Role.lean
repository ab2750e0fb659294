import TileProgram.Diagnostic
import TileProgram.Staged.Dependence

/-!
# Producers and consumers

The copies of a loop body that bring global data on chip are its producers; all
other operations are consumers.  The buffers that producers write are rotated.
A body is refused if running producers ahead of consumers would change what
some operation reads.
-/

namespace TileProgram

inductive ScheduleError where
  | notARegion (op : OpId)
  | nestedRegion (region inner : OpId)
  | unsupportedDependency (region reader writer : OpId) (tile reason : String)
  | unresolvedLayout (region : OpId) (tile : String)
  | sharedMemoryExceeded (region : OpId) (stages required available : Nat)
  deriving DecidableEq, Repr

namespace ScheduleError

def message : ScheduleError → String
  | notARegion op => s!"op {op.text} is not a pipelined region"
  | nestedRegion region inner =>
      s!"pipelined region {inner.text} is nested inside region {region.text}"
  | unsupportedDependency region reader writer tile reason =>
      s!"unsupported dependency in region {region.text}: op {reader.text} reads tile '{tile}' "
        ++ s!"written by op {writer.text} ({reason})"
  | unresolvedLayout region tile =>
      s!"tile '{tile}' used in region {region.text} has no resolved layout"
  | sharedMemoryExceeded region stages required available =>
      s!"region {region.text} needs {required} bytes of shared memory with {stages} stages, "
        ++ s!"target has {available}"

def diagnostic (e : ScheduleError) : Diagnostic :=
  match e with
  | notARegion op => Diagnostic.error e.message (.op op)
  | nestedRegion _ inner => Diagnostic.error e.message (.op inner)
  | unsupportedDependency _ reader _ _ _ =>
      (Diagnostic.error e.message (.op reader)).withNote
        "values may only flow from producers to consumers of the same iteration"
  | unresolvedLayout _ tile =>
      (Diagnostic.error e.message (.tile tile)).withHelp
        "run layout inference before scheduling"
  | sharedMemoryExceeded region _ _ _ =>
      (Diagnostic.error e.message (.op region)).withHelp
        "reduce the stage count or the block tile sizes"

end ScheduleError

structure Producer where
  op : OpId
  buffer : TileId
  deriving DecidableEq, Repr

structure Roles where
  producers : List Producer
  consumers : List OpId
  deriving DecidableEq, Repr

namespace Roles

def rotated (r : Roles) : List TileId := (r.producers.map (·.buffer)).eraseDups

section

variable (k : Kernel) (region : OpId) (body : List Op)

def refuse {α : Type} (reader writer : OpId) (tile : TileId) (reason : String) :
    Pass ScheduleError α := do
  let t ← k.tile tile
  Pass.fail (.unsupportedDependency region reader writer t.name reason)

/-- The copy as a producer.  It must read only what exists before the loop, and
fill its buffer completely, since the slots start empty. -/
def checkProducer (op : OpId) (src dst : Region) :
    Pass ScheduleError Producer := do
  if let some writer :=
    body.find? fun o => o.id != op && o.writes.contains src.tile then
    refuse k region op writer.id src.tile
      "a producer copy reads data computed inside the loop"
  if !dst.covers (← k.tile dst.tile).shape then
    let reader := body.find? fun o => o.id != op && o.reads.contains dst.tile
    refuse k region ((reader.map (·.id)).getD op) op dst.tile
      "a producer fills only part of a rotated buffer"
  return ⟨op, dst.tile⟩

def add (r : Roles) (op : Op) : Pass ScheduleError Roles := do
  let consume : Roles := { r with consumers := r.consumers ++ [op.id] }
  match op with
  | .step ⟨id, .copy src dst _, _⟩ =>
      let source ← k.tile src.tile
      let buffer ← k.tile dst.tile
      if source.scope = .global ∧ buffer.scope.isOnChip then
        return { r with producers := r.producers ++
          [← checkProducer k region body id src dst] }
      else return consume
  | _ => return consume

def checkAhead (r : Roles) (deps : List Dependence) : Pass ScheduleError Unit :=
  r.producers.forM fun p =>
    match r.consumers.find? (Dependence.dependsOn deps · p.op) with
    | some c =>
        refuse k region p.op c p.buffer
          "a producer depends on a consumer of the same iteration"
    | none => return ()

def checkCarried (deps : List Dependence) : Pass ScheduleError Unit :=
  match deps.find? fun d => d.carried && d.source != d.sink with
  | some d =>
      refuse k region d.sink d.source d.tile
        "the value crosses iterations (loop-carried)"
  | none => return ()

def ofBody : Pass ScheduleError Roles := do
  let deps ← Dependence.ofBody k body
  let roles ← body.foldlM (add k region body) ⟨[], []⟩
  checkAhead k region roles deps
  checkCarried k region deps
  return roles

end

end Roles

end TileProgram
