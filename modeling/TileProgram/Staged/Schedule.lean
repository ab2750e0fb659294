import TileProgram.Staged.Role
import TileProgram.Target.Basic

/-!
# Schedules

Scheduling a loop divides its body into producers and consumers, gives every
rotated buffer one tile for each stage, and attaches the staged loop, provided
that the shared memory of a block can hold all of it.
-/

namespace TileProgram

namespace Kernel

/-- Buffers that schedules of the kernel have replaced by several slots. -/
def retired (k : Kernel) : List TileId :=
  k.ops.flatMap fun
    | .loop head _ =>
        match head.schedule with
        | some s => (s.rotation.filter (1 < ·.slots.size)).map (·.logical)
        | none => []
    | .step _ => []

/-- Add the bytes that an entry of the table takes once each of `rotated` has
`stages` slots; the tiles of `retired` take none. -/
def addEntry
    (retired rotated : List TileId) (stages total : Nat) (entry : Tile × Nat) :
    Checked Nat := do
  if entry.1.scope ≠ .shared ∨ retired.contains ⟨entry.2⟩ then return total
  let bytes ← entry.1.footprintBytes
  let bytes ← if rotated.contains ⟨entry.2⟩ then Checked.word64 (bytes * stages)
    else pure bytes
  Checked.word64 (total + bytes)

def sharedBytes (k : Kernel) (rotated : List TileId) (stages : Nat) :
    Checked Nat :=
  k.tiles.toList.zipIdx.foldlM (addEntry k.retired rotated stages) 0

/-- The slot tiles of a buffer.  With one stage the buffer is its own slot. -/
def addSlots (k : Kernel) (logical : TileId) (stages : Nat) :
    Checked (RotatedBuffer × Kernel) := do
  if stages ≤ 1 then return (⟨logical, #[logical]⟩, k)
  let t ← k.tile logical
  let _ ← grownTable k.tiles.size stages
  let tiles :=
    (Array.range stages).map fun n => { t with name := s!"{t.name}@{n}" }
  let slots := (Array.range' k.tiles.size stages).map TileId.mk
  return (⟨logical, slots⟩, { k with tiles := k.tiles ++ tiles })

def addAllSlots (stages : Nat) :
    List TileId → Kernel → Checked (List RotatedBuffer × Kernel)
  | [], k => .ok ([], k)
  | logical :: rest, k => do
      let (buffer, k) ← k.addSlots logical stages
      let (buffers, k) ← addAllSlots stages rest k
      return (buffer :: buffers, k)

def unresolvedTile? (k : Kernel) (body : List Op) : Checked (Option Tile) := do
  let unresolved (t : TileId) : Checked Bool := do
    let t ← k.tile t
    return t.scope.isOnChip && t.layout.isNone
  match ← Checked.find? unresolved (body.flatMap (·.mentions)) with
  | some t => return some (← k.tile t)
  | none => return none

def setSchedule (k : Kernel) (region : OpId) (s : StagedLoop) : Kernel :=
  match k.body.modify? region id fun head =>
    { head with schedule := some s } with
  | some body => { k with body := body }
  | none => k

def testRegion (k : Kernel) (region : OpId) (target : Target) :
    Pass ScheduleError (Loop × Roles) := do
  let some (.loop head body) :=
    k.findOp? region | Pass.fail (.notARegion region)
  if let some (.loop inner _) := body.entries.find? (· matches .loop ..) then
    Pass.fail (.nestedRegion region inner.id)
  if let some t ← k.unresolvedTile? body.entries then
    Pass.fail (.unresolvedLayout region t.name)
  let roles ← Roles.ofBody k region body.entries
  let stages := effectiveStages head.stages head.tripCount
  let required ← k.sharedBytes roles.rotated stages
  if target.shared.capacityBytes < required then
    Pass.fail (.sharedMemoryExceeded region stages required
      target.shared.capacityBytes)
  return (head, roles)

def scheduleRegion (k : Kernel) (region : OpId) (target : Target) :
    Pass ScheduleError (StagedLoop × Kernel) := do
  let (head, roles) ← k.testRegion region target
  let (rotation, k) ←
    addAllSlots (effectiveStages head.stages head.tripCount) roles.rotated k
  let staged := StagedLoop.build region head.var head.tripCount head.stages
    (roles.producers.map (·.op)) roles.consumers rotation
  return (staged, k.setSchedule region staged)

def pendingRegions (k : Kernel) : List OpId :=
  k.body.entries.filterMap fun
    | .loop head _ => if head.schedule.isNone then some head.id else none
    | .step _ => none

def scheduleEach (k : Kernel) (regions : List OpId) (target : Target) :
    Pass ScheduleError Kernel :=
  regions.foldlM
    (fun k region => do return (← k.scheduleRegion region target).2) k

def schedule (k : Kernel) (target : Target) : Pass ScheduleError Kernel :=
  k.scheduleEach k.pendingRegions target

end Kernel

end TileProgram
