import Std.Data.HashMap
import Std.Data.HashSet
import TileProgram.Diagnostic
import TileProgram.LaunchOrder
import TileProgram.Simulation.Eval
import TileProgram.Staged.Unroll

/-!
# Runs

A kernel runs block after block.  Run in sequence, a loop executes its body once
for each iteration.  Run by its schedule, it performs the unrolled actions: the
writes of a producer stay in flight until the acquire wait of their iteration,
and a producer that enters a slot before the consumers of the iteration there
have finished is an error.
-/

namespace TileProgram

inductive SimulationError where
  | releaseViolation (region : OpId) (iter slot : Nat)
  | mismatch (tile detail : String)
  deriving DecidableEq, Repr

namespace SimulationError

def message : SimulationError → String
  | releaseViolation region iter slot =>
      s!"region {region.text}: slot {slot} reused before the consumers of iteration {iter} finished"
  | mismatch tile detail =>
      s!"staged execution differs from sequential execution in tile '{tile}': {detail}"

def diagnostic (e : SimulationError) : Diagnostic :=
  match e with
  | releaseViolation region _ _ => Diagnostic.error e.message (.op region)
  | mismatch tile _ => Diagnostic.error e.message (.tile tile)

end SimulationError

inductive RunMode where
  | sequential
  | scheduled
  deriving DecidableEq, Repr

structure Machine (α : Type) where
  memory : Memory α
  env : Bindings

namespace Machine

variable {α : Type}

def bind (m : Machine α) (name : String) (value : Int) : Machine α :=
  { m with env := m.env.bind name value }

def unbind (m : Machine α) (name : String) : Machine α :=
  { m with env := m.env.unbind name }

def commit (m : Machine α) (writes : List (Write α)) : Checked (Machine α) := do
  return { m with memory := ← m.memory.commit writes }

@[specialize]
def perform [Element α] (m : Machine α) (k : Kernel) (op : TileOp) :
    Checked (Machine α) := do
  let writes ← op.eval k m.memory m.env
  m.commit writes

end Machine

structure Pipeline (α : Type) where
  machine : Machine α
  /-- Writes of producers that have not landed, by iteration. -/
  inFlight : Std.HashMap Nat (List (Write α))
  /-- How many consumers have been issued, by iteration. -/
  consumed : Std.HashMap Nat Nat
  /-- Iterations whose slot has been given back. -/
  released : Std.HashSet Nat

def Pipeline.start {α : Type} (m : Machine α) : Pipeline α := ⟨m, ∅, ∅, ∅⟩

namespace StagedLoop

variable {α : Type} [Element α] (k : Kernel) (l : StagedLoop) (ops : List Op)

def inSlot (iter : Nat) (t : TileId) : TileId := (l.slotTile t iter).getD t

@[specialize]
def issueWrites (m : Machine α) (iter : Nat) : Op → Checked (List (Write α))
  | .step s => (s.op.mapTiles (l.inSlot iter)).eval k m.memory m.env
  | .loop .. => .ok []

/-- Issue an operation in an iteration.  An operation that is not in the body is
passed over; of several with one identity the last counts. -/
@[specialize]
def issue (p : Pipeline α) (op : OpId) (role : StageRole) (iter slot : Nat) :
    Pass SimulationError (Pipeline α) := do
  match ops.findRev? (·.id == op) with
  | none => return p
  | some op =>
      let machine := p.machine.bind l.var (signed64 iter)
      let writes ← issueWrites k l machine iter op
      match role with
      | .producer =>
          if l.stages ≤ iter ∧ !p.released.contains (iter - l.stages) then
            Pass.fail (.releaseViolation l.region (iter - l.stages) slot)
          return { p with
            machine := machine
            inFlight :=
              p.inFlight.insert iter (p.inFlight.getD iter [] ++ writes) }
      | .consumer =>
          return { p with
            machine := ← machine.commit writes
            consumed := p.consumed.insert iter (p.consumed.getD iter 0 + 1) }

@[specialize]
def act (p : Pipeline α) : ConcreteAction → Pass SimulationError (Pipeline α)
  | .issue op role iter slot => issue k l ops p op role iter slot
  | .wait .acquire iter _ => do
      let machine ← p.machine.commit (p.inFlight.getD iter [])
      return { p with machine := machine, inFlight := p.inFlight.erase iter }
  | .wait .release iter slot =>
      if p.consumed.getD iter 0 < l.consumers.length then
        Pass.fail (.releaseViolation l.region iter slot)
      else return { p with released := p.released.insert iter }

/-- Copy the slots of the last iteration back to their buffers. -/
def writeBack (m : Memory α) : Checked (Memory α) :=
  if l.tripCount = 0 then .ok m
  else
    l.rotation.foldlM (fun m r => do
      match l.slotTile r.logical (l.tripCount - 1) with
      | none => return m
      | some slot =>
          if slot = r.logical then return m
          m.replace r.logical (← m.tile slot)) m

@[specialize]
def run (m : Machine α) : Pass SimulationError (Machine α) := do
  let p ← (← l.actions).foldlM (act k l ops) (.start m)
  let m := p.machine.unbind l.var
  return { m with memory := ← writeBack l m.memory }

end StagedLoop

section

variable {α : Type} [Element α] (k : Kernel) (mode : RunMode)

@[specialize]
def Body.run : Body → Machine α → Pass SimulationError (Machine α)
  | .done, m => .ok m
  | .step s rest, m => do
      let m ← m.perform k s.op
      rest.run m
  | .loop head body rest, m => do
      let m ← match head.schedule, mode with
        | some l, .scheduled => l.run k body.entries m
        | _, _ => do
            let m ← Counted.foldM (fun iter m =>
              body.run (m.bind head.var (signed64 iter))) 0 head.tripCount m
            pure (m.unbind head.var)
      rest.run m

def Memory.resetOnChip (m : Memory α) : Memory α :=
  ⟨m.tiles.mapIdx fun i data =>
    match k.tiles[i]? with
    | some t =>
        if t.scope.isOnChip then data.map fun _ => Element.zero else data
    | none => data⟩

@[specialize]
def Kernel.runBlock (m : Memory α) (block : Dim3) :
    Pass SimulationError (Memory α) := do
  return (← k.body.run k mode ⟨m.resetOnChip k, .ofBlock block⟩).memory

def Kernel.blockCount (limit : Option Nat) : Checked Nat := do
  let total ← k.numBlocks
  return match limit with
    | some n => min n total
    | none => total

/-- Run blocks in launch order, at most `limit` of them. -/
@[specialize]
def Kernel.run (limit : Option Nat) (m : Memory α) :
    Pass SimulationError (Memory α) := do
  let count ← k.blockCount limit
  Counted.foldM (fun n m => do k.runBlock mode m (← LaunchOrder.block k n))
    0 (LaunchOrder.upTo k count) m

end

end TileProgram
