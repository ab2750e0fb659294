import TileProgram.Counted
import TileProgram.Staged.Basic

/-!
# Unrolled schedules

Unrolling resolves the iteration and the slot of every action, in the order in
which the actions run.  Waits on iterations before the first are left out.
-/

namespace TileProgram

/-- Iteration at a counter value; none before the first one. -/
def Iteration.at? (iter : Iteration) (counter : Nat) : Checked (Option Nat) :=
  match iter with
  | fixed j => .ok (some j)
  | relative d => do
      let j ← Checked.int64 (signed64 counter + d)
      return if 0 ≤ j then some j.toNat else none

inductive ConcreteAction where
  | issue (op : OpId) (role : StageRole) (iter slot : Nat)
  | wait (kind : WaitKind) (iter slot : Nat)
  deriving DecidableEq, Repr

structure ConcreteStep where
  phase : Phase
  actions : List ConcreteAction
  deriving DecidableEq, Repr

/-- The consumers of an iteration start after its producers have landed. -/
structure SyncEdge where
  producer : OpId
  consumer : OpId
  iter : Nat
  slot : Nat
  deriving DecidableEq, Repr

namespace StagedLoop

def concreteAction? (l : StagedLoop) (counter : Nat) :
    Action → Checked (Option ConcreteAction)
  | .issue op role iter => do
      return (← iter.at? counter).map fun j => .issue op role j (l.slot j)
  | .wait kind iter => do
      return (← iter.at? counter).map fun j => .wait kind j (l.slot j)

def concreteStep
    (l : StagedLoop) (phase : Phase) (counter : Nat) (actions : List Action) :
    Checked ConcreteStep := do
  return ⟨phase, (← actions.mapM (l.concreteAction? counter)).reduceOption⟩

def unroll (l : StagedLoop) : Checked (List ConcreteStep) := do
  let prologue ← l.prologue.mapM (l.concreteStep .prologue 0)
  let steady ← match l.steady with
    | none => pure []
    | some s =>
        Counted.mapM (fun counter => l.concreteStep .steady counter s.actions)
          s.first (s.last + 1 - s.first)
  let epilogue ← l.epilogue.mapM (l.concreteStep .epilogue 0)
  return prologue ++ steady ++ epilogue

def actions (l : StagedLoop) : Checked (List ConcreteAction) := do
  return (← l.unroll).flatMap (·.actions)

def stepEdges (producers : List OpId) :
    Option Nat → List ConcreteAction → List SyncEdge
  | _, [] => []
  | _, .wait .acquire iter _ :: rest => stepEdges producers (some iter) rest
  | acquired, .issue op .consumer iter slot :: rest =>
      (if acquired = some iter then producers.map fun p =>
        ⟨p, op, iter, slot⟩ else []) ++ stepEdges producers acquired rest
  | acquired, _ :: rest => stepEdges producers acquired rest

def syncEdges (l : StagedLoop) : Checked (List SyncEdge) := do
  return (← l.unroll).flatMap fun step =>
    stepEdges l.producers none step.actions

end StagedLoop

end TileProgram
