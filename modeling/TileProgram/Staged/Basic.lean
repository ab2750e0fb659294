import TileProgram.Fault
import TileProgram.Id

/-!
# Staged loops

A loop of `T` iterations in `S` stages runs its producers `S - 1` iterations
ahead of its consumers.  The prologue issues producers only, each steady step
releases a slot, issues producers and the consumers that lag behind, and the
epilogue issues the remaining consumers.  Iteration `j` uses slot `j mod S` of
every rotated buffer.
-/

namespace TileProgram

inductive StageRole where
  | producer
  | consumer
  deriving DecidableEq, Repr

inductive Phase where
  | prologue
  | steady
  | epilogue
  deriving DecidableEq, Repr

inductive Iteration where
  | fixed (iter : Nat)
  /-- Distance from the counter of the steady state. -/
  | relative (distance : Int)
  deriving DecidableEq, Repr

inductive WaitKind where
  /-- The consumers of an iteration wait for its producers. -/
  | acquire
  /-- The producers wait for the consumers of the iteration before in the
  slot. -/
  | release
  deriving DecidableEq, Repr

inductive Action where
  | issue (op : OpId) (role : StageRole) (iter : Iteration)
  | wait (kind : WaitKind) (iter : Iteration)
  deriving DecidableEq, Repr

structure SteadyState where
  first : Nat
  last : Nat
  actions : List Action
  deriving DecidableEq, Repr

structure RotatedBuffer where
  logical : TileId
  slots : Array TileId
  deriving DecidableEq, Repr

structure StagedLoop where
  region : OpId
  var : String
  tripCount : Nat
  requestedStages : Nat
  stages : Nat
  producers : List OpId
  consumers : List OpId
  rotation : List RotatedBuffer
  prologue : List (List Action)
  steady : Option SteadyState
  epilogue : List (List Action)
  deriving DecidableEq, Repr

/-- Stages in use: at least one, and no more than there are iterations. -/
def effectiveStages (requested tripCount : Nat) : Nat :=
  min (max 1 requested) (max 1 tripCount)

namespace StagedLoop

def issueAll (ops : List OpId) (role : StageRole) (iter : Iteration) :
    List Action :=
  ops.map fun op => .issue op role iter

def consume (consumers : List OpId) (iter : Iteration) : List Action :=
  .wait .acquire iter :: issueAll consumers .consumer iter

def steadyActions (s : Nat) (producers consumers : List OpId) : List Action :=
  .wait .release (.relative (-(s : Int)))
    :: issueAll producers .producer (.relative 0)
    ++ consume consumers (.relative (-((s - 1 : Nat) : Int)))

/-- The schedule of a loop.  `rotation` holds a tile for each stage in use. -/
def build
    (region : OpId) (var : String) (tripCount requested : Nat)
    (producers consumers : List OpId) (rotation : List RotatedBuffer) :
    StagedLoop :=
  let s := effectiveStages requested tripCount
  let ahead := if tripCount = 0 then 0 else s - 1
  { region, var, tripCount, producers, consumers, rotation
    requestedStages := requested
    stages := s
    prologue :=
      (List.range ahead).map fun p => issueAll producers .producer (.fixed p)
    steady :=
      if tripCount = 0 then none
      else some ⟨s - 1, tripCount - 1, steadyActions s producers consumers⟩
    epilogue := (List.range' (tripCount - ahead) ahead).map fun j =>
      consume consumers (.fixed j) }

def slot (l : StagedLoop) (iter : Nat) : Nat := iter % max 1 l.stages

def roleOf (l : StagedLoop) (op : OpId) : Option StageRole :=
  if l.producers.contains op then some .producer
  else if l.consumers.contains op then some .consumer
  else none

def slotTile (l : StagedLoop) (logical : TileId) (iter : Nat) : Option TileId :=
  (l.rotation.find? (·.logical == logical)).bind fun r => r.slots[l.slot iter]?

end StagedLoop

end TileProgram
