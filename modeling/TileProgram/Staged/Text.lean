import TileProgram.Staged.Basic

/-!
# Schedules in listings

One line for the stage counts, one for each rotated buffer and one for each
step.
-/

namespace TileProgram

def Iteration.text : Iteration → Checked String
  | fixed j => .ok j.repr
  | relative d =>
      if d = 0 then .ok "i"
      else if 0 < d then .ok s!"i+{d}"
      else do
        let back ← Checked.int64 (-d)
        return s!"i-{back}"

def Action.text : Action → Checked String
  | issue op _ iter => do return op.text ++ "@" ++ (← iter.text)
  | wait .acquire iter => do return "acquire(" ++ (← iter.text) ++ ")"
  | wait .release iter => do return "release(" ++ (← iter.text) ++ ")"

namespace StagedLoop

def stepText (actions : List Action) : Checked String := do
  return " ".intercalate (← actions.mapM Action.text)

def phaseLines (name : String) (steps : List (List Action)) :
    Checked (List String) :=
  steps.zipIdx.mapM fun (actions, i) => do
    return s!"{name}[{i}]: " ++ (← stepText actions)

def rotationLine (r : RotatedBuffer) : String :=
  s!"rotate {r.logical.text} -> [" ++
    ", ".intercalate (r.slots.toList.map TileId.text) ++ "]"

def steadyLines : Option SteadyState → Checked (List String)
  | none => .ok []
  | some s => do
      return [s!"steady i={s.first}..={s.last}: " ++ (← stepText s.actions)]

def lines (l : StagedLoop) : Checked (List String) := do
  let head :=
    s!"stages={l.stages} (requested {l.requestedStages}) trip={l.tripCount}"
  let prologue ← phaseLines "prologue" l.prologue
  let steady ← steadyLines l.steady
  let epilogue ← phaseLines "epilogue" l.epilogue
  return head :: l.rotation.map rotationLine ++ prologue ++ steady ++ epilogue

end StagedLoop

end TileProgram
