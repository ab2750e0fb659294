import TileProgram.Diagnostic
import TileProgram.Host.Basic
import TileProgram.Target.Descriptor

/-!
# Targets by name

A name is a preset, `auto` for the toolkit that is installed, or the name of a
descriptor in a folder `targets` next to the program or in the working folder.
-/

namespace TileProgram
namespace Target

/-- A name that could lead out of the folder of descriptors is refused. -/
def isProperName (name : String) : Bool :=
  let cs := name.toList
  !(cs.isEmpty || cs.contains '/' || cs.contains '\\' || cs.head? == some '.'
    || (cs.zip (cs.drop 1)).contains ('.', '.'))

def presetNames : String := ", ".intercalate (presets.map (·.name))

variable {m : Type → Type} [Monad m]

def isSet (host : Host m) (name : String) : m Bool := do
  return ((← host.environment name).getD "") != ""

/-- Some of the actions holds, none after it being run. -/
def anyOf : List (m Bool) → m Bool
  | [] => return false
  | test :: rest => do
      if ← test then return true else anyOf rest

def detect (host : Host m) : m (Except Diagnostic Target) := do
  if ← anyOf [isSet host "CUDA_HOME", isSet host "CUDA_PATH",
    host.isPresent "/usr/local/cuda"] then
    return .ok sm80
  if ← anyOf [isSet host "ROCM_PATH", host.isPresent "/opt/rocm"] then
    return .ok gfx90a
  let missing :=
    Diagnostic.error "cannot detect a GPU toolkit for target 'auto'" .nowhere
  return .error (missing.withHelp ("pass an explicit target: " ++ presetNames))

def load (host : Host m) (path : String) : m (Except Diagnostic Target) := do
  match ← host.readText path with
  | .error reason =>
      return .error (Diagnostic.error
        s!"cannot read target descriptor '{path}': {reason}" .nowhere)
  | .ok text =>
      return (Descriptor.parse text).mapError fun e =>
        Diagnostic.error s!"{path}: {e.message}" .nowhere

def firstPresent (host : Host m) : List String → m (Option String)
  | [] => return none
  | path :: rest => do
      if ← host.isPresent path then return some path else firstPresent host rest

def resolve (host : Host m) (name : String) : m (Except Diagnostic Target) := do
  if !isProperName name then
    return .error (Diagnostic.error s!"invalid target name '{name}'" .nowhere)
  if name == "auto" then
    detect host
  else
    match preset? name with
    | some target => return .ok target
    | none =>
        let relative := s!"targets/{name}.toml"
        let near :=
          (← host.programFolders).map fun folder => s!"{folder}/{relative}"
        match ← firstPresent host (near ++ [relative]) with
        | some path => load host path
        | none =>
            let unknown := Diagnostic.error
              s!"unknown target '{name}' (looked for '{relative}')" .nowhere
            return .error
              (unknown.withHelp ("available targets: auto, " ++ presetNames))

end Target
end TileProgram
