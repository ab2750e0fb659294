import TileProgram.Digest.Blake3
import TileProgram.Inference.Basic
import TileProgram.Kernel.Listing
import TileProgram.Selection
import TileProgram.Simulation.Verify
import TileProgram.Staged.Schedule

/-!
# Compilation

Compiling a kernel infers layouts, schedules its loops and selects strategies.
The first pass that fails ends it.  The fingerprint of the result is a digest
of its listing.
-/

namespace TileProgram

inductive CompileError where
  | inference (error : InferenceError)
  | schedule (error : ScheduleError)
  | selection (error : SelectionError)
  | simulation (error : SimulationError)
  deriving DecidableEq, Repr

namespace CompileError

def message : CompileError → String
  | inference e => e.message
  | schedule e => e.message
  | selection e => e.message
  | simulation e => e.message

def diagnostic : CompileError → Diagnostic
  | inference e => e.diagnostic
  | schedule e => e.diagnostic
  | selection e => e.diagnostic
  | simulation e => e.diagnostic

end CompileError

structure Compiled where
  kernel : Kernel
  warnings : List Diagnostic
  relayouts : List RelayoutRecord
  fingerprint : String

structure CompileOptions where
  target : Target
  verifySchedule : Bool
  supply : Supply
  deriving DecidableEq, Repr

def CompileOptions.ofTarget (target : Target) : CompileOptions :=
  ⟨target, false, .integer⟩

/-- An error and the listing that its site refers to. -/
structure Finding where
  error : CompileError
  listing : Listing

namespace Kernel

def fingerprint (k : Kernel) : Checked String := do
  return Digest.ofText (← k.listing).text

def compile (k : Kernel) (target : Target) : Pass CompileError Compiled := do
  let inferred ← Pass.within .inference (k.infer target)
  let scheduled ← Pass.within .schedule (inferred.kernel.schedule target)
  let selected ← Pass.within .selection (scheduled.selectAll target)
  return ⟨selected, inferred.diagnostics, inferred.relayouts,
    ← selected.fingerprint⟩

def verifyCompiled (k : Kernel) (opts : RunOptions) :
    Pass Finding Verified := do
  let annotated ← k.listing
  Pass.within (fun e => ⟨.simulation e, annotated⟩) (k.verify opts .standard)

/-- Compile with options.  Errors of the passes refer to the listing of the
kernel as given, errors of the comparison to that of the result. -/
def compileWith (k : Kernel) (options : CompileOptions) :
    Pass Finding Compiled := do
  let given ← k.listing
  let compiled ← Pass.within (⟨·, given⟩) (k.compile options.target)
  if options.verifySchedule then
    let _ ← compiled.kernel.verifyCompiled
      { RunOptions.standard with supply := options.supply }
  return compiled

def check (k : Kernel) (options : CompileOptions) :
    Pass Finding (List Diagnostic) := do
  return (← k.compileWith options).warnings

def compileAndVerify
    (k : Kernel) (options : CompileOptions) (opts : RunOptions) :
    Pass Finding Verified := do
  (← k.compileWith options).kernel.verifyCompiled opts

end Kernel

end TileProgram
