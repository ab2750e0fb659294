import TileProgram.CommandLine.Command
import TileProgram.Compile
import TileProgram.Format.Kernel
import TileProgram.Report
import TileProgram.Target.Resolve

/-!
# Running commands

A command ends with an exit code: `0` for success, `1` for an error it has
reported, `2` for arguments it does not understand and `101` for a fault of the
arithmetic.
-/

namespace TileProgram
namespace CommandLine

def errorCode : Nat := 1
def usageCode : Nat := 2
def faultCode : Nat := 101

def versionText : String := "tilec 0.1.0"

def usageText : String :=
  "tilec: tile layout resolution and pipeline scheduling\n\n" ++
    "Usage: tilec [OPTIONS] <COMMAND>\n\nCommands:\n" ++
    "  build    Infer layouts, schedule pipelines and select strategies for a kernel\n"
    ++ "  check    Run every pass and report diagnostics only\n" ++
    "  verify   Compile, then simulate staged against sequential execution\n" ++
    "  demo     Compile a built-in reference kernel\n" ++
    "  targets  List built-in targets\n"

def withExtension (path extension : String) : String :=
  let (name, folder) := path.toList.reverse.span (· != '/')
  let stem := match Text.cut? '.' name with
    | some (_, stem) => if stem.isEmpty then name else stem
    | none => name
  String.ofList (stem ++ folder).reverse ++ "." ++ extension

def padRight (width : Nat) (text : String) : String :=
  text.pushn ' ' (width - text.length)

def padLeft (width : Nat) (text : String) : String :=
  "".pushn ' ' (width - text.length) ++ text

def targetLine (t : Target) : String :=
  let bulk := (t.bulkCopy.map (·.engine.name)).getD "none"
  let warp := padRight 3 t.warpSize.repr
  let size := padLeft 4 (t.shared.capacityBytes / 1024).repr
  s!"{padRight 8 t.name} {padRight 18 t.displayName} warp={warp} smem={size}KiB "
    ++ s!"bulk={padRight 8 bulk} mma={t.instructions.length}"

section

variable {m : Type → Type} [Monad m] (host : Host m)

/-- Steps of a command; an early end carries the exit code. -/
abbrev Script (m : Type → Type) := ExceptT Nat m

def stop {α : Type} (lines : List String) (code : Nat) : Script m α := do
  lines.forM fun line => (host.report line : m Unit)
  throw code

def checked {α : Type} (x : Checked α) : Script m α :=
  match x with
  | .ok value => return value
  | .error fault => stop host [s!"fault: {reprStr fault}"] faultCode

def compiling {α : Type} (file : String) (x : Pass Finding α) : Script m α :=
  match x with
  | .ok value => return value
  | .error (.fault fault) => checked host (.error fault)
  | .error (.error finding) =>
      stop host (finding.listing.report file finding.error.diagnostic) errorCode

def target (name : String) : Script m Target := do
  match ← (Target.resolve host name : m _) with
  | .ok t => return t
  | .error d => stop host d.plainLines errorCode

def loadKernel (path : String) : m (Except Diagnostic Kernel) := do
  match ← host.readText path with
  | .error reason =>
      return .error
        (Diagnostic.error s!"cannot read '{path}': {reason}" .nowhere)
  | .ok text =>
      match Kernel.ofText? text with
      | some k => return .ok k
      | none =>
          return .error (Diagnostic.error
            s!"invalid kernel '{path}': not a kernel" .nowhere)

def saveKernel (k : Kernel) (path : String) : m (Except Diagnostic Unit) := do
  match ← host.writeText path k.toText with
  | .ok _ => return .ok ()
  | .error reason =>
      return .error
        (Diagnostic.error s!"cannot write '{path}': {reason}" .nowhere)

def orStop {α : Type} (step : m (Except Diagnostic α)) : Script m α := do
  match ← (step : m _) with
  | .ok value => return value
  | .error d => stop host d.plainLines errorCode

def compile (verbose : Bool) (k : Kernel) (options : CompileOptions) :
    Script m Compiled := do
  let file := k.name ++ ".tile"
  let compiled ← compiling host file (k.compileWith options)
  let listing ← checked host compiled.kernel.listing
  let shown := compiled.warnings.flatMap (listing.report file)
  shown.forM fun line => (host.report line : m Unit)
  if verbose then
    host.report (s!"compiled {k.name} for {options.target.name}: " ++
      s!"{compiled.warnings.length} warnings, {compiled.relayouts.length} re-layouts")
  return compiled

def printListing (k : Kernel) : Script m Unit := do
  host.print (← checked host k.listing).text

def perform (i : Invocation) : Script m Unit := do
  match i.command with
  | .build input output listing name =>
      let options := CompileOptions.ofTarget (← target host name)
      let k ← orStop host (loadKernel host input)
      let compiled ← compile host i.verbose k options
      if listing then printListing host compiled.kernel
      let path := output.getD (withExtension input "out.json")
      orStop host (saveKernel host compiled.kernel path)
      let mark := compiled.fingerprint.toList.take 16
      host.report
        (s!"Compiled {compiled.kernel.name} for {options.target.name} -> {path} "
          ++ s!"({String.ofList mark})")
  | .check input name =>
      let options := CompileOptions.ofTarget (← target host name)
      let k ← orStop host (loadKernel host input)
      let warnings := (← compile host i.verbose k options).warnings
      if warnings.isEmpty then host.report s!"OK: {input}"
      else host.report s!"OK: {input} ({warnings.length} warnings)"
  | .verify input name supplyName seed blocks =>
      let some supply := Supply.parse? supplyName
        | stop host ["error: " ++ Supply.unknownMessage supplyName] errorCode
      let options := CompileOptions.ofTarget (← target host name)
      let k ← orStop host (loadKernel host input)
      let compiled ← compile host i.verbose k options
      let limit := if blocks = 0 then none else some blocks
      let v ← compiling host (k.name ++ ".tile")
        (compiled.kernel.verifyCompiled ⟨supply, seed, limit⟩)
      host.report (s!"OK: {v.blocks} blocks, {v.regions} pipelined regions, "
        ++ s!"{v.compared} elements match")
  | .matmul config name verify output =>
      let t ← target host name
      let options := { CompileOptions.ofTarget t with verifySchedule := verify }
      let compiled ← compile host i.verbose config.kernel options
      printListing host compiled.kernel
      if verify then
        host.report "schedule verified against sequential execution"
      if let some path := output then
        orStop host (saveKernel host compiled.kernel path)
  | .targets =>
      Target.presets.forM fun t => host.print (targetLine t ++ "\n")

def run (args : List String) : m Nat := do
  match Invocation.parse args with
  | .error (.usage e) =>
      host.report s!"usage error: {e.message}"
      return usageCode
  | .error .help =>
      host.print usageText
      return 0
  | .error .version =>
      host.print (versionText ++ "\n")
      return 0
  | .ok i =>
      match ← (perform host i).run with
      | .ok _ => return 0
      | .error code => return code

end

end CommandLine
end TileProgram
