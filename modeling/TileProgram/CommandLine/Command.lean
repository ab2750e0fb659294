import TileProgram.CommandLine.Arguments
import TileProgram.Kernel.Matmul

/-!
# Commands

The commands of the program and how they are read from its arguments.
-/

namespace TileProgram
namespace CommandLine

inductive Command where
  | build (input : String) (output : Option String) (listing : Bool)
      (target : String)
  | check (input target : String)
  | verify (input target supply : String) (seed blocks : Nat)
  | matmul (config : MatmulConfig) (target : String) (verify : Bool)
      (output : Option String)
  | targets
  deriving DecidableEq, Repr

structure Invocation where
  verbose : Bool
  command : Command
  deriving DecidableEq, Repr

def verboseFlag : OptionSpec := ⟨"verbose", some 'v', .flag⟩
def helpFlag : OptionSpec := ⟨"help", some 'h', .help⟩
def versionFlag : OptionSpec := ⟨"version", some 'V', .version⟩
def outputOption : OptionSpec := ⟨"output", some 'o', .path⟩
def targetOption : OptionSpec := ⟨"target", none, .text⟩

def Spec.ofOptions (options : List OptionSpec) (places : List String) : Spec :=
  ⟨options ++ [verboseFlag, helpFlag], places, []⟩

def topSpec : Spec :=
  ⟨[verboseFlag, helpFlag, versionFlag], [],
    ["build", "check", "verify", "demo", "targets", "help"]⟩

def buildSpec : Spec :=
  .ofOptions [outputOption, ⟨"listing", none, .flag⟩, targetOption] ["INPUT"]

def checkSpec : Spec := .ofOptions [targetOption] ["INPUT"]

def verifySpec : Spec :=
  .ofOptions [targetOption, ⟨"supply", none, .text⟩, ⟨"seed", none, .word64⟩,
    ⟨"blocks", none, .word64⟩] ["INPUT"]

def demoSpec : Spec := ⟨[verboseFlag, helpFlag], [], ["matmul", "help"]⟩

def matmulSpec : Spec :=
  let sizes :=
    ["m", "n", "k", "block-m", "block-n", "block-k", "stages", "threads"]
  .ofOptions (sizes.map (fun name => ⟨name, none, .word32⟩)
    ++ [targetOption, ⟨"verify", none, .flag⟩, outputOption]) []

def targetsSpec : Spec := .ofOptions [] []

def defaultTarget : String := "sm80"

def Given.target (g : Given) : String := g.text "target" defaultTarget

def Given.input (g : Given) : Except Interrupt String :=
  match g.places with
  | [] => .error (.usage (.missingArgument "INPUT"))
  | input :: _ => .ok input

def leaf
    (verbose : Bool) (spec : Spec) (args : List String)
    (command : Given → Except Interrupt Command) :
    Except Interrupt Invocation := do
  let parsed ← spec.parse args
  return ⟨verbose || parsed.given.has "verbose", ← command parsed.given⟩

def matmulConfig (g : Given) : MatmulConfig :=
  let d := MatmulConfig.default
  { d with
    m := g.number "m" d.m
    n := g.number "n" d.n
    k := g.number "k" d.k
    blockM := g.number "block-m" d.blockM
    blockN := g.number "block-n" d.blockN
    blockK := g.number "block-k" d.blockK
    stages := g.number "stages" d.stages
    threads := g.number "threads" d.threads }

def matmul (verbose : Bool) (args : List String) :
    Except Interrupt Invocation :=
  leaf verbose matmulSpec args fun g =>
    return .matmul (matmulConfig g) g.target (g.has "verify") (g.text? "output")

def helpOn (spec : Spec) : List String → Interrupt
  | [] => .help
  | name :: rest =>
      if !spec.commands.contains name then .usage (.unknownCommand name)
      else
        match name, rest with
        | "demo", inner :: more =>
            if demoSpec.commands.contains inner && more.isEmpty then .help
            else .usage (.unknownCommand inner)
        | _, inner :: _ => .usage (.unknownCommand inner)
        | _, [] => .help

def demo (verbose : Bool) (args : List String) :
    Except Interrupt Invocation := do
  let parsed ← demoSpec.parse args
  let verbose := verbose || parsed.given.has "verbose"
  match parsed.next with
  | some ("matmul", rest) => matmul verbose rest
  | some (_, rest) => throw (helpOn demoSpec rest)
  | none => throw (.usage .missingCommand)

def Invocation.parse (args : List String) : Except Interrupt Invocation := do
  let parsed ← topSpec.parse args
  let verbose := parsed.given.has "verbose"
  match parsed.next with
  | some ("build", rest) =>
      leaf verbose buildSpec rest fun g =>
        return .build (← g.input) (g.text? "output") (g.has "listing") g.target
  | some ("check", rest) =>
      leaf verbose checkSpec rest fun g => return .check (← g.input) g.target
  | some ("verify", rest) =>
      leaf verbose verifySpec rest fun g =>
        return .verify (← g.input) g.target (g.text "supply" "integer")
          (g.number "seed" 0) (g.number "blocks" 4)
  | some ("demo", rest) => demo verbose rest
  | some ("targets", rest) =>
      leaf verbose targetsSpec rest fun _ => return .targets
  | some (_, rest) => throw (helpOn topSpec rest)
  | none => throw (.usage .missingCommand)

end CommandLine
end TileProgram
