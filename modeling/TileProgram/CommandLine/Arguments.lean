import TileProgram.Text.Number
import TileProgram.Text.Split

/-!
# Arguments

A command takes options, places for positional arguments, or further commands.
An option stands as `--name value`, `--name=value`, or by its letter as
`-n value`, `-nvalue` or `-n=value`; flags take no value and their letters may
be joined.  After `--` every argument is positional.  Nothing may be given
twice.
-/

namespace TileProgram
namespace CommandLine

inductive UsageError where
  | unknownArgument (text : String)
  | unknownCommand (text : String)
  | missingCommand
  | missingValue (name : String)
  | missingArgument (name : String)
  | unexpectedValue (name value : String)
  | invalidValue (name value : String)
  | repeated (name : String)
  deriving DecidableEq, Repr

def UsageError.message : UsageError → String
  | unknownArgument text => s!"unexpected argument '{text}'"
  | unknownCommand text => s!"unrecognized subcommand '{text}'"
  | missingCommand => "a subcommand is required"
  | missingValue name => s!"a value is required for '--{name}'"
  | missingArgument name => s!"the argument <{name}> is required"
  | unexpectedValue name value => s!"unexpected value '{value}' for '--{name}'"
  | invalidValue name value => s!"invalid value '{value}' for '{name}'"
  | repeated name => s!"the argument '--{name}' cannot be used multiple times"

inductive OptionKind where
  | flag
  | text
  | path
  | word32
  | word64
  | help
  | version
  deriving DecidableEq, Repr

namespace OptionKind

def takesValue : OptionKind → Bool
  | flag => false
  | help => false
  | version => false
  | _ => true

def accepts (kind : OptionKind) (value : String) : Bool :=
  match kind with
  | path => value != ""
  | word32 =>
      match Text.signed? value.toList with
      | some z => 0 ≤ z && z < 0x100000000
      | none => false
  | word64 => (Text.unsigned? limit64 value.toList).isSome
  | _ => true

end OptionKind

structure OptionSpec where
  name : String
  letter : Option Char
  kind : OptionKind
  deriving DecidableEq, Repr

structure Spec where
  options : List OptionSpec
  places : List String
  commands : List String
  deriving DecidableEq, Repr

structure Given where
  options : List (String × String)
  places : List String
  deriving DecidableEq, Repr

inductive Interrupt where
  | usage (error : UsageError)
  | help
  | version
  deriving DecidableEq, Repr

namespace Given

def nothing : Given := ⟨[], []⟩

def has (g : Given) (name : String) : Bool := (g.options.lookup name).isSome

def text (g : Given) (name default : String) : String :=
  (g.options.lookup name).getD default

def text? (g : Given) (name : String) : Option String := g.options.lookup name

def number (g : Given) (name : String) (default : Nat) : Nat :=
  match g.options.lookup name with
  | some value => ((Text.signed? value.toList).map Int.toNat).getD
      ((Text.unsigned? limit64 value.toList).getD default)
  | none => default

def addOption (g : Given) (spec : OptionSpec) (value : String) :
    Except Interrupt Given :=
  match spec.kind with
  | .help => .error .help
  | .version => .error .version
  | kind =>
      if g.has spec.name then .error (.usage (.repeated spec.name))
      else if kind.accepts value then
        .ok { g with options := g.options ++ [(spec.name, value)] }
      else .error (.usage (.invalidValue spec.name value))

def addPlace (g : Given) (spec : Spec) (value : String) :
    Except Interrupt Given :=
  match spec.places[g.places.length]? with
  | none => .error (.usage (.unknownArgument value))
  | some name =>
      if value = "" then .error (.usage (.invalidValue name value))
      else .ok { g with places := g.places ++ [value] }

end Given

/-- After an argument: what has been given, and an option that waits for its
value. -/
structure Reading where
  given : Given
  waiting : Option OptionSpec

def readLong (spec : Spec) (g : Given) (cs : List Char) :
    Except Interrupt Reading := do
  let (name, value) := match Text.cut? '=' cs with
    | some (name, value) => (String.ofList name, some (String.ofList value))
    | none => (String.ofList cs, none)
  let some option := spec.options.find? (·.name == name)
    | throw (.usage (.unknownArgument s!"--{name}"))
  match option.kind.takesValue, value with
  | true, some value => return ⟨← g.addOption option value, none⟩
  | true, none => return ⟨g, some option⟩
  | false, some value => throw (.usage (.unexpectedValue name value))
  | false, none => return ⟨← g.addOption option "", none⟩

def readShort (spec : Spec) : List Char → Given → Except Interrupt Reading
  | [], g => return ⟨g, none⟩
  | c :: rest, g => do
      let some option := spec.options.find? (·.letter == some c)
        | throw (.usage (.unknownArgument (String.ofList ['-', c])))
      if option.kind.takesValue then
        match rest with
        | [] => return ⟨g, some option⟩
        | '=' :: value =>
            return ⟨← g.addOption option (String.ofList value), none⟩
        | value => return ⟨← g.addOption option (String.ofList value), none⟩
      else readShort spec rest (← g.addOption option "")

def noneWaiting : Option OptionSpec → Except Interrupt Unit
  | some option => .error (.usage (.missingValue option.name))
  | none => .ok ()

/-- What follows a command: its own arguments, and a further command with the
arguments after it. -/
structure Parsed where
  given : Given
  next : Option (String × List String)

def readPlaces (spec : Spec) (g : Given) (args : List String) :
    Except Interrupt Given :=
  args.foldlM (fun g value => g.addPlace spec value) g

def read (spec : Spec) : List String → Reading → Except Interrupt Parsed
  | [], r => do
      noneWaiting r.waiting
      return ⟨r.given, none⟩
  | arg :: rest, r => do
      match arg.toList with
      | ['-', '-'] =>
          noneWaiting r.waiting
          return ⟨← readPlaces spec r.given rest, none⟩
      | '-' :: '-' :: long =>
          noneWaiting r.waiting
          read spec rest (← readLong spec r.given long)
      | '-' :: c :: short =>
          noneWaiting r.waiting
          read spec rest (← readShort spec (c :: short) r.given)
      | _ =>
          match r.waiting with
          | some option => read spec rest ⟨← r.given.addOption option arg, none⟩
          | none =>
              if spec.commands.isEmpty then
                read spec rest ⟨← r.given.addPlace spec arg, none⟩
              else if spec.commands.contains arg then
                return ⟨r.given, some (arg, rest)⟩
              else throw (.usage (.unknownCommand arg))

def Spec.parse (spec : Spec) (args : List String) : Except Interrupt Parsed :=
  read spec args ⟨.nothing, none⟩

end CommandLine
end TileProgram
