import TileProgram.Target.Basic
import TileProgram.Text.Blank
import TileProgram.Text.Number
import TileProgram.Text.Split

/-!
# Target descriptors

A descriptor is a text of sections and assignments.  The last assignment of a
key in its section counts; unknown keys, comments and lines that assign nothing
are passed over.  Sections named `mma.NAME` describe matrix instructions.
-/

namespace TileProgram

inductive DescriptorError where
  | invalidNumber (sect key value : String)
  | shapeNotThree (instruction value : String)
  | unknownType (instruction key text : String)
  | missingName
  | unknownVendor (text : String)
  | noBanks
  | noCapacity
  | noVector
  | unknownEngine (text : String)
  | missingTypes (instruction : String)
  | invalidInstruction (reason : String)
  deriving DecidableEq, Repr

def DescriptorError.message : DescriptorError → String
  | invalidNumber sect key value => s!"invalid {sect}.{key}: {value}"
  | shapeNotThree instruction value =>
      s!"mma.{instruction}.shape must have three entries: {value}"
  | unknownType instruction key text =>
      s!"mma.{instruction}.{key}: " ++ ElementType.unknownMessage text
  | missingName => "missing target.name"
  | unknownVendor text =>
      s!"unknown vendor '{text}' (expected 'nvidia' or 'amd')"
  | noBanks => "shared_memory.banks and bank_bytes must be > 0"
  | noCapacity => "shared_memory.capacity_bytes must be > 0"
  | noVector => "target.vector_bytes must be > 0"
  | unknownEngine text =>
      s!"unknown bulk_copy.engine '{text}' (expected 'tma', 'cp.async' or 'none')"
  | missingTypes instruction =>
      s!"mma.{instruction} needs a, b and acc element types"
  | invalidInstruction reason => reason

structure InstructionDraft where
  name : String
  shape : GemmShape
  a : Option ElementType
  b : Option ElementType
  acc : Option ElementType
  deriving DecidableEq, Repr

structure TargetDraft where
  name : String
  displayName : String
  vendor : String
  arch : String
  warpSize : Nat
  vectorBytes : Nat
  maxThreads : Nat
  banks : Nat
  bankBytes : Nat
  capacityBytes : Nat
  bulkEngine : String
  bulkMinBytes : Nat
  instructions : List InstructionDraft
  deriving DecidableEq, Repr

def TargetDraft.initial : TargetDraft where
  name := ""
  displayName := ""
  vendor := ""
  arch := ""
  warpSize := 0
  vectorBytes := 16
  maxThreads := 1024
  banks := 32
  bankBytes := 4
  capacityBytes := 0
  bulkEngine := ""
  bulkMinBytes := 1024
  instructions := []

namespace Descriptor

inductive Line where
  | sect (name : String)
  | assign (key value : String)
  deriving DecidableEq, Repr

def sectionName? : List Char → Option String
  | '[' :: rest =>
      if rest.getLast? = some ']' then
        some (String.ofList (Text.trim rest.dropLast)) else none
  | _ => none

/-- Reading of a line; comments and lines without an assignment say nothing. -/
def line? (text : List Char) : Option Line :=
  match Text.trim text with
  | [] => none
  | '#' :: _ => none
  | cs =>
      match sectionName? cs with
      | some name => some (.sect name)
      | none =>
          (Text.cut? '=' cs).map fun (key, value) =>
            .assign (String.ofList (Text.trim key))
              (String.ofList (Text.trim value))

def lines (text : String) : List Line :=
  (Text.split '\n' text.toList).filterMap line?

def unquote (value : String) : String :=
  String.ofList (Text.stripWhile (· == '"') value.toList)

def numbers (value : String) : List Nat :=
  let inner := value.toList.dropWhile (· == '[')
  let inner := (inner.reverse.dropWhile (· == ']')).reverse
  (Text.split ',' inner).filterMap fun piece =>
    Text.unsigned? limit32 (Text.trim piece)

def number (sect key value : String) : Except DescriptorError Nat :=
  match Text.unsigned? limit64 value.toList with
  | some n => .ok n
  | none => .error (.invalidNumber sect key value)

def assignInstruction (i : InstructionDraft) (key value : String) :
    Except DescriptorError InstructionDraft :=
  let type : Except DescriptorError (Option ElementType) :=
    match ElementType.parse? (unquote value) with
    | some t => .ok (some t)
    | none => .error (.unknownType i.name key (unquote value))
  match key with
  | "shape" =>
      match numbers value with
      | [m, n, k] => .ok { i with shape := ⟨m, n, k⟩ }
      | _ => .error (.shapeNotThree i.name value)
  | "a" => return { i with a := ← type }
  | "b" => return { i with b := ← type }
  | "acc" => return { i with acc := ← type }
  | _ => .ok i

/-- Assign a key of the instruction with a name, which is new at the end if it
has not been seen. -/
def assignNamed (name key value : String) :
    List InstructionDraft → Except DescriptorError (List InstructionDraft)
  | [] =>
      return [← assignInstruction ⟨name, ⟨0, 0, 0⟩, none, none, none⟩ key value]
  | i :: rest =>
      if i.name = name then return (← assignInstruction i key value) :: rest
      else return i :: (← assignNamed name key value rest)

/-- Assign a key of a section.  Numbers of 32 bits are cut to their low bits. -/
def assign (d : TargetDraft) (sect key value : String) :
    Except DescriptorError TargetDraft :=
  let long := number sect key value
  let short := low32 <$> long
  match sect, key with
  | "target", "name" => .ok { d with name := unquote value }
  | "target", "display_name" => .ok { d with displayName := unquote value }
  | "target", "vendor" => .ok { d with vendor := unquote value }
  | "target", "arch" => .ok { d with arch := unquote value }
  | "target", "warp_size" => return { d with warpSize := ← short }
  | "target", "vector_bytes" => return { d with vectorBytes := ← short }
  | "target", "max_threads" => return { d with maxThreads := ← short }
  | "shared_memory", "banks" => return { d with banks := ← short }
  | "shared_memory", "bank_bytes" => return { d with bankBytes := ← short }
  | "shared_memory", "capacity_bytes" =>
      return { d with capacityBytes := ← long }
  | "bulk_copy", "engine" => .ok { d with bulkEngine := unquote value }
  | "bulk_copy", "min_bytes" => return { d with bulkMinBytes := ← long }
  | _, _ =>
      match Text.after? "mma.".toList sect.toList with
      | some name =>
          return { d with
            instructions :=
              ← assignNamed (String.ofList name) key value d.instructions }
      | none => .ok d

def read : String → TargetDraft → List Line → Except DescriptorError TargetDraft
  | _, d, [] => .ok d
  | _, d, .sect name :: rest => read name d rest
  | sect, d, .assign key value :: rest => do
      read sect (← assign d sect key value) rest

def bulkCopy (engine : String) (minBytes : Nat) :
    Except DescriptorError (Option BulkCopy) :=
  match engine with
  | "" => .ok none
  | "none" => .ok none
  | "tma" => .ok (some ⟨.tma, minBytes⟩)
  | "cp.async" => .ok (some ⟨.cpAsync, minBytes⟩)
  | "cp_async" => .ok (some ⟨.cpAsync, minBytes⟩)
  | other => .error (.unknownEngine other)

/-- A described instruction, if it is complete and its vendor has its atoms. -/
def instruction (i : InstructionDraft) (vendor : Vendor) (lanes : Nat) :
    Except DescriptorError MatrixInstruction :=
  match i.a, i.b, i.acc with
  | some a, some b, some acc =>
      let instruction : MatrixInstruction :=
        ⟨i.name, vendor, i.shape, a, b, acc, lanes⟩
      match instruction.violation? with
      | some reason => .error (.invalidInstruction reason)
      | none => .ok instruction
  | _, _, _ => .error (.missingTypes i.name)

def finish (d : TargetDraft) : Except DescriptorError Target := do
  if d.name.isEmpty then throw .missingName
  let some vendor := Vendor.ofName? d.vendor | throw (.unknownVendor d.vendor)
  let warpSize := if d.warpSize = 0 then vendor.lanes else d.warpSize
  if d.banks = 0 ∨ d.bankBytes = 0 then throw .noBanks
  if d.capacityBytes = 0 then throw .noCapacity
  if d.vectorBytes = 0 then throw .noVector
  let bulkCopy ← bulkCopy d.bulkEngine d.bulkMinBytes
  let instructions ← d.instructions.mapM (instruction · vendor warpSize)
  return {
    name := d.name
    displayName := if d.displayName.isEmpty then d.name else d.displayName
    vendor
    arch := if d.arch.isEmpty then d.name else d.arch
    warpSize
    shared := ⟨d.banks, d.bankBytes, d.capacityBytes⟩
    vectorBytes := d.vectorBytes
    maxThreads := d.maxThreads
    bulkCopy
    instructions }

def parse (text : String) : Except DescriptorError Target := do
  finish (← read "" .initial (lines text))

end Descriptor

end TileProgram
