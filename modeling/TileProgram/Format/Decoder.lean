import TileProgram.Fault
import TileProgram.Json.Basic

/-!
# Decoders

A decoder reads a value of some type from a JSON value, at most `depth`
brackets deep.  A record is written as an object or as the array of its fields
in order; fields a record does not know are passed over, and a known field
stands at most once.  A variant is written as its tag alone, or as an object
whose only key is the tag.  How a variant may be written depends a little on
the form in which its text arrives.
-/

namespace TileProgram

/-- The form in which a value arrives at its decoder. -/
inductive Form where
  | file
  /-- Built before any of it is decoded.  A record under a tag is an object. -/
  | built
  /-- Set aside until the variant it belongs to is known.  A tag without
  contents may stand over an empty object. -/
  | setAside
  deriving DecidableEq, Repr

/-- Reads a value that arrives in some form, at most `depth` brackets deep. -/
abbrev Decoder (α : Type) := Form → Nat → Json → Option α

namespace Decoder

def bool : Decoder Bool
  | _, _, .bool b => some b
  | _, _, _ => none

def string : Decoder String
  | _, _, .string s => some s
  | _, _, _ => none

def below (limit : Nat) : Decoder Nat
  | _, _, .int (.ofNat n) => if n < limit then some n else none
  | _, _, _ => none

def word8 : Decoder Nat := below 256

def word32 : Decoder Nat := below limit32

def word64 : Decoder Nat := below limit64

def int64 : Decoder Int
  | _, _, .int z => if IsInt64 z then some z else none
  | _, _, _ => none

/-- A finite double; integers are rounded to the nearest one. -/
def float : Decoder Float
  | _, _, .float x => if x.isFinite then some x else none
  | _, _, .int z => some (Float.ofInt z)
  | _, _, _ => none

def list {α : Type} (item : Decoder α) : Decoder (List α)
  | form, depth + 1, .array items => items.mapM (item form depth)
  | _, _, _ => none

def pair {α β : Type} (first : Decoder α) (second : Decoder β) : Decoder (α × β)
  | form, depth + 1, .array [a, b] => do
      return (← first form depth a, ← second form depth b)
  | _, _, _ => none

def triple {α β : Type} (item : Decoder α) (make : α → α → α → β) : Decoder β
  | form, depth + 1, .array [a, b, c] => do
      return make (← item form depth a) (← item form depth b)
        (← item form depth c)
  | _, _, _ => none

def nullable {α : Type} (value : Decoder α) : Decoder (Option α)
  | _, _, .null => some none
  | form, depth, j => (value form depth j).map some

end Decoder

structure Fields where
  form : Form
  depth : Nat
  entries : List (String × Json)

namespace Fields

def ofJson? (names : List String) : Decoder Fields
  | form, depth + 1, .object fields =>
      let known := fields.filter fun (key, _) => names.contains key
      if known.all fun (key, _) => (known.countP (·.1 == key)) == 1 then
        some ⟨form, depth, known⟩
      else none
  | form, depth + 1, .array items =>
      if items.length ≤ names.length then some ⟨form, depth, names.zip items⟩
        else none
  | _, _, _ => none

def required {α : Type} (f : Fields) (name : String) (value : Decoder α) :
    Option α :=
  (f.entries.lookup name).bind (value f.form f.depth)

def withDefault
    {α : Type} (f : Fields) (name : String) (value : Decoder α) (default : α) :
    Option α :=
  match f.entries.lookup name with
  | some j => value f.form f.depth j
  | none => some default

def optional {α : Type} (f : Fields) (name : String) (value : Decoder α) :
    Option (Option α) :=
  f.withDefault name (Decoder.nullable value) none

end Fields

structure Variant where
  tag : String
  form : Form
  depth : Nat
  payload : Json

namespace Variant

def ofJson? : Decoder Variant
  | form, depth, .string tag => some ⟨tag, form, depth, .null⟩
  | form, depth + 1, .object [(tag, payload)] =>
      some ⟨tag, form, depth, payload⟩
  | _, _, _ => none

def unit? {α : Type} (v : Variant) (value : α) : Option α :=
  match v.payload with
  | .null => some value
  | .object [] => if v.form = .setAside then some value else none
  | _ => none

def content? {α : Type} (v : Variant) (value : Decoder α) : Option α :=
  value v.form v.depth v.payload

def record? (v : Variant) (names : List String) : Option Fields :=
  match v.form, v.payload with
  | .built, .array _ => none
  | _, _ => v.content? (Fields.ofJson? names)

end Variant

def Decoder.name {α : Type} (ofName? : String → Option α) : Decoder α :=
  fun form depth j => do
    let v ← Variant.ofJson? form depth j
    let value ← ofName? v.tag
    v.unit? value

end TileProgram
