/-!
# JSON values

Numbers are kept as the reader sees them: a numeral without fraction and
exponent that fits a machine word is an integer, every other numeral a double.
Objects keep their fields in written order, repetitions included.  Some
well-formed text denotes nothing; it can be passed over, but not read.
-/

namespace TileProgram

inductive Json where
  | null
  | bool (value : Bool)
  | int (value : Int)
  | float (value : Float)
  | string (value : String)
  | array (items : List Json)
  | object (fields : List (String × Json))
  /-- A numeral past the doubles, a string that names half a character, or an
  object with such a key. -/
  | unreadable
  deriving Inhabited

namespace Json

mutual
/-- All of the value can be read, and it nests at most `depth` brackets. -/
def isReadable : Nat → Json → Bool
  | _, .unreadable => false
  | 0, .array _ => false
  | 0, .object _ => false
  | depth + 1, .array items => itemsReadable depth items
  | depth + 1, .object fields => fieldsReadable depth fields
  | _, _ => true

def itemsReadable : Nat → List Json → Bool
  | _, [] => true
  | depth, item :: rest => item.isReadable depth && itemsReadable depth rest

def fieldsReadable : Nat → List (String × Json) → Bool
  | _, [] => true
  | depth, (_, value) :: rest =>
      value.isReadable depth && fieldsReadable depth rest
end

def nat (n : Nat) : Json := .int n

def option {α : Type} (encode : α → Json) : Option α → Json
  | some a => encode a
  | none => .null

def list {α : Type} (encode : α → Json) (items : List α) : Json :=
  .array (items.map encode)

def nats (items : List Nat) : Json := list nat items

def tagged (tag : String) (value : Json) : Json := .object [(tag, value)]

end Json

end TileProgram
