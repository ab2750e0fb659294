import TileProgram.Fault

/-!
# Decimal numbers in texts

A number is a row of decimal digits, with an optional sign in front.
-/

namespace TileProgram
namespace Text

def digits? (acc : Nat) : List Char → Option Nat
  | [] => some acc
  | c :: rest =>
      if '0' ≤ c ∧ c ≤ '9' then digits? (acc * 10 + (c.toNat - '0'.toNat)) rest
        else none

def digitRow? : List Char → Option Nat
  | [] => none
  | cs => digits? 0 cs

/-- An unsigned number below `bound`; a plus sign may stand in front. -/
def unsigned? (bound : Nat) (cs : List Char) : Option Nat := do
  let n ← match cs with
    | '+' :: rest => digitRow? rest
    | cs => digitRow? cs
  if n < bound then some n else none

def signed? (cs : List Char) : Option Int := do
  let z ← match cs with
    | '-' :: rest => (digitRow? rest).map fun n => -(n : Int)
    | '+' :: rest => (digitRow? rest).map Int.ofNat
    | cs => (digitRow? cs).map Int.ofNat
  if IsInt64 z then some z else none

end Text
end TileProgram
