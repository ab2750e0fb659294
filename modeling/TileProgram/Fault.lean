/-!
# Machine words and their faults

Extents, offsets and identifiers live in machine words of 32 or 64 bits and
index arithmetic in signed words of 64 bits.  The values themselves are plain
natural numbers and integers; what a word adds is the point at which a
computation stops.  `Checked` is a computation that may stop that way, and the
functions below are the only places where a fault arises.
-/

namespace TileProgram

abbrev limit32 : Nat := 0x100000000

abbrev limit64 : Nat := 0x10000000000000000

abbrev IsInt64 (z : Int) : Prop :=
  -0x8000000000000000 ≤ z ∧ z < 0x8000000000000000

inductive Fault where
  | overflow
  | divisionByZero
  | outOfRange
  deriving DecidableEq, Repr

abbrev Checked := Except Fault

namespace Checked

def word32 (n : Nat) : Checked Nat :=
  if n < limit32 then .ok n else .error .overflow

def word64 (n : Nat) : Checked Nat :=
  if n < limit64 then .ok n else .error .overflow

def int64 (z : Int) : Checked Int :=
  if IsInt64 z then .ok z else .error .overflow

def sub (a b : Nat) : Checked Nat :=
  if b ≤ a then .ok (a - b) else .error .overflow

def div (a b : Nat) : Checked Nat :=
  if b = 0 then .error .divisionByZero else .ok (a / b)

def mod (a b : Nat) : Checked Nat :=
  if b = 0 then .error .divisionByZero else .ok (a % b)

def ceilDiv (a b : Nat) : Checked Nat :=
  if b = 0 then .error .divisionByZero else .ok ((a + b - 1) / b)

def bit (width position : Nat) : Checked Nat :=
  if position < width then .ok (1 <<< position) else .error .overflow

/-- Left shift of a 64-bit word; bits past the top are lost. -/
def shiftLeft (a amount : Nat) : Checked Nat :=
  if amount < 64 then .ok ((a <<< amount) % limit64) else .error .overflow

def shiftRight (a amount : Nat) : Checked Nat :=
  if amount < 64 then .ok (a >>> amount) else .error .overflow

def entry {α : Type} (table : Array α) (index : Nat) : Checked α :=
  match table[index]? with
  | some value => .ok value
  | none => .error .outOfRange

/-- Number of entries of a new table, whose bytes must be addressable. -/
def table (entryBytes count : Nat) : Checked Nat :=
  if entryBytes * count < 0x8000000000000000 then .ok count
    else .error .overflow

def product (word : Nat → Checked Nat) (factors : List Nat) : Checked Nat :=
  factors.foldlM (fun acc factor => word (acc * factor)) 1

def sum (word : Nat → Checked Nat) (terms : List Nat) : Checked Nat :=
  terms.foldlM (fun acc term => word (acc + term)) 0

def all {α : Type} (test : α → Checked Bool) : List α → Checked Bool
  | [] => .ok true
  | a :: rest => do
      if ← test a then all test rest else return false

def find? {α : Type} (test : α → Checked Bool) : List α → Checked (Option α)
  | [] => .ok none
  | a :: rest => do
      if ← test a then return some a else find? test rest

end Checked

def low32 (n : Nat) : Nat := n % limit32

def signed64 (n : Nat) : Int :=
  if n < 0x8000000000000000 then n else (n : Int) - 0x10000000000000000

/-- Why a pass stops: a fault of the arithmetic under it, or an error of its
own. -/
inductive Stop (ε : Type) where
  | fault (fault : Fault)
  | error (error : ε)
  deriving DecidableEq, Repr

def Stop.map {ε φ : Type} (f : ε → φ) : Stop ε → Stop φ
  | .fault e => .fault e
  | .error e => .error (f e)

abbrev Pass (ε : Type) := Except (Stop ε)

instance {ε : Type} : MonadLift Checked (Pass ε) where
  monadLift x := x.mapError .fault

namespace Pass

def fail {ε α : Type} (e : ε) : Pass ε α := .error (.error e)

/-- Report the errors of a smaller family as errors of a larger one. -/
def within {ε φ α : Type} (f : ε → φ) (p : Pass ε α) : Pass φ α :=
  p.mapError (Stop.map f)

end Pass

end TileProgram
