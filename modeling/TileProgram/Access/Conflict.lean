import Std.Data.TreeMap
import Std.Data.TreeSet
import TileProgram.Access.Pattern
import TileProgram.Counted

/-!
# Bank conflicts

In one phase a bank serves a single word.  Accesses to different words of the
same bank wait for each other; the largest number of distinct words that one
bank has to serve in one phase is the conflict degree.
-/

namespace TileProgram

structure BankLoad where
  words : Std.TreeSet Nat
  held : Std.TreeMap Nat Nat
  worst : Nat

namespace BankLoad

def none : BankLoad := ⟨∅, ∅, 0⟩

/-- Ask for one more word; a word that was asked for before is served with
it. -/
def ask (load : BankLoad) (banks word : Nat) : BankLoad :=
  if load.words.contains word then load
  else
    let held := load.held.getD (word % banks) 0 + 1
    ⟨load.words.insert word, load.held.insert (word % banks) held,
      max load.worst held⟩

end BankLoad

namespace Layout

def askElement
    (l : Layout) (elementBytes wordBytes banks r c : Nat) (load : BankLoad) :
    Checked BankLoad := do
  match ← l.slotAt r c with
  | .register .. => return load
  | .offset offset =>
      let first ← Checked.word64 (offset * elementBytes)
      let last ← Checked.sub (← Checked.word64 (first + elementBytes)) 1
      let word := first / wordBytes
      return Counted.fold (fun word load => load.ask banks word) word
        (last / wordBytes + 1 - word) load

def phaseLoad
    (l : Layout) (elementBytes wordBytes banks : Nat)
    (phase : List LaneAccess) : Checked BankLoad :=
  phase.foldlM (fun load access =>
    Counted.foldM (l.askElement elementBytes wordBytes banks access.row)
      access.col access.width load) .none

/-- Worst conflict of a pattern on a layout: one when there is none, zero when
the pattern touches nothing or the layout is in registers. -/
def conflictDegree
    (l : Layout) (p : AccessPattern) (elementBytes : Nat) (target : Target) :
    Checked Nat := do
  if l.isFragment then return 0
  let wordBytes := max 1 target.shared.bankBytes
  let banks := max 1 target.shared.banks
  let phases ← p.phases (← l.shape.rows) l.shape.cols elementBytes target
  phases.foldlM (fun worst phase => do
    return max worst (← l.phaseLoad elementBytes wordBytes banks phase).worst) 0

end Layout

end TileProgram
