import TileProgram.Shape

/-!
# Affine index expressions

Indices and window offsets are affine in the loop variables and in the block
coordinates.  A term list may repeat a variable or carry a zero coefficient;
sums merge repeated variables and drop zero terms.
-/

namespace TileProgram

inductive Var where
  | loop (name : String)
  /-- A coordinate of the block; axes past the third count as the third. -/
  | block (axis : Nat)
  deriving DecidableEq, Repr

def Var.text : Var → String
  | loop name => name
  | block 0 => "bx"
  | block 1 => "by"
  | block _ => "bz"

/-- Values of the variables; an unbound loop variable is zero. -/
structure Bindings where
  loops : List (String × Int)
  block : Dim3
  deriving DecidableEq, Repr

namespace Bindings

def ofBlock (block : Dim3) : Bindings := ⟨[], block⟩

def empty : Bindings := ofBlock ⟨0, 0, 0⟩

def unbind (env : Bindings) (name : String) : Bindings :=
  { env with loops := env.loops.filter (·.1 != name) }

def bind (env : Bindings) (name : String) (value : Int) : Bindings :=
  { env with loops := (name, value) :: (env.unbind name).loops }

def value (env : Bindings) : Var → Int
  | .loop name => (env.loops.lookup name).getD 0
  | .block axis => env.block.along axis

end Bindings

structure Affine where
  constant : Int
  terms : List (Var × Int)
  deriving DecidableEq, Repr

namespace Affine

def ofInt (c : Int) : Affine := ⟨c, []⟩

def ofVar (v : Var) : Affine := ⟨0, [(v, 1)]⟩

def scaled (a : Affine) (k : Int) : Checked Affine := do
  let constant ← Checked.int64 (a.constant * k)
  let terms ← a.terms.mapM fun (v, c) => return (v, ← Checked.int64 (c * k))
  return ⟨constant, terms⟩

/-- Add `c` times `v`, into the first term on `v` if there is one. -/
def addTerm (v : Var) (c : Int) : List (Var × Int) → Checked (List (Var × Int))
  | [] => .ok [(v, c)]
  | (w, d) :: rest =>
      if w = v then do
        return (w, ← Checked.int64 (d + c)) :: rest
      else do
        return (w, d) :: (← addTerm v c rest)

def plus (a b : Affine) : Checked Affine := do
  let constant ← Checked.int64 (a.constant + b.constant)
  let terms ← b.terms.foldlM (fun acc (v, c) => addTerm v c acc) a.terms
  return ⟨constant, terms.filter (·.2 != 0)⟩

def offset (a : Affine) (c : Int) : Checked Affine :=
  a.plus (ofInt c)

/-- Coefficient of a loop variable, zero when it is absent. -/
def coefficient (a : Affine) (name : String) : Checked Int :=
  (a.terms.filter (·.1 = .loop name)).foldlM
    (fun acc term => Checked.int64 (acc + term.2)) 0

def dependsOn (a : Affine) (name : String) : Checked Bool :=
  return (← a.coefficient name) != 0

def eval (a : Affine) (env : Bindings) : Checked Int := do
  let total ← a.terms.foldlM (fun acc (v, c) => do
    Checked.int64 (acc + (← Checked.int64 (c * env.value v)))) 0
  Checked.int64 (total + a.constant)

def termText : Var × Int → String
  | (v, c) => if c = 1 then v.text else s!"{v.text}*{c}"

def text (a : Affine) : String :=
  let terms := a.terms.map termText
  "+".intercalate (if a.constant != 0 || terms.isEmpty then
    terms ++ [a.constant.repr] else terms)

end Affine

end TileProgram
