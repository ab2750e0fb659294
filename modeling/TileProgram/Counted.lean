/-!
# Counted loops

Loops over consecutive numbers.  The numbers are made one at a time, so a loop
that stops early costs what it has done, however large its bound is.
-/

namespace TileProgram
namespace Counted

@[specialize]
def fold {σ : Type} (visit : Nat → σ → σ) (start : Nat) : Nat → σ → σ
  | 0, s => s
  | count + 1, s => fold visit (start + 1) count (visit start s)

/-- Visit `count` numbers from `start` on; the first failure ends the loop. -/
@[specialize]
def foldM {ε σ : Type} (visit : Nat → σ → Except ε σ) (start : Nat) :
    Nat → σ → Except ε σ
  | 0, s => .ok s
  | count + 1, s =>
      match visit start s with
      | .ok s => foldM visit (start + 1) count s
      | .error e => .error e

@[specialize]
def mapM {ε β : Type} (f : Nat → Except ε β) (start count : Nat) :
    Except ε (List β) :=
  (foldM (fun i (acc : Array β) => (f i).map acc.push) start count #[]).map
    Array.toList

/-- The lists that `f` gives at `count` numbers from `start` on, joined. -/
@[specialize]
def flatMapM {ε β : Type} (f : Nat → Except ε (List β)) (start count : Nat) :
    Except ε (List β) :=
  (foldM (fun i (acc : Array β) =>
    (f i).map acc.appendList) start count #[]).map Array.toList

theorem fold_eq_foldl
    {σ : Type} (visit : Nat → σ → σ) (start count : Nat) (s : σ) :
    fold visit start count s =
      (List.range' start count).foldl (fun s i => visit i s) s := by
  induction count generalizing start s with
  | zero => rfl
  | succ count ih => rw [fold, ih, List.range'_succ, List.foldl_cons]

theorem foldM_succ
    {ε σ : Type} (visit : Nat → σ → Except ε σ) (start count : Nat) (s : σ) :
    foldM visit start (count + 1) s = visit start s >>=
      foldM visit (start + 1) count := by
  rw [foldM]
  cases visit start s <;> rfl

theorem foldM_eq_foldlM
    {ε σ : Type} (visit : Nat → σ → Except ε σ) (start count : Nat) (s : σ) :
    foldM visit start count s =
      (List.range' start count).foldlM (fun s i => visit i s) s := by
  induction count generalizing start s with
  | zero => rfl
  | succ count ih =>
    rw [foldM_succ, List.range'_succ, List.foldlM_cons, funext (ih (start + 1))]

theorem foldM_map_toList
    {ε β γ : Type} (f : Nat → Except ε γ) {add : Array β → γ → Array β}
    (out : γ → List β)
    (hadd : ∀ acc c, (add acc c).toList = acc.toList ++ out c)
    (start count : Nat) (acc : Array β) :
    (foldM (fun i acc => (f i).map (add acc)) start count acc).map
      Array.toList =
      ((List.range' start count).mapM f).map (acc.toList ++ ·.flatMap out) := by
  induction count generalizing start acc with
  | zero => simp [foldM, Except.map, pure, Except.pure]
  | succ count ih =>
    rw [foldM_succ, List.range'_succ, List.mapM_cons]
    cases f start with
    | error e => rfl
    | ok c =>
      refine (ih (start + 1) (add acc c)).trans ?_
      cases (List.range' (start + 1) count).mapM f <;>
        simp [hadd, bind, Except.bind, Except.map, pure, Except.pure]

theorem mapM_eq_mapM {ε β : Type} (f : Nat → Except ε β) (start count : Nat) :
    mapM f start count = (List.range' start count).mapM f := by
  rw [mapM, foldM_map_toList f (fun b => [b]) fun _ _ => Array.toList_push]
  cases (List.range' start count).mapM f <;> simp [Except.map]

theorem flatMapM_eq_flatten_mapM
    {ε β : Type} (f : Nat → Except ε (List β)) (start count : Nat) :
    flatMapM f start count =
      ((List.range' start count).mapM f).map List.flatten := by
  rw [flatMapM, foldM_map_toList f id fun _ _ => by simp]
  cases (List.range' start count).mapM f <;> simp [Except.map, List.flatMap]

end Counted
end TileProgram
