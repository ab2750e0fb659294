import TileProgram.Proofs.Operands

/-!
# Effects are what evaluation does

A checked operation writes no tile outside its writes, what it writes depends on
its reads alone, and of a tile that it defines nothing is left once the writes
are committed, whatever memory they are committed to.
-/

namespace TileProgram

open Inference

section

variable {α : Type} [Element α] {k : Kernel} {m : Memory α}

theorem TileOp.exists_contents_of_mem_defines
    {s : Step} {defined : List TileId} {t : TileId} {env : Bindings}
    {all : List (Write α)} (hfits : m.Fits k) (hfit : s.op.Fitting k)
    (hdefines : (Op.step s).defines k = .ok defined) (ht : t ∈ defined)
    (hwritten : t ∈ s.op.writes) (heval : s.op.eval k m env = .ok all) :
    ∃ data, (∀ i < data.size,
      ∃ w ∈ all, w.tile = t ∧ w.index = i ∧ data[i]? = some w.value) ∧
      ∀ before : Memory α, before.Fits k →
        ∃ after, before.commit all = .ok after ∧ after.tile t = .ok data := by
  have hlt : k.Has t := hfit.lt_size t (List.mem_append_right _ hwritten)
  obtain ⟨shape, old, hshape, -, hsize⟩ := hfits.tile_of_lt hlt
  have hcovers : Covers all t old.size :=
    hsize ▸ covers_of_mem_defines hfits hfit hdefines ht hshape heval
  refine ⟨overlay t all old, ?_, ?_⟩
  · intro i hi
    rw [size_overlay] at hi
    exact exists_write_of_overlay hi (hcovers i hi)
  · intro before hbefore
    obtain ⟨data, hdata, hsame⟩ := hbefore.tile_eq_ok hshape
    refine ⟨before.put all, ?_, ?_⟩
    · apply Memory.commit_of_forall
      intro w hw
      rw [hbefore.size_eq]
      exact hfit.lt_size w.tile
        (List.mem_append_right _ (tile_mem_writes heval hw))
    · rw [Memory.tile_put, hdata]
      exact congrArg Except.ok
        (overlay_eq_of_covers (hsize.trans hsame.symm) hcovers).symm

/-- An operation of a kernel whose references and shapes are checked writes the
tiles it is said to write, by what it is said to read, and all of the tiles it
is said to define. -/
theorem eval_within_effects
    (hreferences : checkReferences k k.ops = .ok ())
    (hshapes : checkShapes k = .ok ()) {s : Step} (hs : Op.step s ∈ k.ops)
    (hfits : m.Fits k) (env : Bindings) :
    (∀ m' : Memory α,
      m'.Fits k → (∀ t ∈ (Op.step s).reads, m'.tile t = m.tile t) →
      s.op.eval k m' env = s.op.eval k m env) ∧
    ∃ defined, (Op.step s).defines k = .ok defined ∧
      Settles .overflow
        (fun all => (∀ w ∈ all, w.tile ∈ (Op.step s).writes) ∧
          ∀ t ∈ defined, ∃ data,
            (∀ i < data.size,
              ∃ w ∈ all, w.tile = t ∧ w.index = i ∧ data[i]? = some w.value) ∧
            ∀ before : Memory α, before.Fits k →
              ∃ after, before.commit all = .ok after ∧ after.tile t = .ok data)
        (s.op.eval k m env) := by
  have hfit : s.op.Fitting k :=
    fitting_of_checkShapes
      (fun _ hop _ ht => checkReferences_eq_ok hreferences hop ht) hshapes hs
  constructor
  · intro m' hfits' hread
    apply TileOp.eval_congr (fun _ _ => rfl)
    · intro t _
      exact hfits.extent_congr hfits' rfl
    · intro t ht
      exact hread t (List.mem_eraseDups.mpr ht)
  · obtain ⟨defined, hdefines, hwritten⟩ := Op.exists_defines hfit.lt_size
    refine ⟨defined, hdefines, ?_⟩
    rcases TileOp.eval_settles hfits hfit.lt_size with hstop | ⟨all, heval, -⟩
    · exact Or.inl hstop
    · refine Or.inr ⟨all, heval, ?_, ?_⟩
      · intro w hw
        exact List.mem_eraseDups.mpr (TileOp.tile_mem_writes heval hw)
      · intro t ht
        exact TileOp.exists_contents_of_mem_defines hfits hfit hdefines ht
          (hwritten t ht) heval

end

/-- Row `k` of a matrix, copied over a vector. -/
def rowLoad : Step :=
  ⟨⟨0⟩, .copy ⟨⟨0⟩, [.ofVar (.loop "k"), .ofInt 0],
    [1, 2]⟩ (.full ⟨1⟩ [2]) none, none⟩

def rowLoads : Kernel :=
  { Kernel.empty "row_loads" with
    tiles := #[.plain "g" [4, 2] .f32 .global, .plain "x" [2] .f32 .shared]
    body := .loop ⟨⟨1⟩, "k", 4, 1, none, none⟩ (.step rowLoad .done) .done
    nextOp := 2 }

def rowMemory : Memory Float := ⟨#[#[1, 2, 3, 4, 5, 6, 7, 8], #[9, 9]]⟩

theorem fits_rowMemory : rowMemory.Fits rowLoads := by
  rintro ⟨i⟩
  match i with
  | 0 => rfl
  | 1 => rfl
  | i + 2 => rfl

/-- The last row replaces the vector, whatever it held. -/
theorem eval_within_effects_rowLoads :
    checkReferences rowLoads rowLoads.ops = .ok () ∧
      checkShapes rowLoads = .ok () ∧
      Op.step rowLoad ∈ rowLoads.ops ∧ rowMemory.Fits rowLoads ∧
      rowLoad.op.eval rowLoads rowMemory (Bindings.empty.bind "k" 3) =
        .ok [⟨⟨1⟩, 0, 7⟩, ⟨⟨1⟩, 1, 8⟩] ∧
      ∃ data, ∀ before : Memory Float, before.Fits rowLoads →
        ∃ after, before.commit [⟨⟨1⟩, 0, 7⟩, ⟨⟨1⟩, 1, 8⟩] = .ok after ∧
          after.tile ⟨1⟩ = .ok data := by
  have hreferences : checkReferences rowLoads rowLoads.ops = .ok () := by rfl
  have hshapes : checkShapes rowLoads = .ok () := by rfl
  have hstep : Op.step rowLoad ∈ rowLoads.ops :=
    List.mem_cons_of_mem _ List.mem_cons_self
  have heval : rowLoad.op.eval rowLoads rowMemory (Bindings.empty.bind "k" 3) =
      .ok [⟨⟨1⟩, 0, 7⟩, ⟨⟨1⟩, 1, 8⟩] := by rfl
  obtain ⟨-, defined, hdefines, hsettles⟩ := eval_within_effects hreferences
    hshapes hstep fits_rowMemory (Bindings.empty.bind "k" 3)
  cases hdefines
  obtain ⟨-, hdefined⟩ := hsettles.of_eq_ok heval
  obtain ⟨data, -, hcommit⟩ := hdefined ⟨1⟩ List.mem_cons_self
  exact ⟨hreferences, hshapes, hstep, fits_rowMemory, heval, data, hcommit⟩

end TileProgram
