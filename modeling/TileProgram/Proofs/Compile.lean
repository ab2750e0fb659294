import TileProgram.Compile
import TileProgram.Proofs.Inference.Meaning
import TileProgram.Proofs.Matmul
import TileProgram.Proofs.Staged.Refinement

/-!
# Compiled kernels

Strategies have no part in a run, schedules none in a run in sequence, and tiles
that are appended to a table are no concern of a body that does not name them.
So a compiled kernel, run by its schedules, ends as the kernel it was compiled
from does in sequence, unless inference has redirected a write that is not
whole.
-/

namespace TileProgram

open Inference Kernel List

/-! ## Strategies -/

def Step.unselected (s : Step) : Step := { s with strategy := none }

def Loop.unselected (head : Loop) : Loop := { head with strategy := none }

def Body.unselected : Body → Body
  | done => done
  | step s rest => step s.unselected rest.unselected
  | loop head body rest => loop head.unselected body.unselected rest.unselected

def Op.unselected : Op → Op
  | step s => step s.unselected
  | loop head body => loop head.unselected body.unselected

theorem Op.id_unselected (op : Op) : op.unselected.id = op.id := by
  cases op <;> rfl

theorem Body.entries_unselected (body : Body) :
    body.unselected.entries = body.entries.map Op.unselected := by
  induction body with
  | done => rfl
  | step s rest ih => exact congrArg _ ih
  | loop head body rest _ ih => exact congrArg _ ih

theorem Body.ops_unselected (body : Body) :
    body.unselected.ops = body.ops.map Op.unselected := by
  induction body with
  | done => rfl
  | step s rest ih =>
      simp only [Body.unselected, Body.ops, map_cons, ih, Op.unselected]
  | loop head body rest ihbody ihrest =>
      simp only [Body.unselected, Body.ops, map_cons, map_append, ihbody,
        ihrest, Op.unselected]

theorem Body.Revised.unselected_eq
    {id : OpId} {strategy : Option Strategy} {body body' : Body}
    (h : Revised id (fun s => { s with strategy := strategy }) (fun head =>
      { head with strategy := strategy }) body body') :
    body'.unselected = body.unselected := by
  induction h with
  | step | loop => rfl
  | afterStep _ _ ih | inLoop _ _ ih | afterLoop _ _ _ ih =>
      simp only [Body.unselected, ih]

namespace Kernel

def unselected (k : Kernel) : Kernel := { k with body := k.body.unselected }

theorem unselected_setStrategy
    (k : Kernel) (id : OpId) (strategy : Option Strategy) :
    (k.setStrategy id strategy).unselected = k.unselected := by
  unfold setStrategy
  split
  · next body hbody =>
      unfold unselected
      rw [(Body.revised_of_modify? hbody).unselected_eq]
  · rfl

theorem unselected_foldl (chosen : List (OpId × Option Strategy)) (k : Kernel) :
    (chosen.foldl (fun k (id, s) => k.setStrategy id s) k).unselected =
      k.unselected := by
  induction chosen generalizing k with
  | nil => rfl
  | cons entry rest ih => rw [foldl_cons, ih, unselected_setStrategy]

end Kernel

structure Reselected (k k' : Kernel) : Prop where
  tiles : k'.tiles = k.tiles
  grid : k'.grid = k.grid
  rasterization : k'.rasterization = k.rasterization
  body : k'.body.unselected = k.body.unselected

theorem reselected_of_selectAll
    {k k' : Kernel} {target : Target} (h : k.selectAll target = .ok k') :
    Reselected k k' := by
  unfold Kernel.selectAll at h
  obtain ⟨chosen, _, h⟩ := bind_eq_ok h
  cases h
  have hsame := k.unselected_foldl chosen
  exact ⟨(congrArg Kernel.tiles hsame :), (congrArg Kernel.grid hsame :),
    (congrArg Kernel.rasterization hsame :), congrArg Kernel.body hsame⟩

theorem Reselected.ops {k k' : Kernel} (h : Reselected k k') :
    k'.ops.map Op.unselected = k.ops.map Op.unselected := by
  unfold Kernel.ops
  rw [← Body.ops_unselected, h.body, Body.ops_unselected]

section

variable {α : Type} [Element α] {k k' : Kernel}

theorem TileOp.eval_of_tiles_eq
    (htiles : k'.tiles = k.tiles) (op : TileOp) (m : Memory α)
    (env : Bindings) :
    op.eval k' m env = op.eval k m env := by
  have hshape : ∀ t, k'.shapeOf t = k.shapeOf t := by
    intro t
    unfold Kernel.shapeOf Kernel.tile
    rw [htiles]
  exact TileOp.eval_congr (fun t _ => hshape t) (fun _ _ => rfl)
    (fun _ _ => rfl)

theorem StagedLoop.act_unselected
    (htiles : k'.tiles = k.tiles) (l : StagedLoop) (ops : List Op)
    (p : Pipeline α) (a : ConcreteAction) :
    l.act k' (ops.map Op.unselected) p a = l.act k ops p a := by
  have hwrites : ∀ (m : Machine α) (iter : Nat) (op : Op),
      l.issueWrites k' m iter op.unselected = l.issueWrites k m iter op := by
    intro m iter op
    cases op with
    | step s => exact TileOp.eval_of_tiles_eq htiles _ _ _
    | loop => rfl
  cases a with
  | wait kind iter slot => cases kind <;> rfl
  | issue op role iter slot =>
      have hfind : (ops.map Op.unselected).findRev? (·.id == op) =
          (ops.findRev? (·.id == op)).map Op.unselected := by
        rw [findRev?_eq_find?_reverse, findRev?_eq_find?_reverse, ← map_reverse,
          find?_map]
        simp only [Function.comp_def, Op.id_unselected]
      simp only [StagedLoop.act, StagedLoop.issue, hfind]
      cases ops.findRev? (·.id == op) with
      | none => rfl
      | some op => simp only [Option.map_some, hwrites]

theorem StagedLoop.run_unselected
    (htiles : k'.tiles = k.tiles) (l : StagedLoop) (ops : List Op)
    (s : Machine α) :
    l.run k' (ops.map Op.unselected) s = l.run k ops s := by
  have hact : (l.act k' (ops.map Op.unselected) : Pipeline α → _) =
      l.act k ops :=
    funext fun p => funext fun a => act_unselected htiles l ops p a
  unfold StagedLoop.run
  rw [hact]

theorem Body.run_unselected
    (htiles : k'.tiles = k.tiles) (mode : RunMode) (body : Body)
    (s : Machine α) :
    body.unselected.run k' mode s = body.run k mode s := by
  have hperform : ∀ (s : Machine α) (op : TileOp),
      s.perform k' op = s.perform k op := by
    intro s op
    unfold Machine.perform
    rw [TileOp.eval_of_tiles_eq htiles]
  induction body generalizing s with
  | done => rfl
  | step head rest ih =>
      simp only [Body.unselected, Body.run, Step.unselected, hperform, ih]
  | loop head body rest ihbody ihrest =>
      simp only [Body.unselected, Body.run, Loop.unselected,
        Body.entries_unselected, StagedLoop.run_unselected htiles, ihbody,
        ihrest]

theorem Reselected.run_eq
    (h : Reselected k k') (mode : RunMode) (limit : Option Nat) (m : Memory α) :
    k'.run mode limit m = k.run mode limit m := by
  have hbody : ∀ s : Machine α,
      k'.body.run k' mode s = k.body.run k mode s := by
    intro s
    rw [← Body.run_unselected h.tiles, ← Body.run_unselected rfl, h.body]
  have hblock : ∀ (m : Memory α) block,
      k'.runBlock mode m block = k.runBlock mode m block := by
    intro m block
    unfold Kernel.runBlock Memory.resetOnChip
    rw [h.tiles, hbody]
  unfold Kernel.run Kernel.blockCount Kernel.numBlocks
  simp only [hblock, LaunchOrder.upTo_congr h.grid,
    LaunchOrder.block_congr h.grid h.rasterization, h.grid]

/-! ## Schedules and appended tiles -/

theorem Body.run_unscheduled (body : Body) (s : Machine α) :
    body.unscheduled.run k .sequential s = body.run k .sequential s := by
  induction body generalizing s with
  | done => rfl
  | step head rest ih => simp only [Body.unscheduled, Body.run_step, ih]
  | loop head body rest ihbody ihrest =>
      simp only [Body.unscheduled, Body.run_loop_sequential, Loop.withSchedule,
        ihbody, ihrest]

/-- The tiles of `k` in a memory that has more. -/
def Memory.restrict (k : Kernel) (m : Memory α) : Memory α :=
  ⟨m.tiles.take k.tiles.size⟩

omit [Element α] in
theorem Memory.tile_restrict (m : Memory α) {t : TileId} (ht : k.Has t) :
    (m.restrict k).tile t = m.tile t := by
  have hentry : (m.tiles.take k.tiles.size)[t.index]? = m.tiles[t.index]? := by
    rw [Array.take_eq_extract, Array.getElem?_extract]
    split
    · rw [Nat.zero_add]
    · next hout => exact (Array.getElem?_eq_none (by omega)).symm
  unfold Memory.restrict Memory.tile
  rw [hentry]

omit [Element α] in
theorem twinned_restrict
    {m : Memory α} (hshape : ∀ t, k.Has t → k'.shapeOf t = k.shapeOf t)
    (hfits : m.Fits k') : Twinned k k' (m.restrict k) m := by
  refine ⟨?_, hfits, fun t ht => (Memory.tile_restrict m ht).symm⟩
  intro t
  by_cases ht : k.Has t
  · unfold Memory.extent
    rw [Memory.tile_restrict m ht, ← hshape t ht]
    exact hfits t
  · have htile : (m.restrict k).tile t = .error .outOfRange := by
      apply Memory.tile_of_ge
      unfold Memory.restrict
      rw [Array.take_eq_extract, Array.size_extract]
      omega
    have hnone : k.tiles[t.index]? = none := Array.getElem?_eq_none (by omega)
    unfold Memory.extent
    rw [htile, shapeOf_eq_map_form, hnone]
    rfl

theorem Kernel.Extends.redirections (h : k.Extends k') :
    Redirections k k' [] where
  tile_lt := by simp
  le_twin := by simp
  shape := by simp
  kept := fun _ ht => h.shapeOf_eq ht
  once := Pairwise.nil
  apart := by simp
  reads := by simp [redirectsOf]
  writes := by simp [redirectsOf]

theorem rerouted_nil (body : Body) : Rerouted [] body body := by
  induction body with
  | done => exact .done
  | step s rest ih =>
      have hstep : Rerouted
          [] (.step s rest) (.step { s with op := s.op.mapTiles id } rest) :=
        Rerouted.step (by rfl : ([] : List Step).map (·.op) = _)
          (by rfl : ([] : List Step).map (·.op) = _) ih
      rwa [TileOp.mapTiles_id] at hstep
  | loop head body rest ihbody ihrest => exact .loop ihbody ihrest

theorem PartlyStaged.run_sequential_matches
    {base : Kernel} (hwf : base.WellFormed) (h : PartlyStaged base [] k)
    (limit : Option Nat) {m m' : Memory α} (htwinned : Twinned base k m m') :
    Matches (Twinned base k) (base.run .sequential limit m)
      (k.run .sequential limit m') := by
  refine run_matches h.grid h.rasterization ?_ limit htwinned
  intro block m m' hm
  have hcleared : ∀ t, base.Has t → ∀ data : Array α,
      k.cleared t data = base.cleared t data := by
    intro t ht data
    obtain ⟨more, hmore⟩ := h.grows
    unfold Kernel.cleared
    rw [hmore, Array.getElem?_append_left ht]
  have hreset := hm.resetOnChip hcleared
  have hsafe : ∀ s, Op.step s ∈ base.ops → Redirections.Safe base [] s := by
    intro s _ r hr
    cases hr
  have hbody : Matches _
      (base.body.run base .sequential ⟨m.resetOnChip base, .ofBlock block⟩)
      (base.body.run k .sequential ⟨m'.resetOnChip k, .ofBlock block⟩) :=
    Rerouted.run_matches h.grows.redirections hwf hsafe (rerouted_nil base.body)
      (fun _ hin => hin) rfl hreset
  unfold Kernel.runBlock
  rw [← Body.run_unscheduled k.body, h.unscheduled,
    Body.run_unscheduled base.body]
  apply Matches.bind hbody
  rintro a a' ⟨_, ha⟩
  exact ha

end

/-! ## Iterations -/

theorem Body.iterations_unscheduled (body : Body) :
    body.unscheduled.ops.map Op.iterations = body.ops.map Op.iterations := by
  induction body with
  | done => rfl
  | step s rest ih => simp only [Body.unscheduled, Body.ops, map_cons, ih]
  | loop head body rest ihbody ihrest =>
      simp only [Body.unscheduled, Body.ops, map_cons, map_append, ihbody,
        ihrest]
      rfl

theorem PartlyStaged.uncountable
    {base k : Kernel} (h : PartlyStaged base [] k) (hk : k.Uncountable) :
    base.Uncountable := by
  have hsame : k.ops.map Op.iterations = base.ops.map Op.iterations := by
    unfold Kernel.ops
    rw [← Body.iterations_unscheduled k.body, h.unscheduled,
      Body.iterations_unscheduled]
  obtain ⟨op, hop, hlong⟩ := hk
  have hin : op.iterations ∈ base.ops.map Op.iterations :=
    hsame ▸ mem_map_of_mem hop
  obtain ⟨op', hop', heq⟩ := mem_map.mp hin
  exact ⟨op', hop', heq ▸ hlong⟩

theorem Rerouted.uncountable
    {k k' : Kernel} {redirects : List Redirect}
    (h : Rerouted redirects k.body k'.body) (hk' : k'.Uncountable) :
    k.Uncountable := by
  obtain ⟨op, hop, hlong⟩ := hk'
  cases op with
  | step s => exact absurd hlong (by decide : ¬ 0x8000000000000000 < 1)
  | loop head inner =>
      obtain ⟨inner', hin, _⟩ := h.loop_mem hop
      exact ⟨.loop head inner', hin, hlong⟩

/-! ## All passes -/

/-- Every operation reads or overwrites the on-chip tiles that it writes. -/
def Kernel.WritesWhole (k : Kernel) : Prop :=
  ∀ s, Op.step s ∈ k.ops →
    ∀ t ∈ s.op.writes, ∀ tile, k.tiles[t.index]? = some tile →
    tile.scope ≠ .global → t ∈ s.op.reads ∨ s.op.Overwrites k t

theorem compile_eq_ok
    {k : Kernel} {target : Target} {compiled : Compiled}
    (h : k.compile target = .ok compiled) :
    ∃ inferred scheduled, k.infer target = .ok inferred ∧
      inferred.kernel.schedule target = .ok scheduled ∧
      scheduled.selectAll target = .ok compiled.kernel := by
  unfold Kernel.compile at h
  obtain ⟨inferred, hinfer, h⟩ := bind_eq_ok h
  obtain ⟨scheduled, hschedule, h⟩ := bind_eq_ok h
  obtain ⟨selected, hselect, h⟩ := bind_eq_ok h
  obtain ⟨_, _, h⟩ := bind_eq_ok h
  cases h
  exact ⟨inferred, scheduled, within_eq_ok_iff.mp hinfer, within_eq_ok_iff.mp
    hschedule, within_eq_ok_iff.mp hselect⟩

theorem compiled_shapeOf_eq
    {k : Kernel} {target : Target} {compiled : Compiled}
    (hplain : k.scheduledRegions = [])
    (hcompile : k.compile target = .ok compiled) {t : TileId} (ht : k.Has t) :
    compiled.kernel.shapeOf t = k.shapeOf t := by
  obtain ⟨inferred, scheduled, hinfer, hschedule, hselect⟩ :=
    compile_eq_ok hcompile
  have hinfers := infers_of_infer hinfer
  obtain ⟨_, hretiled⟩ := hinfers.retiled
  have hstaged := partlyStaged_of_schedule hinfers.wellFormed_kernel
    (hinfers.scheduledRegions_eq_nil hplain) hschedule
  have hsize := hretiled.size_eq
  calc compiled.kernel.shapeOf t
      = scheduled.shapeOf t := by
        unfold Kernel.shapeOf Kernel.tile
        rw [(reselected_of_selectAll hselect).tiles]
    _ = inferred.kernel.shapeOf t := hstaged.grows.shapeOf_eq (by omega)
    _ = k.shapeOf t := hretiled.shapeOf_eq ht

section

variable {α : Type} [Element α] {k : Kernel} {target : Target}

theorem InfersBy.run_matches
    {all : List TileUse} {planned : List PlannedTile} {inferred : Inferred}
    (h : InfersBy k target all planned inferred) (hwhole : k.WritesWhole)
    (limit : Option Nat) {m m' : Memory α}
    (htwinned : Twinned k inferred.kernel m m') :
    Matches (Twinned k inferred.kernel) (k.run .sequential limit m)
      (inferred.kernel.run .sequential limit m') := by
  obtain ⟨_, _, hspliced⟩ := h.spliced
  refine h.redirections.run_matches h.wellFormed ?_ hspliced.rerouted
    (h.plans.retiled h.tiles) h.grid h.rasterization limit htwinned
  intro s hs r hr hwrites
  have hin := (mem_redirectsOf.mp hr).1
  have hlt := h.redirections.tile_lt r hin
  have htile : k.tiles[r.tile.index]? = some k.tiles[r.tile.index] :=
    Array.getElem?_eq_getElem hlt
  exact hwhole s hs r.tile hwrites _ htile (h.scope_ne_global hin htile)

/-- A compiled kernel, run by its schedules, ends as the kernel does in
sequence. -/
theorem compiled_run_eq
    {compiled : Compiled} (hplain : k.scheduledRegions = [])
    (hcompile : k.compile target = .ok compiled) (hwhole : k.WritesWhole)
    (hcounts : ¬ k.Uncountable) (limit : Option Nat) {start expected : Memory α}
    (hfits : start.Fits compiled.kernel)
    (hrun : k.run .sequential limit (start.restrict k) = .ok expected) :
    ∃ final, compiled.kernel.run .scheduled limit start = .ok final ∧
      ∀ t, k.Has t → final.tile t = expected.tile t := by
  obtain ⟨inferred, scheduled, hinfer, hschedule, hselect⟩ :=
    compile_eq_ok hcompile
  obtain ⟨all, planned, hby⟩ := infersBy_of_infer hinfer
  have hinfers := infers_of_infer hinfer
  have hretiled := hby.plans.retiled hby.tiles
  have hstaged := partlyStaged_of_schedule hinfers.wellFormed_kernel
    (hinfers.scheduledRegions_eq_nil hplain) hschedule
  have hreselected := reselected_of_selectAll hselect
  have hsize := hretiled.size_eq
  have hgrows := hstaged.grows.size_le
  have hbegin : Twinned k compiled.kernel (start.restrict k) start :=
    twinned_restrict (fun t ht => compiled_shapeOf_eq hplain hcompile ht) hfits
  have hfits : start.Fits scheduled := by
    intro t
    rw [hfits t]
    unfold Kernel.shapeOf Kernel.tile
    rw [hreselected.tiles]
  -- the starts of the three kernels are that of the last, as far as their
  -- tables go
  have hstart : Twinned inferred.kernel scheduled
      (start.restrict inferred.kernel) start :=
    twinned_restrict (fun t ht => hstaged.grows.shapeOf_eq ht) hfits
  have hfirst : Twinned k inferred.kernel (start.restrict k)
      (start.restrict inferred.kernel) := by
    refine ⟨hbegin.fits, hstart.fits, ?_⟩
    intro t ht
    rw [Memory.tile_restrict start ht, Memory.tile_restrict start (by omega)]
  have hinferredRun := hby.run_matches hwhole limit hfirst
  rw [hrun] at hinferredRun
  obtain ⟨m₁, hrun₁, hm₁⟩ := hinferredRun.ok_left
  have hscheduledRun :=
    hstaged.run_sequential_matches hinfers.wellFormed_kernel limit hstart
  rw [hrun₁] at hscheduledRun
  obtain ⟨m₂, hrun₂, hm₂⟩ := hscheduledRun.ok_left
  have hruns : scheduled.run .sequential limit start ≠
      .error (.fault .overflow) := by
    rw [hrun₂]
    exact fun h => nomatch h
  obtain ⟨final, hfinal, hrefined⟩ :=
    hstaged.run_refined hinfers.wellFormed_kernel limit hfits hruns
  rw [hrun₂] at hfinal
  cases hfinal
  rcases hrefined with ⟨final, hfinal, hsame⟩ | ⟨_, hlong⟩
  · refine ⟨final, (hreselected.run_eq _ _ _).trans hfinal, ?_⟩
    intro t ht
    rw [hsame t (by omega), hm₂.same t (by omega), hm₁.same t ht]
  · obtain ⟨_, _, hspliced⟩ := hby.spliced
    exact absurd (hspliced.rerouted.uncountable (hstaged.uncountable hlong))
      hcounts

end

end TileProgram
