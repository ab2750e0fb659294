import TileProgram.Proofs.Inference.Insertion
import TileProgram.Proofs.Inference.Layouts
import TileProgram.Proofs.Listing.Spans
import TileProgram.Proofs.Stops.Layouts

/-!
# Why inference stops

Inference reads the kernel as it was written, and each of its errors is shown at
an operation or a tile of that kernel.  It looks up the tiles that operations
mention, once all of them are known to be in the table, and divides by the sizes
of layouts.  The layouts that it makes itself are usable; a layout that the
kernel declares has to be testable.
-/

namespace TileProgram

open Checked Inference Kernel List

variable {W : Prop} {t : TileId} {layout : Layout}

/-! ## Tables -/

def Kernel.InTable (k : Kernel) : Prop :=
  ∀ s, Op.step s ∈ k.ops → ∀ t ∈ (Op.step s).mentions, k.Has t

/-- Elements can be placed under every layout of the table. -/
def Kernel.LaidOut (k : Kernel) : Prop :=
  ∀ tile ∈ k.tiles, ∀ l, tile.layout = some l → l.Usable

def Kernel.TestableLayouts (k : Kernel) : Prop :=
  ∀ tile ∈ k.tiles, ∀ l, tile.declared = some l → l.Testable

theorem Kernel.tile_settles {k : Kernel} (h : k.Has t) :
    Settles .overflow (fun tile => k.tile? t = some tile) (k.tile t) := by
  unfold Kernel.tile Kernel.tile? Checked.entry
  rw [Array.getElem?_eq_getElem h]
  exact Settles.ok rfl

@[simp] theorem Kernel.tile_runs {k : Kernel} (h : k.Has t) : Runs (k.tile t) :=
  (tile_settles h).runs

/-! ## Sites of the kernel -/

section

variable {k : Kernel}

theorem Kernel.op_mem_sites {op : Op} (h : op ∈ k.ops) :
    .op op.id ∈ k.sites := by
  apply mem_cons_of_mem
  exact mem_append_right _ (mem_map.mpr ⟨op, h, rfl⟩)

theorem Kernel.tile_mem_sites {t : Tile} (h : t ∈ k.tiles) :
    .tile t.name ∈ k.sites := by
  apply mem_cons_of_mem
  apply mem_append_left
  exact mem_map_of_mem (mem_map_of_mem (by simpa using h))

theorem Kernel.op_mem_sites_iff {id : OpId} :
    .op id ∈ k.sites ↔ id ∈ k.ops.map Op.id := by
  simp [Kernel.sites]

theorem Kernel.mem_tiles_of_tile {tile : Tile} (h : k.tile t = .ok tile) :
    tile ∈ k.tiles :=
  Array.mem_of_getElem? (tile_eq_ok_iff.mp h)

theorem Kernel.mem_tiles_of_zipIdx
    {entry : Tile × Nat} (h : entry ∈ k.tiles.toList.zipIdx) :
    entry.1 ∈ k.tiles :=
  Array.mem_toList_iff.mp (mem_of_getElem? (mem_zipIdx_iff_getElem?.mp h))

end

def InferenceError.PointsInto (k : Kernel) (e : InferenceError) : Prop :=
  e.diagnostic.site ∈ k.sites

theorem InferenceError.layout_pointsInto
    {k : Kernel} {e : LayoutError} {t : Tile} (ht : t ∈ k.tiles)
    (h : e.tile = t.name) : PointsInto k (.layout e) := by
  have hsite : e.diagnostic.site = .tile e.tile := by
    cases e <;> rfl
  unfold PointsInto InferenceError.diagnostic
  rw [hsite, h]
  exact tile_mem_sites ht

/-! ## Checks -/

section

variable {k : Kernel} {id : OpId}

def InferenceError.Misfits (id : OpId) (e : InferenceError) : Prop :=
  ∃ tile reason, e = .shapeMismatch id tile reason

@[simp] theorem mismatch_ends
    {α : Type} {P : α → Prop} (h : k.Has t) (reason : String) :
    Ends W (InferenceError.Misfits id) P (mismatch k id t reason) := by
  simp [mismatch, h, InferenceError.Misfits]

theorem checkRegion_ends {r : Region} (h : k.Has r.tile) :
    Ends W (InferenceError.Misfits id) (fun _ => True)
      (checkRegion k id r) := by
  simp [checkRegion, h]

theorem checkAccess_ends {a : Access} (h : k.Has a.tile) :
    Ends W (InferenceError.Misfits id) (fun _ => True)
      (checkAccess k id a) := by
  simp [checkAccess, h]

theorem checkOperands_ends {op : TileOp} (h : ∀ t ∈ op.tiles, k.Has t) :
    Ends W (InferenceError.Misfits id) (fun _ => True)
      (checkOperands k id op) := by
  cases op with
  | copy src dst width =>
      have hsrc := h src.tile (by simp)
      have hdst := h dst.tile (by simp)
      apply (checkRegion_ends hsrc).bind
      intro _ _
      apply (checkRegion_ends hdst).bind
      simp [hdst]
  | parallel vars extents body =>
      apply Meets.forM
      intro assign hassign
      have haccess :=
        fun a ha => h _ (TileOp.mem_tiles_of_access (a := a) hassign ha)
      apply (checkAccess_ends (haccess _ mem_cons_self)).bind
      intro _ _
      apply Meets.forM
      exact fun a ha => checkAccess_ends (haccess a (mem_cons_of_mem _ ha))
  | reduce src dst axis kind clear =>
      have hsrc := h src (by simp)
      have hdst := h dst (by simp)
      simp only [checkOperands, Ends.bind_lift_iff fun _ => tile_runs hsrc]
      intro source _
      split
      · exact (mismatch_ends hsrc _).bind fun _ h => False.elim h
      · simp [hdst]
  | gemm a b c transposeA transposeB clear =>
      simp only [TileOp.mem_tiles_gemm, forall_eq_or_imp, forall_eq] at h
      simp [checkOperands, h]
  | relayout src dst =>
      simp only [TileOp.mem_tiles_relayout, forall_eq_or_imp, forall_eq] at h
      simp [checkOperands, h]
  | _ => simp [checkOperands]

theorem checkReferences_ends {ops : List Op} (h : ops ⊆ k.ops) :
    Ends W (InferenceError.PointsInto k) (fun _ => True)
      (checkReferences k ops) := by
  induction ops with
  | nil => exact Ends.ok trivial
  | cons op rest ih =>
      rw [cons_subset] at h
      simp only [checkReferences]
      split
      · exact Ends.fail (op_mem_sites h.1)
      · exact ih h.2

theorem checkDistinct_ends
    (seen : List OpId) {ids : List OpId} (h : ids ⊆ k.ops.map Op.id) :
    Ends W (InferenceError.PointsInto k) (fun _ => True)
      (checkDistinct seen ids) := by
  induction ids generalizing seen with
  | nil => exact Ends.ok trivial
  | cons id rest ih =>
      rw [cons_subset] at h
      simp only [checkDistinct]
      split
      · exact Ends.fail (op_mem_sites_iff.mpr h.1)
      · exact ih _ h.2

theorem reserveOpIds_ends (k : Kernel) :
    Ends W (InferenceError.PointsInto k) (fun _ => True) (reserveOpIds k) := by
  apply (checkDistinct_ends [] (Subset.refl _)).bind
  intro _ _
  split <;> simp

theorem Kernel.InTable.step_tiles
    (h : k.InTable) {s : Step} (hs : Op.step s ∈ k.ops) :
    ∀ t ∈ s.op.tiles, k.Has t :=
  fun t ht => h _ hs t (Step.mem_mentions ht)

theorem Kernel.InTable.checkShapes_ends (h : k.InTable) :
    Ends W (InferenceError.PointsInto k) (fun _ => True) (checkShapes k) := by
  apply Meets.forM
  intro op hop
  cases op with
  | step s =>
      apply (checkOperands_ends (h.step_tiles hop)).mono_error
      rintro e ⟨tile, reason, rfl⟩
      exact op_mem_sites hop
  | loop head body => exact Ends.ok trivial

end

/-! ## Matrix products -/

/-- The sizes of the instruction and of its fragments are positive. -/
structure MatrixInstruction.Sized (i : MatrixInstruction) : Prop where
  m : 0 < i.shape.m
  n : 0 < i.shape.n
  k : 0 < i.shape.k
  atom : ∀ role, (i.atom role).Sized

theorem MatrixInstruction.sized_of_violation?
    {i : MatrixInstruction} (h : i.violation? = none) : i.Sized := by
  cases form_of_violation? h with
  | nvidia hvendor hpack hshape _ =>
      have hpos : 0 < i.pack := by omega
      refine ⟨by simp [hshape], by simp [hshape], ?_, ?_⟩
      · rw [hshape]
        exact Nat.mul_pos (by decide) hpos
      · intro role
        unfold atom
        rw [hvendor]
        cases role with
        | a => exact hpos
        | b => exact hpos
        | c => trivial
  | amd hvendor hshape _ =>
      have hatom : ∀ role, (i.atom role).Sized := by
        intro role
        unfold atom
        rw [hvendor]
        rcases hshape with hs | hs <;> rw [hs] <;> cases role <;>
          simp [Atom.Sized]
      rcases hshape with hs | hs
      · exact ⟨by simp [hs], by simp [hs], by simp [hs], hatom⟩
      · exact ⟨by simp [hs], by simp [hs], by simp [hs], hatom⟩

namespace MatrixInstruction

variable {i : MatrixInstruction} {m n warps : Nat}

theorem Sized.split?_runs
    (h : i.Sized) {wm : Nat} (hwm : 0 < wm) (hle : wm ≤ warps) :
    Runs (i.split? m n warps wm) := by
  have hrows : 0 < i.shape.m * wm := Nat.mul_pos h.m hwm
  have hcols : 0 < i.shape.n * (warps / wm) :=
    Nat.mul_pos h.n (Nat.div_pos hle hwm)
  simp [split?, hrows, hcols]

theorem Sized.bestSplit_runs
    (h : i.Sized) {wm : Nat} (hle : wm ≤ warps) (best : Option Split) :
    Runs (i.bestSplit m n warps wm best) := by
  induction wm generalizing best with
  | zero => exact Runs.ok best
  | succ wm ih =>
      exact (h.split?_runs (by omega) hle).bind fun _ => ih (by omega) _

theorem Sized.warpPartition_settles (h : i.Sized) :
    Settles .overflow
      (fun found => ∀ w, found = some w → 0 < w.rows ∧ 0 < w.cols)
      (i.warpPartition m n warps) := by
  apply ((h.bestSplit_runs le_rfl none).bind fun _ => Runs.pure _).settles
  rintro _ hfound w rfl
  have hcovers := (covers_of_warpPartition hfound).2
  exact ⟨Nat.pos_of_mul_pos_left hcovers.rows_pos,
    Nat.pos_of_mul_pos_left hcovers.cols_pos⟩

end MatrixInstruction

/-- Every register layout of the binding is usable, and so is its division among
the warps. -/
structure GemmBinding.Sized (b : GemmBinding) : Prop where
  layout : ∀ role transposed, (b.operandLayout role transposed).Sized
  repeats : Runs b.repeats

theorem GemmBinding.sized_of_instruction
    {b : GemmBinding} (h : b.instruction.Sized)
    (hwarps : 0 < b.warps.rows ∧ 0 < b.warps.cols) : b.Sized where
  layout role transposed := by
    cases role with
    | a => exact ⟨h.atom .a, hwarps.1, Nat.one_pos⟩
    | b => exact ⟨h.atom .b, Nat.one_pos, hwarps.2⟩
    | c => exact ⟨h.atom .c, hwarps⟩
  repeats := by
    simp [GemmBinding.repeats, h.m, h.n, h.k, hwarps.1, hwarps.2]

theorem bindGemm_ends
    {k : Kernel} {target : Target} (htarget : W → target.Admissible)
    {a b c : TileId} (ha : k.Has a) (hb : k.Has b) (hc : k.Has c)
    (transposeA transposeB : Bool) :
    Ends W (fun e => ∃ t ∈ k.tiles, e.tile = t.name)
      (fun bound => W → ∀ binding, bound = some binding → binding.Sized)
      (k.bindGemm a b c transposeA transposeB target) := by
  simp only [Kernel.bindGemm, Ends.bind_lift_iff, tile_runs, ha, hb, hc,
    implies_true]
  intro ta _ tb _ tc htc
  have hunbound : W →
      ∀ binding : GemmBinding, none = some binding → binding.Sized := by
    intro _ binding hbinding
    cases hbinding
  have hrefuse : ∀ instruction reason,
      Ends W (fun e : LayoutError => ∃ t ∈ k.tiles, e.tile = t.name)
        (fun bound => W → ∀ binding, bound = some binding → binding.Sized)
        (Pass.fail (.incompatibleShape tc.name tc.shape instruction reason) :
          Pass LayoutError (Option GemmBinding)) :=
    fun _ _ => Ends.fail ⟨tc, mem_tiles_of_tile htc, rfl⟩
  split
  · exact Ends.ok hunbound
  · split
    · exact Ends.ok hunbound
    · next i hinstruction =>
        have hsized : W → i.Sized := fun hW =>
          MatrixInstruction.sized_of_violation?
            (htarget hW i (mem_of_find?_eq_some hinstruction))
        split
        · exact hrefuse _ _
        · next dims _ =>
            apply Ends.bind_lift fun _ => product_settles word32_settles _
            intro threads _ _
            split
            · apply Ends.bind_lift fun hW => (hsized hW).warpPartition_settles
              intro found _ hfound
              apply Ends.bind_lift fun hW => Runs.of_mod _ (hsized hW).k
              intro depthLeft _ _
              split
              · split
                · apply Ends.ok
                  rintro hW _ ⟨⟩
                  exact GemmBinding.sized_of_instruction (hsized hW)
                    (hfound hW _ rfl)
                · exact hrefuse _ _
              · exact hrefuse _ _
            · apply Ends.bind_lift fun hW => Runs.of_mod _ (hsized hW).k
              exact fun depthLeft _ _ => hrefuse _ _

/-! ## Demands -/

def Demand.Sized : Demand → Prop
  | pattern p => p.Sized
  | _ => True

theorem AccessPattern.Sized.rowMajor (vector : Nat) :
    (AccessPattern.rowMajor vector).Sized := trivial

theorem walkDemand_sized (t : Tile) {p : AccessPattern} (h : p.Sized) :
    (walkDemand t p).Sized := by
  unfold walkDemand
  split
  · split <;> trivial
  · trivial
  · exact h

theorem copyDemand_sized
    (target : Target) (t : Tile) (width : Option Nat) (inner : Nat) :
    (copyDemand target t width inner).Sized := by
  unfold copyDemand
  split <;> trivial

@[simp] theorem Affine.coefficient_runs (a : Affine) (name : String) :
    Runs (a.coefficient name) := by
  apply Runs.foldlM
  intro term _ sum
  exact Runs.of_int64 _

@[simp] theorem Affine.dependsOn_runs (a : Affine) (name : String) :
    Runs (a.dependsOn name) := by
  simp [Affine.dependsOn]

theorem elementwisePattern_settles (indices : List Affine) (inner : String) :
    Settles .overflow AccessPattern.Sized
      (elementwisePattern indices inner) := by
  unfold elementwisePattern
  split
  · exact Settles.ok trivial
  · next last _ =>
      have hstill : Runs
          (Checked.all (fun ix : Affine => do return !(← ix.dependsOn inner))
            indices.dropLast) := Runs.all (by simp)
      apply Settles.bind hstill
      intro still _
      split
      · exact Settles.ok trivial
      · apply Settles.bind (last.dependsOn_runs inner)
        intro depends _
        split
        · exact Settles.ok trivial
        · exact Settles.ok trivial

section

variable {k : Kernel} {id : OpId}

theorem accessUse_settles
    {inner : String} {read : Bool} {a : Access} (h : k.Has a.tile) :
    Settles .overflow (fun u => u.demand.Sized)
      (accessUse k id inner read a) := by
  apply (elementwisePattern_settles a.indices inner).bind
  intro p hp
  apply (tile_settles h).bind
  intro tile _
  exact Settles.ok (walkDemand_sized tile hp)

theorem assignUses_settles
    {inner : String} {assign : Assign} (hdst : k.Has assign.dst.tile)
    (hloads : ∀ a ∈ assign.value.loads, k.Has a.tile) :
    Settles .overflow (fun own => ∀ u ∈ own, u.demand.Sized)
      (assignUses k id inner assign) := by
  apply (Settles.mapM fun a ha => accessUse_settles (hloads a ha)).bind
  intro loads hloads
  apply (accessUse_settles hdst).bind
  intro store hstore
  apply Settles.ok
  intro u hu
  rcases mem_append.mp hu with hload | hlast
  · exact hloads u hload
  · rw [mem_singleton.mp hlast]
    exact hstore

theorem tileDemand_settles (h : k.Has t) {p : AccessPattern} (hp : p.Sized) :
    Settles .overflow Demand.Sized (tileDemand k t p) := by
  apply (tile_settles h).bind
  intro tile _
  exact Settles.ok (walkDemand_sized tile hp)

theorem opUses_ends
    {target : Target} (htarget : W → target.Admissible) {op : TileOp}
    (h : ∀ t ∈ op.tiles, k.Has t) :
    Ends W (InferenceError.PointsInto k)
      (fun own => W → ∀ u ∈ own, u.demand.Sized) (opUses k target id op) := by
  cases op with
  | alloc tile => exact Ends.ok (by simp)
  | copy src dst width =>
      simp only [TileOp.mem_tiles_copy, forall_eq_or_imp, forall_eq] at h
      simp [opUses, h, copyDemand_sized]
  | fill tile value => simp [opUses, h tile (by simp), copyDemand_sized]
  | parallel vars extents body =>
      have hassigns : Settles .overflow
          (fun own => ∀ us ∈ own, ∀ u ∈ us, u.demand.Sized)
          (body.mapM (assignUses k id (vars.getLast?.getD ""))) := by
        apply Settles.mapM
        intro assign hassign
        apply assignUses_settles
        · exact h _ (TileOp.mem_tiles_of_access hassign mem_cons_self)
        · intro a ha
          exact h _ (TileOp.mem_tiles_of_access hassign (mem_cons_of_mem _ ha))
      apply Ends.bind_lift fun _ => hassigns
      intro perAssign _ hper
      apply Ends.ok
      intro hW u hu
      rcases mem_flatten.mp hu with ⟨us, hus, hin⟩
      exact hper hW us hus u hin
  | gemm a b c transposeA transposeB clear =>
      have ha := h a (by simp)
      have hb := h b (by simp)
      have hc := h c (by simp)
      have hbind := bindGemm_ends htarget ha hb hc transposeA transposeB
      apply Ends.bind
      · apply Ends.within
        apply hbind.mono_error
        rintro e ⟨t, ht, htile⟩
        exact InferenceError.layout_pointsInto ht htile
      intro bound hbound
      split
      · next binding =>
          apply Ends.ok
          intro hW
          have hlayout := (hbound hW binding rfl).layout
          simp only [mem_cons, not_mem_nil, or_false]
          rintro u (rfl | rfl | rfl)
          · exact hlayout .a transposeA
          · exact hlayout .b transposeB
          · exact hlayout .c false
      · apply Ends.bind_lift fun _ => tileDemand_settles ha (.rowMajor 1)
        intro da _ hda
        apply Ends.bind_lift fun _ => tileDemand_settles hb (.rowMajor 1)
        intro db _ hdb
        apply Ends.bind_lift fun _ => tileDemand_settles hc (.rowMajor 1)
        intro dc _ hdc
        apply Ends.ok
        simp only [mem_cons, not_mem_nil, or_false]
        rintro hW u (rfl | rfl | rfl)
        · exact hda hW
        · exact hdb hW
        · exact hdc hW
  | reduce src dst axis kind clear =>
      have hsrc := h src (by simp)
      have hdst := h dst (by simp)
      apply Ends.bind_lift fun _ => tile_settles hsrc
      intro source _ _
      apply Ends.bind_lift fun _ => word64_settles _
      intro last _ _
      have hpattern :
          (if last = source.shape.length then AccessPattern.columnMajor
          else .rowMajor 1).Sized := by
        split <;> trivial
      apply Ends.bind_lift fun _ => tileDemand_settles hsrc hpattern
      intro ds _ hds
      apply Ends.bind_lift fun _ => tileDemand_settles hdst (.rowMajor 1)
      intro dd _ hdd
      apply Ends.ok
      simp only [mem_cons, not_mem_nil, or_false]
      rintro hW u (rfl | rfl)
      · exact hds hW
      · exact hdd hW
  | relayout src dst => simp [opUses, Demand.Sized]

end

theorem Kernel.InTable.uses_ends
    {k : Kernel} (h : k.InTable) {target : Target}
    (htarget : W → target.Admissible) :
    Ends W (InferenceError.PointsInto k)
      (fun all => W → ∀ u ∈ all, u.demand.Sized) (uses k target) := by
  apply Ends.bind
    (P := fun perOp => ∀ own ∈ perOp, W → ∀ u ∈ own, u.demand.Sized)
  · apply Meets.mapM
    intro op hop
    cases op with
    | step s => exact opUses_ends htarget (h.step_tiles hop)
    | loop head body => exact Ends.ok (by simp)
  · intro perOp hper
    apply Ends.ok
    intro hW u hu
    rcases mem_flatten.mp hu with ⟨own, hown, hin⟩
    exact hper own hown hW u hin

/-! ## Plans -/

theorem Layout.Chosen.usable
    {t : Tile} {uses : List TileUse} (h : layout.Chosen t uses)
    (hdeclared : ∀ l, t.declared = some l → l.Testable)
    (huses : ∀ u ∈ uses, u.demand.Sized) : layout.Usable := by
  cases h with
  | candidate h => exact usable_of_isFragment h.isFragment_eq
  | declared hl h => exact (hdeclared _ hl).isInjective_settles.of_eq_ok h rfl
  | dealt h =>
      refine (Testable.isWellFormed_settles ?_).of_eq_ok h rfl
      rintro _ ⟨⟩
      trivial
  | operand hu hdemand h =>
      have hsized := huses _ hu
      rw [hdemand] at hsized
      rintro _ ⟨⟩
      exact hsized

theorem sized_of_mem_patternsByOp
    {uses : List TileUse} (h : ∀ u ∈ uses, u.demand.Sized)
    {op : OpId × List AccessPattern} (hop : op ∈ patternsByOp uses) :
    ∀ p ∈ op.2, p.Sized := by
  intro p hp
  rcases mem_map.mp hop with ⟨id, _, rfl⟩
  rcases mem_map.mp hp with ⟨wanted, hwanted, rfl⟩
  rcases mem_filterMap.mp (mem_of_mem_filter hwanted) with ⟨u, hu, hdemand⟩
  have hsized := h u hu
  split at hdemand
  · next p hpattern =>
      cases hdemand
      rw [hpattern] at hsized
      exact hsized
  · cases hdemand

section

variable {req : LayoutRequest} {target : Target}

structure Inference.Grouping.Sized (g : Grouping) : Prop where
  patterns : ∀ p ∈ g.patterns, p.Sized
  left : ∀ op ∈ g.left, ∀ p ∈ op.2, p.Sized

theorem Inference.Grouping.extend_ends
    {g : Grouping} (h : W → g.Sized) {op : OpId × List AccessPattern}
    (hop : W → ∀ p ∈ op.2, p.Sized) :
    Ends W (·.tile = req.tile) (fun g' => W → g'.Sized)
      (g.extend req target op) := by
  have htrial : W → ∀ p ∈ g.patterns ++ op.2, p.Sized := by
    intro hW p hp
    rcases mem_append.mp hp with hold | hnew
    · exact (h hW).patterns p hold
    · exact hop hW p hnew
  have hresolve := req.resolve_ends target htrial
  unfold Grouping.extend
  simp only
  split
  · exact Ends.ok fun hW => ⟨htrial hW, (h hW).left⟩
  · next tile patterns best degree hstop =>
      split
      · exact Ends.fail (hresolve.of_error hstop)
      · apply Ends.ok
        refine fun hW => ⟨(h hW).patterns, ?_⟩
        intro other hother
        rcases mem_append.mp hother with hold | hnew
        · exact (h hW).left other hold
        · rw [mem_singleton.mp hnew]
          exact hop hW
  · next stop hstop => exact hresolve.of_stop hstop

theorem groupOps_ends
    {fuel : Nat} {ops : List (OpId × List AccessPattern)}
    (h : W → ∀ op ∈ ops, ∀ p ∈ op.2, p.Sized) :
    Ends W (·.tile = req.tile) (fun _ => True)
      (groupOps req target fuel ops) := by
  induction fuel generalizing ops with
  | zero => cases ops <;> exact Ends.ok trivial
  | succ fuel ih =>
      cases ops with
      | nil => exact Ends.ok trivial
      | cons first rest =>
          apply Ends.bind (P := fun g => W → g.Sized)
          · apply Meets.foldlM
            · exact fun op hop g hg => g.extend_ends hg fun hW => h hW op hop
            · exact fun _ => ⟨by simp, by simp⟩
          · intro g hg
            exact (ih fun hW => (hg hW).left).bind (by simp)

theorem planShared_ends
    {uses : List TileUse} (h : W → ∀ u ∈ uses, u.demand.Sized) :
    Ends W (·.tile = req.tile) (fun _ => True)
      (planShared req uses target) := by
  have hops : W → ∀ op ∈ patternsByOp uses, ∀ p ∈ op.2, p.Sized :=
    fun hW op hop => sized_of_mem_patternsByOp (h hW) hop
  have hall : W → ∀ p ∈ (patternsByOp uses).flatMap (·.2), p.Sized := by
    intro hW p hp
    rcases mem_flatMap.mp hp with ⟨op, hop, hin⟩
    exact hops hW op hop p hin
  have hresolve := req.resolve_ends target hall
  unfold planShared
  simp only
  split
  · exact Ends.ok trivial
  · apply (groupOps_ends hops).bind
    intro twins _
    split <;> simp
  · next stop hstop => exact hresolve.of_stop hstop

theorem wantedInstead?_ends {run : Nat} {d : Demand} (hd : W → d.Sized) :
    Ends W (·.tile = req.tile) (fun _ => True)
      (wantedInstead? req layout run target d) := by
  cases d with
  | free => exact Ends.ok trivial
  | vector width =>
      have hwidth : W → ∀ p ∈ [AccessPattern.rowMajor width], p.Sized := by
        simp [AccessPattern.Sized.rowMajor]
      simp only [wantedInstead?]
      split
      · exact Ends.ok trivial
      · exact (req.resolve_ends target hwidth).bind (by simp)
  | pattern p =>
      have hp : W → ∀ q ∈ [p], q.Sized := by
        rw [forall_mem_singleton]
        exact hd
      exact (req.resolve_ends target hp).bind (by simp)

theorem planFragment_ends
    (hlayout : W → layout.Usable) {uses : List TileUse}
    (h : W → ∀ u ∈ uses, u.demand.Sized) :
    Ends W (·.tile = req.tile) (fun _ => True)
      (planFragment req layout uses target) := by
  apply Ends.bind_lift fun hW => (hlayout hW).contiguousRun_runs
  intro run _ _
  apply Ends.bind (P := fun _ => True)
  · apply Meets.foldlM _ trivial
    intro u hu twins _
    apply Ends.bind (wantedInstead?_ends fun hW => h hW u hu)
    intro found _
    split <;> simp
  · simp

end

theorem checkDeclared_ends
    (t : Tile) {declared : Layout} (h : W → declared.Testable) :
    Ends W (·.tile = t.name) (fun _ => W → declared.Usable)
      (checkDeclared t declared) := by
  unfold checkDeclared
  simp only
  split
  · exact Ends.fail rfl
  · split
    · exact Ends.fail rfl
    · apply Ends.bind_lift fun hW => (h hW).isInjective_settles
      intro good _ hgood
      split
      · exact Ends.fail rfl
      · next hnot => exact Ends.ok fun hW => hgood hW (by simpa using hnot)

theorem conflictWarnings_runs
    (t : Tile) {declared : Layout} (h : declared.Usable) (target : Target)
    (uses : List TileUse) :
    Runs (conflictWarnings t declared target uses) := by
  induction uses with
  | nil => exact Runs.ok _
  | cons u rest ih =>
      simp only [conflictWarnings]
      split
      · simp [h.conflictDegree_runs, ih]
      · simp [ih]

theorem fragmentPattern_sized
    {uses : List TileUse} (h : ∀ u ∈ uses, u.demand.Sized) :
    (fragmentPattern uses).Sized := by
  cases hpattern : fragmentPattern uses with
  | rowMajor vector => trivial
  | columnMajor => trivial
  | operand f =>
      rcases operand_of_fragmentPattern hpattern with ⟨u, hu, hdemand⟩
      have hsized := h u hu
      rw [hdemand] at hsized
      exact hsized

section

variable {k : Kernel} {uses : List TileUse} {target : Target} {t : Tile}

theorem planUsed_ends
    (hdeclared : W → ∀ l, t.declared = some l → l.Testable)
    (h : W → ∀ u ∈ uses, u.demand.Sized) :
    Ends W (·.tile = t.name) (fun _ => True) (planUsed k t uses target) := by
  apply Ends.bind_lift fun _ => product_settles word32_settles _
  intro threads _ _
  simp only
  split
  · split
    · exact Ends.fail rfl
    · exact Ends.ok trivial
  · exact Ends.ok trivial
  · next declared _ hsome =>
      apply (checkDeclared_ends t fun hW => hdeclared hW declared hsome).bind
      intro _ husable
      apply Ends.bind_lift fun hW =>
        conflictWarnings_runs t (husable hW) target uses
      exact fun warnings _ _ => Ends.ok trivial
  · exact planShared_ends h
  · next declared _ hsome =>
      apply (checkDeclared_ends t fun hW => hdeclared hW declared hsome).bind
      intro _ husable
      exact planFragment_ends husable h
  · have hpattern : W → ∀ p ∈ [fragmentPattern uses], p.Sized := by
      rw [forall_mem_singleton]
      exact fun hW => fragmentPattern_sized (h hW)
    apply (LayoutRequest.resolve_ends _ target hpattern).bind
    intro layout husable
    exact planFragment_ends husable h

theorem planTile_ends
    (ht : t ∈ k.tiles) (hdeclared : W → ∀ l, t.declared = some l → l.Testable)
    (h : W → ∀ u ∈ uses, u.demand.Sized) :
    Ends W (InferenceError.PointsInto k) (fun _ => True)
      (planTile k t uses target) := by
  unfold planTile
  split
  · split
    · exact Ends.ok trivial
    · exact Ends.fail (tile_mem_sites ht)
  · apply Ends.within
    apply (planUsed_ends hdeclared h).mono_error
    exact fun e he => InferenceError.layout_pointsInto ht he

theorem planTiles_ends
    (hdeclared : W → k.TestableLayouts) (h : W → ∀ u ∈ uses, u.demand.Sized) :
    Ends W (InferenceError.PointsInto k) (fun _ => True)
      (planTiles k uses target) := by
  refine (planFrom_meets (P := fun _ => True) (fun _ => rfl) ?_).mono
    fun _ _ => trivial
  rintro ⟨t, i⟩ hentry
  have htile := mem_tiles_of_zipIdx hentry
  have hown : W → ∀ u ∈ uses.filter (·.tile == ⟨i⟩), u.demand.Sized :=
    fun hW u hu => h hW u (mem_of_mem_filter hu)
  apply Ends.bind (planTile_ends htile (fun hW => hdeclared hW t htile) hown)
  simp

end

/-! ## Relayouts -/

theorem Spliced.redirect_runs (s : Spliced) (r : Redirect) :
    Runs (s.redirect r) := by
  simp [Spliced.redirect]

theorem splice_runs (redirects : List Redirect) (body : Body) (next : Nat) :
    Runs (splice redirects body next) := by
  induction body generalizing next with
  | done => exact Runs.ok _
  | step s rest ih =>
      apply (Runs.foldlM (fun r _ s => Spliced.redirect_runs s r) _).bind
      simp [ih]
  | loop head body rest ihbody ihrest => simp [splice, ihbody, ihrest]

theorem relayoutWarning_runs
    {k : Kernel} {record : RelayoutRecord} (hsrc : k.Has record.src)
    (hdst : k.Has record.dst) :
    Runs (relayoutWarning k record) := by
  simp [relayoutWarning, hsrc, hdst]

theorem Inserts.exists_redirect
    {redirects : List Redirect} {body body' : Body}
    {records : List RelayoutRecord} (h : Inserts redirects body body' records)
    {record : RelayoutRecord} (hrecord : record ∈ records) :
    ∃ r ∈ redirects, record.src = r.tile ∧ record.dst = r.twin ∨
      record.src = r.twin ∧ record.dst = r.tile := by
  induction h with
  | done => cases hrecord
  | step next hrest ih =>
      rcases mem_append.mp hrecord with hown | hlater
      · rcases mem_recordsFrom hown with ⟨r, hr, n, hin⟩
        refine ⟨r, (mem_redirectsOf.mp hr).1, ?_⟩
        rcases mem_append.mp hin with hload | hstore
        · exact Or.inl (Redirect.mem_loadAt hload).2.2
        · exact Or.inr (Redirect.mem_storeAt hstore).2.2
      · exact ih hlater
  | loop hbody hrest ihbody ihrest =>
      rcases mem_append.mp hrecord with hinner | hlater
      · exact ihbody hinner
      · exact ihrest hlater

theorem PlansOf.redirect_lt
    {k k' : Kernel} {uses : List TileUse} {target : Target}
    {planned : List PlannedTile} (h : PlansOf k uses target planned)
    (htiles : k'.tiles =
      (planned.map (·.resolved) ++ planned.flatMap (·.twinTiles)).toArray)
    {r : Redirect} (hr : r ∈ allRedirects k.tiles.size planned) :
    k'.Has r.tile ∧ k'.Has r.twin := by
  rcases h.exists_twin htiles hr with ⟨p, hp, htile, _, _, _, _, _, _, hentry⟩
  have hlt := (Array.getElem?_eq_some_iff.mp (h.getElem?_id hp)).1
  have hle := (h.retiled htiles).size_eq
  refine ⟨?_, (Array.getElem?_eq_some_iff.mp hentry).1⟩
  rw [htile]
  omega

/-! ## The inferred kernel -/

theorem Step.mentions_cases {s : Step} (h : t ∈ (Op.step s).mentions) :
    t ∈ s.op.tiles ∨ s.op = .alloc t := by
  rcases s with ⟨id, op, strategy⟩
  have hin : t ∈ (Op.step ⟨id, op, strategy⟩).reads ++
      (Op.step ⟨id, op, strategy⟩).writes ++ _ :=
    mem_eraseDups.mp h
  rcases mem_append.mp hin with heffect | halloc
  · left
    rcases mem_append.mp heffect with hread | hwrite
    · exact mem_append_left _ (mem_eraseDups.mp hread)
    · exact mem_append_right _ (mem_eraseDups.mp hwrite)
  · right
    cases op with
    | alloc tile => rw [mem_singleton.mp halloc]
    | _ => cases halloc

section

variable {k : Kernel} {target : Target} {all : List TileUse}
  {planned : List PlannedTile} {inferred : Inferred}

theorem InfersBy.rerouted_lt
    (h : InfersBy k target all planned inferred) (id : OpId) (ht : k.Has t) :
    (rerouted (redirectsOf (allRedirects k.tiles.size planned) id) t).index <
      inferred.kernel.tiles.size := by
  have hle := (h.plans.retiled h.tiles).size_eq
  rcases h.redirections.rerouted_cases id t with ⟨hsame, _⟩ | ⟨r, hr, _, htwin⟩
  · rw [hsame]
    omega
  · rw [htwin]
    exact (h.plans.redirect_lt h.tiles (mem_redirectsOf.mp hr).1).2

theorem InfersBy.inTable (h : InfersBy k target all planned inferred) :
    inferred.kernel.InTable := by
  obtain ⟨next, _, hspliced⟩ := h.spliced
  intro s' hs' t ht
  rcases Step.mentions_cases ht with htile | halloc
  · exact (h.infers.wellFormed_kernel.fitting s' hs').lt_size t htile
  · rcases hspliced.rerouted.step_cases hs' with
      ⟨s, hs, heq⟩ | ⟨r, _, heq | heq⟩
    · rcases s with ⟨id, op, strategy⟩
      rw [halloc] at heq
      cases op with
      | alloc tile =>
          cases heq
          exact h.rerouted_lt id
            (h.references _ hs tile (by simp [Op.mentions]))
      | _ => cases heq
    · rw [halloc] at heq
      cases heq
    · rw [halloc] at heq
      cases heq

theorem InfersBy.laidOut
    (h : InfersBy k target all planned inferred) (htarget : target.Admissible)
    (hdeclared : k.TestableLayouts) : inferred.kernel.LaidOut := by
  have hin : k.InTable := fun s hs t ht => h.references _ hs t ht
  have hsized := (hin.uses_ends fun _ : True => htarget).of_eq_ok h.uses trivial
  have husable : ∀ p ∈ planned, ∀ l, p.plan.Has l → l.Usable := by
    intro p hp l hl
    have htile : p.tile ∈ k.tiles :=
      Array.mem_of_getElem? (h.plans.getElem?_id hp)
    rcases h.plans.plan p hp with ⟨howns, hplan⟩
    apply ((planned_of_planTile hplan).chosen l hl).usable (hdeclared _ htile)
    intro u hu
    rw [howns] at hu
    exact hsized u (mem_of_mem_filter hu)
  intro tile htile l hl
  rw [h.tiles] at htile
  rcases mem_append.mp (mem_toArray.mp htile) with hin | hin
  · rcases mem_map.mp hin with ⟨p, hp, rfl⟩
    cases hl
    exact husable p hp _ (Or.inl rfl)
  · rcases mem_flatMap.mp hin with ⟨p, hp, htwin⟩
    rcases mem_map.mp htwin with ⟨⟨twin, n⟩, hentry, rfl⟩
    cases hl
    have hmem := mem_of_getElem? (mem_zipIdx_iff_getElem?.mp hentry)
    exact husable p hp _ (Or.inr ⟨twin, hmem, rfl⟩)

end

/-- Every error of inference is shown at a tile or an operation of the
kernel. -/
theorem infer_ends
    {k : Kernel} {target : Target} (htarget : W → target.Admissible)
    (hdeclared : W → k.TestableLayouts) :
    Ends W (InferenceError.PointsInto k) (fun _ => True) (k.infer target) := by
  apply (checkReferences_ends (Subset.refl _)).bind_eq
  intro _ hreferences _
  apply (reserveOpIds_ends k).bind_eq
  intro k₁ hreserve _
  rcases reserveOpIds_eq_ok hreserve with ⟨_, next, rfl, _⟩
  have hin : Kernel.InTable { k with nextOp := next } :=
    fun s hs t ht => checkReferences_eq_ok hreferences hs ht
  -- numbering does not change the sites
  have hsites : ∀ e : InferenceError, e.PointsInto { k with nextOp := next } →
      e.PointsInto k := fun _ he => he
  apply (hin.checkShapes_ends.mono_error hsites).bind
  intro _ _
  apply ((hin.uses_ends htarget).mono_error hsites).bind
  intro all hsized
  have htestable : W → Kernel.TestableLayouts { k with nextOp := next } :=
    hdeclared
  apply ((planTiles_ends htestable hsized).mono_error hsites).bind_eq
  intro planned hplanned _
  apply Ends.bind_lift fun _ => splice_runs _ _ _
  rintro ⟨body, records, last⟩ hsplice _
  have hinserts := (inserts_of_splice hsplice).1
  have hplans := plansOf_of_planTiles hplanned
  let k' : Kernel := { k with
    tiles := (planned.map (·.resolved) ++ planned.flatMap (·.twinTiles)).toArray
    body := body
    nextOp := last }
  have htiles : k'.tiles =
      (planned.map (·.resolved) ++ planned.flatMap (·.twinTiles)).toArray := rfl
  have hwarnings : Runs (records.mapM (relayoutWarning k')) := by
    apply Runs.mapM
    intro record hrecord
    rcases hinserts.exists_redirect hrecord with ⟨r, hr, hends⟩
    have hlt := hplans.redirect_lt htiles hr
    rcases hends with ⟨hsrc, hdst⟩ | ⟨hsrc, hdst⟩
    · exact relayoutWarning_runs (hsrc ▸ hlt.1) (hdst ▸ hlt.2)
    · exact relayoutWarning_runs (hsrc ▸ hlt.2) (hdst ▸ hlt.1)
  apply Ends.bind_lift fun _ => hwarnings
  exact fun inserted _ _ => Ends.ok trivial

end TileProgram
