import TileProgram.Proofs.Inference.Agreement
import TileProgram.Target.Descriptor

/-!
# Layouts of inferred kernels

The instructions of the presets and of described targets are admissible, so the
register layouts that matrix products demand deal their elements.  Hence every
layout that inference chooses holds its tile.  An operation of the inferred
kernel sees its tiles through the layouts that the plans gave it, and these
serve its patterns without bank conflicts.
-/

namespace TileProgram

open Inference List

variable {t : Tile} {p : AccessPattern} {inner : String} {u : TileUse}
  {own : List TileUse}

/-! ## Targets -/

/-- Every instruction can be expressed by the atoms of its vendor. -/
def Target.Admissible (target : Target) : Prop :=
  ∀ i ∈ target.instructions, i.violation? = none

theorem Target.admissible_of_mem_presets
    {target : Target} (h : target ∈ Target.presets) : target.Admissible := by
  have hall : ∀ target ∈ Target.presets,
      ∀ i ∈ target.instructions, i.violation? = none := by
    decide
  exact hall target h

theorem Descriptor.violation?_of_instruction
    {draft : InstructionDraft} {vendor : Vendor} {lanes : Nat}
    {i : MatrixInstruction} (h : instruction draft vendor lanes = .ok i) :
    i.violation? = none := by
  unfold instruction at h
  split at h
  · dsimp only at h
    split at h
    · cases h
    · rename_i hnone
      cases h
      exact hnone
  · cases h

theorem Descriptor.admissible_of_parse
    {text : String} {target : Target} (h : Descriptor.parse text = .ok target) :
    target.Admissible := by
  obtain ⟨d, -, h⟩ := bind_eq_ok h
  unfold finish at h
  cases hvendor : Vendor.ofName? d.vendor with
  | none =>
      rw [hvendor] at h
      cases (check_eq_ok_iff.mp h).2
  | some vendor =>
      rw [hvendor] at h
      -- past the checks of name, banks, capacity and vector width
      have hbanks := (check_eq_ok_iff.mp h).2
      have hcapacity := (check_eq_ok_iff.mp hbanks).2
      have hvector := (check_eq_ok_iff.mp hcapacity).2
      have h := (check_eq_ok_iff.mp hvector).2
      obtain ⟨engine, -, h⟩ := bind_eq_ok h
      obtain ⟨instructions, hinstructions, h⟩ := bind_eq_ok h
      cases h
      intro i hi
      obtain ⟨draft, -, hdraft⟩ := exists_of_mem_mapM hinstructions hi
      exact violation?_of_instruction hdraft

/-- A preset, or what some text describes. -/
def Target.Known (target : Target) : Prop :=
  target ∈ Target.presets ∨ ∃ text, Descriptor.parse text = .ok target

theorem Target.Known.admissible {target : Target} (h : target.Known) :
    target.Admissible := by
  rcases h with hpreset | ⟨text, hparse⟩
  · exact Target.admissible_of_mem_presets hpreset
  · exact Descriptor.admissible_of_parse hparse

/-! ## Demands of matrix products -/

section

variable {k : Kernel} {target : Target} {f : RegisterLayout}

theorem walkDemand_operand (h : walkDemand t p = .pattern (.operand f)) :
    p = .operand f := by
  unfold walkDemand at h
  split at h
  · split at h <;> cases h
  · cases h
  · cases h
    rfl

theorem copyDemand_ne_operand {width : Option Nat} {inner : Nat} :
    copyDemand target t width inner ≠ .pattern (.operand f) := by
  intro h
  unfold copyDemand at h
  split at h <;> cases h

theorem tileDemand_ne_operand
    {t : TileId} {d : Demand} (hp : p ≠ .operand f)
    (h : tileDemand k t p = .ok d) : d ≠ .pattern (.operand f) := by
  rintro rfl
  obtain ⟨tile, -, hdemand⟩ := bind_eq_ok h
  exact hp (walkDemand_operand (Except.ok.inj hdemand))

theorem elementwisePattern_ne_operand
    {indices : List Affine} (h : elementwisePattern indices inner = .ok p) :
    p ≠ .operand f := by
  rintro rfl
  unfold elementwisePattern at h
  split at h
  · cases h
  · obtain ⟨still, -, h⟩ := bind_eq_ok h
    split at h
    · cases h
    · obtain ⟨moves, -, h⟩ := bind_eq_ok h
      split at h <;> cases h

theorem accessUse_ne_operand
    {op : OpId} {read : Bool} {a : Access}
    (h : accessUse k op inner read a = .ok u) :
    u.demand ≠ .pattern (.operand f) := by
  obtain ⟨p, hp, h⟩ := bind_eq_ok h
  obtain ⟨tile, -, h⟩ := bind_eq_ok h
  cases h
  intro hdemand
  exact elementwisePattern_ne_operand hp (walkDemand_operand hdemand)

theorem assignUses_ne_operand
    {op : OpId} {assign : Assign} (h : assignUses k op inner assign = .ok own)
    (hu : u ∈ own) :
    u.demand ≠ .pattern (.operand f) := by
  obtain ⟨loads, hloads, h⟩ := bind_eq_ok h
  obtain ⟨dst, hdst, h⟩ := bind_eq_ok h
  cases h
  rcases mem_append.mp hu with hload | hlast
  · obtain ⟨a, -, ha⟩ := exists_of_mem_mapM hloads hload
    exact accessUse_ne_operand ha
  · rw [mem_singleton.mp hlast]
    exact accessUse_ne_operand hdst

theorem exists_atom_of_opUses
    {id : OpId} {op : TileOp} (h : opUses k target id op = .ok own)
    (hu : u ∈ own) (hdemand : u.demand = .pattern (.operand f)) :
    ∃ i ∈ target.instructions, ∃ role warps replicas transposed,
      f = .operand (i.atom role) warps replicas transposed := by
  cases opDemands_of_opUses h with
  | alloc tile => cases hu
  | copy width hsrc hdst =>
      simp only [mem_cons, not_mem_nil, or_false] at hu
      rcases hu with rfl | rfl <;> exact (copyDemand_ne_operand hdemand).elim
  | fill value htile =>
      rw [mem_singleton.mp hu] at hdemand
      exact (copyDemand_ne_operand hdemand).elim
  | parallel extents hassign =>
      obtain ⟨part, hpart, hin⟩ := mem_flatten.mp hu
      obtain ⟨assign, -, huses⟩ := exists_of_mem_mapM hassign hpart
      exact (assignUses_ne_operand huses hin hdemand).elim
  | @bound a b c transposeA transposeB binding clear hbind =>
      obtain ⟨_, _, _, -, -, -, hbinds⟩ := Kernel.binds_of_bindGemm hbind
      have hin : binding.instruction ∈ target.instructions := by
        cases hbinds with
        | bound hchip hinstruction => exact mem_of_find?_eq_some hinstruction
      have hrole : ∃ role transposed,
          f = binding.operandLayout role transposed := by
        simp only [mem_cons, not_mem_nil, or_false] at hu
        rcases hu with rfl | rfl | rfl <;> cases hdemand <;> exact ⟨_, _, rfl⟩
      obtain ⟨role, transposed, rfl⟩ := hrole
      obtain ⟨replicas, heq⟩ := binding.exists_operandLayout role transposed
      exact ⟨_, hin, role, _, replicas, transposed, heq⟩
  | unbound clear hbind hda hdb hdc =>
      simp only [mem_cons, not_mem_nil, or_false] at hu
      rcases hu with rfl | rfl | rfl
      · exact (tileDemand_ne_operand (by simp) hda hdemand).elim
      · exact (tileDemand_ne_operand (by simp) hdb hdemand).elim
      · exact (tileDemand_ne_operand (by simp) hdc hdemand).elim
  | reduce kind clear hsrc hnext hds hdd =>
      simp only [mem_cons, not_mem_nil, or_false] at hu
      rcases hu with rfl | rfl
      · exact (tileDemand_ne_operand (by split <;> simp) hds hdemand).elim
      · exact (tileDemand_ne_operand (by simp) hdd hdemand).elim
  | relayout src dst =>
      simp only [mem_cons, not_mem_nil, or_false] at hu
      rcases hu with rfl | rfl <;> cases hdemand

theorem exists_opUses_of_mem
    {all : List TileUse} (h : uses k target = .ok all) (hu : u ∈ all) :
    ∃ id op own, opUses k target id op = .ok own ∧ u ∈ own := by
  unfold uses at h
  obtain ⟨perOp, hperOp, h⟩ := bind_eq_ok h
  cases h
  obtain ⟨own, hown, hin⟩ := mem_flatten.mp hu
  obtain ⟨op, -, huses⟩ := exists_of_mem_mapM hperOp hown
  cases op with
  | step s => exact ⟨s.id, s.op, own, huses, hin⟩
  | loop region body =>
      cases huses
      cases hin

/-! ## Layouts that are chosen -/

theorem Layout.Chosen.spreads
    (hadmissible : target.Admissible) {all : List TileUse}
    (huses : uses k target = .ok all) (hown : own ⊆ all) {l : Layout}
    (h : l.Chosen t own) : l.Spreads := by
  cases h with
  | candidate hcandidate =>
      cases hcandidate with
      | rowMajor => exact spreads_rowMajor t.shape
      | swizzled s hwf => exact spreads_swizzled hwf
      | padded pad => exact spreads_padded t.shape pad
  | declared _ hinjective => exact spreads_of_isInjective hinjective
  | dealt hwf => exact spreads_striped hwf
  | operand hu hdemand hwf =>
      obtain ⟨id, op, uses, hop, hin⟩ := exists_opUses_of_mem huses (hown hu)
      obtain ⟨i, hi, role, warps, replicas, transposed, rfl⟩ :=
        exists_atom_of_opUses hop hin hdemand
      obtain ⟨_, _, hdeals⟩ :=
        MatrixInstruction.exists_deals (hadmissible i hi) role
      exact spreads_operand hdeals hwf

end

section

variable {k : Kernel} {target : Target} {all : List TileUse}
  {planned : List PlannedTile} {inferred : Inferred}

theorem InfersBy.conflictFree
    (h : InfersBy k target all planned inferred) {s : Step}
    (hs : Op.step s ∈ k.ops) (id : OpId) :
    ∃ own, opUses inferred.kernel target id
        (s.op.mapTiles
          (rerouted (redirectsOf (allRedirects k.tiles.size planned) s.id))) =
          .ok own ∧
      ∀ u ∈ own, ∀ p, u.demand = .pattern p →
        ∀ tile l, inferred.kernel.tile? u.tile = some tile →
        tile.scope = .shared → tile.declared = none → tile.layout = some l →
        l.ConflictFree p tile.type.bytes target := by
  obtain ⟨own, hown, hmem⟩ :=
    exists_uses_of_step h.wellFormed.distinct h.uses hs
  have hlt := (h.wellFormed.fitting s hs).lt_size
  refine ⟨_, opUses_moved h.threads (fun t ht =>
    h.formOf_rerouted s.id (hlt t ht)) hown, ?_⟩
  intro u hu p hdemand tile l htile hshared hdeclared hlayout
  obtain ⟨u₀, hu₀, rfl⟩ := mem_map.mp hu
  -- the entry that the operation sees for the tile it used
  obtain ⟨plan, hplan, hid, tile', l', htile', hentry, hsees⟩ :=
    h.rerouted_entry s.id (hlt u₀.tile ((usesOf_of_opUses hown).tile_mem hu₀))
  obtain rfl : tile' = tile := Option.some.inj (htile'.symm.trans htile)
  obtain rfl : l' = l := Option.some.inj (hentry.layout.symm.trans hlayout)
  obtain ⟨hin, hop⟩ := (hmem u₀).mp hu₀
  have hscope : plan.tile.scope = .shared := hentry.scope_eq.symm.trans hshared
  rw [hentry.type_eq]
  exact (h.planned_of_mem hplan).conflictFree hscope
    (hentry.declared hscope hdeclared) u₀
    ((h.mem_uses hplan).mpr ⟨hin, hid.symm⟩) p hdemand l' (hop ▸ hsees)

end

/-- On a known target every tile of an inferred kernel has a layout of its shape
and of its scope that holds it, and no step meets bank conflicts in shared tiles
without a declared layout. -/
theorem inferred_layouts_hold
    {k : Kernel} {target : Target} {inferred : Inferred}
    (htarget : target.Known) (hinfer : k.infer target = .ok inferred) :
    (∀ t tile, inferred.kernel.tile? t = some tile →
      ∃ l, tile.layout = some l ∧ l.shape = tile.shape ∧
        (l.isFragment = true ↔ tile.scope = .fragment) ∧ l.Holds) ∧
    ∀ s, Op.step s ∈ inferred.kernel.ops →
      ∃ own, opUses inferred.kernel target s.id s.op = .ok own ∧
        ∀ u ∈ own, ∀ p, u.demand = .pattern p →
          ∀ tile l, inferred.kernel.tile? u.tile = some tile →
          tile.scope = .shared → tile.declared = none → tile.layout = some l →
          l.ConflictFree p tile.type.bytes target := by
  obtain ⟨all, planned, hby⟩ := infersBy_of_infer hinfer
  constructor
  · intro t tile htile
    obtain ⟨plan, hplan, l, hentry⟩ := hby.exists_entry htile
    have hplanned := hby.planned_of_mem hplan
    refine ⟨l, hentry.layout, ?_, ?_, ?_⟩
    · rw [hplanned.shape l hentry.has, hentry.shape_eq]
    · rw [hplanned.kind l hentry.has, hentry.scope_eq]
      simp
    · have hown : plan.uses ⊆ all := fun u hu => ((hby.mem_uses hplan).mp hu).1
      exact ((hplanned.chosen l hentry.has).spreads htarget.admissible hby.uses
        hown).holds
  · intro s hs
    obtain ⟨next, _, hspliced⟩ := hby.spliced
    rcases hspliced.rerouted.step_cases hs with
      ⟨s₀, hs₀, heq⟩ | ⟨r, _, hinserted⟩
    · rw [heq]
      exact hby.conflictFree hs₀ s.id
    · -- a relayout accepts any layout
      rcases hinserted with heq | heq <;> rw [heq] <;> refine ⟨_, rfl, ?_⟩
      all_goals
        intro u hu p hdemand
        simp only [mem_cons, not_mem_nil, or_false] at hu
        rcases hu with rfl | rfl <;> cases hdemand

def Demand.pattern? : Demand → Option AccessPattern
  | .pattern p => some p
  | _ => none

theorem Demand.pattern?_eq_some {d : Demand} (h : d.pattern? = some p) :
    d = .pattern p := by
  cases d <;> cases h
  rfl

/-- A tile in registers, filled in runs of four, times the transpose of a tile
in shared memory. -/
def mixedProduct : Kernel :=
  { Kernel.empty "mixed_product" with
    threads := ⟨32, 1, 1⟩
    tiles := #[.plain "a" [16, 16] .f16 .global,
      .plain "b" [8, 16] .f16 .global, .plain "s" [8, 16] .f16 .shared,
      .plain "x" [16, 16] .f16 .fragment, .plain "c" [16, 8] .f32 .fragment]
    body :=
      .step ⟨⟨0⟩, .copy (.full ⟨1⟩ [8, 16]) (.full ⟨2⟩ [8, 16]) none, none⟩
      (.step
        ⟨⟨1⟩, .copy (.full ⟨0⟩ [16, 16]) (.full ⟨3⟩ [16, 16]) (some 4), none⟩
      (.step ⟨⟨2⟩, .gemm ⟨3⟩ ⟨2⟩ ⟨4⟩ false true true, none⟩ .done))
    nextOp := 3 }

/-- The tile in shared memory gets a swizzle, which the product reads without
conflicts; the copy in runs of four gets a twin. -/
theorem inferred_layouts_hold_mixedProduct :
    Target.sm80.Known ∧ ∃ inferred, mixedProduct.infer .sm80 = .ok inferred ∧
      (∃ tile l, inferred.kernel.tile? ⟨5⟩ = some tile ∧ tile.layout = some l ∧
        l.kind = .fragment (.striped 32 4) ∧ l.Holds) ∧
      ∃ tile l, inferred.kernel.tile? ⟨2⟩ = some tile ∧ tile.layout = some l ∧
        l.kind = .swizzled ⟨1, 3, 3⟩ ∧ l.Holds ∧
        ∃ s own u p, Op.step s ∈ inferred.kernel.ops ∧
          opUses inferred.kernel .sm80 s.id s.op = .ok own ∧ u ∈ own ∧
          u.tile = ⟨2⟩ ∧
          u.demand = .pattern p ∧ l.ConflictFree p tile.type.bytes .sm80 := by
  have hknown : Target.sm80.Known := Or.inl (by decide)
  have hcompute : ((mixedProduct.infer .sm80).toOption.bind fun inferred =>
      (inferred.kernel.tile? ⟨5⟩).bind fun twin => twin.layout.bind fun dealt =>
      (inferred.kernel.tile? ⟨2⟩).bind fun tile => tile.layout.bind fun l =>
      (inferred.kernel.findOp? ⟨2⟩).bind fun op =>
        op.product?.bind fun product =>
      (opUses inferred.kernel .sm80 product.1.id product.1.op).toOption.bind
        fun own =>
      own[1]?.bind fun u => u.demand.pattern?.bind fun _ =>
        some (decide (dealt.kind = .fragment (.striped 32 4) ∧
          tile.scope = .shared ∧
          tile.declared = none ∧ l.kind = .swizzled ⟨1, 3, 3⟩ ∧ u.tile = ⟨2⟩)))
          = some true := by
    decide +kernel
  simp only [Option.bind_eq_some_iff, toOption_eq_some_iff, Option.some.injEq,
    decide_eq_true_eq] at hcompute
  obtain ⟨inferred, hinfer, twin, htwin, dealt, hdealt, tile, htile, l, hl, op,
      hfind, ⟨s, ⟨a, b, c⟩, flags⟩, hproduct, own, hown, u, hu, p, hp, hstriped,
      hshared, hdeclared, hswizzled, hutile⟩ := hcompute
  obtain ⟨rfl, -⟩ := Op.product?_eq_some hproduct
  have hdemand := Demand.pattern?_eq_some hp
  have hin : Op.step s ∈ inferred.kernel.ops := mem_of_find?_eq_some hfind
  obtain ⟨hholds, hfree⟩ := inferred_layouts_hold hknown hinfer
  obtain ⟨_, hlayout, _, _, hdealtHolds⟩ := hholds _ _ htwin
  obtain rfl := Option.some.inj (hdealt.symm.trans hlayout)
  obtain ⟨_, hlayout, _, _, hlHolds⟩ := hholds _ _ htile
  obtain rfl := Option.some.inj (hl.symm.trans hlayout)
  obtain ⟨own', hown', hfree⟩ := hfree s hin
  obtain rfl := Except.ok.inj (hown.symm.trans hown')
  have hmem := mem_of_getElem? hu
  exact ⟨hknown, inferred, hinfer,
    ⟨twin, dealt, htwin, hdealt, hstriped, hdealtHolds⟩, tile, l, htile, hl,
    hswizzled, hlHolds, s, own, u, p, hin, hown, hmem, hutile, hdemand,
    hfree u hmem p hdemand tile l (hutile ▸ htile) hshared hdeclared hl⟩

end TileProgram
