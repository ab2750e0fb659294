import TileProgram.Kernel.Builder
import TileProgram.Proofs.Compile
import TileProgram.Proofs.Inference.Seen
import TileProgram.Proofs.Layout.Placement
import TileProgram.Proofs.Matmul
import TileProgram.Proofs.Staged.Capacity

/-!
# The compiled reference kernel

A script builds the reference kernel.  A compiled kernel has passed the capacity
check of its loops, so its shared tiles are no larger than shared memory, and
with them the windows of a matrix product.  Run by its schedule, the compiled
kernel multiplies its operands.
-/

namespace TileProgram

open Inference Kernel List

/-! ## Shared tiles of compiled kernels -/

theorem Layout.prod_le_footprint
    {l : Layout} {count : Nat} (hmemory : l.isFragment = false)
    (h : l.footprint = .ok count) : l.shape.prod ≤ count := by
  unfold Layout.footprint at h
  unfold Layout.isFragment at hmemory
  split at h
  · exact (l.shape.numel_settles.of_eq_ok h).ge
  · exact (l.shape.numel_settles.of_eq_ok h).ge
  · obtain ⟨rows, hrows, h⟩ := bind_eq_ok h
    obtain ⟨pitch, hpitch, h⟩ := bind_eq_ok h
    cases h
    rw [l.shape.rows_settles.of_eq_ok hrows,
      (Checked.word32_settles _).of_eq_ok hpitch,
      Shape.prod_eq_dropLast_mul_cols]
    exact Nat.mul_le_mul_left _ (Nat.le_add_right _ _)
  · rename_i f hkind
    rw [hkind] at hmemory
    cases hmemory

theorem Infers.pendingRegions_eq
    {k : Kernel} {inferred : Inferred} (h : Infers k inferred) :
    inferred.kernel.pendingRegions = k.pendingRegions := by
  obtain ⟨redirects, next, _, _, hspliced⟩ := h.spliced
  exact hspliced.rerouted.filterMap_entries (fun _ => rfl) fun _ _ _ => rfl

/-- The first loop that is scheduled is checked with every shared tile of the
kernel. -/
theorem prod_le_capacity
    {k : Kernel} {target : Target} {compiled : Compiled}
    (hplain : k.scheduledRegions = []) (hpending : k.pendingRegions ≠ [])
    (hcompile : k.compile target = .ok compiled) {i : Nat} {tile : Tile}
    (htile : k.tiles[i]? = some tile) (hshared : tile.scope = .shared) :
    tile.shape.prod ≤ target.shared.capacityBytes := by
  obtain ⟨inferred, scheduled, hinfer, hschedule, _⟩ := compile_eq_ok hcompile
  have hinfers := infers_of_infer hinfer
  obtain ⟨all, planned, hby⟩ := infersBy_of_infer hinfer
  obtain ⟨l, hkept⟩ := hby.tile_kept htile
  obtain ⟨p, hp, l', hentry⟩ := hby.exists_entry hkept
  cases hentry.layout
  have hplanned := hby.planned_of_mem hp
  obtain ⟨region, later, hregions⟩ := exists_cons_of_ne_nil hpending
  unfold Kernel.schedule at hschedule
  rw [hinfers.pendingRegions_eq, hregions] at hschedule
  obtain ⟨staged, k', hstep, _⟩ := scheduleEach_cons_eq_ok hschedule
  obtain ⟨_, _, _, _, _, _, _, _, ⟨required, hrequired, hroom⟩, hpos, _⟩ :=
    retires_of_scheduleRegion hstep
  have hlive : (⟨i⟩ : TileId) ∉ inferred.kernel.retired := by
    rw [retired_eq_nil (hinfers.scheduledRegions_eq_nil hplain)]
    exact not_mem_nil
  obtain ⟨bytes, hbytes, hle⟩ :=
    footprintBytes_le_sharedBytes hrequired hpos hkept hshared hlive
  obtain ⟨count, hcount, hbytes⟩ := bind_eq_ok hbytes
  have hprod : l.shape.prod ≤ count := by
    apply Layout.prod_le_footprint _ hcount
    rw [hplanned.kind l hentry.has, ← hentry.scope_eq]
    show (tile.scope == .fragment) = false
    rw [hshared]
    rfl
  have hshape : l.shape = tile.shape :=
    (hplanned.shape l hentry.has).trans hentry.shape_eq.symm
  have hwords := (Checked.word64_settles _).of_eq_ok hbytes
  have hpositive : 0 < tile.type.bytes := by cases tile.type <;> decide
  have hgrows := Nat.le_mul_of_pos_right count hpositive
  have hwords : bytes = count * tile.type.bytes := hwords
  rw [← hshape]
  omega

/-! ## The reference kernel -/

namespace MatmulConfig

variable {cfg : MatmulConfig}

def script (cfg : MatmulConfig) : Script :=
  let shapeA := [cfg.blockM, cfg.blockK]
  let shapeB := cfg.storedB cfg.blockK cfg.blockN
  let shapeC := [cfg.blockM, cfg.blockN]
  let iteration : Script :=
    .call (.copy (.region ⟨⟨0⟩, [cfg.row, cfg.depth], shapeA⟩) (.full ⟨3⟩) none)
      (.call (.copy (.region ⟨⟨1⟩, cfg.storedB cfg.depth cfg.col, shapeB⟩)
        (.full ⟨4⟩) none)
        (.call (.issue (.gemm ⟨3⟩ ⟨4⟩ ⟨5⟩ false cfg.transposeB false)) .done))
  .call (.tile "A" [cfg.m, cfg.k] cfg.type .global)
    (.call (.tile "B" (cfg.storedB cfg.k cfg.n) cfg.type .global)
      (.call (.tile "C" [cfg.m, cfg.n] cfg.type .global)
        (.call (.tile "A_shared" shapeA cfg.type .shared)
          (.call (.tile "B_shared" shapeB cfg.type .shared)
            (.call (.tile "C_local" shapeC cfg.accum .fragment)
              (.call (.rasterize 10 cfg.rasterization)
                (.call (.issue (.fill ⟨5⟩ 0))
                  (.pipelined "k" (ceilDiv cfg.k cfg.blockK) cfg.stages
                    iteration (.call (.copy (.full ⟨5⟩)
                      (.region ⟨⟨2⟩, [cfg.row, cfg.col], shapeC⟩) none)
                      .done)))))))))

theorem build_script (cfg : MatmulConfig) :
    ∃ replies, cfg.script.build "matmul"
      ⟨ceilDiv cfg.n cfg.blockN, ceilDiv cfg.m cfg.blockM, 1⟩
      ⟨cfg.threads, 1, 1⟩ = .ok (cfg.kernel, replies) :=
  ⟨_, rfl⟩

theorem covers_full (t : TileId) (shape : Shape) :
    (Region.full t shape).covers shape := by
  unfold Region.covers Region.full
  simp

/-- Loads and the fill overwrite their tiles, the product reads the sums, and
the store writes global memory. -/
theorem writesWhole (hwf : cfg.kernel.WellFormed) : cfg.kernel.WritesWhole := by
  intro s hs t ht tile htile hscope
  have hdefines : ∀ defined, (Op.step s).defines cfg.kernel = .ok defined →
      t ∈ defined → s.op.Overwrites cfg.kernel t := fun defined hdefines ht =>
    TileOp.overwrites_of_mem_defines (hwf.fitting s hs) hdefines ht
  have hload : ∀ (src : Region) (dst : TileId) (shape : Shape) (id : OpId),
      cfg.kernel.shapeOf dst = .ok shape →
      s = ⟨id, .copy src (.full dst shape) none, none⟩ →
      s.op.Overwrites cfg.kernel t := by
    rintro src dst shape id hshape rfl
    refine hdefines [dst] ?_ ht
    obtain ⟨tile, htile, rfl⟩ := map_eq_ok_iff.mp hshape
    have hcovers := covers_full dst tile.shape
    show (cfg.kernel.tile dst >>= fun tile => pure _) = _
    rw [htile, ok_bind, if_pos hcovers]
    rfl
  simp only [Kernel.ops, kernel, body, iteration, Body.ops, cons_append,
    nil_append, mem_cons, Op.step.injEq, reduceCtorEq, not_mem_nil, or_false,
    false_or] at hs
  rcases hs with rfl | rfl | rfl | rfl | heq | heq | rfl | rfl
  · cases ht
  · cases ht
  · cases ht
  · exact Or.inr (hdefines [⟨5⟩] rfl ht)
  · exact Or.inr (hload _ _ _ _ rfl heq)
  · exact Or.inr (hload _ _ _ _ rfl heq)
  · left
    rw [mem_singleton.mp ht]
    simp [TileOp.reads]
  · rw [mem_singleton.mp ht] at htile
    cases htile
    exact absurd rfl hscope

theorem not_uncountable (hsized : cfg.Addressable) :
    ¬ cfg.kernel.Uncountable := by
  rintro ⟨op, hop, hlong⟩
  cases op with
  | step s => exact absurd hlong (by decide : ¬ 0x8000000000000000 < 1)
  | loop head inner =>
      simp only [Kernel.ops, kernel, body, iteration, Body.ops, cons_append,
        nil_append, mem_cons, Op.loop.injEq, reduceCtorEq, not_mem_nil,
        or_false, false_or] at hop
      have htrip : (Op.loop head inner).iterations =
          ceilDiv cfg.k cfg.blockK := by
        rw [hop.1]
        rfl
      have hle := @ceilDiv_le cfg.k cfg.blockK hsized.blockDepth.1
      have hdepth := hsized.depth.2
      have hlimit : limit32 ≤ 0x8000000000000000 := by decide
      omega

/-- The shared tiles of a compiled kernel are no larger than shared memory, and
with half a gigabyte of it the windows can be held. -/
theorem addressable_of_compile
    {target : Target} {compiled : Compiled} (hextents : cfg.Extents)
    (hcapacity : target.shared.capacityBytes ≤ 2 ^ 29)
    (hcompile : cfg.kernel.compile target = .ok compiled) :
    cfg.Addressable := by
  have hpending : cfg.kernel.pendingRegions ≠ [] := cons_ne_nil _ _
  have hleft : [cfg.blockM, cfg.blockK].prod ≤ 2 ^ 29 :=
    (prod_le_capacity rfl hpending hcompile (i := 3) rfl rfl).trans hcapacity
  have hright : (cfg.storedB cfg.blockK cfg.blockN).prod ≤ 2 ^ 29 :=
    (prod_le_capacity rfl hpending hcompile (i := 4) rfl rfl).trans hcapacity
  have hstored : (cfg.storedB cfg.blockK cfg.blockN).prod =
      cfg.blockK * cfg.blockN := by
    unfold storedB
    split <;> simp [Nat.mul_comm]
  rw [hstored] at hright
  rw [prod_cons, prod_singleton] at hleft
  have hrows : cfg.blockM ≤ 2 ^ 29 :=
    (Nat.le_mul_of_pos_right _ hextents.blockDepth.1).trans hleft
  have hcols : cfg.blockN ≤ 2 ^ 29 :=
    (Nat.le_mul_of_pos_left _ hextents.blockDepth.1).trans hright
  have hout : cfg.blockM * cfg.blockN ≤ 2 ^ 29 * 2 ^ 29 :=
    Nat.mul_le_mul hrows hcols
  have hheld : ∀ area ≤ 2 ^ 29 * 2 ^ 29,
      Write.bytes * area < 0x8000000000000000 := by
    intro area harea
    rw [show Write.bytes = 24 from rfl]
    omega
  exact ⟨hextents, hheld _ (by omega), hheld _ (by omega), hheld _ hout⟩

end MatmulConfig

/-- The compiled reference kernel multiplies its operands. -/
theorem compiled_matmul_eq_product
    {R : Type} [Semiring R] [Element R] (hexact : ExactArithmetic R)
    {cfg : MatmulConfig} (hextents : cfg.Extents) {target : Target}
    {compiled : Compiled} (hcompile : cfg.kernel.compile target = .ok compiled)
    (hroom : cfg.Addressable ∨ target.shared.capacityBytes ≤ 2 ^ 29)
    {start : Memory R} (hfits : start.Fits compiled.kernel)
    {a b : Nat → Nat → R} (hoperands : cfg.Operands a b start) :
    ∃ final, compiled.kernel.run .scheduled none start = .ok final ∧
      final.HoldsMatrix ⟨2⟩ cfg.m cfg.n (cfg.product a b) ∧
      final.tile ⟨0⟩ = start.tile ⟨0⟩ ∧ final.tile ⟨1⟩ = start.tile ⟨1⟩ := by
  have hsized : cfg.Addressable := by
    rcases hroom with hsized | hcapacity
    · exact hsized
    · exact MatmulConfig.addressable_of_compile hextents hcapacity hcompile
  obtain ⟨inferred, _, hinfer, _⟩ := compile_eq_ok hcompile
  have hwf := (infers_of_infer hinfer).wellFormed
  have hplain : cfg.kernel.scheduledRegions = [] := rfl
  have hbegin : Twinned cfg.kernel compiled.kernel
      (start.restrict cfg.kernel) start :=
    twinned_restrict (fun t ht => compiled_shapeOf_eq hplain hcompile ht) hfits
  have hsame : ∀ t : TileId,
      t.index < 6 → (start.restrict cfg.kernel).tile t = start.tile t :=
    fun t ht => start.tile_restrict ht
  obtain ⟨expected, hrun, hkept, hproduct⟩ := MatmulConfig.run_eq_ok hexact
    hsized hbegin.fits (hoperands.congr_tile fun t ht => hsame t (by omega))
  obtain ⟨final, hfinal, hends⟩ :=
    compiled_run_eq hplain hcompile (MatmulConfig.writesWhole hwf)
      (MatmulConfig.not_uncountable hsized) none hfits hrun
  have hoperand : ∀ t : TileId, t.index < 2 → final.tile t = start.tile t := by
    intro t ht
    rw [hends t (ht.trans (by decide : 2 < 6)), hkept t ht, hsame t (by omega)]
  exact ⟨final, hfinal, hproduct.congr_tile (hends ⟨2⟩ (by decide : 2 < 6)),
    hoperand ⟨0⟩ (by decide), hoperand ⟨1⟩ (by decide)⟩

/-- Sums and products of natural numbers; nothing else is needed of them. -/
instance : Element Nat where
  const _ := 0
  unary _ x := x
  binary
    | .add, x, y => x + y
    | .mul, x, y => x * y
    | _, x, _ => x
  cast _ x := x

/-- Blocks of two rows, two columns and a depth of two divide none of the
extents. -/
def raggedMatmul : MatmulConfig where
  m := 3
  n := 3
  k := 5
  blockM := 2
  blockN := 2
  blockK := 2
  stages := 2
  threads := 1
  type := .f32
  accum := .f32
  transposeB := true
  rasterization := true

/-- Entry `(i, p)` of the left operand is `i + p`, entry `(p, j)` of the right
one `2p + j`; the output and the tiles on chip hold ones. -/
def raggedStart : Memory Nat :=
  let left := (range 15).map fun n => n / 5 + n % 5
  let right := (range 15).map fun n => 2 * (n % 5) + n / 5
  let onChip := replicate 7 (replicate 4 1)
  ⟨((left :: right :: replicate 9 1 :: onChip).map toArray).toArray⟩

theorem compiled_matmul_eq_product_ragged :
    ∃ compiled final, raggedMatmul.kernel.compile .sm70 = .ok compiled ∧
      compiled.kernel.run .scheduled none raggedStart = .ok final ∧
      final.HoldsMatrix ⟨2⟩ 3 3
        (raggedMatmul.product (fun i p => i + p) (fun p j => 2 * p + j)) := by
  have hcompute :
      ((raggedMatmul.kernel.compile .sm70).toOption.map fun compiled =>
      compiled.kernel.tiles.toList.map fun tile => tile.shape.prod) =
        some [15, 15, 9, 4, 4, 4, 4, 4, 4, 4] := by
    decide +kernel
  obtain ⟨compiled, hcompile, hsizes⟩ := Option.map_eq_some_iff.mp hcompute
  rw [toOption_eq_some_iff] at hcompile
  have hfits : raggedStart.Fits compiled.kernel := by
    apply Memory.fits_of_sizes
    rw [hsizes]
    decide
  have hexact : ExactArithmetic Nat := ⟨rfl, fun _ _ => rfl, fun _ _ => rfl⟩
  have hextents : raggedMatmul.Extents := by
    constructor <;> decide
  have hoperands : raggedMatmul.Operands (fun i p => i + p)
      (fun p j => 2 * p + j) raggedStart :=
    ⟨⟨_, rfl, by decide, by decide⟩, ⟨_, rfl, by decide, by decide⟩⟩
  obtain ⟨final, hfinal, hproduct, _⟩ :=
    compiled_matmul_eq_product hexact hextents hcompile (Or.inr (by decide))
      hfits hoperands
  exact ⟨compiled, final, hcompile, hfinal, hproduct⟩

end TileProgram
