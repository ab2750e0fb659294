import TileProgram.Proofs.Inference.Seen
import TileProgram.Proofs.WarpPartition
import TileProgram.Selection

/-!
# Inference and selection agree on matrix products

Inference gives the operands of a bound product the register layouts that the
instruction accepts, and selection accepts nothing else.  An operation sees a
tile through one layout, so the two agree unless a product has the same tile in
registers in two places, which would have to have two layouts at once.
-/

namespace TileProgram

open Checked Inference Kernel List

variable {transposeA transposeB clear : Bool} {a b c : TileId} {s : Step}

/-! ## Division of a bound product among warps -/

theorem GemmBinding.repeats_eq
    {b : GemmBinding}
    (h : b.warps.Covers b.instruction.shape.m b.instruction.shape.n b.dims.m
      b.dims.n)
    (hdepth : b.instruction.shape.k ≠ 0) :
    b.repeats = .ok ⟨b.dims.m / (b.instruction.shape.m * b.warps.rows),
      b.dims.n / (b.instruction.shape.n * b.warps.cols),
      b.dims.k / b.instruction.shape.k⟩ := by
  unfold repeats
  simp only [word32_of_lt h.rows_lt, word32_of_lt h.cols_lt, ok_bind,
    div_of_ne_zero _ h.rows_pos.ne', div_of_ne_zero _ h.cols_pos.ne',
    div_of_ne_zero _ hdepth]
  rfl

theorem GemmBinding.exists_repeats
    {k : Kernel} {target : Target} {a b c : Tile} {binding : GemmBinding}
    (h : Binds k target transposeA transposeB a b c (some binding)) :
    ∃ repeats, binding.repeats = .ok repeats := by
  cases h with
  | bound hchip hinstruction hdims hthreads hlanes hwarps hdepth =>
      exact ⟨_, repeats_eq (MatrixInstruction.covers_of_warpPartition hwarps).2
        (mod_eq_ok hdepth).1⟩

/-! ## Operands -/

namespace Selection

variable {k : Kernel} {binding : GemmBinding} {t : TileId} {tile : Tile}
  {l : Layout}

theorem checkOperand_eq_ok_iff
    (htile : k.tile t = .ok tile) (hlayout : tile.layout = some l) (op : OpId)
    (role : Role) (transposed : Bool) :
    checkOperand k op binding t role transposed = .ok () ↔
      operandFits tile l (binding.operandLayout role transposed) = true := by
  unfold checkOperand layoutOf
  simp only [htile, hlayout, lift_ok, ok_bind, pure, Except.pure]
  cases operandFits tile l (binding.operandLayout role transposed) with
  | true => exact ⟨fun _ => rfl, fun _ => rfl⟩
  | false =>
      simp only [mismatch, htile, lift_ok, ok_bind, Pass.fail]
      exact ⟨fun h => (nomatch h), fun h => (nomatch h)⟩

theorem operandFits_fragment
    (hscope : tile.scope = .fragment) (expected : RegisterLayout) :
    operandFits tile l expected = true ↔ l.kind = .fragment expected := by
  unfold operandFits
  rw [hscope]
  cases l.kind <;> simp

theorem operandFits_memory
    (hscope : tile.scope ≠ .fragment) (expected : RegisterLayout) :
    operandFits tile l expected = true ↔ l.isFragment = false := by
  unfold operandFits Layout.isFragment
  cases l.kind <;> cases htile : tile.scope <;> simp_all

end Selection

theorem MatrixInstruction.atom_inj
    {i : MatrixInstruction} {role role' : Role}
    (h : i.atom role = i.atom role') : role = role' := by
  obtain ⟨name, vendor, shape, a, b, acc, lanes⟩ := i
  unfold atom at h
  cases vendor <;> cases role <;> cases role' <;> simp_all

def GemmBinding.grid (b : GemmBinding) : Role → WarpGrid
  | .a => ⟨b.warps.rows, 1⟩
  | .b => ⟨1, b.warps.cols⟩
  | .c => b.warps

theorem GemmBinding.exists_operandLayout
    (binding : GemmBinding) (role : Role) (transposed : Bool) :
    ∃ replicas, binding.operandLayout role transposed =
      .operand (binding.instruction.atom role) (binding.grid role) replicas
        transposed := by
  cases role <;> exact ⟨_, rfl⟩

theorem GemmBinding.operandLayout_inj
    {binding : GemmBinding} {role role' : Role} {transposed transposed' : Bool}
    (h : binding.operandLayout role transposed =
      binding.operandLayout role' transposed') : role = role' := by
  obtain ⟨_, heq⟩ := binding.exists_operandLayout role transposed
  obtain ⟨_, heq'⟩ := binding.exists_operandLayout role' transposed'
  rw [heq, heq'] at h
  injection h with hatom
  exact MatrixInstruction.atom_inj hatom

/-! ## Products of the inferred kernel -/

def Kernel.InRegisters (k : Kernel) (t : TileId) : Prop :=
  k.tiles[t.index]?.map (·.scope) = some .fragment

/-- No tile in registers is in two places of the product. -/
def Kernel.RegistersApart (k : Kernel) (a b c : TileId) : Prop :=
  (a = b ∨ a = c → ¬ k.InRegisters a) ∧ (b = c → ¬ k.InRegisters b)

instance (k : Kernel) (t : TileId) : Decidable (k.InRegisters t) :=
  inferInstanceAs (Decidable (_ = _))

instance (k : Kernel) (a b c : TileId) : Decidable (k.RegistersApart a b c) :=
  inferInstanceAs (Decidable (_ ∧ _))

def gemmPlaces (a b c : TileId) (transposeA transposeB : Bool) :
    List (TileId × Role × Bool) :=
  [(a, .a, transposeA), (b, .b, transposeB), (c, .c, false)]

theorem gemmPlaces_inj
    {place place' : TileId × Role × Bool}
    (h : place ∈ gemmPlaces a b c transposeA transposeB)
    (h' : place' ∈ gemmPlaces a b c transposeA transposeB)
    (hrole : place.2.1 = place'.2.1) : place = place' := by
  simp only [gemmPlaces, mem_cons, not_mem_nil, or_false] at h h'
  rcases h with rfl | rfl | rfl <;> rcases h' with rfl | rfl | rfl <;> simp_all

theorem Kernel.registersApart_iff {k : Kernel} (transposeA transposeB : Bool) :
    k.RegistersApart a b c ↔ ∀ place ∈ gemmPlaces a b c transposeA transposeB,
      ∀ place' ∈ gemmPlaces a b c transposeA transposeB, place.1 = place'.1 →
        k.InRegisters place.1 → place.2.1 = place'.2.1 := by
  simp only [gemmPlaces, forall_mem_cons, not_mem_nil, false_implies,
    implies_true, and_true, true_and, RegistersApart, reduceCtorEq]
  constructor
  · rintro ⟨ha, hb⟩
    refine ⟨⟨fun heq h => ha (Or.inl heq) h, fun heq h => ha (Or.inr heq) h⟩,
      ⟨fun heq h => ha (Or.inl heq.symm) (heq ▸ h), fun heq h => hb heq h⟩,
      fun heq h => ha (Or.inr heq.symm) (heq ▸ h),
      fun heq h => hb heq.symm (heq ▸ h)⟩
  · rintro ⟨⟨hab, hac⟩, ⟨_, hbc⟩, _⟩
    exact ⟨fun heq h => heq.elim (fun heq => hab heq h) fun heq => hac heq h,
      hbc⟩

section

variable {k : Kernel} {target : Target} {all : List TileUse}
  {planned : List PlannedTile} {inferred : Inferred}

theorem Selection.exists_gemm_iff
    {op : OpId} {binding : GemmBinding}
    (hbind : k.bindGemm a b c transposeA transposeB target =
      .ok (some binding)) :
    (∃ strategy,
      Selection.gemm k target op a b c transposeA transposeB = .ok strategy) ↔
      ∀ place ∈ gemmPlaces a b c transposeA transposeB,
        Selection.checkOperand k op binding place.1 place.2.1 place.2.2 =
          .ok () := by
  obtain ⟨ta, tb, tc, _, _, _, hbinds⟩ := binds_of_bindGemm hbind
  obtain ⟨repeats, hrepeats⟩ := GemmBinding.exists_repeats hbinds
  unfold Selection.gemm gemmPlaces
  simp only [within_eq_ok_iff.mpr hbind, ok_bind, forall_mem_cons, not_mem_nil,
    false_implies, implies_true, and_true]
  constructor
  · rintro ⟨strategy, h⟩
    obtain ⟨_, ha, h⟩ := bind_eq_ok h
    obtain ⟨_, hb, h⟩ := bind_eq_ok h
    obtain ⟨_, hc, h⟩ := bind_eq_ok h
    exact ⟨ha, hb, hc⟩
  · rintro ⟨ha, hb, hc⟩
    rw [ha, hb, hc]
    simp only [ok_bind, hrepeats, lift_ok]
    exact ⟨_, rfl⟩

theorem InfersBy.operand_use
    (h : InfersBy k target all planned inferred) (hs : Op.step s ∈ k.ops)
    (hop : s.op = .gemm a b c transposeA transposeB clear)
    {binding : GemmBinding}
    (hbind : k.bindGemm a b c transposeA transposeB target =
      .ok (some binding)) :
    (∀ place ∈ gemmPlaces a b c transposeA transposeB,
      ∃ u ∈ all, u.op = s.id ∧ u.tile = place.1 ∧
        u.demand =
          .pattern (.operand (binding.operandLayout place.2.1 place.2.2))) ∧
      ∀ u ∈ all, u.op = s.id → ∃ place ∈ gemmPlaces a b c transposeA transposeB,
        u.tile = place.1 ∧
        u.demand =
          .pattern (.operand (binding.operandLayout place.2.1 place.2.2)) := by
  obtain ⟨own, hown, hmem⟩ :=
    exists_uses_of_step h.wellFormed.distinct h.uses hs
  rw [hop] at hown
  simp only [opUses, within_eq_ok_iff.mpr hbind, ok_bind] at hown
  cases hown
  refine ⟨?_, ?_⟩
  · intro place hplace
    simp only [gemmPlaces, mem_cons, not_mem_nil, or_false] at hplace
    rcases hplace with rfl | rfl | rfl
    · exact ⟨_, ((hmem _).mp (mem_cons_self)).1, rfl, rfl, rfl⟩
    · exact ⟨_, ((hmem _).mp (mem_cons_of_mem _ mem_cons_self)).1, rfl, rfl,
        rfl⟩
    · exact ⟨_, ((hmem _).mp (mem_cons_of_mem _ (mem_cons_of_mem _
        mem_cons_self))).1, rfl, rfl, rfl⟩
  · intro u hu hid
    have hin := (hmem u).mpr ⟨hu, hid⟩
    simp only [mem_cons, not_mem_nil, or_false] at hin
    rcases hin with rfl | rfl | rfl
    · exact ⟨(a, .a, transposeA), by simp [gemmPlaces], rfl, rfl⟩
    · exact ⟨(b, .b, transposeB), by simp [gemmPlaces], rfl, rfl⟩
    · exact ⟨(c, .c, false), by simp [gemmPlaces], rfl, rfl⟩

theorem InfersBy.operandFits
    (h : InfersBy k target all planned inferred) (hs : Op.step s ∈ k.ops)
    (hop : s.op = .gemm a b c transposeA transposeB clear)
    {binding : GemmBinding}
    (hbind : k.bindGemm a b c transposeA transposeB target = .ok (some binding))
    {place : TileId × Role × Bool}
    (hplace : place ∈ gemmPlaces a b c transposeA transposeB) {p : PlannedTile}
    (hp : p ∈ planned) (hid : p.id = place.1) {tile : Tile} {l : Layout}
    (hentry : Entry p tile l) (hsees : p.plan.Sees s.id l)
    (hapart : tile.scope = .fragment →
      ∀ place' ∈ gemmPlaces a b c transposeA transposeB, place'.1 = place.1 →
      place'.2.1 = place.2.1) :
    Selection.operandFits tile l (binding.operandLayout place.2.1 place.2.2) =
      true := by
  obtain ⟨huses, hplaces⟩ := h.operand_use hs hop hbind
  have hplanned := h.planned_of_mem hp
  have hscope := hentry.scope_eq
  by_cases hfragment : tile.scope = .fragment
  · obtain ⟨u, hu, hop', htile, hdemand⟩ := huses place hplace
    -- the product uses the tile in one place, so all its uses of it agree
    have hsame : ∀ u' ∈ p.uses, u'.op = u.op → u'.demand = u.demand := by
      intro u' hu' hsameOp
      obtain ⟨hin, htile'⟩ := (h.mem_uses hp).mp hu'
      obtain ⟨place', hplace', htile'', hdemand'⟩ :=
        hplaces u' hin (hsameOp.trans hop')
      have hrole :=
        hapart hfragment place' hplace' (by rw [← htile'', htile', hid])
      rw [hdemand', hdemand, gemmPlaces_inj hplace' hplace hrole]
    have hexact := hplanned.exact (hscope ▸ hfragment) u
      ((h.mem_uses hp).mpr ⟨hu, htile.trans hid.symm⟩)
      _ hdemand hsame l (hop' ▸ hsees)
    rw [Selection.operandFits_fragment hfragment, hexact]
  · rw [Selection.operandFits_memory hfragment, hplanned.kind l hentry.has,
      ← hscope]
    simpa using hfragment

/-- A redirected product has a strategy unless a tile in registers is in two of
its places. -/
theorem InfersBy.exists_gemm_iff
    (h : InfersBy k target all planned inferred) (hs : Op.step s ∈ k.ops)
    (hop : s.op = .gemm a b c transposeA transposeB clear) {f : TileId → TileId}
    (hf : f = rerouted (redirectsOf (allRedirects k.tiles.size planned) s.id))
    (id : OpId) :
    ∃ bound, inferred.kernel.bindGemm (f a) (f b) (f c) transposeA transposeB
      target = .ok bound ∧
      ((∃ strategy,
        Selection.gemm inferred.kernel target id (f a) (f b) (f c) transposeA
          transposeB = .ok strategy) ↔
        bound = none ∨ inferred.kernel.RegistersApart (f a) (f b) (f c)) := by
  have hlt : ∀ place ∈ gemmPlaces a b c transposeA transposeB,
      place.1.index < k.tiles.size := by
    intro place hplace
    apply (h.wellFormed.fitting s hs).lt_size
    rw [hop]
    simp only [gemmPlaces, mem_cons, not_mem_nil, or_false] at hplace
    rcases hplace with rfl | rfl | rfl <;> simp
  have hform : ∀ place ∈ gemmPlaces a b c transposeA transposeB,
      inferred.kernel.formOf (f place.1) = k.formOf place.1 :=
    fun place hplace =>
    hf ▸ h.formOf_rerouted s.id (hlt place hplace)
  obtain ⟨own, hown, _⟩ := exists_uses_of_step h.wellFormed.distinct h.uses hs
  rw [hop] at hown
  obtain ⟨bound, hbind, _⟩ := bind_eq_ok hown
  have hbind := within_eq_ok_iff.mp hbind
  have hbind' : inferred.kernel.bindGemm (f a) (f b) (f c) transposeA transposeB
      target = .ok bound :=
    bindGemm_of_forms h.threads (hform (a, .a, transposeA)
      (by simp [gemmPlaces])) (hform (b, .b, transposeB) (by simp [gemmPlaces]))
      (hform (c, .c, false) (by simp [gemmPlaces])) hbind
  refine ⟨bound, hbind', ?_⟩
  cases bound with
  | none =>
      refine ⟨fun _ => Or.inl rfl, fun _ => ⟨.scalar, ?_⟩⟩
      unfold Selection.gemm
      simp only [within_eq_ok_iff.mpr hbind']
      rfl
  | some binding =>
      have hmoved : gemmPlaces (f a) (f b) (f c) transposeA transposeB =
          (gemmPlaces a b c transposeA transposeB).map fun place =>
            (f place.1, place.2) := rfl
      have hseen : ∀ place ∈ gemmPlaces a b c transposeA transposeB,
          ∃ p ∈ planned, p.id = place.1 ∧ ∃ tile l,
            inferred.kernel.tile? (f place.1) = some tile ∧ Entry p tile l ∧
              p.plan.Sees s.id l := fun place hplace =>
        hf ▸ h.rerouted_entry s.id (hlt place hplace)
      rw [Selection.exists_gemm_iff hbind',
        registersApart_iff transposeA transposeB, hmoved]
      simp only [forall_mem_map, reduceCtorEq, false_or]
      constructor
      · intro hfits place hplace place' hplace' htile hregisters
        obtain ⟨p, _, _, tile, l, hentry, hspec, _⟩ := hseen place hplace
        have hscope : tile.scope = .fragment := by
          unfold Kernel.InRegisters at hregisters
          rw [show inferred.kernel.tiles[(f place.1).index]? =
            some tile from hentry] at hregisters
          exact Option.some.inj hregisters
        have hkind : ∀ q ∈ gemmPlaces a b c transposeA transposeB,
            f q.1 = f place.1 →
            l.kind = .fragment (binding.operandLayout q.2.1 q.2.2) := by
          intro q hq hsame
          have hok := hfits q hq
          rw [Selection.checkOperand_eq_ok_iff
            (tile_eq_ok_iff.mpr (hsame ▸ hentry)) hspec.layout] at hok
          exact (Selection.operandFits_fragment hscope _).mp hok
        apply GemmBinding.operandLayout_inj
        exact LayoutKind.fragment.inj ((hkind place hplace rfl).symm.trans
          (hkind place' hplace' htile.symm))
      · intro hapart place hplace
        obtain ⟨p, hp, hid, tile, l, hentry, hspec, hsees⟩ := hseen place hplace
        rw [Selection.checkOperand_eq_ok_iff (tile_eq_ok_iff.mpr hentry)
          hspec.layout]
        refine h.operandFits hs hop hbind hplace hp hid hspec hsees ?_
        intro hscope place' hplace' hsame
        refine (hapart place hplace place' hplace' (by rw [hsame]) ?_).symm
        unfold Kernel.InRegisters
        rw [show inferred.kernel.tiles[(f place.1).index]? =
          some tile from hentry]
        exact congrArg some hscope

end

theorem exists_gemm_of_mapTiles
    {op : TileOp} {f : TileId → TileId}
    (h : op.mapTiles f = .gemm a b c transposeA transposeB clear) :
    ∃ a₀ b₀ c₀, op = .gemm a₀ b₀ c₀ transposeA transposeB clear ∧ f a₀ = a ∧
      f b₀ = b ∧ f c₀ = c := by
  cases op <;> cases h
  exact ⟨_, _, _, rfl, rfl, rfl, rfl⟩

/-- Selection finds a strategy for a product of an inferred kernel if no
instruction is bound to it, or if its tiles in registers are different ones, and
not otherwise. -/
theorem select_inferred_gemm
    {k : Kernel} {target : Target} {inferred : Inferred}
    (hinfer : k.infer target = .ok inferred) {s : Step}
    (hs : Op.step s ∈ inferred.kernel.ops) {a b c : TileId}
    {transposeA transposeB clear : Bool}
    (hop : s.op = .gemm a b c transposeA transposeB clear) :
    ∃ bound, inferred.kernel.bindGemm a b c transposeA transposeB target =
      .ok bound ∧
      ((∃ strategy,
        inferred.kernel.select target (.step s) = .ok (some strategy)) ↔
        bound = none ∨ inferred.kernel.RegistersApart a b c) := by
  obtain ⟨all, planned, hby⟩ := infersBy_of_infer hinfer
  obtain ⟨next, _, hspliced⟩ := hby.spliced
  rcases hspliced.rerouted.step_cases hs with ⟨s₀, hs₀, heq⟩ | ⟨r, _, hinserted⟩
  · obtain ⟨a₀, b₀, c₀, hop₀, rfl, rfl, rfl⟩ :=
      exists_gemm_of_mapTiles (heq.symm.trans hop)
    obtain ⟨bound, hbind, hiff⟩ := hby.exists_gemm_iff hs₀ hop₀ rfl s.id
    refine ⟨bound, hbind, Iff.trans ?_ hiff⟩
    simp only [Kernel.select, Selection.strategy?, hop]
    constructor
    · rintro ⟨strategy, hselect⟩
      obtain ⟨chosen, hchosen, _⟩ := map_eq_ok_iff.mp hselect
      exact ⟨chosen, hchosen⟩
    · rintro ⟨strategy, hselect⟩
      exact ⟨strategy, map_eq_ok_iff.mpr ⟨strategy, hselect, rfl⟩⟩
  · rcases hinserted with heq | heq
    · rw [hop] at heq
      cases heq
    · rw [hop] at heq
      cases heq

def Op.product? :
    Op → Option (Step × (TileId × TileId × TileId) × Bool × Bool × Bool)
  | .step s =>
      match s.op with
      | .gemm a b c transposeA transposeB clear =>
          some (s, (a, b, c), transposeA, transposeB, clear)
      | _ => none
  | .loop .. => none

theorem Op.product?_eq_some
    {op : Op}
    (h : op.product? = some (s, (a, b, c), transposeA, transposeB, clear)) :
    op = .step s ∧ s.op = .gemm a b c transposeA transposeB clear := by
  unfold Op.product? at h
  split at h
  · split at h
    · next hop =>
        cases h
        exact ⟨rfl, hop⟩
    · cases h
  · cases h

def Pass.complaint? {ε α : Type} : Pass ε α → Option ε
  | .error (.error e) => some e
  | _ => none

theorem Pass.complaint?_eq_some
    {ε α : Type} {x : Pass ε α} {e : ε} (h : x.complaint? = some e) :
    x = .error (.error e) := by
  unfold Pass.complaint? at h
  split at h
  · cases h
    rfl
  · cases h

/-- The product of a tile in registers with the transpose of one, stored to
`h`. -/
def registerProduct (left right : TileId) : Kernel :=
  let whole (t : TileId) : Region := .full t [16, 16]
  { Kernel.empty "register_product" with
    threads := ⟨32, 1, 1⟩
    tiles := #[.plain "g" [16, 16] .f16 .global,
      .plain "h" [16, 16] .f32 .global, .plain "x" [16, 16] .f16 .fragment,
      .plain "y" [16, 16] .f16 .fragment, .plain "c" [16, 16] .f32 .fragment]
    body := .step ⟨⟨0⟩, .copy (whole ⟨0⟩) (whole ⟨2⟩) none, none⟩
      (.step ⟨⟨1⟩, .copy (whole ⟨0⟩) (whole ⟨3⟩) none, none⟩
        (.step ⟨⟨2⟩, .gemm left right ⟨4⟩ false true true, none⟩
          (.step ⟨⟨3⟩, .copy (whole ⟨4⟩) (whole ⟨1⟩) none, none⟩ .done)))
    nextOp := 4 }

theorem select_inferred_gemm_twoTiles :
    ∃ inferred s a b c strategy,
      (registerProduct ⟨2⟩ ⟨3⟩).infer .sm80 = .ok inferred ∧
      Op.step s ∈ inferred.kernel.ops ∧ s.op = .gemm a b c false true true ∧
      inferred.kernel.RegistersApart a b c ∧
      inferred.kernel.select .sm80 (.step s) = .ok (some strategy) := by
  have hcompute :
      (((registerProduct ⟨2⟩ ⟨3⟩).infer .sm80).toOption.bind fun inferred =>
      (inferred.kernel.findOp? ⟨2⟩).bind fun op =>
        op.product?.bind fun product =>
        some (decide (product.2.2 = (false, true, true) ∧
          inferred.kernel.RegistersApart product.2.1.1 product.2.1.2.1
            product.2.1.2.2))) =
      some true := by
    decide +kernel
  simp only [Option.bind_eq_some_iff, toOption_eq_some_iff, Option.some.injEq,
    decide_eq_true_eq] at hcompute
  obtain ⟨inferred, hinfer, op, hfind, ⟨s, ⟨a, b, c⟩, flags⟩, hproduct, rfl,
      hapart⟩ :=
    hcompute
  obtain ⟨rfl, hop⟩ := Op.product?_eq_some hproduct
  have hin : Op.step s ∈ inferred.kernel.ops := mem_of_find?_eq_some hfind
  obtain ⟨_, _, hiff⟩ := select_inferred_gemm hinfer hin hop
  obtain ⟨chosen, hselect⟩ := hiff.mpr (Or.inr hapart)
  exact ⟨inferred, s, a, b, c, chosen, hinfer, hin, hop, hapart, hselect⟩

/-- With one tile in both places the twin that the product is redirected to has
the layout of the right place, and selection refuses it in the left one. -/
theorem select_inferred_gemm_refuses_oneTile :
    ∃ inferred s a b c tile requirement,
      (registerProduct ⟨2⟩ ⟨2⟩).infer .sm80 = .ok inferred ∧
      Op.step s ∈ inferred.kernel.ops ∧ s.op = .gemm a b c false true true ∧
      inferred.kernel.select .sm80 (.step s) =
        .error (.error (.layoutMismatch s.id tile requirement)) := by
  have hcompute :
      (((registerProduct ⟨2⟩ ⟨2⟩).infer .sm80).toOption.bind fun inferred =>
      (inferred.kernel.findOp? ⟨2⟩).bind fun op =>
        op.product?.bind fun product =>
        (inferred.kernel.select .sm80 op).complaint?.bind fun complaint =>
          some (decide (product.2.2 = (false, true, true) ∧
            complaint = .layoutMismatch product.1.id "x_relayout0"
              ("operand A layout fragment(MmaA \x7b pack: 2 \x7d warps=1x1) of "
                ++ "mma.m16n8k16.f32.f16.f16.f32 "
                ++ "(found fragment(MmaB \x7b pack: 2 \x7d warps=1x1 T))")))) =
      some true := by
    decide +kernel
  simp only [Option.bind_eq_some_iff, toOption_eq_some_iff, Option.some.injEq,
    decide_eq_true_eq] at hcompute
  obtain ⟨inferred, hinfer, op, hfind, ⟨s, ⟨a, b, c⟩, flags⟩, hproduct,
      complaint, hcomplaint, rfl, rfl⟩ := hcompute
  obtain ⟨rfl, hop⟩ := Op.product?_eq_some hproduct
  have hin : Op.step s ∈ inferred.kernel.ops := mem_of_find?_eq_some hfind
  exact ⟨inferred, s, a, b, c, _, _, hinfer, hin, hop,
    Pass.complaint?_eq_some hcomplaint⟩

end TileProgram
