import TileProgram.Kernel.Matmul
import TileProgram.Proofs.Matrix
import TileProgram.Proofs.Run

/-!
# The reference kernel in sequence

The block at column `x` and row `y` of the grid walks the depth and adds up the
products of its rows of the left operand with its columns of the right one.
Both operands are continued by zeros, so the last block of a row, of a column
and of the depth may reach past the end.
-/

namespace TileProgram

theorem mul_lt_of_lt_ceilDiv {a b i : Nat} (hb : 0 < b) (h : i < ceilDiv a b) :
    i * b < a := by
  unfold ceilDiv at h
  rw [Nat.max_eq_left hb, Nat.lt_iff_add_one_le, Nat.le_div_iff_mul_le hb] at h
  rw [Nat.add_mul, Nat.one_mul] at h
  omega

theorem div_lt_ceilDiv {a b i : Nat} (hb : 0 < b) (h : i < a) :
    i / b < ceilDiv a b := by
  unfold ceilDiv
  rw [Nat.max_eq_left hb, Nat.lt_iff_add_one_le, Nat.le_div_iff_mul_le hb]
  have hfloor := Nat.div_mul_le_self i b
  rw [Nat.add_mul, Nat.one_mul]
  omega

theorem le_ceilDiv_mul {a b : Nat} (hb : 0 < b) : a ≤ ceilDiv a b * b := by
  by_contra hlt
  have hnext := div_lt_ceilDiv hb (show ceilDiv a b * b < a by omega)
  rw [Nat.mul_div_cancel _ hb] at hnext
  omega

theorem ceilDiv_le {a b : Nat} (hb : 0 < b) : ceilDiv a b ≤ a := by
  by_contra hlt
  have hmul := mul_lt_of_lt_ceilDiv hb (show a < ceilDiv a b by omega)
  have hle := Nat.le_mul_of_pos_right a hb
  omega

theorem Affine.eval_term
    {env : Bindings} {v : Var} {c z : Int} (hvalue : c * env.value v = z)
    (hword : Checked.int64 z = .ok z) :
    (⟨0, [(v, c)]⟩ : Affine).eval env = .ok z := by
  unfold Affine.eval
  -- The bound of a word is not to be unfolded.
  generalize Checked.int64 = word at hword ⊢
  simp only [List.foldlM_cons, List.foldlM_nil, hvalue, hword, ok_bind,
    Int.zero_add, pure_bind, Int.add_zero]

theorem Affine.eval_multiple
    {env : Bindings} {v : Var} {n c : Nat} (hv : env.value v = (n : Int))
    (hbound : n * c < 0x8000000000000000) :
    (⟨0, [(v, (c : Int))]⟩ : Affine).eval env = .ok ((n * c : Nat) : Int) := by
  apply Affine.eval_term
  · rw [hv, Nat.cast_mul, Int.mul_comm]
  · exact Checked.int64_natCast hbound

theorem Region.at_of_eval
    {env : Bindings} {r c h w : Nat} {row col : Affine}
    (hrow : row.eval env = .ok (r : Int)) (hcol : col.eval env = .ok (c : Int))
    (hbottom : r + h < 0x8000000000000000) (hright : c + w < 0x8000000000000000)
    (t : TileId) :
    (⟨t, [row, col], [h, w]⟩ : Region).At env r c h w := by
  refine ⟨rfl, ?_, hbottom, hright⟩
  rw [List.mapM_cons, hrow, ok_bind, List.mapM_cons, hcol, ok_bind,
    List.mapM_nil]
  rfl

theorem window_end_lt
    {i extent block : Nat} (hi : i < ceilDiv extent block)
    (hextent : 0 < extent ∧ extent < limit32)
    (hblock : 0 < block ∧ block < limit32) :
    i * block + block < 0x8000000000000000 := by
  have hstart := mul_lt_of_lt_ceilDiv hblock.1 hi
  have hlimit : limit32 + limit32 < 0x8000000000000000 := by decide
  omega

namespace MatmulConfig

structure Extents (cfg : MatmulConfig) : Prop where
  rows : 0 < cfg.m ∧ cfg.m < limit32
  cols : 0 < cfg.n ∧ cfg.n < limit32
  depth : 0 < cfg.k ∧ cfg.k < limit32
  blockRows : 0 < cfg.blockM ∧ cfg.blockM < limit32
  blockCols : 0 < cfg.blockN ∧ cfg.blockN < limit32
  blockDepth : 0 < cfg.blockK ∧ cfg.blockK < limit32

/-- The writes of a whole window can be held in memory. -/
structure Addressable (cfg : MatmulConfig) : Prop extends cfg.Extents where
  leftWindow : Write.bytes * (cfg.blockM * cfg.blockK) < 0x8000000000000000
  rightWindow : Write.bytes * (cfg.blockK * cfg.blockN) < 0x8000000000000000
  outWindow : Write.bytes * (cfg.blockM * cfg.blockN) < 0x8000000000000000

/-- The variables belong to the block at column `x` and row `y`. -/
structure Placed (cfg : MatmulConfig) (env : Bindings) (x y : Nat) : Prop where
  column : env.value (.block 0) = (x : Int)
  row : env.value (.block 1) = (y : Int)
  column_lt : x < ceilDiv cfg.n cfg.blockN
  row_lt : y < ceilDiv cfg.m cfg.blockM

section

variable {R : Type} [Semiring R] [Element R] (cfg : MatmulConfig)

def product (a b : Nat → Nat → R) (i j : Nat) : R :=
  ∑ p ∈ Finset.range cfg.k, a i p * b p j

/-- What a block has added up at a depth, with the operands continued by
zeros. -/
def partialProduct (a b : Nat → Nat → R) (x y depth i j : Nat) : R :=
  ∑ p ∈ Finset.range depth, padded cfg.m cfg.k a (y * cfg.blockM + i) p *
    padded cfg.k cfg.n b p (x * cfg.blockN + j)

structure Operands (a b : Nat → Nat → R) (m : Memory R) : Prop where
  left : m.HoldsMatrix ⟨0⟩ cfg.m cfg.k a
  right : m.HoldsMatrix ⟨1⟩ (if cfg.transposeB then cfg.n else cfg.k)
    (if cfg.transposeB then cfg.k else cfg.n) (oriented cfg.transposeB b)

/-- A block after `q` iterations that began at `start`. -/
structure AtDepth (a b : Nat → Nat → R) (x y q : Nat) (start m : Memory R) :
    Prop where
  fits : m.Fits cfg.kernel
  kept : ∀ t : TileId, t.index < 3 → m.tile t = start.tile t
  sums : m.HoldsMatrix
    ⟨5⟩ cfg.blockM cfg.blockN (cfg.partialProduct a b x y (q * cfg.blockK))

/-- A launch after `n` blocks that began at `start`. -/
structure Launched (a b : Nat → Nat → R) (n : Nat) (start m : Memory R) :
    Prop where
  fits : m.Fits cfg.kernel
  kept : ∀ t : TileId, t.index < 2 → m.tile t = start.tile t
  /-- The part of a block that has run is that of the product. -/
  stored : ∃ c, m.HoldsMatrix ⟨2⟩ cfg.m cfg.n c ∧ ∀ q < n, ∀ i j,
    LaunchOrder.block cfg.kernel q = .ok ⟨j / cfg.blockN, i / cfg.blockM, 0⟩ →
      c i j = cfg.product a b i j

end

section

variable {R : Type} [Semiring R] [Element R] {cfg : MatmulConfig}
  {a b : Nat → Nat → R} {x y q : Nat} {start m : Memory R} {env : Bindings}

omit [Semiring R] [Element R] in
theorem Operands.congr_tile
    {m' : Memory R} (h : cfg.Operands a b m)
    (hkept : ∀ t : TileId, t.index < 2 → m'.tile t = m.tile t) :
    cfg.Operands a b m' :=
  ⟨h.left.congr_tile (hkept _ (by decide)),
    h.right.congr_tile (hkept _ (by decide))⟩

theorem Placed.row_end_lt
    (hsized : cfg.Addressable) (hplaced : cfg.Placed env x y) :
    y * cfg.blockM + cfg.blockM < 0x8000000000000000 :=
  window_end_lt hplaced.row_lt hsized.rows hsized.blockRows

theorem Placed.col_end_lt
    (hsized : cfg.Addressable) (hplaced : cfg.Placed env x y) :
    x * cfg.blockN + cfg.blockN < 0x8000000000000000 :=
  window_end_lt hplaced.column_lt hsized.cols hsized.blockCols

theorem Placed.eval_row
    (hsized : cfg.Addressable) (hplaced : cfg.Placed env x y) :
    cfg.row.eval env = .ok ((y * cfg.blockM : Nat) : Int) := by
  have hend := hplaced.row_end_lt hsized
  exact Affine.eval_multiple hplaced.row (by omega)

theorem Placed.eval_col
    (hsized : cfg.Addressable) (hplaced : cfg.Placed env x y) :
    cfg.col.eval env = .ok ((x * cfg.blockN : Nat) : Int) := by
  have hend := hplaced.col_end_lt hsized
  exact Affine.eval_multiple hplaced.column (by omega)

/-! ## One iteration -/

theorem eval_depth
    (hsized : cfg.Addressable) (hq : q < ceilDiv cfg.k cfg.blockK)
    (hvalue : env.value (.loop "k") = (q : Int)) :
    cfg.depth.eval env = .ok ((q * cfg.blockK : Nat) : Int) := by
  have hend := window_end_lt hq hsized.depth hsized.blockDepth
  exact Affine.eval_multiple hvalue (by omega)

omit [Semiring R] in
theorem exec_loadLeft
    (hsized : cfg.Addressable) (hplaced : cfg.Placed env x y)
    (hq : q < ceilDiv cfg.k cfg.blockK)
    (hvalue : env.value (.loop "k") = (q : Int)) (hfits : m.Fits cfg.kernel)
    (hleft : m.HoldsMatrix ⟨0⟩ cfg.m cfg.k a) :
    ∃ m', (TileOp.copy ⟨⟨0⟩, [cfg.row, cfg.depth], [cfg.blockM, cfg.blockK]⟩
        (.full ⟨3⟩ [cfg.blockM, cfg.blockK]) none).exec cfg.kernel env m =
        .ok m' ∧
      m'.Fits cfg.kernel ∧
      m'.HoldsMatrix ⟨3⟩ cfg.blockM cfg.blockK (fun i p =>
        padded cfg.m cfg.k a (y * cfg.blockM + i) (q * cfg.blockK + p)) ∧
      ∀ t, t ≠ ⟨3⟩ → m'.tile t = m.tile t := by
  have hwindow := Region.at_of_eval (hplaced.eval_row hsized)
    (eval_depth hsized hq hvalue) (hplaced.row_end_lt hsized)
    (window_end_lt hq hsized.depth hsized.blockDepth) ⟨0⟩
  exact TileOp.exec_load_window rfl rfl hfits hleft hwindow hsized.blockRows.1
    hsized.blockDepth.1 hsized.leftWindow none

omit [Semiring R] in
theorem exec_loadRight
    (hsized : cfg.Addressable) (hplaced : cfg.Placed env x y)
    (hq : q < ceilDiv cfg.k cfg.blockK)
    (hvalue : env.value (.loop "k") = (q : Int)) (hfits : m.Fits cfg.kernel)
    (hright : m.HoldsMatrix ⟨1⟩ (if cfg.transposeB then cfg.n else cfg.k)
      (if cfg.transposeB then cfg.k else cfg.n) (oriented cfg.transposeB b)) :
    ∃ m', (TileOp.copy
        ⟨⟨1⟩, cfg.storedB cfg.depth cfg.col, cfg.storedB cfg.blockK cfg.blockN⟩
        (.full ⟨4⟩ (cfg.storedB cfg.blockK cfg.blockN)) none).exec
          cfg.kernel env m = .ok m' ∧
      m'.Fits cfg.kernel ∧
      m'.HoldsMatrix ⟨4⟩ (if cfg.transposeB then cfg.blockN else cfg.blockK)
        (if cfg.transposeB then cfg.blockK else cfg.blockN)
        (oriented cfg.transposeB fun p j =>
          padded cfg.k cfg.n b (q * cfg.blockK + p) (x * cfg.blockN + j)) ∧
      ∀ t, t ≠ ⟨4⟩ → m'.tile t = m.tile t := by
  have hdepthEnd := window_end_lt hq hsized.depth hsized.blockDepth
  have hcolEnd := hplaced.col_end_lt hsized
  have hdepth := eval_depth hsized hq hvalue
  have hcol := hplaced.eval_col hsized
  have hshape : cfg.kernel.shapeOf ⟨1⟩ = .ok (cfg.storedB cfg.k cfg.n) := rfl
  have hslot : cfg.kernel.shapeOf ⟨4⟩ =
      .ok (cfg.storedB cfg.blockK cfg.blockN) := rfl
  have hentry := padded_oriented cfg.transposeB cfg.k cfg.n (q * cfg.blockK)
    (x * cfg.blockN) b
  unfold storedB at hshape hslot ⊢
  cases htransposed : cfg.transposeB with
  | true =>
      simp only [htransposed, if_true] at hshape hslot hentry hright ⊢
      have hwindow := Region.at_of_eval hcol hdepth hcolEnd hdepthEnd ⟨1⟩
      have hstored : Write.bytes * (cfg.blockN * cfg.blockK) <
          0x8000000000000000 := by
        rw [Nat.mul_comm cfg.blockN]
        exact hsized.rightWindow
      obtain ⟨m', hexec, hfits', hholds, hkept⟩ :=
        TileOp.exec_load_window hshape hslot hfits hright hwindow
          hsized.blockCols.1 hsized.blockDepth.1 hstored none
      exact ⟨m', hexec, hfits',
        hholds.congr_entry fun i _ j _ => (hentry i j).symm, hkept⟩
  | false =>
      simp only [htransposed, Bool.false_eq_true, if_false]
        at hshape hslot hentry hright ⊢
      have hwindow := Region.at_of_eval hdepth hcol hdepthEnd hcolEnd ⟨1⟩
      obtain ⟨m', hexec, hfits', hholds, hkept⟩ :=
        TileOp.exec_load_window hshape hslot hfits hright hwindow
          hsized.blockDepth.1 hsized.blockCols.1 hsized.rightWindow none
      exact ⟨m', hexec, hfits',
        hholds.congr_entry fun i _ j _ => (hentry i j).symm, hkept⟩

theorem partialProduct_succ (a b : Nat → Nat → R) (x y q i j : Nat) :
    cfg.partialProduct a b x y ((q + 1) * cfg.blockK) i j =
      cfg.partialProduct a b x y (q * cfg.blockK) i j +
        ∑ p ∈ Finset.range cfg.blockK,
          padded cfg.m cfg.k a (y * cfg.blockM + i) (q * cfg.blockK + p) *
            padded cfg.k cfg.n b (q * cfg.blockK + p) (x * cfg.blockN + j) := by
  unfold partialProduct
  rw [Nat.add_mul, Nat.one_mul, Finset.sum_range_add]

theorem run_iteration
    (hexact : ExactArithmetic R) (hsized : cfg.Addressable)
    (hplaced : cfg.Placed env x y) (hq : q < ceilDiv cfg.k cfg.blockK)
    (hvalue : env.value (.loop "k") = (q : Int))
    (hoperands : cfg.Operands a b start) (hat : cfg.AtDepth a b x y q start m) :
    ∃ m', cfg.iteration.run cfg.kernel .sequential ⟨m, env⟩ = .ok ⟨m', env⟩ ∧
      cfg.AtDepth a b x y (q + 1) start m' := by
  have hleft := hoperands.left.congr_tile (hat.kept ⟨0⟩ (by decide))
  obtain ⟨m₁, hexec₁, hfits₁, hholds₁, hkept₁⟩ :=
    exec_loadLeft hsized hplaced hq hvalue hat.fits hleft
  have hright := hoperands.right.congr_tile
    ((hkept₁ ⟨1⟩ (by decide)).trans (hat.kept ⟨1⟩ (by decide)))
  obtain ⟨m₂, hexec₂, hfits₂, hholds₂, hkept₂⟩ :=
    exec_loadRight hsized hplaced hq hvalue hfits₁ hright
  have hsums := hat.sums.congr_tile
    ((hkept₂ ⟨5⟩ (by decide)).trans (hkept₁ ⟨5⟩ (by decide)))
  obtain ⟨m₃, hexec₃, hfits₃, hholds₃, hkept₃⟩ :=
    TileOp.exec_gemm_matrix hexact rfl rfl rfl hsized.blockRows.2
      (hholds₁.congr_tile (hkept₂ ⟨3⟩ (by decide))) hholds₂ hsums hfits₂
  refine ⟨m₃, ?_, hfits₃, ?_, hholds₃.congr_entry ?_⟩
  · unfold iteration
    rw [Body.run_step, hexec₁, lift_ok, ok_bind, Body.run_step, hexec₂, lift_ok,
      ok_bind, Body.run_step, hexec₃]
    rfl
  · intro t ht
    rw [hkept₃ t (fun heq => by subst heq; exact absurd ht (by decide)),
      hkept₂ t (fun heq => by subst heq; exact absurd ht (by decide)),
      hkept₁ t (fun heq => by subst heq; exact absurd ht (by decide))]
    exact hat.kept t ht
  · intro i _ j _
    rw [partialProduct_succ]
    simp only [oriented_oriented]

/-! ## One block -/

theorem placed_of_block
    {z : Nat} (hblock : env.block = ⟨x, y, z⟩)
    (hx : x < ceilDiv cfg.n cfg.blockN) (hy : y < ceilDiv cfg.m cfg.blockM) :
    cfg.Placed env x y := by
  refine ⟨?_, ?_, hx, hy⟩
  · show ((env.block.along 0 : Nat) : Int) = x
    rw [hblock]
    rfl
  · show ((env.block.along 1 : Nat) : Int) = y
    rw [hblock]
    rfl

theorem run_loop
    (hexact : ExactArithmetic R) (hsized : cfg.Addressable) {z : Nat}
    (hx : x < ceilDiv cfg.n cfg.blockN) (hy : y < ceilDiv cfg.m cfg.blockM)
    (hblock : env.block = ⟨x, y, z⟩) (hoperands : cfg.Operands a b start)
    (hat : cfg.AtDepth a b x y 0 start m) :
    ∃ s : Machine R, (∀ (head : Loop) (rest : Body), head.var = "k" →
        head.tripCount = ceilDiv cfg.k cfg.blockK →
        (Body.loop head cfg.iteration rest).run cfg.kernel .sequential
          ⟨m, env⟩ = rest.run cfg.kernel .sequential (s.unbind "k")) ∧
      s.env.block = ⟨x, y, z⟩ ∧
      cfg.AtDepth a b x y (ceilDiv cfg.k cfg.blockK) start s.memory := by
  have hword : ceilDiv cfg.k cfg.blockK < 0x8000000000000000 := by
    have hle := @ceilDiv_le cfg.k cfg.blockK hsized.blockDepth.1
    have hlimit : limit32 < 0x8000000000000000 := by decide
    have hdepth := hsized.depth.2
    omega
  have hstep : ∀ q (s : Machine R), 0 ≤ q → q < 0 + ceilDiv cfg.k cfg.blockK →
      (s.env.block = ⟨x, y, z⟩ ∧ cfg.AtDepth a b x y q start s.memory) →
      ∃ s', cfg.iteration.run cfg.kernel .sequential (s.bind "k" (signed64 q)) =
        .ok s' ∧
        s'.env.block = ⟨x, y, z⟩ ∧
        cfg.AtDepth a b x y (q + 1) start s'.memory := by
    rintro q s - hq ⟨hblock, hat⟩
    rw [Nat.zero_add] at hq
    have hplaced : cfg.Placed (s.env.bind "k" (signed64 q)) x y :=
      placed_of_block hblock hx hy
    have hvalue : (s.env.bind "k" (signed64 q)).value (.loop "k") =
        (q : Int) := by
      rw [signed64_of_lt (by omega)]
      simp [Bindings.value, Bindings.bind]
    obtain ⟨m', hrun, hat'⟩ :=
      run_iteration hexact hsized hplaced hq hvalue hoperands hat
    exact ⟨_, hrun, hblock, hat'⟩
  obtain ⟨s, hrun, hend⟩ :=
    Counted.foldM_eq_ok (s := ⟨m, env⟩) hstep ⟨hblock, hat⟩
  rw [Nat.zero_add] at hend
  refine ⟨s, ?_, hend⟩
  intro head rest hvar htrip
  rw [Body.run_loop_sequential, hvar, htrip, hrun, ok_bind]

theorem partialProduct_eq_product
    (hexact : ExactArithmetic R) {depth i j : Nat} (hdepth : cfg.k ≤ depth)
    (hi : y * cfg.blockM + i < cfg.m) (hj : x * cfg.blockN + j < cfg.n) :
    cfg.partialProduct a b x y depth i j =
      cfg.product a b (y * cfg.blockM + i) (x * cfg.blockN + j) := by
  unfold partialProduct product
  have hsubset : Finset.range cfg.k ⊆ Finset.range depth :=
    Finset.range_mono hdepth
  rw [← Finset.sum_subset hsubset]
  · apply Finset.sum_congr rfl
    intro p hp
    rw [Finset.mem_range] at hp
    unfold padded
    rw [if_pos ⟨hi, hp⟩, if_pos ⟨hp, hj⟩]
  · intro p _ hp
    rw [Finset.mem_range] at hp
    have hzero : padded cfg.m cfg.k a (y * cfg.blockM + i) p = 0 := by
      unfold padded
      rw [if_neg fun hinside => hp hinside.2, hexact.zero]
    rw [hzero, zero_mul]

omit [Semiring R] in
theorem tile_resetOnChip_global {t : TileId} (ht : t.index < 3) :
    (m.resetOnChip cfg.kernel).tile t = m.tile t := by
  have hcleared : ∀ data : Array R, cfg.kernel.cleared t data = data := by
    intro data
    obtain ⟨i⟩ := t
    match i, ht with
    | 0, _ => rfl
    | 1, _ => rfl
    | 2, _ => rfl
  rw [Memory.tile_resetOnChip]
  cases m.tile t with
  | error e => rfl
  | ok data => exact congrArg Except.ok (hcleared data)

theorem exec_clear
    (hexact : ExactArithmetic R) (hfits : m.Fits cfg.kernel)
    (a b : Nat → Nat → R) (x y : Nat) (env : Bindings) :
    ∃ m', (TileOp.fill ⟨5⟩ 0).exec cfg.kernel env m = .ok m' ∧
      cfg.AtDepth a b x y 0 m m' := by
  have hshape : cfg.kernel.shapeOf ⟨5⟩ = .ok [cfg.blockM, cfg.blockN] := rfl
  obtain ⟨_, _, hdata⟩ := Memory.exists_holdsMatrix hfits hshape Element.zero
  obtain ⟨m', hexec, hfits', hzeros, hkept⟩ :=
    TileOp.exec_fill_matrix hfits hdata 0
  refine ⟨m', hexec, hfits', ?_, hzeros.congr_entry ?_⟩
  · intro t ht
    exact hkept t fun heq => by subst heq; exact absurd ht (by decide)
  · intro i _ j _
    unfold partialProduct
    rw [Nat.zero_mul, Finset.range_zero, Finset.sum_empty]
    exact hexact.zero.symm

/-- A block that has walked the whole depth stores its part of the product. -/
theorem exec_store
    (hexact : ExactArithmetic R) (hsized : cfg.Addressable)
    (hplaced : cfg.Placed env x y) {c : Nat → Nat → R}
    (hout : start.HoldsMatrix ⟨2⟩ cfg.m cfg.n c)
    (hat : cfg.AtDepth a b x y (ceilDiv cfg.k cfg.blockK) start m) :
    ∃ m', (TileOp.copy (.full ⟨5⟩ [cfg.blockM, cfg.blockN])
        ⟨⟨2⟩, [cfg.row, cfg.col], [cfg.blockM, cfg.blockN]⟩ none).exec
        cfg.kernel env m = .ok m' ∧
      m'.Fits cfg.kernel ∧
      (∀ t : TileId, t.index < 2 → m'.tile t = start.tile t) ∧
      m'.HoldsMatrix ⟨2⟩ cfg.m cfg.n fun i j =>
        if j / cfg.blockN = x ∧ i / cfg.blockM = y then cfg.product a b i j
        else c i j := by
  have hsrc : (Region.full ⟨5⟩ [cfg.blockM, cfg.blockN]).At env 0 0 cfg.blockM
      cfg.blockN := by
    have hbottom := hplaced.row_end_lt hsized
    have hright := hplaced.col_end_lt hsized
    exact ⟨rfl, rfl, by omega, by omega⟩
  have hdst :=
    Region.at_of_eval (hplaced.eval_row hsized) (hplaced.eval_col hsized)
      (hplaced.row_end_lt hsized) (hplaced.col_end_lt hsized) ⟨2⟩
  have hshape :
      cfg.kernel.shapeOf (Region.full ⟨5⟩ [cfg.blockM, cfg.blockN]).tile =
      .ok [cfg.blockM, cfg.blockN] := rfl
  obtain ⟨m', hexec, hfits', hpasted, hkept⟩ :=
    TileOp.exec_copy_window hshape rfl hat.fits hat.sums
      (hout.congr_tile (hat.kept ⟨2⟩ (by decide))) hsrc hdst hsized.blockRows.1
      hsized.blockCols.1 hsized.outWindow none
  refine ⟨m', hexec, hfits', ?_, hpasted.congr_entry ?_⟩
  · intro t ht
    have hother : t ≠ ⟨2⟩ :=
      fun heq => by subst heq; exact absurd ht (by decide)
    rw [hkept t hother]
    exact hat.kept t (by omega)
  · intro i hi j hj
    have hrow : (y * cfg.blockM ≤ i ∧ i < y * cfg.blockM + cfg.blockM) ↔
        i / cfg.blockM = y := by
      rw [Nat.div_eq_iff hsized.blockRows.1]
      have hpos := hsized.blockRows.1
      omega
    have hcol : (x * cfg.blockN ≤ j ∧ j < x * cfg.blockN + cfg.blockN) ↔
        j / cfg.blockN = x := by
      rw [Nat.div_eq_iff hsized.blockCols.1]
      have hpos := hsized.blockCols.1
      omega
    unfold pasted
    by_cases hmine : j / cfg.blockN = x ∧ i / cfg.blockM = y
    · have hinRows := hrow.mpr hmine.2
      have hinCols := hcol.mpr hmine.1
      have hi' : y * cfg.blockM + (i - y * cfg.blockM) = i := by omega
      have hj' : x * cfg.blockN + (j - x * cfg.blockN) = j := by omega
      simp only [if_pos hmine, if_pos (And.intro hinRows hinCols), Nat.zero_add]
      unfold padded
      rw [if_pos ⟨by omega, by omega⟩, partialProduct_eq_product hexact
        (le_ceilDiv_mul hsized.blockDepth.1) (by omega) (by omega), hi', hj']
    · rw [if_neg hmine, if_neg fun hinside =>
        hmine ⟨hcol.mp hinside.2, hrow.mp hinside.1⟩]

theorem runBlock_eq_ok
    (hexact : ExactArithmetic R) (hsized : cfg.Addressable) {z : Nat}
    (hx : x < ceilDiv cfg.n cfg.blockN) (hy : y < ceilDiv cfg.m cfg.blockM)
    (hfits : m.Fits cfg.kernel) (hoperands : cfg.Operands a b m)
    {c : Nat → Nat → R} (hout : m.HoldsMatrix ⟨2⟩ cfg.m cfg.n c) :
    ∃ m', cfg.kernel.runBlock .sequential m ⟨x, y, z⟩ = .ok m' ∧
      m'.Fits cfg.kernel ∧ (∀ t : TileId, t.index < 2 → m'.tile t = m.tile t) ∧
      m'.HoldsMatrix ⟨2⟩ cfg.m cfg.n fun i j =>
        if j / cfg.blockN = x ∧ i / cfg.blockM = y then cfg.product a b i j
        else c i j := by
  have hglobal : ∀ t : TileId,
      t.index < 3 → (m.resetOnChip cfg.kernel).tile t = m.tile t :=
    fun t ht => tile_resetOnChip_global ht
  have hbegin : (Bindings.ofBlock ⟨x, y, z⟩).block = ⟨x, y, z⟩ := rfl
  obtain ⟨m₁, hclear, hat⟩ :=
    exec_clear hexact hfits.resetOnChip a b x y (Bindings.ofBlock ⟨x, y, z⟩)
  obtain ⟨s, hloop, hblock, hat⟩ := run_loop hexact hsized hx hy hbegin
    (hoperands.congr_tile fun t ht => hglobal t (by omega)) hat
  have hplaced : cfg.Placed (s.env.unbind "k") x y :=
    placed_of_block hblock hx hy
  obtain ⟨m₂, hstore, hfits₂, hkept, hfinal⟩ :=
    exec_store hexact hsized hplaced
      (hout.congr_tile (hglobal ⟨2⟩ (by decide))) hat
  refine ⟨m₂, ?_, hfits₂, fun t ht => (hkept t ht).trans (hglobal t (by omega)),
    hfinal⟩
  have halloc : ∀ (t : TileId) (env : Bindings) (m : Memory R),
      (TileOp.alloc t).exec cfg.kernel env m = .ok m := fun _ _ _ => rfl
  have hbody : cfg.kernel.body = cfg.body := rfl
  unfold Kernel.runBlock
  rw [hbody]
  unfold body
  simp only [Body.run_step, halloc, hclear, lift_ok, ok_bind]
  rw [hloop _ _ rfl rfl, Body.run_step]
  simp only [Machine.unbind, hstore, lift_ok, ok_bind, Body.run]
  rfl

/-! ## The launch -/

theorem grid_lt (hsized : cfg.Addressable) :
    cfg.kernel.grid.x < limit32 ∧ cfg.kernel.grid.y < limit32 :=
  ⟨(ceilDiv_le hsized.blockCols.1).trans_lt hsized.cols.2,
    (ceilDiv_le hsized.blockRows.1).trans_lt hsized.rows.2⟩

theorem blockCount_eq_ok (hsized : cfg.Addressable) :
    cfg.kernel.blockCount none =
      .ok (LaunchOrder.plane cfg.kernel * cfg.kernel.grid.z) := by
  obtain ⟨hx, hy⟩ := grid_lt hsized
  have hplane : cfg.kernel.grid.x * cfg.kernel.grid.y < limit32 * limit32 :=
    Nat.mul_lt_mul_of_lt_of_lt hx hy
  have hlimit : limit32 * limit32 = limit64 := rfl
  have hle : limit32 ≤ limit64 := by decide
  have hx' : 1 * cfg.kernel.grid.x < limit64 := by omega
  have hxy : 1 * cfg.kernel.grid.x * cfg.kernel.grid.y < limit64 := by
    rw [Nat.one_mul]
    omega
  have hz : 1 * cfg.kernel.grid.x * cfg.kernel.grid.y * 1 < limit64 := by omega
  have hcount : cfg.kernel.numBlocks =
      Checked.product Checked.word64
        [cfg.kernel.grid.x, cfg.kernel.grid.y, 1] := rfl
  unfold Kernel.blockCount
  rw [hcount]
  unfold Checked.product Checked.word64
  simp only [List.foldlM_cons, List.foldlM_nil, if_pos hx', if_pos hxy,
    if_pos hz, ok_bind]
  rw [Nat.one_mul]
  rfl

theorem Launched.next
    {n : Nat} (hexact : ExactArithmetic R) (hsized : cfg.Addressable)
    (hoperands : cfg.Operands a b start)
    (hn : n < LaunchOrder.plane cfg.kernel * cfg.kernel.grid.z)
    (h : cfg.Launched a b n start m) :
    ∃ m', ((liftM (LaunchOrder.block cfg.kernel n) : Pass SimulationError _) >>=
      fun block =>
      cfg.kernel.runBlock .sequential m block) = .ok m' ∧
      cfg.Launched a b (n + 1) start m' := by
  obtain ⟨hgx, hgy⟩ := grid_lt hsized
  obtain ⟨c, hholds, hstored⟩ := h.stored
  obtain ⟨x, y, hblock, hx, hy⟩ := LaunchOrder.block_eq_ok hgx hgy hn
  have hplane : n / LaunchOrder.plane cfg.kernel = 0 := by
    apply Nat.div_eq_of_lt
    rwa [show cfg.kernel.grid.z = 1 from rfl, Nat.mul_one] at hn
  rw [hplane] at hblock
  obtain ⟨m', hrun, hfits, hkept, hholds'⟩ :=
    runBlock_eq_ok (z := 0) hexact hsized hx hy h.fits
      (hoperands.congr_tile h.kept) hholds
  refine ⟨m', ?_, hfits, fun t ht => (hkept t ht).trans (h.kept t ht), _,
    hholds', ?_⟩
  · rw [hblock, lift_ok, ok_bind, hrun]
  · intro q hq i j hstarted
    by_cases hmine : j / cfg.blockN = x ∧ i / cfg.blockM = y
    · rw [if_pos hmine]
    · rw [if_neg hmine]
      rcases Nat.lt_succ_iff_lt_or_eq.mp hq with hq | rfl
      · exact hstored q hq i j hstarted
      · rw [hblock, Except.ok.injEq, Dim3.mk.injEq] at hstarted
        exact absurd ⟨hstarted.1.symm, hstarted.2.1.symm⟩ hmine

theorem run_eq_ok
    (hexact : ExactArithmetic R) (hsized : cfg.Addressable)
    (hfits : m.Fits cfg.kernel) (hoperands : cfg.Operands a b m) :
    ∃ m', cfg.kernel.run .sequential none m = .ok m' ∧
      (∀ t : TileId, t.index < 2 → m'.tile t = m.tile t) ∧
      m'.HoldsMatrix ⟨2⟩ cfg.m cfg.n (cfg.product a b) := by
  obtain ⟨hgx, hgy⟩ := grid_lt hsized
  have hshape : cfg.kernel.shapeOf ⟨2⟩ = .ok [cfg.m, cfg.n] := rfl
  obtain ⟨_, _, hdata⟩ := Memory.exists_holdsMatrix hfits hshape Element.zero
  have hnone : cfg.Launched a b 0 m m := by
    refine ⟨hfits, fun t _ => rfl, _, hdata, ?_⟩
    intro q hq
    omega
  have hstep : ∀ n (s : Memory R), 0 ≤ n →
      n < 0 + LaunchOrder.plane cfg.kernel * cfg.kernel.grid.z →
      cfg.Launched a b n m s → _ :=
    fun n s _ hn h => h.next hexact hsized hoperands (by omega)
  obtain ⟨m', hrun, -, hkept, c, hholds, hstored⟩ :=
    Counted.foldM_eq_ok hstep hnone
  refine ⟨m', ?_, hkept, hholds.congr_entry ?_⟩
  · unfold Kernel.run
    rw [blockCount_eq_ok hsized, lift_ok, ok_bind]
    unfold LaunchOrder.upTo
    rw [Nat.min_self, hrun]
  · intro i hi j hj
    have hx : j / cfg.blockN < cfg.kernel.grid.x :=
      div_lt_ceilDiv hsized.blockCols.1 hj
    have hy : i / cfg.blockM < cfg.kernel.grid.y :=
      div_lt_ceilDiv hsized.blockRows.1 hi
    obtain ⟨q, hq, hblock⟩ :=
      LaunchOrder.exists_block hgx hgy hx hy (z := 0) Nat.zero_lt_one
    exact (hstored q (by omega) i j hblock).symm

end

end MatmulConfig

end TileProgram
