import TileProgram.Proofs.Inference.Layouts

/-!
# Products on matrix instructions

A product that is bound to an instruction of a known target is cut into whole
instructions: the warps of the block divide the accumulator among them, and each
takes its share of the rows and columns through the whole depth.  The elements
of an operand then fill the registers of the warps that hold it, one element in
each register.  A matrix strategy carries the numbers of this division, and the
operands are where the instruction expects them.
-/

namespace TileProgram

variable {warps : WarpGrid} {rows cols locals : Nat}
  {place : Nat → Nat → Nat × Nat} {transposed : Bool}

/-! ## Full registers -/

namespace RegisterLayout

/-- The elements are dealt one to each register of each thread.  A layout cannot
name a register whose number is no word. -/
structure Fills
    (f : RegisterLayout) (rows cols threads locals : Nat)
    (place : Nat → Nat → Nat × Nat) : Prop where
  fits_eq : f.fits rows cols = .ok true
  threads_eq : f.threads = .ok threads
  locals_eq : f.localsPerThread (rows * cols) = .ok locals
  slot_eq : ∀ r < rows, ∀ c < cols, f.slot rows cols r c =
    if (place r c).2 < limit32 then .ok (place r c) else .error .overflow
  lt : ∀ r < rows, ∀ c < cols, (place r c).1 < threads ∧ (place r c).2 < locals
  apart : ∀ r < rows, ∀ c < cols, ∀ r' < rows, ∀ c' < cols,
    place r c = place r' c' → r = r' ∧ c = c'
  reached : ∀ thread < threads, ∀ register < locals,
    ∃ r < rows, ∃ c < cols, place r c = (thread, register)

theorem Fills.transpose
    {atom : Atom} {replicas threads : Nat}
    (h : (operand atom warps replicas false).Fills
      rows cols threads locals place) :
    (operand atom warps replicas true).Fills
      cols rows threads locals fun r c => place c r where
  fits_eq := h.fits_eq
  threads_eq := h.threads_eq
  locals_eq := Nat.mul_comm rows cols ▸ h.locals_eq
  slot_eq r hr c hc := h.slot_eq c hc r hr
  lt r hr c hc := h.lt c hc r hr
  apart r hr c hc r' hr' c' hc' heq :=
    (h.apart c hc r hr c' hc' r' hr' heq).symm
  reached thread hthread register hregister := by
    obtain ⟨r, hr, c, hc, heq⟩ := h.reached thread hthread register hregister
    exact ⟨c, hc, r, hr, heq⟩

theorem Fills.forall_slot_iff
    {f : RegisterLayout} {threads : Nat}
    (h : f.Fills rows cols threads locals place) (hthreads : 0 < threads) :
    (∀ r < rows, ∀ c < cols, f.slot rows cols r c = .ok (place r c)) ↔
      locals ≤ limit32 := by
  constructor
  · intro hslot
    by_contra hmany
    obtain ⟨r, hr, c, hc, heq⟩ :=
      h.reached 0 hthreads limit32 (Nat.lt_of_not_le hmany)
    have hgiven := hslot r hr c hc
    rw [h.slot_eq r hr c hc, heq, if_neg (Nat.lt_irrefl limit32)] at hgiven
    cases hgiven
  · intro hfew r hr c hc
    rw [h.slot_eq r hr c hc, if_pos ((h.lt r hr c hc).2.trans_le hfew)]

theorem reached_of_area
    {threads : Nat} (harea : rows * cols = threads * locals)
    (hlt : ∀ r < rows,
      ∀ c < cols, (place r c).1 < threads ∧ (place r c).2 < locals)
    (hapart : ∀ r < rows, ∀ c < cols,
      ∀ r' < rows, ∀ c' < cols, place r c = place r' c' → r = r' ∧ c = c')
    {thread register : Nat} (hthread : thread < threads)
    (hregister : register < locals) :
    ∃ r < rows, ∃ c < cols, place r c = (thread, register) := by
  have hmaps : Set.MapsTo (fun e : Nat × Nat => place e.1 e.2)
      ↑(Finset.range rows ×ˢ Finset.range cols)
      ↑(Finset.range threads ×ˢ Finset.range locals) := by
    intro e he
    simp only [Finset.mem_coe, Finset.mem_product, Finset.mem_range] at he ⊢
    exact hlt e.1 he.1 e.2 he.2
  have hinj : Set.InjOn (fun e : Nat × Nat => place e.1 e.2)
      ↑(Finset.range rows ×ˢ Finset.range cols) := by
    intro e he e' he' heq
    simp only [Finset.mem_coe, Finset.mem_product, Finset.mem_range] at he he'
    obtain ⟨hr, hc⟩ := hapart e.1 he.1 e.2 he.2 e'.1 he'.1 e'.2 he'.2 heq
    exact Prod.ext hr hc
  have hcard : (Finset.range threads ×ˢ Finset.range locals).card ≤
      (Finset.range rows ×ˢ Finset.range cols).card := by
    simp only [Finset.card_product, Finset.card_range]
    exact harea.ge
  have hmem : (thread, register) ∈
      (↑(Finset.range threads ×ˢ Finset.range locals) : Set (Nat × Nat)) := by
    simp [hthread, hregister]
  obtain ⟨⟨r, c⟩, he, heq⟩ :=
    Finset.surjOn_of_injOn_of_card_le _ hmaps hinj hcard hmem
  simp only [Finset.mem_coe, Finset.mem_product, Finset.mem_range] at he
  exact ⟨r, he.1, c, he.2, heq⟩

theorem exists_fills_operand
    {atom : Atom} {atomRows atomCols : Nat}
    (h : atom.Deals atomRows atomCols locals place)
    (hcovers : warps.Covers atomRows atomCols rows cols)
    (hpos : 0 < warps.rows * warps.cols * atom.lanes)
    (hlt : warps.rows * warps.cols * atom.lanes < limit32) (replicas : Nat) :
    ∃ locals place, (operand atom warps replicas false).Fills rows cols
      (warps.rows * warps.cols * atom.lanes) locals place := by
  have hfits := fits_of_covers h.rows_eq h.cols_eq hcovers replicas
  obtain ⟨turnRows, turnCols, rfl, rfl⟩ := exists_turns_of_fits h hfits
  refine ⟨turnRows * turnCols * locals, spread atomRows atomCols atom.lanes
    locals turnRows turnCols warps.cols place, hfits, Checked.word32_of_lt hlt,
    ?_, ?_, ?_, ?_, ?_⟩
  · rw [localsPerThread_operand h replicas hpos, if_pos hlt]
  · intro r hr c hc
    have hthread := (spread_lt h hr hc).1.trans hlt
    simp only [slot_operand h replicas hr hc rfl, hcovers.rows_lt,
      hcovers.cols_lt, hthread, and_self, true_and]
  · intro r hr c hc
    exact spread_lt h hr hc
  · intro r hr c hc r' hr' c' hc' heq
    exact spread_inj h hr hc hr' hc' heq
  · intro thread hthread register hregister
    exact reached_of_area (area_operand h) (fun r hr c hc => spread_lt h hr hc)
      (fun r hr c hc r' hr' c' hc' heq => spread_inj h hr hc hr' hc' heq)
      hthread hregister

end RegisterLayout

/-! ## Division of a bound product -/

theorem Kernel.numThreads_lt
    {k : Kernel} {threads : Nat} (h : k.numThreads = .ok threads) :
    threads < limit32 := by
  simp only [numThreads, Checked.product, Dim3.toList, List.foldlM_cons,
    List.foldlM_nil] at h
  obtain ⟨x, -, h⟩ := bind_eq_ok h
  obtain ⟨y, -, h⟩ := bind_eq_ok h
  obtain ⟨z, hz, h⟩ := bind_eq_ok h
  cases h
  obtain ⟨hlt, rfl⟩ := Checked.word32_eq_ok hz
  exact hlt

namespace GemmBinding

variable {b : GemmBinding} {threads : Nat}

/-- All threads of a block carry out whole instructions. -/
structure Divides (b : GemmBinding) (threads : Nat) : Prop where
  admissible : b.instruction.violation? = none
  covers : b.warps.Covers
    b.instruction.shape.m b.instruction.shape.n b.dims.m b.dims.n
  depth_dvd : b.instruction.shape.k ∣ b.dims.k
  depth_pos : 0 < b.instruction.shape.k
  threads_eq : b.warps.rows * b.warps.cols * b.instruction.lanes = threads
  threads_lt : threads < limit32

theorem Divides.of_binds
    {k : Kernel} {target : Target} (htarget : target.Known)
    {transposeA transposeB : Bool} {ta tb tc : Tile}
    (h : Binds k target transposeA transposeB ta tb tc (some b)) :
    ∃ threads, k.numThreads = .ok threads ∧ b.Divides threads := by
  cases h with
  | bound _ hinstruction _ hthreads hlanes hwarps hdepth =>
      have hadmissible :=
        htarget.admissible _ (List.mem_of_find?_eq_some hinstruction)
      rw [Nat.max_eq_right (MatrixInstruction.lanes_pos hadmissible)]
        at hlanes hwarps
      obtain ⟨hcount, hcovers⟩ :=
        MatrixInstruction.covers_of_warpPartition hwarps
      obtain ⟨hpos, hrest⟩ := Checked.mod_eq_ok hdepth
      refine ⟨_, hthreads, hadmissible, hcovers,
        Nat.dvd_of_mod_eq_zero hrest.symm, Nat.pos_of_ne_zero hpos, ?_,
        Kernel.numThreads_lt hthreads⟩
      rw [hcount, Nat.div_mul_cancel (Nat.dvd_of_mod_eq_zero hlanes)]

theorem Divides.covers_grid (h : b.Divides threads) (role : Role) :
    (b.grid role).Covers (b.instruction.shape.extents role).1
      (b.instruction.shape.extents role).2 (b.dims.extents role).1
        (b.dims.extents role).2 := by
  have hdvd : b.instruction.shape.k * 1 ∣ b.dims.k := by simpa using h.depth_dvd
  have hpos : 0 < b.instruction.shape.k * 1 := by simpa using h.depth_pos
  have hlt : b.instruction.shape.k * 1 < limit32 := by
    simpa using MatrixInstruction.depth_lt h.admissible
  cases role with
  | a =>
      exact ⟨h.covers.rows_dvd, hdvd, h.covers.rows_pos, hpos, h.covers.rows_lt,
        hlt⟩
  | b =>
      exact ⟨hdvd, h.covers.cols_dvd, hpos, h.covers.cols_pos, hlt,
        h.covers.cols_lt⟩
  | c => exact h.covers

theorem Divides.grid_pos (h : b.Divides threads) (role : Role) :
    0 < (b.grid role).rows * (b.grid role).cols *
      (b.instruction.atom role).lanes := by
  have hrows := Nat.pos_of_mul_pos_left (h.covers_grid role).rows_pos
  have hcols := Nat.pos_of_mul_pos_left (h.covers_grid role).cols_pos
  rw [MatrixInstruction.lanes_atom h.admissible]
  exact Nat.mul_pos (Nat.mul_pos hrows hcols)
    (MatrixInstruction.lanes_pos h.admissible)

theorem Divides.grid_le (h : b.Divides threads) (role : Role) :
    (b.grid role).rows * (b.grid role).cols * (b.instruction.atom role).lanes ≤
      threads := by
  have hrows : 0 < b.warps.rows := Nat.pos_of_mul_pos_left h.covers.rows_pos
  have hcols : 0 < b.warps.cols := Nat.pos_of_mul_pos_left h.covers.cols_pos
  rw [MatrixInstruction.lanes_atom h.admissible, ← h.threads_eq]
  apply Nat.mul_le_mul_right
  cases role with
  | a => exact Nat.mul_le_mul_left _ hcols
  | b => exact Nat.mul_le_mul_right _ hrows
  | c => exact Nat.le_refl _

theorem Divides.exists_fills
    (h : b.Divides threads) (role : Role) (transposed : Bool) :
    ∃ rows cols locals place, b.dims.tileShape role transposed = [rows, cols] ∧
      (b.operandLayout role transposed).Fills rows cols
        ((b.grid role).rows * (b.grid role).cols *
          (b.instruction.atom role).lanes) locals
        place := by
  obtain ⟨_, _, hdeals⟩ := MatrixInstruction.exists_deals h.admissible role
  obtain ⟨replicas, heq⟩ := b.exists_operandLayout role transposed
  obtain ⟨locals, place, hfills⟩ :=
    RegisterLayout.exists_fills_operand hdeals (h.covers_grid role)
      (h.grid_pos role) ((h.grid_le role).trans_lt h.threads_lt) replicas
  rw [heq]
  cases transposed with
  | false => exact ⟨_, _, locals, _, rfl, hfills⟩
  | true => exact ⟨_, _, locals, _, rfl, hfills.transpose⟩

theorem Divides.exists_repeats (h : b.Divides threads) :
    ∃ repeats, b.repeats = .ok repeats ∧
      b.instruction.shape.m * b.warps.rows * repeats.m = b.dims.m ∧
      b.instruction.shape.n * b.warps.cols * repeats.n = b.dims.n ∧
      b.instruction.shape.k * repeats.k = b.dims.k :=
  ⟨_, repeats_eq h.covers h.depth_pos.ne',
    Nat.mul_div_cancel' h.covers.rows_dvd,
    Nat.mul_div_cancel' h.covers.cols_dvd, Nat.mul_div_cancel' h.depth_dvd⟩

end GemmBinding

/-! ## Operands in their places -/

section

variable {k : Kernel} {target : Target} {a b c : TileId}
  {transposeA transposeB : Bool} {binding : GemmBinding}

theorem Kernel.exists_tile_of_place
    (hbind : k.bindGemm a b c transposeA transposeB target = .ok (some binding))
    {t : TileId} {role : Role}
    (hplace : (t, role, transposed) ∈ gemmPlaces a b c transposeA transposeB) :
    ∃ tile, k.tile t = .ok tile ∧
      tile.shape = binding.dims.tileShape role transposed ∧
      (tile.scope = .fragment ∨ tile.scope = .shared) := by
  obtain ⟨ta, tb, tc, hta, htb, htc, hbinds⟩ := Kernel.binds_of_bindGemm hbind
  cases hbinds with
  | bound hchip _ hdims _ _ _ _ =>
      obtain ⟨ha, hb, hc⟩ := GemmShape.ofShapes?_eq_some hdims
      simp only [gemmOnChip, Bool.and_eq_true, beq_iff_eq] at hchip
      obtain ⟨⟨hcScope, haScope⟩, hbScope⟩ := hchip
      simp only [gemmPlaces, List.mem_cons, List.not_mem_nil, or_false,
        Prod.mk.injEq] at hplace
      rcases hplace with ⟨rfl, rfl, rfl⟩ | ⟨rfl, rfl, rfl⟩ | ⟨rfl, rfl, rfl⟩
      · exact ⟨ta, hta, ha, by cases hs : ta.scope <;>
          simp_all [Scope.isOnChip]⟩
      · exact ⟨tb, htb, hb, by cases hs : tb.scope <;>
          simp_all [Scope.isOnChip]⟩
      · exact ⟨tc, htc, hc, Or.inl hcScope⟩

/-- The layout of an operand of a bound product deals the elements of its tile
one to each register of its threads, and all threads hold a part of the
accumulator.  The layout can say so of every element as long as a thread has at
most `2 ^ 32` registers. -/
theorem bindGemm_operand_fills
    (htarget : target.Known)
    (hbind : k.bindGemm a b c transposeA transposeB target = .ok (some binding))
    {t : TileId} {role : Role} {transposed : Bool}
    (hplace : (t, role, transposed) ∈ gemmPlaces a b c transposeA transposeB) :
    ∃ tile rows cols threads locals place,
      k.tile t = .ok tile ∧ tile.shape = [rows, cols] ∧
      (binding.operandLayout role transposed).Fills
        rows cols threads locals place ∧
      ((∀ r < rows, ∀ c < cols,
          (binding.operandLayout role transposed).slot rows cols r c =
            .ok (place r c)) ↔
        locals ≤ limit32) ∧
      (role = .c → k.numThreads = .ok threads) := by
  obtain ⟨tile, htile, hshape, -⟩ := Kernel.exists_tile_of_place hbind hplace
  obtain ⟨_, _, _, _, _, _, hbinds⟩ := Kernel.binds_of_bindGemm hbind
  obtain ⟨threads, hthreads, hdivides⟩ :=
    GemmBinding.Divides.of_binds htarget hbinds
  obtain ⟨rows, cols, locals, place, hsides, hfills⟩ :=
    hdivides.exists_fills role transposed
  refine ⟨tile, rows, cols, _, locals, place, htile, hshape.trans hsides,
    hfills, hfills.forall_slot_iff (hdivides.grid_pos role), ?_⟩
  rintro rfl
  rw [MatrixInstruction.lanes_atom hdivides.admissible, hthreads]
  exact congrArg Except.ok hdivides.threads_eq.symm

/-- A product of `m` by `depth` elements in registers with `depth` by `n` in
shared memory. -/
def plainProduct (threads m n depth : Nat) (transposeA : Bool) : Kernel :=
  { Kernel.empty "plain_product" with
    threads := ⟨threads, 1, 1⟩
    tiles := #[.plain "a" (GemmShape.tileShape ⟨m, n, depth⟩ .a transposeA) .f16
      .fragment, .plain "b" [depth, n] .f16 .shared,
      .plain "c" [m, n] .f32 .fragment]
    body := .step ⟨⟨0⟩, .gemm ⟨0⟩ ⟨1⟩ ⟨2⟩ transposeA false false, none⟩ .done
    nextOp := 1 }

/-- The left operand is stored transposed and divided among two warps of two. -/
theorem bindGemm_operand_fills_transposed :
    Target.gfx90a.Known ∧
      (plainProduct 256 64 64 32 true).bindGemm ⟨0⟩ ⟨1⟩ ⟨2⟩ true false .gfx90a =
        .ok (some ⟨.uniform "v_mfma_f32_16x16x16f16" .amd ⟨16, 16,
          16⟩ .f16 .f32, ⟨64, 64, 32⟩, ⟨2, 2⟩⟩) ∧
      ∃ place, (RegisterLayout.operand (.mfmaA 16 16) ⟨2, 1⟩ 2 true).Fills 32 64
        128 16 place ∧ ∀ r < 32, ∀ c < 64,
          (RegisterLayout.operand (.mfmaA 16 16) ⟨2, 1⟩ 2 true).slot 32 64 r c =
            .ok (place r c) := by
  have hknown : Target.gfx90a.Known := Or.inl (by decide)
  have hbind : (plainProduct 256 64 64 32 true).bindGemm ⟨0⟩ ⟨1⟩
      ⟨2⟩ true false .gfx90a =
      .ok (some ⟨.uniform "v_mfma_f32_16x16x16f16" .amd ⟨16, 16, 16⟩ .f16 .f32,
        ⟨64, 64, 32⟩, ⟨2, 2⟩⟩) := by
    rfl
  have hplace : (⟨0⟩, .a, true) ∈ gemmPlaces ⟨0⟩ ⟨1⟩ ⟨2⟩ true false :=
    List.mem_cons_self
  obtain ⟨tile, rows, cols, threads, locals, place, htile, hshape, hfills,
      hslots, -⟩ :=
    bindGemm_operand_fills hknown hbind hplace
  cases htile
  cases hshape
  cases hfills.threads_eq
  cases hfills.locals_eq
  exact ⟨hknown, hbind, place, hfills, hslots.mpr (by decide)⟩

/-- With `2 ^ 33` elements in each of 32 threads, the register of the last one
is no word. -/
theorem bindGemm_operand_overflows_deep :
    Target.sm80.Known ∧ ∃ binding,
      (plainProduct 32 128 8 (2 ^ 31) false).bindGemm ⟨0⟩ ⟨1⟩ ⟨2⟩
        false false .sm80 = .ok (some binding) ∧
      (binding.operandLayout .a false).fits 128 (2 ^ 31) = .ok true ∧
      (binding.operandLayout .a false).threads = .ok 32 ∧
      (binding.operandLayout .a false).localsPerThread (128 * 2 ^ 31) =
        .ok (2 ^ 33) ∧
      (binding.operandLayout .a false).slot 128 (2 ^ 31) 127 (2 ^ 31 - 1) =
        .error .overflow := by
  exact ⟨Or.inl (by decide), _, rfl, rfl, rfl, rfl, rfl⟩

end

/-! ## Matrix strategies -/

section

variable {k : Kernel} {target : Target} {op : OpId} {a b c : TileId}
  {transposeA transposeB : Bool} {binding : GemmBinding}

theorem Selection.exists_layout_of_checkOperand
    {t : TileId} {tile : Tile} {role : Role} (htile : k.tile t = .ok tile)
    (hscope : tile.scope = .fragment ∨ tile.scope = .shared)
    (h : checkOperand k op binding t role transposed = .ok ()) :
    ∃ l, tile.layout = some l ∧
      (tile.scope = .fragment ∧
        l.kind = .fragment (binding.operandLayout role transposed) ∨
        tile.scope = .shared ∧ l.isFragment = false) := by
  cases hlayout : tile.layout with
  | none =>
      unfold checkOperand layoutOf at h
      rcases hscope with hscope | hscope <;>
        simp only [htile, hlayout, hscope, mismatch, Pass.fail, lift_ok,
          ok_bind] at h <;> cases h
  | some l =>
      rw [checkOperand_eq_ok_iff htile hlayout] at h
      refine ⟨l, rfl, ?_⟩
      rcases hscope with hscope | hscope
      · exact Or.inl ⟨hscope, (operandFits_fragment hscope _).mp h⟩
      · exact Or.inr ⟨hscope, (operandFits_memory (by simp [hscope]) _).mp h⟩

theorem Selection.gemm_eq_matrix
    {name : String} {shape repeats : GemmShape}
    (h : gemm k target op a b c transposeA transposeB =
      .ok (.matrix name shape warps repeats)) :
    ∃ binding,
      k.bindGemm a b c transposeA transposeB target = .ok (some binding) ∧
      binding.instruction.name = name ∧ binding.instruction.shape = shape ∧
      binding.warps = warps ∧ binding.repeats = .ok repeats := by
  unfold gemm at h
  obtain ⟨bound, hbind, h⟩ := bind_eq_ok h
  rw [within_eq_ok_iff] at hbind
  cases bound with
  | none => cases h
  | some binding =>
      obtain ⟨_, -, h⟩ := bind_eq_ok h
      obtain ⟨_, -, h⟩ := bind_eq_ok h
      obtain ⟨_, -, h⟩ := bind_eq_ok h
      obtain ⟨_, hrepeats, h⟩ := bind_eq_ok h
      cases h
      exact ⟨binding, hbind, rfl, rfl, rfl, lift_eq_ok_iff.mp hrepeats⟩

/-- The instructions of a matrix strategy make up the product, among all threads
of the block. They are the first that take the types of the operands, and the
operands are laid out for them. -/
theorem select_matrix_tiles_product
    (htarget : target.Known) {s : Step} {clear : Bool}
    (hop : s.op = .gemm a b c transposeA transposeB clear) {name : String}
    {shape repeats : GemmShape} {warps : WarpGrid}
    (hselect : k.select target (.step s) =
      .ok (some (.matrix name shape warps repeats))) :
    ∃ ta tb tc dims i before after,
      (k.tile a = .ok ta ∧ k.tile b = .ok tb ∧ k.tile c = .ok tc) ∧
      (ta.shape = (if transposeA then [dims.k, dims.m] else [dims.m, dims.k]) ∧
        tb.shape = (if transposeB then [dims.n, dims.k] else [dims.k, dims.n]) ∧
        tc.shape = [dims.m, dims.n]) ∧
      (shape.m * warps.rows * repeats.m = dims.m ∧
        shape.n * warps.cols * repeats.n = dims.n ∧
        shape.k * repeats.k = dims.k) ∧
      k.numThreads = .ok (warps.rows * warps.cols * i.lanes) ∧
      (target.instructions = before ++ i :: after ∧ i.name = name ∧
        i.shape = shape ∧ i.accepts ta.type tb.type tc.type = true ∧
        ∀ j ∈ before, j.accepts ta.type tb.type tc.type = false) ∧
      ∀ t role transposed,
        (t, role, transposed) ∈ gemmPlaces a b c transposeA transposeB →
        ∃ tile l, k.tile t = .ok tile ∧ tile.layout = some l ∧
          (tile.scope = .fragment ∧
              l.kind = .fragment
                (GemmBinding.operandLayout ⟨i, dims, warps⟩ role transposed) ∨
            tile.scope = .shared ∧ l.isFragment = false) := by
  simp only [Kernel.select, Selection.strategy?, hop] at hselect
  obtain ⟨_, hgemm, hsome⟩ := map_eq_ok_iff.mp hselect
  cases hsome
  obtain ⟨⟨i, dims, _⟩, hbind, rfl, rfl, rfl, hrepeats⟩ :=
    Selection.gemm_eq_matrix hgemm
  obtain ⟨ta, tb, tc, hta, htb, htc, hbinds⟩ := Kernel.binds_of_bindGemm hbind
  obtain ⟨threads, hthreads, hdivides⟩ :=
    GemmBinding.Divides.of_binds htarget hbinds
  obtain ⟨_, hcounted, hm, hn, hk⟩ := hdivides.exists_repeats
  cases hrepeats.symm.trans hcounted
  cases hbinds with
  | bound _ hinstruction hdims _ _ _ _ =>
      obtain ⟨haccepts, before, after, htable, hbefore⟩ :=
        List.find?_eq_some_iff_append.mp hinstruction
      refine ⟨ta, tb, tc, dims, i, before, after, ⟨hta, htb, htc⟩,
        GemmShape.ofShapes?_eq_some hdims, ⟨hm, hn, hk⟩, ?_, ⟨htable, rfl, rfl,
          haccepts, fun j hj => by simpa using hbefore j hj⟩, ?_⟩
      · rw [hthreads, ← hdivides.threads_eq]
      · intro t role transposed hplace
        obtain ⟨tile, htile, -, hscope⟩ :=
          Kernel.exists_tile_of_place hbind hplace
        have haccepted :=
          (Selection.exists_gemm_iff hbind).mp ⟨_, hgemm⟩ _ hplace
        obtain ⟨l, hlayout, hkind⟩ :=
          Selection.exists_layout_of_checkOperand htile hscope haccepted
        exact ⟨tile, l, htile, hlayout, hkind⟩

end

/-- The product with its operands laid out for the instruction. -/
def laidOutProduct : Kernel :=
  { plainProduct 256 64 64 32 true with
    tiles := #[
      { Tile.plain "a" [32, 64] .f16 .fragment with
        layout := some
          ⟨[32, 64], .fragment (.operand (.mfmaA 16 16) ⟨2, 1⟩ 2 true)⟩ },
      { Tile.plain "b" [32, 64] .f16 .shared with
        layout := some ⟨[32, 64], .padded 8⟩ },
      { Tile.plain "c" [64, 64] .f32 .fragment with
        layout := some
          ⟨[64, 64], .fragment (.operand (.mfmaC 16 16) ⟨2, 2⟩ 1 false)⟩ }] }

/-- Two warps by two take two instructions each along every side. -/
theorem select_matrix_tiles_product_laidOut :
    Target.gfx90a.Known ∧
      laidOutProduct.select .gfx90a
          (.step ⟨⟨0⟩, .gemm ⟨0⟩ ⟨1⟩ ⟨2⟩ true false false, none⟩) =
        .ok (some (.matrix "v_mfma_f32_16x16x16f16" ⟨16, 16, 16⟩ ⟨2, 2⟩
          ⟨2, 2, 2⟩)) ∧
      ∃ i before after, Target.gfx90a.instructions = before ++ i :: after ∧
        (∀ j ∈ before, j.accepts .f16 .f16 .f32 = false) ∧
        laidOutProduct.numThreads = .ok (2 * 2 * i.lanes) ∧
        ∃ tile l, laidOutProduct.tile ⟨0⟩ = .ok tile ∧ tile.layout = some l ∧
          l.kind = .fragment
            (GemmBinding.operandLayout ⟨i, ⟨64, 64, 32⟩, ⟨2, 2⟩⟩ .a true) := by
  have hknown : Target.gfx90a.Known := Or.inl (by decide)
  have hselect : laidOutProduct.select .gfx90a
      (.step ⟨⟨0⟩, .gemm ⟨0⟩ ⟨1⟩ ⟨2⟩ true false false, none⟩) =
      .ok (some (.matrix "v_mfma_f32_16x16x16f16" ⟨16, 16, 16⟩ ⟨2, 2⟩
        ⟨2, 2, 2⟩)) := by
    rfl
  obtain ⟨ta, tb, tc, ⟨m, n, d⟩, i, before, after, ⟨hta, htb, htc⟩, -,
      ⟨hm, hn, hd⟩, hthreads, ⟨htable, -, -, -, hbefore⟩, hplaces⟩ :=
    select_matrix_tiles_product hknown rfl hselect
  obtain ⟨tile, l, htile, hlayout, hkind⟩ :=
    hplaces ⟨0⟩ .a true List.mem_cons_self
  cases hta
  cases htb
  cases htc
  cases hm
  cases hn
  cases hd
  refine ⟨hknown, hselect, i, before, after, htable, hbefore, hthreads, tile, l,
    htile, hlayout, ?_⟩
  cases htile
  exact (hkind.resolve_right fun h => nomatch h.1).2

end TileProgram
