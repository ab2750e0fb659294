import TileProgram.Proofs.Layout.Registers

/-!
# The grid of warps over an accumulator

The warps of a block form a grid over the accumulator of a product, and every
warp gets whole instruction tiles.  The scan runs from many warps along the rows
to few and keeps a grid until a squarer one is found, so of all such grids it
ends with one whose share is nearest to a square, and of several with the one
that has the most warps along the rows.
-/

namespace TileProgram

open Checked

def WarpGrid.skew (m n : Nat) (g : WarpGrid) : Nat :=
  (((m / g.rows : Nat) : Int) - (n / g.cols : Nat)).natAbs

namespace MatrixInstruction

/-- The grid has all the warps, and each of them gets whole instruction tiles of
an `m × n` accumulator. -/
structure Partitions (i : MatrixInstruction) (m n warps : Nat) (g : WarpGrid) :
    Prop where
  count : g.rows * g.cols = warps
  rows_dvd : i.shape.m * g.rows ∣ m
  cols_dvd : i.shape.n * g.cols ∣ n

/-- The grid is the squarest one, and the tallest of the squarest. -/
structure Squarest (i : MatrixInstruction) (m n warps : Nat) (g : WarpGrid) :
    Prop where
  partitions : i.Partitions m n warps g
  skew_le : ∀ g', i.Partitions m n warps g' → g.skew m n ≤ g'.skew m n
  rows_ge : ∀ g', i.Partitions m n warps g' → g'.skew m n = g.skew m n →
    g'.rows ≤ g.rows

variable {i : MatrixInstruction} {m n warps : Nat}

theorem Partitions.cols_eq
    {g : WarpGrid} (h : i.Partitions m n warps g) (hrows : 0 < g.rows) :
    g.cols = warps / g.rows := by
  rw [← h.count, Nat.mul_div_cancel_left _ hrows]

theorem Partitions.eq_of_rows
    {g g' : WarpGrid} (h : i.Partitions m n warps g)
    (h' : i.Partitions m n warps g') (hpos : 0 < g.rows)
    (hrows : g.rows = g'.rows) : g = g' := by
  have hcols : g.cols = g'.cols := by
    rw [h.cols_eq hpos, h'.cols_eq (hrows ▸ hpos), hrows]
  cases g
  cases g'
  congr

theorem Partitions.rows_pos
    {g : WarpGrid} (h : i.Partitions m n warps g) (hwarps : 0 < warps) :
    0 < g.rows :=
  Nat.pos_of_mul_pos_right (h.count.symm ▸ hwarps)

theorem Partitions.rows_le
    {g : WarpGrid} (h : i.Partitions m n warps g) (hwarps : 0 < warps) :
    g.rows ≤ warps :=
  Nat.le_of_dvd hwarps ⟨g.cols, h.count.symm⟩

/-! ## One row count -/

/-- The split is a partition, carries its skew and has words for its sides. -/
structure IsSplit (i : MatrixInstruction) (m n warps : Nat) (s : Split) :
    Prop where
  partitions : i.Partitions m n warps s.grid
  skew_eq : s.skew = s.grid.skew m n
  covers : s.grid.Covers i.shape.m i.shape.n m n

theorem split?_eq_ok
    {wm : Nat} {found : Option Split} (hwm : 0 < wm)
    (h : i.split? m n warps wm = .ok found) :
    (∀ s, found = some s → i.IsSplit m n warps s ∧ s.grid.rows = wm) ∧
      (found = none → ∀ g, i.Partitions m n warps g → g.rows ≠ wm) := by
  unfold split? at h
  split at h
  · next hwarps =>
      cases h
      refine ⟨nofun, ?_⟩
      rintro - g hg rfl
      exact hwarps (Nat.mod_eq_zero_of_dvd ⟨g.cols, hg.count.symm⟩)
  · next hwarps =>
      obtain ⟨rows, hrows, h⟩ := bind_eq_ok h
      obtain ⟨rowsLeft, hrowsLeft, h⟩ := bind_eq_ok h
      obtain ⟨hrowsLt, rfl⟩ := word32_eq_ok hrows
      obtain ⟨hrowsPos, rfl⟩ := mod_eq_ok hrowsLeft
      split at h
      · next hdvd =>
          cases h
          refine ⟨nofun, ?_⟩
          rintro - g hg rfl
          exact hdvd (Nat.mod_eq_zero_of_dvd hg.rows_dvd)
      · next hrowsDvd =>
          obtain ⟨cols, hcols, h⟩ := bind_eq_ok h
          obtain ⟨colsLeft, hcolsLeft, h⟩ := bind_eq_ok h
          obtain ⟨hcolsLt, rfl⟩ := word32_eq_ok hcols
          obtain ⟨hcolsPos, rfl⟩ := mod_eq_ok hcolsLeft
          split at h
          · next hdvd =>
              cases h
              refine ⟨nofun, ?_⟩
              rintro - g hg rfl
              exact hdvd (Nat.mod_eq_zero_of_dvd (hg.cols_eq hwm ▸ hg.cols_dvd))
          · next hcolsDvd =>
              cases h
              refine ⟨?_, nofun⟩
              rintro s ⟨⟩
              have hcovers : WarpGrid.Covers
                  ⟨wm, warps / wm⟩ i.shape.m i.shape.n m n :=
                ⟨Nat.dvd_of_mod_eq_zero (not_not.mp hrowsDvd),
                  Nat.dvd_of_mod_eq_zero (not_not.mp hcolsDvd),
                  Nat.pos_of_ne_zero hrowsPos, Nat.pos_of_ne_zero hcolsPos,
                  hrowsLt, hcolsLt⟩
              refine ⟨⟨⟨?_, hcovers.rows_dvd, hcovers.cols_dvd⟩, ?_, hcovers⟩,
                rfl⟩
              · exact Nat.mul_div_cancel'
                  (Nat.dvd_of_mod_eq_zero (not_not.mp hwarps))
              · simp only [WarpGrid.skew]
                omega

/-! ## The scan -/

/-- The split is the best of those with more than `wm` warps along the rows. -/
structure BestAbove (i : MatrixInstruction) (m n warps wm : Nat) (s : Split) :
    Prop where
  isSplit : i.IsSplit m n warps s
  above : wm < s.grid.rows
  skew_le : ∀ g, i.Partitions m n warps g → wm < g.rows → s.skew ≤ g.skew m n
  rows_ge : ∀ g, i.Partitions m n warps g → wm < g.rows → g.skew m n = s.skew →
    g.rows ≤ s.grid.rows

/-- What the scan knows when the row counts above `wm` are behind it. -/
def Scanned (i : MatrixInstruction) (m n warps wm : Nat) : Option Split → Prop
  | none => ∀ g, i.Partitions m n warps g → g.rows ≤ wm
  | some s => i.BestAbove m n warps wm s

/-- The first split that is found is the best so far, being the only one. -/
theorem bestAbove_of_first
    {wm : Nat} {s : Split}
    (hnone : ∀ g, i.Partitions m n warps g → g.rows ≤ wm + 1)
    (hs : i.IsSplit m n warps s) (hrows : s.grid.rows = wm + 1) :
    i.BestAbove m n warps wm s := by
  have honly : ∀ g, i.Partitions m n warps g → wm < g.rows → g = s.grid := by
    intro g hg habove
    have hle := hnone g hg
    exact hg.eq_of_rows hs.partitions (by omega) (by omega)
  refine ⟨hs, by omega, ?_, ?_⟩
  · intro g hg habove
    rw [hs.skew_eq, honly g hg habove]
  · intro g hg habove _
    rw [honly g hg habove]

/-- A split that is no squarer than the best does not replace it: it has fewer
rows. -/
theorem BestAbove.keep
    {wm : Nat} {b : Split} (h : i.BestAbove m n warps (wm + 1) b)
    (hnext : ∀ g, i.Partitions m n warps g → g.rows = wm + 1 →
      b.skew ≤ g.skew m n) : i.BestAbove m n warps wm b := by
  have habove := h.above
  refine ⟨h.isSplit, by omega, ?_, ?_⟩
  · intro g hg hrows
    rcases Nat.lt_or_ge (wm + 1) g.rows with hold | hnew
    · exact h.skew_le g hg hold
    · exact hnext g hg (by omega)
  · intro g hg hrows heq
    rcases Nat.lt_or_ge (wm + 1) g.rows with hold | hnew
    · exact h.rows_ge g hg hold heq
    · omega

/-- A squarer split replaces the best: all grids before it have a larger
skew. -/
theorem BestAbove.replace
    {wm : Nat} {b s : Split} (h : i.BestAbove m n warps (wm + 1) b)
    (hs : i.IsSplit m n warps s) (hrows : s.grid.rows = wm + 1)
    (hlt : s.skew < b.skew) : i.BestAbove m n warps wm s := by
  refine ⟨hs, by omega, ?_, ?_⟩
  · intro g hg habove
    rcases Nat.lt_or_ge (wm + 1) g.rows with hold | hnew
    · exact hlt.le.trans (h.skew_le g hg hold)
    · rw [hs.skew_eq, hg.eq_of_rows hs.partitions (by omega) (by omega)]
  · intro g hg habove heq
    rcases Nat.lt_or_ge (wm + 1) g.rows with hold | hnew
    · have hle := h.skew_le g hg hold
      omega
    · omega

theorem Scanned.step
    {wm : Nat} {best found : Option Split}
    (h : i.Scanned m n warps (wm + 1) best)
    (hfound : i.split? m n warps (wm + 1) = .ok found) :
    i.Scanned m n warps wm (squarer best found) := by
  obtain ⟨hsome, hnone⟩ := split?_eq_ok (Nat.succ_pos wm) hfound
  cases best with
  | none =>
      cases found with
      | none =>
          intro g hg
          have hle := h g hg
          have hne := hnone rfl g hg
          omega
      | some s => exact bestAbove_of_first h (hsome s rfl).1 (hsome s rfl).2
  | some b =>
      have hbest : i.BestAbove m n warps (wm + 1) b := h
      cases found with
      | none => exact hbest.keep fun g hg hrows => absurd hrows (hnone rfl g hg)
      | some s =>
          obtain ⟨hs, hrows⟩ := hsome s rfl
          simp only [squarer]
          split
          · next hlt => exact hbest.replace hs hrows hlt
          · next hge =>
              refine hbest.keep fun g hg hgrows => ?_
              rw [hg.eq_of_rows hs.partitions (by omega) (by omega),
                ← hs.skew_eq]
              exact Nat.le_of_not_lt hge

theorem Scanned.bestSplit
    {wm : Nat} {best found : Option Split} (h : i.Scanned m n warps wm best)
    (hfound : i.bestSplit m n warps wm best = .ok found) :
    i.Scanned m n warps 0 found := by
  induction wm generalizing best with
  | zero =>
      cases hfound
      exact h
  | succ wm ih =>
      obtain ⟨next, hnext, hrest⟩ := bind_eq_ok hfound
      exact ih (h.step hnext) hrest

theorem covers_of_warpPartition
    {g : WarpGrid} (h : i.warpPartition m n warps = .ok (some g)) :
    g.rows * g.cols = warps ∧ g.Covers i.shape.m i.shape.n m n := by
  obtain ⟨best, hbest, hgrid⟩ := bind_eq_ok h
  obtain ⟨s, rfl, rfl⟩ := Option.map_eq_some_iff.mp (Except.ok.inj hgrid)
  rcases Nat.eq_zero_or_pos warps with rfl | hwarps
  · cases hbest
  · have hstart : i.Scanned m n warps warps none :=
      fun g hg => hg.rows_le hwarps
    have hs : i.BestAbove m n warps 0 s := hstart.bestSplit hbest
    exact ⟨hs.isSplit.partitions.count, hs.isSplit.covers⟩

/-! ## The scan ends -/

theorem exists_split?
    {wm : Nat} (hm : 0 < i.shape.m) (hn : 0 < i.shape.n)
    (hrows : i.shape.m * warps < limit32) (hcols : i.shape.n * warps < limit32)
    (hwm : 0 < wm) (hle : wm ≤ warps) :
    ∃ found, i.split? m n warps wm = .ok found := by
  have hwn : 0 < warps / wm := Nat.div_pos hle hwm
  have hheight : i.shape.m * wm < limit32 :=
    (Nat.mul_le_mul_left _ hle).trans_lt hrows
  have hwidth : i.shape.n * (warps / wm) < limit32 :=
    (Nat.mul_le_mul_left _ (Nat.div_le_self warps wm)).trans_lt hcols
  unfold split?
  split
  · exact ⟨_, rfl⟩
  · rw [word32_of_lt hheight, ok_bind,
      mod_of_ne_zero _ (Nat.mul_pos hm hwm).ne', ok_bind]
    split
    · exact ⟨_, rfl⟩
    · rw [word32_of_lt hwidth, ok_bind,
        mod_of_ne_zero _ (Nat.mul_pos hn hwn).ne', ok_bind]
      split <;> exact ⟨_, rfl⟩

theorem exists_bestSplit
    {wm : Nat} (hm : 0 < i.shape.m) (hn : 0 < i.shape.n)
    (hrows : i.shape.m * warps < limit32) (hcols : i.shape.n * warps < limit32)
    (hle : wm ≤ warps) (best : Option Split) :
    ∃ found, i.bestSplit m n warps wm best = .ok found := by
  induction wm generalizing best with
  | zero => exact ⟨best, rfl⟩
  | succ wm ih =>
      obtain ⟨next, hnext⟩ :=
        exists_split? (m := m) (n := n) hm hn hrows hcols (Nat.succ_pos wm) hle
      rw [bestSplit, hnext, ok_bind]
      exact ih (by omega) _

end MatrixInstruction

/-! ## The partition -/

open MatrixInstruction in
/-- The warps are divided whenever some grid of them cuts the accumulator into
whole instruction tiles, and then by the squarest grid, of several by the one
with the most warps along the rows. The division is found unless the warps of
one row or column exhaust a word. -/
theorem warpPartition_squarest
    (i : MatrixInstruction) (m n warps : Nat) (hm : 0 < i.shape.m)
    (hn : 0 < i.shape.n) :
    (∀ found, i.warpPartition m n warps = .ok found →
      ((∃ g, found = some g) ↔ 0 < warps ∧ ∃ g, i.Partitions m n warps g) ∧
      ∀ g, found = some g → i.Squarest m n warps g) ∧
    (i.shape.m * warps < limit32 → i.shape.n * warps < limit32 →
      ∃ found, i.warpPartition m n warps = .ok found) := by
  constructor
  · intro found hfound
    obtain ⟨best, hbest, hgrid⟩ := bind_eq_ok hfound
    cases hgrid
    rcases Nat.eq_zero_or_pos warps with rfl | hwarps
    · cases hbest
      simp
    · have hstart : i.Scanned m n warps warps none :=
        fun g hg => hg.rows_le hwarps
      have hend := hstart.bestSplit hbest
      cases best with
      | none =>
          refine ⟨⟨by simp, ?_⟩, by simp⟩
          rintro ⟨-, g, hg⟩
          have hle := hend g hg
          have hpos := hg.rows_pos hwarps
          omega
      | some s =>
          have hs : i.BestAbove m n warps 0 s := hend
          have hsplit := hs.isSplit
          refine ⟨⟨fun _ => ⟨hwarps, s.grid, hsplit.partitions⟩,
            fun _ => ⟨s.grid, rfl⟩⟩, ?_⟩
          rintro g ⟨⟩
          refine ⟨hsplit.partitions, ?_, ?_⟩
          · intro g hg
            exact hsplit.skew_eq ▸ hs.skew_le g hg (hg.rows_pos hwarps)
          · intro g hg heq
            exact hs.rows_ge g hg (hg.rows_pos hwarps)
              (heq.trans hsplit.skew_eq.symm)
  · intro hrows hcols
    obtain ⟨best, hbest⟩ :=
      exists_bestSplit (m := m) (n := n) hm hn hrows hcols le_rfl none
    unfold warpPartition
    rw [hbest]
    exact ⟨_, rfl⟩

/-- Eight warps over a square accumulator: all four grids fit, and the two in
the middle are equally far from square. -/
theorem warpPartition_squarest_eight :
    let i :=
  MatrixInstruction.uniform "v_mfma_f32_16x16x16f16" .amd ⟨16, 16, 16⟩ .f16 .f32
    i.warpPartition 128 128 8 = .ok (some ⟨4, 2⟩) ∧
      i.Squarest 128 128 8 ⟨4, 2⟩ ∧ i.Partitions 128 128 8 ⟨2, 4⟩ ∧
      WarpGrid.skew 128 128 ⟨2, 4⟩ = WarpGrid.skew 128 128 ⟨4, 2⟩ := by
  intro i
  have hfound : i.warpPartition 128 128 8 = .ok (some ⟨4, 2⟩) := by decide
  have hbest :=
    ((warpPartition_squarest i 128 128 8 (by decide) (by decide)).1 _ hfound).2
  exact ⟨hfound, hbest _ rfl, ⟨by decide, by decide, by decide⟩, by decide⟩

end TileProgram
