import Mathlib.Order.Bounds.Basic
import TileProgram.Proofs.Stops.Layouts
import TileProgram.Proofs.Layout.RegisterRuns
import TileProgram.Proofs.Layout.WellFormed

/-!
# Maximal runs

The maximal runs of a row are the stretches between two neighbouring boundaries,
and `contiguousRun` is the length of the shortest of them.  A pitch leaves a row
in one run, stripes cut it at the multiples of their length, and a swizzle cuts
it only between chunks.

Well-formedness leaves one hole: an accumulator with more columns than the warp
has lanes passes the test, but its elements have no slots.
-/

namespace TileProgram

open Checked

theorem Slot.advance_advance (s : Slot) (i j : Nat) :
    (s.advance i).advance j = s.advance (i + j) := by
  cases s <;> simp [advance, Nat.add_assoc]

namespace Layout

variable {l : Layout} {r c n m width rows : Nat}

/-- Columns of a row in consecutive slots that neither the column before them
nor the column after them continues. -/
structure MaximalRun (l : Layout) (r c n : Nat) : Prop where
  pos : 0 < n
  inside : c + n ≤ l.shape.cols
  consecutive : l.Consecutive r c n
  begins : ∀ b, c = b + 1 → ¬l.Consecutive r b (n + 1)
  ends : c + n < l.shape.cols → ¬l.Consecutive r c (n + 1)

theorem Consecutive.not_breaks
    {x : Nat} (h : l.Consecutive r c width) (hlow : c < x)
    (hhigh : x < c + width) : ¬l.Breaks r x := by
  rintro ⟨b, s, t, rfl, hs, ht, hfalse⟩
  rcases h with ⟨first, hfirst⟩
  rcases Nat.exists_eq_add_of_le (Nat.le_of_lt_succ hlow) with ⟨i, rfl⟩
  rw [hfirst i (by omega)] at hs
  rw [Nat.add_assoc, hfirst (i + 1) (by omega)] at ht
  cases hs
  cases ht
  have htrue : (first.advance i).isSuccessor (first.advance (i + 1)) = true :=
    Slot.isSuccessor_iff.mpr (first.advance_advance i 1).symm
  rw [htrue] at hfalse
  cases hfalse

theorem Boundary.breaks
    (h : l.Boundary r c) (hpos : 0 < c) (hlt : c < l.shape.cols) :
    l.Breaks r c := by
  rcases h with hzero | hlast | ⟨_, hbreak⟩
  · omega
  · omega
  · exact hbreak

theorem RowRuns.maximalRun
    (h : l.RowRuns r m) (hm : 0 < m) (hstart : l.Boundary r c)
    (hstop : l.Boundary r (c + m)) (hend : c + m ≤ l.shape.cols) :
    l.MaximalRun r c m := by
  refine ⟨hm, hend, ?_, ?_, ?_⟩
  · apply h.consecutive hend
    intro x hlow hhigh hbreak
    have hapart :=
      h.apart c x hstart (Or.inr (Or.inr ⟨by omega, hbreak⟩)) hlow (by omega)
    omega
  · rintro b rfl hlonger
    exact hlonger.not_breaks (by omega) (by omega)
      (hstart.breaks (by omega) (by omega))
  · intro hlt hlonger
    exact hlonger.not_breaks (by omega) (by omega) (hstop.breaks (by omega) hlt)

/-- Where the slots of a row are known, only a break or the end of the row stops
a run. -/
theorem MaximalRun.boundaries (h : l.MaximalRun r c n) (hrow : l.RowRuns r m) :
    l.Boundary r c ∧ l.Boundary r (c + n) := by
  have hpos := h.pos
  have hinside := h.inside
  have hinner : ∀ x, c < x → x < c + n → ¬l.Breaks r x :=
    fun x => h.consecutive.not_breaks
  constructor
  · cases c with
    | zero => exact Or.inl rfl
    | succ b =>
        refine Or.inr (Or.inr ⟨by omega, ?_⟩)
        by_contra hjoined
        apply h.begins b rfl
        apply hrow.consecutive (by omega)
        intro x hlow hhigh
        by_cases hfirst : x = b + 1
        · rwa [hfirst]
        · exact hinner x (by omega) (by omega)
  · by_cases hlast : c + n = l.shape.cols
    · exact Or.inr (Or.inl hlast)
    · refine Or.inr (Or.inr ⟨by omega, ?_⟩)
      by_contra hjoined
      apply h.ends (by omega)
      apply hrow.consecutive (by omega)
      intro x hlow hhigh
      by_cases hfinal : x = c + n
      · rwa [hfinal]
      · exact hinner x hlow (by omega)

theorem rows_of_contiguousRun
    (hcols : 0 < l.shape.cols) (h : l.contiguousRun = .ok m) :
    l.shape.rows = .ok l.shape.dropLast.prod := by
  unfold contiguousRun at h
  rw [if_neg hcols.ne'] at h
  rcases bind_eq_ok h with ⟨rows, hrows, _⟩
  rw [hrows, l.shape.rows_settles.of_eq_ok hrows]

/-- The scan may stop at a run of one, but then there is no shorter one. -/
theorem isLeast_of_contiguousRun
    (hcols : 0 < l.shape.cols) (hrows : 0 < l.shape.dropLast.prod)
    (h : l.contiguousRun = .ok m) :
    IsLeast {n | ∃ r < l.shape.dropLast.prod, ∃ c, l.MaximalRun r c n} m := by
  rcases contiguousRun_eq_ok hcols h with ⟨hm, _, hall, hfound⟩
  rcases hfound with ⟨hzero, _⟩ | ⟨r, hr, hrow, a, hstart, hstop, hend⟩
  · omega
  · refine ⟨⟨r, hr, a, hrow.maximalRun hm hstart hstop hend⟩, ?_⟩
    rintro n ⟨r, hr, c, hrun⟩
    have hpos := hrun.pos
    by_cases hone : m = 1
    · omega
    · rcases hrun.boundaries (hall hone r hr) with ⟨hstart, hstop⟩
      have hapart :=
        (hall hone r hr).apart c (c + n) hstart hstop (by omega) hrun.inside
      omega

/-! ## The kinds of layouts -/

section

variable {shape : Shape} {threads vector : Nat} {s : Swizzle}

theorem RowRuns.eq_vector
    (hrow : RowRuns ⟨shape, .fragment (.striped threads vector)⟩ r m)
    (hattained : Attained ⟨shape, .fragment (.striped threads vector)⟩ r m)
    (hm : 0 < m)
    (hwf : isWellFormed ⟨shape, .fragment (.striped threads vector)⟩ = .ok true)
    (hcols : 0 < shape.cols) (hthreads : 2 ≤ threads) : m = vector := by
  rcases striped_of_isWellFormed hwf with ⟨_, hvector, hdvd⟩
  have hspaced : Spaced (fun x => vector ∣ x ∧ 2 ≤ threads) shape.cols m :=
    hrow.spaced hattained fun c hc => breaks_striped_iff hwf hrow hc
  exact hspaced.eq_of_grid hm hvector hdvd hcols (fun _ _ _ hbreak => hbreak.1)
    fun _ => ⟨Nat.dvd_refl vector, hthreads⟩

theorem RowRuns.not_breaks_one_thread
    (hrow : RowRuns ⟨shape, .fragment (.striped 1 vector)⟩ r m)
    (hwf : isWellFormed ⟨shape, .fragment (.striped 1 vector)⟩ = .ok true)
    (hc : c < shape.cols) :
    ¬Breaks ⟨shape, .fragment (.striped 1 vector)⟩ r c := by
  intro hbreak
  rcases hbreak.exists_succ with ⟨b, rfl⟩
  have hthreads := ((breaks_striped_iff hwf hrow hc).mp hbreak).2
  omega

theorem MaximalRun.dvd_swizzled
    (h : MaximalRun ⟨shape, .swizzled s⟩ r c n) (hproper : s.Proper)
    (hcols : 2 ^ s.base ∣ shape.cols) : 2 ^ s.base ∣ n := by
  have hdvd : ∀ x, Boundary ⟨shape, .swizzled s⟩ r x → 2 ^ s.base ∣ x := by
    rintro x (rfl | rfl | ⟨_, hbreak⟩)
    · exact Nat.dvd_zero _
    · exact hcols
    · exact dvd_of_dvd_chunk hproper (Nat.dvd_refl _) hcols hbreak
  rcases h.boundaries (rowRuns_swizzled hproper r) with ⟨hstart, hstop⟩
  exact (Nat.dvd_add_right (hdvd c hstart)).mp (hdvd (c + n) hstop)

end

end Layout

/-! ## Well-formed layouts -/

theorem Atom.sized_of_ne_zero
    {a : Atom} {rows cols : Nat} (hrows : a.rows = .ok rows)
    (hcols : a.cols = .ok cols) (hrowsNe : rows ≠ 0) (hcolsNe : cols ≠ 0)
    (hlanes : ∀ m n, a = .mfmaC m n → n ≤ 64) : a.Sized := by
  cases a with
  | mmaA pack =>
      have hsize := (word32_settles _).of_eq_ok hcols
      show 0 < pack
      omega
  | mmaB pack =>
      have hsize := (word32_settles _).of_eq_ok hrows
      show 0 < pack
      omega
  | mmaC => trivial
  | mfmaA m k =>
      cases hrows
      cases hcols
      exact ⟨Nat.pos_of_ne_zero hrowsNe, Nat.pos_of_ne_zero hcolsNe⟩
  | mfmaB n k =>
      cases hrows
      cases hcols
      exact ⟨Nat.pos_of_ne_zero hcolsNe, Nat.pos_of_ne_zero hrowsNe⟩
  | mfmaC m n =>
      cases hrows
      cases hcols
      exact ⟨Nat.pos_of_ne_zero hrowsNe, Nat.pos_of_ne_zero hcolsNe,
        hlanes _ _ rfl⟩

/-- The test divides by the sizes of an operand, so it passes only where they
are not zero. -/
theorem RegisterLayout.sized_of_fits
    {f : RegisterLayout} {rows cols : Nat} (h : f.fits rows cols = .ok true)
    (hlanes : ∀ m n warps replicas transposed,
      f = .operand (.mfmaC m n) warps replicas transposed → n ≤ 64) :
    f.Sized := by
  cases f with
  | operand atom warps replicas transposed =>
      simp only [fits] at h
      generalize (if transposed = true then (cols, rows) else (rows, cols)) =
        oriented at h
      rcases bind_eq_ok h with ⟨atomRows, hrows, h⟩
      rcases mod_bind_eq_ok (word32_bind_eq_ok h) with ⟨hblockRows, h⟩
      split at h
      · rcases bind_eq_ok h with ⟨atomCols, hcols, h⟩
        rcases mod_bind_eq_ok (word32_bind_eq_ok h) with ⟨hblockCols, _⟩
        rcases Nat.mul_ne_zero_iff.mp hblockRows with ⟨hatomRows, hwarpRows⟩
        rcases Nat.mul_ne_zero_iff.mp hblockCols with ⟨hatomCols, hwarpCols⟩
        refine ⟨Atom.sized_of_ne_zero hrows hcols hatomRows hatomCols ?_,
          Nat.pos_of_ne_zero hwarpRows, Nat.pos_of_ne_zero hwarpCols⟩
        rintro m n rfl
        exact hlanes m n warps replicas transposed rfl
      · cases h
  | striped threads vector =>
      simp only [fits, Except.ok.injEq, Bool.and_eq_true, decide_eq_true_eq]
        at h
      exact h.1

namespace Layout

variable {l : Layout}

theorem usable_of_isWellFormed
    (hwf : l.isWellFormed = .ok true)
    (hlanes : ∀ m n warps replicas transposed, l.kind =
      .fragment (.operand (.mfmaC m n) warps replicas transposed) → n ≤ 64) :
    l.Usable := by
  intro f hf
  rcases l with ⟨shape, kind⟩
  cases hf
  obtain ⟨-, hfits, -⟩ := fits_of_isWellFormed hwf
  apply RegisterLayout.sized_of_fits hfits
  rintro m n warps replicas transposed rfl
  exact hlanes m n warps replicas transposed rfl

/-- The contiguous run of a well-formed layout is computed, unless a number
overflows, and it is the length of the shortest maximal run: a whole row under a
pitch or with one thread, a stripe with more threads, and whole chunks under a
swizzle whose chunks divide the rows. -/
theorem contiguousRun_is_shortest_maximal_run
    (l : Layout) (hwf : l.isWellFormed = .ok true)
    (hlanes : ∀ m n warps replicas transposed, l.kind =
      .fragment (.operand (.mfmaC m n) warps replicas transposed) → n ≤ 64)
    (hwords : l.contiguousRun ≠ .error .overflow) :
    ∃ rows m, l.shape.rows = .ok rows ∧ l.contiguousRun = .ok m ∧
      IsLeast {n | ∃ r < rows, ∃ c, l.MaximalRun r c n} m ∧
      (l.kind = .rowMajor → m = l.shape.cols) ∧
      (∀ pad, l.kind = .padded pad → m = l.shape.cols) ∧
      (∀ threads vector, l.kind = .fragment (.striped threads vector) →
        (2 ≤ threads → m = vector) ∧ (threads = 1 → m = l.shape.cols)) ∧
      ∀ s, l.kind = .swizzled s → 2 ^ s.base ∣ l.shape.cols →
        (∀ r < rows, ∀ c n, l.MaximalRun r c n → 2 ^ s.base ∣ n) ∧
        2 ^ s.base ∣ m := by
  have hnumel : 0 < l.shape.dropLast.prod * l.shape.cols := by
    rw [← Shape.prod_eq_dropLast_mul_cols]
    exact List.prod_pos
      (Shape.pos_of_not_degenerate (not_degenerate_of_isWellFormed hwf))
  have hcols : 0 < l.shape.cols := Nat.pos_of_mul_pos_left hnumel
  have hrowsPos : 0 < l.shape.dropLast.prod := Nat.pos_of_mul_pos_right hnumel
  rcases (usable_of_isWellFormed hwf hlanes).contiguousRun_runs with
    hstop | ⟨m, hrun, -⟩
  · exact absurd hstop hwords
  · have hleast := isLeast_of_contiguousRun hcols hrowsPos hrun
    refine ⟨_, m, rows_of_contiguousRun hcols hrun, hrun, hleast, ?_⟩
    rcases contiguousRun_eq_ok hcols hrun with
      ⟨hm, _, _, ⟨hzero, _⟩ | ⟨r, hr, hrow, hattained⟩⟩
    · omega
    · rcases l with ⟨shape, kind⟩
      refine ⟨?_, ?_, ?_, ?_⟩
      · rintro rfl
        exact hattained.eq_cols hm fun c _ => not_breaks_rowMajor shape r c
      · rintro pad rfl
        exact hattained.eq_cols hm fun c _ => not_breaks_padded shape pad r c
      · rintro threads vector rfl
        constructor
        · exact hrow.eq_vector hattained hm hwf hcols
        · rintro rfl
          exact hattained.eq_cols hm fun c hc =>
            hrow.not_breaks_one_thread hwf hc
      · rintro s rfl hchunks
        rcases swizzle_of_isWellFormed hwf with ⟨hproper, _⟩
        have hruns : ∀ r < shape.dropLast.prod, ∀ c n,
            MaximalRun ⟨shape, .swizzled s⟩ r c n → 2 ^ s.base ∣ n :=
          fun r _ c n hrun => hrun.dvd_swizzled hproper hchunks
        rcases hleast.1 with ⟨r, hr, c, hshortest⟩
        exact ⟨hruns, hruns r hr c m hshortest⟩

/-- An accumulator whose columns are dealt to a quarter of the lanes, stored
transposed. -/
def turnedAccumulator : Layout :=
  ⟨[16, 16], .fragment (.operand (.mfmaC 16 16) ⟨1, 1⟩ 1 true)⟩

theorem contiguousRun_is_shortest_maximal_run_turned :
    turnedAccumulator.isWellFormed = .ok true ∧
      turnedAccumulator.contiguousRun = .ok 4 ∧
      IsLeast {n | ∃ r < 16, ∃ c, turnedAccumulator.MaximalRun r c n} 4 := by
  have hwf : turnedAccumulator.isWellFormed = .ok true := by decide
  have hfour : turnedAccumulator.contiguousRun = .ok 4 := by decide +kernel
  refine ⟨hwf, hfour, ?_⟩
  rcases contiguousRun_is_shortest_maximal_run turnedAccumulator hwf
    (fun m n warps replicas transposed h => by cases h; decide)
    (by rw [hfour]; nofun) with
    ⟨rows, m, hrows, hrun, hleast, _⟩
  cases hrows
  cases hfour.symm.trans hrun
  exact hleast

/-- An accumulator of more columns than lanes is well-formed, but has no slots
to measure. -/
theorem contiguousRun_wide_accumulator :
    isWellFormed ⟨[16, 128],
      .fragment (.operand (.mfmaC 16 128) ⟨1, 1⟩ 1 false)⟩ = .ok true ∧
      contiguousRun
        ⟨[16, 128], .fragment (.operand (.mfmaC 16 128) ⟨1, 1⟩ 1 false)⟩ =
        .error .divisionByZero := by
  decide

end Layout

end TileProgram
