import TileProgram.Proofs.Layout.Placement
import TileProgram.Target.Instruction

/-!
# Where elements are kept in registers

The atoms of an admissible instruction deal the elements of a fragment to the
registers of a warp, one element each and with none left over.  A grid of warps
and the turns of each warp carry this to a whole operand.  Striped elements go
to the threads in runs, round after round.
-/

namespace TileProgram

open Checked

variable {pack replicas rows cols threads r c vector : Nat}

/-! ## Atoms -/

namespace Atom

/-- Rows, columns and registers of an atom, and where it keeps its elements. -/
structure Deals
    (a : Atom) (rows cols locals : Nat) (place : Nat → Nat → Nat × Nat) :
    Prop where
  rows_eq : a.rows = .ok rows
  cols_eq : a.cols = .ok cols
  locals_eq : a.locals = .ok locals
  area : rows * cols = a.lanes * locals
  slot : ∀ r < rows, ∀ c < cols, a.slot r c = .ok (place r c)
  lane_lt : ∀ r < rows, ∀ c < cols, (place r c).1 < a.lanes
  register_lt : ∀ r < rows, ∀ c < cols, (place r c).2 < locals
  apart : ∀ r < rows, ∀ c < cols, ∀ r' < rows, ∀ c' < cols,
    place r c = place r' c' → r = r' ∧ c = c'

theorem run_lt (hpos : 0 < pack) (x : Nat) : x % (4 * pack) / pack < 4 :=
  Nat.div_lt_of_lt_mul
    (by rw [Nat.mul_comm pack]; exact Nat.mod_lt x (by omega))

/-- A depth is known from its place in a run, the run among four, and the
four. -/
theorem eq_of_runs
    {pack x y : Nat} (hlow : x % pack = y % pack)
    (hrun : x % (4 * pack) / pack = y % (4 * pack) / pack)
    (hhigh : x / (4 * pack) = y / (4 * pack)) : x = y := by
  have hrest : x % (4 * pack) = y % (4 * pack) :=
    calc x % (4 * pack)
      _ = pack * (x % (4 * pack) / pack) + x % (4 * pack) % pack :=
        (Nat.div_add_mod _ _).symm
      _ = pack * (y % (4 * pack) / pack) + y % (4 * pack) % pack := by
          rw [hrun, Nat.mod_mul_left_mod, Nat.mod_mul_left_mod, hlow]
      _ = y % (4 * pack) := Nat.div_add_mod _ _
  rw [← Nat.div_add_mod x (4 * pack), hhigh, hrest, Nat.div_add_mod]

theorem deals_mmaA (h : pack = 2 ∨ pack = 4) :
    (mmaA pack).Deals 16 (8 * pack) (4 * pack) fun r c =>
      (r % 8 * 4 + c % (4 * pack) / pack,
        c % pack + pack * (r / 8 % 2) + 2 * pack * (c / (4 * pack))) where
  rows_eq := rfl
  cols_eq := by rcases h with rfl | rfl <;> rfl
  locals_eq := by rcases h with rfl | rfl <;> rfl
  area := by rcases h with rfl | rfl <;> rfl
  slot r hr c hc := by
    rcases h with rfl | rfl
    all_goals
      simp only [slot]
      rw [word32_of_lt (by decide), ok_bind, mod_of_ne_zero c (by decide),
        ok_bind,
        word32_of_lt (by omega), ok_bind]
      rfl
  lane_lt r hr c hc := by
    rcases h with rfl | rfl <;> simp only [lanes] <;> omega
  register_lt r hr c hc := by rcases h with rfl | rfl <;> simp only <;> omega
  apart r hr c hc r' hr' c' hc' heq := by
    have hpos : 0 < pack := by omega
    have hdigits : ∀ r c,
        c % pack + pack * (r / 8 % 2) + 2 * pack * (c / (4 * pack)) =
        (c / (4 * pack) * 2 + r / 8 % 2) * pack + c % pack := by
      intro r c
      ring
    obtain ⟨hlane, hregister⟩ := Prod.mk.inj heq
    rw [hdigits, hdigits] at hregister
    obtain ⟨hrow, hrun⟩ :=
      eq_of_rowMajor_eq (run_lt hpos c) (run_lt hpos c') hlane
    obtain ⟨hhalves, hlow⟩ :=
      eq_of_rowMajor_eq (Nat.mod_lt c hpos) (Nat.mod_lt c' hpos) hregister
    obtain ⟨hhigh, hhalf⟩ :=
      eq_of_rowMajor_eq (Nat.mod_lt _ Nat.two_pos) (Nat.mod_lt _ Nat.two_pos)
        hhalves
    exact ⟨by omega, eq_of_runs hlow hrun hhigh⟩

theorem deals_mmaB (h : pack = 2 ∨ pack = 4) :
    (mmaB pack).Deals (8 * pack) 8 (2 * pack) fun r c =>
      (c * 4 + r % (4 * pack) / pack, r % pack + pack * (r / (4 * pack))) where
  rows_eq := by rcases h with rfl | rfl <;> rfl
  cols_eq := rfl
  locals_eq := by rcases h with rfl | rfl <;> rfl
  area := by rcases h with rfl | rfl <;> rfl
  slot r hr c hc := by
    rcases h with rfl | rfl
    all_goals
      simp only [slot]
      rw [word32_of_lt (by omega), ok_bind, word32_of_lt (by decide), ok_bind,
        mod_of_ne_zero r (by decide), ok_bind, word32_of_lt (by omega), ok_bind]
      rfl
  lane_lt r hr c hc := by
    rcases h with rfl | rfl <;> simp only [lanes] <;> omega
  register_lt r hr c hc := by rcases h with rfl | rfl <;> simp only <;> omega
  apart r hr c hc r' hr' c' hc' heq := by
    have hpos : 0 < pack := by omega
    obtain ⟨hlane, hregister⟩ := Prod.mk.inj heq
    rw [Nat.add_comm, Nat.mul_comm, Nat.add_comm (r' % pack), Nat.mul_comm pack]
      at hregister
    obtain ⟨hcol, hrun⟩ :=
      eq_of_rowMajor_eq (run_lt hpos r) (run_lt hpos r') hlane
    obtain ⟨hhigh, hlow⟩ :=
      eq_of_rowMajor_eq (Nat.mod_lt r hpos) (Nat.mod_lt r' hpos) hregister
    exact ⟨eq_of_runs hlow hrun hhigh, hcol⟩

theorem deals_mmaC :
    mmaC.Deals 16 8 4 fun r c =>
      (r % 8 * 4 + c % 8 / 2, c % 2 + 2 * (r / 8)) where
  rows_eq := rfl
  cols_eq := rfl
  locals_eq := rfl
  area := rfl
  slot r hr c hc := rfl
  lane_lt r hr c hc := by simp only [lanes]; omega
  register_lt r hr c hc := by simp only; omega
  apart r hr c hc r' hr' c' hc' heq := by
    simp only [Prod.mk.injEq] at heq; omega

theorem deals_mfmaA {m k : Nat} (h : (m = 16 ∧ k = 16) ∨ (m = 32 ∧ k = 8)) :
    (mfmaA m k).Deals m k 4 fun r c => (r + m * (c / 4), c % 4) where
  rows_eq := rfl
  cols_eq := rfl
  locals_eq := by rcases h with ⟨rfl, rfl⟩ | ⟨rfl, rfl⟩ <;> rfl
  area := by rcases h with ⟨rfl, rfl⟩ | ⟨rfl, rfl⟩ <;> rfl
  slot r hr c hc := by
    rcases h with ⟨rfl, rfl⟩ | ⟨rfl, rfl⟩
    all_goals
      simp only [slot]
      rw [word32_of_lt (by omega), ok_bind]
      rfl
  lane_lt r hr c hc := by
    rcases h with ⟨rfl, rfl⟩ | ⟨rfl, rfl⟩ <;> simp only [lanes] <;> omega
  register_lt r hr c hc := Nat.mod_lt c (by decide)
  apart r hr c hc r' hr' c' hc' heq := by
    rcases h with ⟨rfl, rfl⟩ | ⟨rfl, rfl⟩ <;>
      simp only [Prod.mk.injEq] at heq <;> omega

theorem deals_mfmaB {n k : Nat} (h : (n = 16 ∧ k = 16) ∨ (n = 32 ∧ k = 8)) :
    (mfmaB n k).Deals k n 4 fun r c => (c + n * (r / 4), r % 4) where
  rows_eq := rfl
  cols_eq := rfl
  locals_eq := by rcases h with ⟨rfl, rfl⟩ | ⟨rfl, rfl⟩ <;> rfl
  area := by rcases h with ⟨rfl, rfl⟩ | ⟨rfl, rfl⟩ <;> rfl
  slot r hr c hc := by
    rcases h with ⟨rfl, rfl⟩ | ⟨rfl, rfl⟩
    all_goals
      simp only [slot]
      rw [word32_of_lt (by omega), ok_bind]
      rfl
  lane_lt r hr c hc := by
    rcases h with ⟨rfl, rfl⟩ | ⟨rfl, rfl⟩ <;> simp only [lanes] <;> omega
  register_lt r hr c hc := Nat.mod_lt r (by decide)
  apart r hr c hc r' hr' c' hc' heq := by
    rcases h with ⟨rfl, rfl⟩ | ⟨rfl, rfl⟩ <;>
      simp only [Prod.mk.injEq] at heq <;> omega

theorem deals_mfmaC {n : Nat} (h : n = 16 ∨ n = 32) :
    (mfmaC n n).Deals n n (n * n / 64) fun r c =>
      (c + n * (r / 4 % (64 / n)), r / (4 * (64 / n)) * 4 + r % 4) where
  rows_eq := rfl
  cols_eq := rfl
  locals_eq := by rcases h with rfl | rfl <;> rfl
  area := by rcases h with rfl | rfl <;> rfl
  slot r hr c hc := by
    rcases h with rfl | rfl
    all_goals
      simp only [slot]
      rw [div_of_ne_zero 64 (by decide), ok_bind,
        mod_of_ne_zero (r / 4) (by decide), ok_bind, word32_of_lt (by omega),
        ok_bind]
      rfl
  lane_lt r hr c hc := by
    rcases h with rfl | rfl <;> simp only [lanes] <;> omega
  register_lt r hr c hc := by rcases h with rfl | rfl <;> simp only <;> omega
  apart r hr c hc r' hr' c' hc' heq := by
    rcases h with rfl | rfl <;> simp only [Prod.mk.injEq] at heq <;> omega

end Atom

namespace MatrixInstruction

variable {i : MatrixInstruction}

/-- The instructions that the atoms of their vendors express. -/
inductive Form (i : MatrixInstruction) : Prop where
  | nvidia (hvendor : i.vendor = .nvidia) (hpack : i.pack = 2 ∨ i.pack = 4)
      (hshape : i.shape = ⟨16, 8, 8 * i.pack⟩) (hlanes : i.lanes = 32)
  | amd (hvendor : i.vendor = .amd) (hshape : i.shape = ⟨16, 16, 16⟩ ∨
      i.shape = ⟨32, 32, 8⟩) (hlanes : i.lanes = 64)

theorem pack_of_bytes (h : ¬2 < i.a.bytes) :
    (i.pack = 2 ∨ i.pack = 4) ∧ 4 / i.a.bytes = i.pack := by
  unfold pack
  revert h
  cases i.a <;> decide

theorem form_of_violation? (h : i.violation? = none) : i.Form := by
  unfold violation? at h
  split at h
  · cases h
  split at h
  · rename_i hvendor
    dsimp only at h
    split at h
    · cases h
    rename_i hbytes
    split at h
    · cases h
    rename_i hshape
    split at h
    · cases h
    rename_i hlanes
    obtain ⟨hpack, hdepth⟩ := pack_of_bytes hbytes
    exact .nvidia hvendor hpack (hdepth ▸ not_not.mp hshape) (not_not.mp hlanes)
  · rename_i hvendor
    split at h
    · cases h
    split at h
    · cases h
    rename_i hshape
    split at h
    · cases h
    rename_i hlanes
    exact .amd hvendor (by tauto) (not_not.mp hlanes)

theorem exists_deals (h : i.violation? = none) (role : Role) :
    ∃ locals place,
      (i.atom role).Deals (i.shape.extents role).1 (i.shape.extents role).2
        locals place := by
  unfold atom GemmShape.extents
  cases form_of_violation? h with
  | nvidia hvendor hpack hshape _ =>
      rw [hvendor, hshape]
      cases role with
      | a => exact ⟨_, _, Atom.deals_mmaA hpack⟩
      | b => exact ⟨_, _, Atom.deals_mmaB hpack⟩
      | c => exact ⟨_, _, Atom.deals_mmaC⟩
  | amd hvendor hshape _ =>
      rw [hvendor]
      cases role with
      | a =>
          exact ⟨_, _,
            Atom.deals_mfmaA (by rcases hshape with hs | hs <;> simp [hs])⟩
      | b =>
          exact ⟨_, _,
            Atom.deals_mfmaB (by rcases hshape with hs | hs <;> simp [hs])⟩
      | c =>
          rcases hshape with hs | hs <;> rw [hs]
          · exact ⟨_, _, Atom.deals_mfmaC (Or.inl rfl)⟩
          · exact ⟨_, _, Atom.deals_mfmaC (Or.inr rfl)⟩

theorem lanes_atom (h : i.violation? = none) (role : Role) :
    (i.atom role).lanes = i.lanes := by
  unfold atom
  cases form_of_violation? h with
  | nvidia hvendor _ _ hlanes => rw [hvendor, hlanes]; cases role <;> rfl
  | amd hvendor _ hlanes => rw [hvendor, hlanes]; cases role <;> rfl

theorem lanes_pos (h : i.violation? = none) : 0 < i.lanes := by
  cases form_of_violation? h <;> omega

theorem depth_lt (h : i.violation? = none) : i.shape.k < limit32 := by
  cases form_of_violation? h with
  | nvidia _ hpack hshape _ =>
      rcases hpack with hp | hp <;> rw [hshape, hp] <;> decide
  | amd _ hshape _ => rcases hshape with hs | hs <;> rw [hs] <;> decide

end MatrixInstruction

/-! ## Operands -/

/-- Whole turns of the warps make up `rows` by `cols` elements, and the sides of
a turn are words. -/
structure WarpGrid.Covers
    (warps : WarpGrid) (atomRows atomCols rows cols : Nat) : Prop where
  rows_dvd : atomRows * warps.rows ∣ rows
  cols_dvd : atomCols * warps.cols ∣ cols
  rows_pos : 0 < atomRows * warps.rows
  cols_pos : 0 < atomCols * warps.cols
  rows_lt : atomRows * warps.rows < limit32
  cols_lt : atomCols * warps.cols < limit32

namespace RegisterLayout

/-- Threads of a layout over `rows` and `cols`, registers of each of them, and
where the elements are kept. -/
structure Places
    (f : RegisterLayout) (rows cols threads locals : Nat)
    (place : Nat → Nat → Nat × Nat) : Prop where
  threads_settles : Settles .overflow (fun n => n = threads) f.threads
  locals_settles :
    Settles .overflow (fun n => n = locals) (f.localsPerThread (rows * cols))
  slot_settles : ∀ r < rows, ∀ c < cols,
    Settles .overflow (fun s => s = place r c) (f.slot rows cols r c)
  lt : ∀ r < rows, ∀ c < cols, (place r c).1 < threads ∧ (place r c).2 < locals
  apart : ∀ r < rows, ∀ c < cols, ∀ r' < rows, ∀ c' < cols,
    place r c = place r' c' → r = r' ∧ c = c'

theorem Places.transpose
    {atom : Atom} {warps : WarpGrid} {locals : Nat}
    {place : Nat → Nat → Nat × Nat}
    (h : (operand atom warps replicas false).Places
      rows cols threads locals place) :
    (operand atom warps replicas true).Places
      cols rows threads locals fun r c => place c r where
  threads_settles := h.threads_settles
  locals_settles := Nat.mul_comm rows cols ▸ h.locals_settles
  slot_settles r hr c hc := h.slot_settles c hc r hr
  lt r hr c hc := h.lt c hc r hr
  apart r hr c hc r' hr' c' hc' heq :=
    (h.apart c hc r hr c' hc' r' hr' heq).symm

theorem axis_lt {atom warps turns : Nat} (h : r < atom * warps * turns) :
    r / atom / turns < warps ∧ r / atom % turns < turns ∧ r % atom < atom := by
  have hpos : 0 < atom * warps * turns := Nat.zero_lt_of_lt h
  have hturns : 0 < turns := Nat.pos_of_mul_pos_left hpos
  have hatom : 0 < atom :=
    Nat.pos_of_mul_pos_right (Nat.pos_of_mul_pos_right hpos)
  have hblock : r / atom < turns * warps :=
    Nat.div_lt_of_lt_mul (by rwa [Nat.mul_comm turns, ← Nat.mul_assoc])
  exact ⟨Nat.div_lt_of_lt_mul hblock, Nat.mod_lt _ hturns, Nat.mod_lt _ hatom⟩

theorem axis_inj
    {atom turns r' : Nat} (hwarp : r / atom / turns = r' / atom / turns)
    (hturn : r / atom % turns = r' / atom % turns)
    (hinner : r % atom = r' % atom) : r = r' := by
  have hblock : r / atom = r' / atom := by
    rw [← Nat.div_add_mod (r / atom) turns, hwarp, hturn, Nat.div_add_mod]
  rw [← Nat.div_add_mod r atom, hblock, hinner, Nat.div_add_mod]

/-- Thread and register of an element when `turnRows` by `turnCols` atoms fall
to each warp, and the warps stand in rows of `warpCols`. -/
def spread
    (atomRows atomCols lanes locals turnRows turnCols warpCols : Nat)
    (place : Nat → Nat → Nat × Nat) (r c : Nat) : Nat × Nat :=
  ((r / atomRows / turnRows * warpCols + c / atomCols / turnCols) * lanes +
      (place (r % atomRows) (c % atomCols)).1,
    (r / atomRows % turnRows * turnCols + c / atomCols % turnCols) * locals +
      (place (r % atomRows) (c % atomCols)).2)

section

variable {atom : Atom} {atomRows atomCols locals : Nat}
  {place : Nat → Nat → Nat × Nat} {turnRows turnCols : Nat} {warps : WarpGrid}

theorem spread_lt
    (h : atom.Deals atomRows atomCols locals place)
    (hr : r < atomRows * warps.rows * turnRows)
    (hc : c < atomCols * warps.cols * turnCols) :
    (spread atomRows atomCols atom.lanes locals turnRows turnCols warps.cols
        place r c).1 < warps.rows * warps.cols * atom.lanes ∧
      (spread atomRows atomCols atom.lanes locals turnRows turnCols warps.cols
        place r c).2 < turnRows * turnCols * locals := by
  obtain ⟨hrow, hrowTurn, hrowIn⟩ := axis_lt hr
  obtain ⟨hcol, hcolTurn, hcolIn⟩ := axis_lt hc
  constructor
  · exact rowMajor_lt (rowMajor_lt hrow hcol) (h.lane_lt _ hrowIn _ hcolIn)
  · exact rowMajor_lt (rowMajor_lt hrowTurn hcolTurn)
      (h.register_lt _ hrowIn _ hcolIn)

theorem spread_inj
    (h : atom.Deals atomRows atomCols locals place) {r' c' : Nat}
    (hr : r < atomRows * warps.rows * turnRows)
    (hc : c < atomCols * warps.cols * turnCols)
    (hr' : r' < atomRows * warps.rows * turnRows)
    (hc' : c' < atomCols * warps.cols * turnCols)
    (heq : spread atomRows atomCols atom.lanes locals turnRows turnCols
      warps.cols place r c = spread atomRows atomCols atom.lanes locals turnRows
      turnCols warps.cols place r' c') : r = r' ∧ c = c' := by
  obtain ⟨-, -, hrowIn⟩ := axis_lt hr
  obtain ⟨hcol, hcolTurn, hcolIn⟩ := axis_lt hc
  obtain ⟨-, -, hrowIn'⟩ := axis_lt hr'
  obtain ⟨hcol', hcolTurn', hcolIn'⟩ := axis_lt hc'
  -- thread and register are numbers in mixed radix: read off their digits
  obtain ⟨hthread, hregister⟩ := Prod.mk.inj heq
  obtain ⟨hwarp, hlane⟩ := eq_of_rowMajor_eq (h.lane_lt _ hrowIn _ hcolIn)
    (h.lane_lt _ hrowIn' _ hcolIn') hthread
  obtain ⟨hturn, hlocal⟩ := eq_of_rowMajor_eq (h.register_lt _ hrowIn _ hcolIn)
    (h.register_lt _ hrowIn' _ hcolIn') hregister
  obtain ⟨hwarpRow, hwarpCol⟩ := eq_of_rowMajor_eq hcol hcol' hwarp
  obtain ⟨hturnRow, hturnCol⟩ := eq_of_rowMajor_eq hcolTurn hcolTurn' hturn
  obtain ⟨hinnerRow, hinnerCol⟩ :=
    h.apart _ hrowIn _ hcolIn _ hrowIn' _ hcolIn' (Prod.ext hlane hlocal)
  exact ⟨axis_inj hwarpRow hturnRow hinnerRow,
    axis_inj hwarpCol hturnCol hinnerCol⟩

/-- Where an element is kept, unless a size or number on the way is no word. -/
theorem slot_operand
    (h : atom.Deals atomRows atomCols locals place) (replicas : Nat)
    (hr : r < atomRows * warps.rows * turnRows)
    (hc : c < atomCols * warps.cols * turnCols) {s : Nat × Nat}
    (hs : spread atomRows atomCols atom.lanes locals turnRows turnCols
      warps.cols place r c = s) :
    (operand atom warps replicas false).slot (atomRows * warps.rows * turnRows)
        (atomCols * warps.cols * turnCols) r c =
      if (atomRows * warps.rows < limit32 ∧ atomCols * warps.cols < limit32 ∧
          s.1 < limit32) ∧ s.2 < limit32 then .ok s
      else .error .overflow := by
  obtain ⟨thread, register⟩ := s
  obtain ⟨hthread, hregister⟩ := Prod.mk.inj hs
  have hrowPos : 0 < atomRows * warps.rows * turnRows := Nat.zero_lt_of_lt hr
  have hcolPos : 0 < atomCols * warps.cols * turnCols := Nat.zero_lt_of_lt hc
  have hblockRows : 0 < atomRows * warps.rows :=
    Nat.pos_of_mul_pos_right hrowPos
  have hblockCols : 0 < atomCols * warps.cols :=
    Nat.pos_of_mul_pos_right hcolPos
  have hturnRows : max 1 turnRows = turnRows :=
    Nat.max_eq_right (Nat.pos_of_mul_pos_left hrowPos)
  have hturnCols : max 1 turnCols = turnCols :=
    Nat.max_eq_right (Nat.pos_of_mul_pos_left hcolPos)
  obtain ⟨-, -, hrowIn⟩ := axis_lt hr
  obtain ⟨-, -, hcolIn⟩ := axis_lt hc
  simp only [slot, Bool.false_eq_true, if_false, h.rows_eq, h.cols_eq,
    h.locals_eq, ok_bind, word32_bind, div_of_ne_zero _ hblockRows.ne',
    div_of_ne_zero _ hblockCols.ne', Nat.mul_div_cancel_left _ hblockRows,
    Nat.mul_div_cancel_left _ hblockCols, hturnRows, hturnCols,
    h.slot _ hrowIn _ hcolIn, hthread, hregister]
  -- the number of a warp or of a turn is at most that of the thread or register
  -- made from it
  have hwarp := Nat.le_mul_of_pos_right
    (r / atomRows / turnRows * warps.cols + c / atomCols / turnCols)
    (Nat.zero_lt_of_lt (h.lane_lt _ hrowIn _ hcolIn))
  have hturn := Nat.le_mul_of_pos_right
    (r / atomRows % turnRows * turnCols + c / atomCols % turnCols)
    (Nat.zero_lt_of_lt (h.register_lt _ hrowIn _ hcolIn))
  split_ifs <;> first | rfl | omega

theorem slot_operand_settles
    (h : atom.Deals atomRows atomCols locals place) (replicas : Nat)
    (hr : r < atomRows * warps.rows * turnRows)
    (hc : c < atomCols * warps.cols * turnCols) :
    Settles .overflow
      (fun s => s = spread atomRows atomCols atom.lanes locals turnRows turnCols
        warps.cols place r c)
      ((operand atom warps replicas false).slot (atomRows * warps.rows *
        turnRows) (atomCols * warps.cols * turnCols) r c) := by
  rw [slot_operand h replicas hr hc rfl]
  split
  · exact Settles.ok rfl
  · exact Or.inl rfl

theorem covers_of_fits
    (hrows : atom.rows = .ok atomRows) (hcols : atom.cols = .ok atomCols)
    (hfits : (operand atom warps replicas false).fits rows cols = .ok true) :
    warps.Covers atomRows atomCols rows cols := by
  simp only [fits, Bool.false_eq_true, if_false] at hfits
  rw [hrows, ok_bind] at hfits
  obtain ⟨blockRows, hblockRows, hfits⟩ := bind_eq_ok hfits
  obtain ⟨rowsLeft, hrowsLeft, hfits⟩ := bind_eq_ok hfits
  obtain ⟨hrowsLt, rfl⟩ := word32_eq_ok hblockRows
  obtain ⟨hrowsNe, rfl⟩ := mod_eq_ok hrowsLeft
  split at hfits
  · rename_i hrowsDvd
    rw [hcols, ok_bind] at hfits
    obtain ⟨blockCols, hblockCols, hfits⟩ := bind_eq_ok hfits
    obtain ⟨colsLeft, hcolsLeft, hfits⟩ := bind_eq_ok hfits
    obtain ⟨hcolsLt, rfl⟩ := word32_eq_ok hblockCols
    obtain ⟨hcolsNe, rfl⟩ := mod_eq_ok hcolsLeft
    simp only [pure, Except.pure, Except.ok.injEq, beq_iff_eq] at hfits
    exact ⟨Nat.dvd_of_mod_eq_zero hrowsDvd, Nat.dvd_of_mod_eq_zero hfits,
      Nat.pos_of_ne_zero hrowsNe, Nat.pos_of_ne_zero hcolsNe, hrowsLt, hcolsLt⟩
  · cases hfits

theorem fits_of_covers
    (hrows : atom.rows = .ok atomRows) (hcols : atom.cols = .ok atomCols)
    (h : warps.Covers atomRows atomCols rows cols) (replicas : Nat) :
    (operand atom warps replicas false).fits rows cols = .ok true := by
  simp only [fits, Bool.false_eq_true, if_false, hrows, hcols, ok_bind,
    word32_of_lt h.rows_lt, word32_of_lt h.cols_lt,
    mod_of_ne_zero _ h.rows_pos.ne', mod_of_ne_zero _ h.cols_pos.ne',
    Nat.mod_eq_zero_of_dvd h.rows_dvd, Nat.mod_eq_zero_of_dvd h.cols_dvd,
    if_true]
  rfl

theorem exists_turns_of_fits
    (h : atom.Deals atomRows atomCols locals place)
    (hfits : (operand atom warps replicas false).fits rows cols = .ok true) :
    ∃ turnRows turnCols, rows = atomRows * warps.rows * turnRows ∧
      cols = atomCols * warps.cols * turnCols := by
  have hcovers := covers_of_fits h.rows_eq h.cols_eq hfits
  obtain ⟨⟨turnRows, hrows⟩, turnCols, hcols⟩ :=
    And.intro hcovers.rows_dvd hcovers.cols_dvd
  exact ⟨turnRows, turnCols, hrows, hcols⟩

theorem area_operand (h : atom.Deals atomRows atomCols locals place) :
    atomRows * warps.rows * turnRows * (atomCols * warps.cols * turnCols) =
      warps.rows * warps.cols * atom.lanes * (turnRows * turnCols * locals) :=
  calc atomRows * warps.rows * turnRows * (atomCols * warps.cols * turnCols)
    _ = atomRows * atomCols *
        (warps.rows * warps.cols * (turnRows * turnCols)) := by
      ring
    _ = atom.lanes * locals *
        (warps.rows * warps.cols * (turnRows * turnCols)) := by
      rw [h.area]
    _ = warps.rows * warps.cols * atom.lanes *
        (turnRows * turnCols * locals) := by
      ring

theorem localsPerThread_operand
    (h : atom.Deals atomRows atomCols locals place) (replicas : Nat)
    (hthreads : 0 < warps.rows * warps.cols * atom.lanes) :
    (operand atom warps replicas false).localsPerThread
        (atomRows * warps.rows * turnRows *
          (atomCols * warps.cols * turnCols)) =
      if warps.rows * warps.cols * atom.lanes < limit32 then
        .ok (turnRows * turnCols * locals)
      else .error .overflow := by
  unfold localsPerThread threads
  rw [word32_bind, area_operand h]
  simp only [Nat.max_eq_right hthreads]
  rw [ceilDiv_of_ne_zero _ hthreads.ne']
  generalize warps.rows * warps.cols * atom.lanes = threads at hthreads
  rw [Nat.add_sub_assoc hthreads, Nat.mul_add_div hthreads,
    Nat.div_eq_of_lt (by omega), Nat.add_zero]

theorem exists_places_operand
    (h : atom.Deals atomRows atomCols locals place) (hpos : 0 < rows * cols)
    (hfits : (operand atom warps replicas false).fits rows cols = .ok true) :
    ∃ threads locals place,
      (operand atom warps replicas false).Places rows cols threads locals
        place := by
  obtain ⟨turnRows, turnCols, rfl, rfl⟩ := exists_turns_of_fits h hfits
  have hthreads : 0 < warps.rows * warps.cols * atom.lanes :=
    Nat.pos_of_mul_pos_right (area_operand h ▸ hpos)
  refine ⟨warps.rows * warps.cols * atom.lanes, turnRows * turnCols * locals,
    spread atomRows atomCols atom.lanes locals turnRows turnCols warps.cols
    place, word32_settles _, ?_, ?_, ?_, ?_⟩
  · rw [localsPerThread_operand h replicas hthreads]
    split
    · exact Settles.ok rfl
    · exact Or.inl rfl
  · intro r hr c hc
    exact slot_operand_settles h replicas hr hc
  · intro r hr c hc
    exact spread_lt h hr hc
  · intro r hr c hc r' hr' c' hc' heq
    exact spread_inj h hr hc hr' hc' heq

/-- A tile of no more elements than a word counts has all its slots. -/
theorem returns_slot_operand
    (h : atom.Deals atomRows atomCols locals place)
    (hfits : (operand atom warps replicas false).fits rows cols = .ok true)
    (hnumel : rows * cols ≤ limit32) (hr : r < rows) (hc : c < cols) :
    Returns ((operand atom warps replicas false).slot rows cols r c) := by
  have hcovers := covers_of_fits h.rows_eq h.cols_eq hfits
  obtain ⟨turnRows, turnCols, rfl, rfl⟩ := exists_turns_of_fits h hfits
  obtain ⟨hthread, hregister⟩ := spread_lt h hr hc
  rw [area_operand h] at hnumel
  have hthreads := Nat.le_mul_of_pos_right
    (warps.rows * warps.cols * atom.lanes) (Nat.zero_lt_of_lt hregister)
  have hlocals := Nat.le_mul_of_pos_left (turnRows * turnCols * locals)
    (Nat.zero_lt_of_lt hthread)
  rw [slot_operand h replicas hr hc rfl,
    if_pos ⟨⟨hcovers.rows_lt, hcovers.cols_lt, by omega⟩, by omega⟩]
  exact Returns.ok _

end

/-! ## Stripes -/

theorem places_striped (hthreads : 0 < threads) (hvector : 0 < vector) :
    (striped threads vector).Places rows cols threads
      ((rows * cols + threads * vector - 1) / (threads * vector) * vector)
        fun r c =>
        ((r * cols + c) / vector % threads,
          (r * cols + c) / vector / threads * vector +
            (r * cols + c) % vector) where
  threads_settles := Settles.ok rfl
  locals_settles := by
    have hround : threads * vector ≠ 0 := (Nat.mul_pos hthreads hvector).ne'
    simp only [localsPerThread, RegisterLayout.threads]
    rw [ok_bind, Nat.max_eq_right hthreads, ceilDiv_of_ne_zero _ hround,
      ok_bind]
    exact word64_settles _
  slot_settles r hr c hc := by
    apply (word32_settles _).bind
    rintro _ rfl
    rw [div_of_ne_zero _ hvector.ne', ok_bind, mod_of_ne_zero _ hthreads.ne',
      ok_bind]
    exact Settles.ok rfl
  lt r hr c hc := by
    have he : r * cols + c < rows * cols := rowMajor_lt hr hc
    have hround : 0 < threads * vector := Nat.mul_pos hthreads hvector
    refine ⟨Nat.mod_lt _ hthreads, rowMajor_lt ?_ (Nat.mod_lt _ hvector)⟩
    rw [Nat.div_div_eq_div_mul, Nat.mul_comm vector,
      Nat.div_lt_iff_lt_mul hround]
    have hsplit :=
      Nat.div_add_mod' (rows * cols + threads * vector - 1) (threads * vector)
    have hrest := Nat.mod_lt (rows * cols + threads * vector - 1) hround
    omega
  apart r hr c hc r' hr' c' hc' heq := by
    obtain ⟨hthread, hregister⟩ := Prod.mk.inj heq
    obtain ⟨hround, hinner⟩ :=
      eq_of_rowMajor_eq (Nat.mod_lt _ hvector) (Nat.mod_lt _ hvector) hregister
    exact eq_of_rowMajor_eq hc hc' (axis_inj hround hthread hinner)

end RegisterLayout

/-! ## Layouts of tiles -/

namespace Layout

variable {shape : Shape} {f : RegisterLayout}

theorem spreads_of_places
    {locals : Nat} {place : Nat → Nat → Nat × Nat}
    (h : f.Places shape.dropLast.prod shape.cols threads locals place) :
    Spreads ⟨shape, .fragment f⟩ := by
  have hlocals := h.locals_settles
  rw [← Shape.prod_eq_dropLast_mul_cols] at hlocals
  apply spreads_of_slots fun r c => .register (place r c).1 (place r c).2
  · have hfootprint : Settles .overflow (fun _ => True)
        (footprint ⟨shape, .fragment f⟩) := by
      apply h.threads_settles.bind
      rintro _ rfl
      apply shape.numel_settles.bind
      rintro _ rfl
      apply hlocals.bind
      rintro _ rfl
      exact (word64_settles _).mono fun _ _ => trivial
    apply hfootprint.bind
    intro n _
    apply h.threads_settles.bind
    rintro _ rfl
    apply shape.numel_settles.bind
    rintro _ rfl
    apply hlocals.bind
    rintro _ rfl
    apply Settles.ok
    intro r hr c hc
    simp [h.lt r hr c hc]
  · intro r hr c hc
    simp only [slotAt]
    apply shape.rows_settles.bind
    rintro _ rfl
    apply (h.slot_settles r hr c hc).bind
    rintro _ rfl
    exact Settles.ok rfl
  · intro r hr c hc r' hr' c' hc' heq
    obtain ⟨hthread, hregister⟩ := Slot.register.inj heq
    exact h.apart r hr c hc r' hr' c' hc' (Prod.ext hthread hregister)

theorem fits_of_isWellFormed
    (h : isWellFormed ⟨shape, .fragment f⟩ = .ok true) :
    0 < shape.prod ∧ f.fits shape.dropLast.prod shape.cols = .ok true ∧
      shape.rows = .ok shape.dropLast.prod := by
  unfold isWellFormed at h
  split at h
  · cases h
  · rename_i hdegenerate
    obtain ⟨rows, hrows, h⟩ := bind_eq_ok h
    obtain rfl := shape.rows_settles.of_eq_ok hrows
    refine ⟨?_, h, hrows⟩
    apply Nat.pos_of_ne_zero
    intro hzero
    apply hdegenerate
    simp [Shape.isDegenerate, List.prod_eq_zero_iff.mp hzero]

theorem spreads_operand
    {atom : Atom} {locals : Nat} {place : Nat → Nat → Nat × Nat}
    (hdeals : atom.Deals rows cols locals place) {warps : WarpGrid}
    {transposed : Bool}
    (h : isWellFormed
      ⟨shape, .fragment (.operand atom warps replicas transposed)⟩ = .ok true) :
    Spreads ⟨shape, .fragment (.operand atom warps replicas transposed)⟩ := by
  obtain ⟨hpos, hfits, -⟩ := fits_of_isWellFormed h
  rw [Shape.prod_eq_dropLast_mul_cols] at hpos
  cases transposed with
  | false =>
      obtain ⟨_, _, _, hplaces⟩ :=
        RegisterLayout.exists_places_operand hdeals hpos hfits
      exact spreads_of_places hplaces
  | true =>
      rw [Nat.mul_comm] at hpos
      obtain ⟨_, _, _, hplaces⟩ :=
        RegisterLayout.exists_places_operand hdeals hpos hfits
      exact spreads_of_places hplaces.transpose

theorem returns_slotAt_operand
    {atom : Atom} {locals : Nat} {place : Nat → Nat → Nat × Nat}
    (hdeals : atom.Deals rows cols locals place) {warps : WarpGrid}
    {transposed : Bool}
    (h : isWellFormed
      ⟨shape, .fragment (.operand atom warps replicas transposed)⟩ = .ok true)
    (hnumel : shape.prod ≤ limit32) (hr : r < shape.dropLast.prod)
    (hc : c < shape.cols) :
    Returns (slotAt
      ⟨shape, .fragment (.operand atom warps replicas transposed)⟩ r c) := by
  obtain ⟨-, hfits, hrows⟩ := fits_of_isWellFormed h
  rw [Shape.prod_eq_dropLast_mul_cols] at hnumel
  have hslot : Returns ((RegisterLayout.operand atom warps replicas
      transposed).slot shape.dropLast.prod shape.cols r c) := by
    cases transposed with
    | false =>
        exact RegisterLayout.returns_slot_operand hdeals hfits hnumel hr hc
    | true =>
        have hturned : (RegisterLayout.operand atom warps replicas false).fits
            shape.cols shape.dropLast.prod = .ok true := hfits
        rw [Nat.mul_comm] at hnumel
        exact RegisterLayout.returns_slot_operand hdeals hturned hnumel hc hr
  simp only [slotAt]
  rw [hrows, ok_bind]
  exact hslot.bind fun _ _ => Returns.ok _

theorem striped_of_isWellFormed
    (h : isWellFormed ⟨shape, .fragment (.striped threads vector)⟩ = .ok true) :
    0 < threads ∧ 0 < vector ∧ vector ∣ shape.cols := by
  obtain ⟨-, hfits, -⟩ := fits_of_isWellFormed h
  simp only [RegisterLayout.fits, Except.ok.injEq, Bool.and_eq_true,
    decide_eq_true_eq, beq_iff_eq] at hfits
  exact ⟨hfits.1.1, hfits.1.2, Nat.dvd_of_mod_eq_zero hfits.2⟩

theorem spreads_striped
    (h : isWellFormed ⟨shape, .fragment (.striped threads vector)⟩ = .ok true) :
    Spreads ⟨shape, .fragment (.striped threads vector)⟩ := by
  obtain ⟨hthreads, hvector, -⟩ := striped_of_isWellFormed h
  exact spreads_of_places (RegisterLayout.places_striped hthreads hvector)

end Layout

end TileProgram
