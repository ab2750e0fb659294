import Mathlib.Data.Finset.Card
import Mathlib.Data.Finset.Prod
import TileProgram.Proofs.LaunchOrder
import TileProgram.Proofs.Lists

/-!
# The order in which blocks start

A launch starts every block of the grid once.  With rasterization the columns of
a plane are cut into panels, and the blocks start panel by panel, row by row,
down one panel and up the next.
-/

namespace TileProgram

open List

namespace LaunchOrder

/-- Blocks in some columns and rows, one whole row after another. -/
def rowByRow (columns rows : List Nat) : List (Nat × Nat) :=
  rows.flatMap fun y => columns.map fun x => (x, y)

/-- Blocks of a plane panel by panel; every second panel is walked from its last
row. -/
def serpentine (gx gy panel : Nat) : List (Nat × Nat) :=
  (panels gx panel).zipIdx.flatMap fun (columns, i) =>
    rowByRow columns (if i % 2 = 1 then (range gy).reverse else range gy)

/-! ## Panels -/

theorem panelWidth_eq_min
    {columns panel : Nat} (hpanel : 0 < panel) {index : Nat}
    (hindex : index * panel < columns) :
    panelWidth columns panel index = min panel (columns - index * panel) := by
  unfold panelWidth
  by_cases hfull : index < columns / panel
  · have hend : (index + 1) * panel ≤ columns :=
      (Nat.le_div_iff_mul_le hpanel).mp hfull
    rw [Nat.add_mul, Nat.one_mul] at hend
    rw [if_pos hfull]
    omega
  · have hle : index ≤ columns / panel :=
      (Nat.le_div_iff_mul_le hpanel).mpr hindex.le
    have hlast : index = columns / panel := by omega
    have hmod := Nat.mod_lt columns hpanel
    have hsplit := Nat.div_add_mod' columns panel
    rw [if_neg hfull, hlast]
    omega

theorem serpentine_eq (gx gy panel : Nat) :
    serpentine gx gy panel = (range ((gx + panel - 1) / panel)).flatMap fun i =>
      rowByRow (range' (i * panel) (min panel (gx - i * panel)))
        (if i % 2 = 1 then (range gy).reverse else range gy) := by
  have hindexed : (panels gx panel).zipIdx =
      (range ((gx + panel - 1) / panel)).map fun i =>
      (range' (i * panel) (min panel (gx - i * panel)), i) := by
    apply ext_getElem <;> simp [panels]
  unfold serpentine
  rw [hindexed, flatMap_map]

theorem map_panel
    {gx gy panel i : Nat} {g : Nat → Nat × Nat}
    (hg : ∀ row < gy, ∀ offset < min panel (gx - i * panel),
      g (i * (panel * gy) + (row * min panel (gx - i * panel) + offset)) =
      (i * panel + offset, if i % 2 = 1 then gy - 1 - row else row)) :
    ((range (gy * min panel (gx - i * panel))).map fun j =>
      g (i * (panel * gy) + j)) =
      rowByRow (range' (i * panel) (min panel (gx - i * panel)))
        (if i % 2 = 1 then (range gy).reverse else range gy) := by
  have hrows : (if i % 2 = 1 then (range gy).reverse else range gy) =
      (range gy).map fun row => if i % 2 = 1 then gy - 1 - row else row := by
    split
    · rw [range_eq_range', reverse_range', Nat.zero_add, ← range_eq_range']
    · rw [map_id']
  unfold rowByRow
  rw [map_range_mul, hrows, flatMap_map, range'_eq_map_range]
  apply flatMap_congr
  intro row hrow
  rw [List.map_map]
  apply map_congr_left
  intro offset hoffset
  exact hg row (mem_range.mp hrow) offset (mem_range.mp hoffset)

theorem mapM_inPanels
    {gx gy panelSize : Nat} (hgx : gx < limit32) (hgy : gy < limit32)
    (hsize : 0 < panelSize) :
    ((range (gx * gy)).mapM fun n => inPanels n gx gy panelSize) =
      .ok (serpentine gx gy (min panelSize gx)) := by
  rcases Nat.eq_zero_or_pos gx with rfl | hpos
  · simp [serpentine, panels]
    rfl
  generalize hpanel : min panelSize gx = panel
  let g (n : Nat) : Nat × Nat :=
    (inPanels n gx gy panelSize).toOption.getD (0, 0)
  have hfound : ∀ n ∈ range (gx * gy),
      inPanels n gx gy panelSize = .ok (g n) := by
    intro n hn
    obtain ⟨x, y, hblock, _⟩ := inPanels_mem hgx hgy panelSize (mem_range.mp hn)
    simp [g, hblock, Except.toOption]
  have hpos' : 0 < panel := by omega
  rw [mapM_eq_ok_map hfound, map_range_panels hpos' g gy, serpentine_eq]
  congr 1
  apply flatMap_congr
  intro i hi
  apply map_panel
  intro row hrow offset hoffset
  have hstart := (lt_panels_iff (by omega) i).mp (mem_range.mp hi)
  have hwidth := panelWidth_eq_min (by omega) hstart
  rw [← hwidth] at hoffset ⊢
  have hindex : i ≤ gx / panel :=
    (Nat.le_div_iff_mul_le (by omega)).mpr hstart.le
  have hclamped : panel = min gx (max 1 panelSize) := by omega
  have hblock := inPanels_eq_ok hclamped hindex hoffset hrow hgx hgy
  simp [g, hblock, Except.toOption]

/-! ## Planes -/

def panelling? (k : Kernel) : Option Rasterization :=
  k.rasterization.filter fun r => r.enable && 0 < r.panelSize

def planeOrder (k : Kernel) : List (Nat × Nat) :=
  match panelling? k with
  | some r => serpentine k.grid.x k.grid.y (min r.panelSize k.grid.x)
  | none => rowByRow (range k.grid.x) (range k.grid.y)

def order (k : Kernel) : List Dim3 :=
  (range k.grid.z).flatMap fun z => (planeOrder k).map fun (x, y) => ⟨x, y, z⟩

/-- Column and row of the block that starts as number `linear` of its plane. -/
def place (k : Kernel) (linear : Nat) : Checked (Nat × Nat) :=
  match panelling? k with
  | some r => inPanels linear k.grid.x k.grid.y r.panelSize
  | none => .ok (linear % k.grid.x, linear / k.grid.x)

theorem block_eq_map_place (k : Kernel) (n : Nat) :
    block k n = (place k (n % plane k)).map fun (x, y) =>
      ⟨x, y, n / plane k⟩ := by
  unfold block place panelling?
  cases k.rasterization with
  | none => rfl
  | some r =>
      by_cases h : (r.enable && decide (0 < r.panelSize)) = true
      · simp only [Option.filter_some, if_pos h]
        exact bind_pure_eq_map _ _
      · simp only [Option.filter_some, if_neg h]
        rfl

theorem panelSize_pos
    {k : Kernel} {r : Rasterization} (h : panelling? k = some r) :
    0 < r.panelSize := by
  have hfilter := (Option.filter_eq_some_iff.mp h).2
  rw [Bool.and_eq_true, decide_eq_true_eq] at hfilter
  exact hfilter.2

section

variable {k : Kernel} (hgx : k.grid.x < limit32) (hgy : k.grid.y < limit32)

include hgx hgy

theorem mapM_place : (range (plane k)).mapM (place k) = .ok (planeOrder k) := by
  unfold place planeOrder
  cases hpanels : panelling? k with
  | some r => exact mapM_inPanels hgx hgy (panelSize_pos hpanels)
  | none =>
      have hrows : ∀ n ∈ range (plane k),
          (Except.ok (n % k.grid.x, n / k.grid.x) :
          Checked (Nat × Nat)) =
          .ok ((fun n => (n % k.grid.x, n / k.grid.x)) n) := by
        intro n _
        rfl
      rw [mapM_eq_ok_map hrows, plane, Nat.mul_comm, map_range_mul]
      unfold rowByRow
      congr 1
      apply flatMap_congr
      intro y _
      apply map_congr_left
      intro x hx
      have hx := mem_range.mp hx
      rw [Nat.mul_comm, Nat.mul_add_mod, Nat.mod_eq_of_lt hx,
        Nat.mul_add_div (by omega), Nat.div_eq_of_lt hx, Nat.add_zero]

theorem mapM_block :
    (range (plane k * k.grid.z)).mapM (block k) = .ok (order k) := by
  let b (n : Nat) : Dim3 := (block k n).toOption.getD ⟨0, 0, 0⟩
  have hfound : ∀ n ∈ range (plane k * k.grid.z), block k n = .ok (b n) := by
    intro n hn
    obtain ⟨x, y, hblock, _⟩ := block_eq_ok hgx hgy (mem_range.mp hn)
    simp [b, hblock, Except.toOption]
  rw [mapM_eq_ok_map hfound, Nat.mul_comm, map_range_mul]
  congr 1
  apply flatMap_congr
  intro z hz
  -- the numbers of plane `z` are those of a plane after `z` planes
  have hplane : ((range (plane k)).map (z * plane k + ·)).mapM (block k) =
      .ok ((planeOrder k).map fun (x, y) => ⟨x, y, z⟩) := by
    rw [mapM_map_eq_map (f := place k) (h := fun (x, y) => ⟨x, y, z⟩),
      mapM_place hgx hgy]
    · rfl
    · intro linear hlinear
      have hlinear := mem_range.mp hlinear
      rw [block_eq_map_place, Nat.mul_comm, Nat.mul_add_mod,
        Nat.mod_eq_of_lt hlinear, Nat.mul_add_div (by omega),
        Nat.div_eq_of_lt hlinear, Nat.add_zero]
  have hmap := eq_map_of_mapM_eq_ok (g := b)
    (fun n _ c hc => by simp [b, hc, Except.toOption]) hplane
  rw [hmap, List.map_map]
  rfl

theorem first_eq_ok (count : Nat) :
    first k count = .ok ((order k).take count) := by
  unfold first upTo
  rw [Counted.mapM_eq_mapM, ← range_eq_range', ← take_range]
  exact mapM_eq_ok_iff_forall₂.mpr
    (forall₂_take count (mapM_eq_ok_iff_forall₂.mp (mapM_block hgx hgy)))

theorem length_order : (order k).length = plane k * k.grid.z := by
  rw [← (mapM_eq_ok_iff_forall₂.mp (mapM_block hgx hgy)).length_eq,
    length_range]

theorem mem_order_iff (b : Dim3) :
    b ∈ order k ↔ b.x < k.grid.x ∧ b.y < k.grid.y ∧ b.z < k.grid.z := by
  constructor
  · intro hb
    obtain ⟨n, hn, hblock⟩ := exists_of_mem_mapM (mapM_block hgx hgy) hb
    have hn := mem_range.mp hn
    obtain ⟨x, y, hfound, hx, hy⟩ := block_eq_ok hgx hgy hn
    cases hfound.symm.trans hblock
    exact ⟨hx, hy, Nat.div_lt_of_lt_mul hn⟩
  · rintro ⟨hx, hy, hz⟩
    obtain ⟨n, hn, hblock⟩ := exists_block hgx hgy hx hy hz
    obtain ⟨b', hb', hfound⟩ :=
      exists_of_mapM_eq_ok (mapM_block hgx hgy) (mem_range.mpr hn)
    cases hblock.symm.trans hfound
    exact hb'

/-- As many starts as blocks, and every block starts: none starts twice. -/
theorem nodup_order : (order k).Nodup := by
  let grid : Finset Dim3 :=
    (Finset.range k.grid.x ×ˢ Finset.range k.grid.y ×ˢ Finset.range
      k.grid.z).image fun b => ⟨b.1, b.2.1, b.2.2⟩
  have hcard : grid.card = (order k).length := by
    rw [Finset.card_image_of_injective, Finset.card_product,
      Finset.card_product, Finset.card_range, Finset.card_range,
      Finset.card_range, length_order hgx hgy, plane, Nat.mul_assoc]
    rintro ⟨x, y, z⟩ ⟨x', y', z'⟩ heq
    simpa using heq
  have hsubset : grid ⊆ (order k).toFinset := by
    intro b hb
    obtain ⟨⟨x, y, z⟩, hin, rfl⟩ := Finset.mem_image.mp hb
    simp only [Finset.mem_product, Finset.mem_range] at hin
    exact mem_toFinset.mpr ((mem_order_iff hgx hgy _).mpr hin)
  have hle := Finset.card_le_card hsubset
  rw [hcard] at hle
  exact Multiset.coe_nodup.mp
    (Multiset.toFinset_card_eq_card_iff_nodup.mp
      (Nat.le_antisymm (toFinset_card_le (order k)) hle))

end

theorem numBlocks_eq {k : Kernel} {n : Nat} (h : k.numBlocks = .ok n) :
    n = plane k * k.grid.z := by
  have hproduct :=
    (Checked.product_settles Checked.word64_settles k.grid.toList).of_eq_ok h
  rw [hproduct, plane]
  simp [Dim3.toList, Nat.mul_assoc]

/-- A launch starts each block of the grid once.  In panels, the blocks of a
plane start panel by panel from the left, row by row, and successive panels walk
the rows in opposite directions. -/
theorem launch_starts_each_block_once
    {k : Kernel} {n : Nat} (hgx : k.grid.x < limit32) (hgy : k.grid.y < limit32)
    (hn : k.numBlocks = .ok n) :
    ∃ blocks : List Dim3, (∀ count, first k count = .ok (blocks.take count)) ∧
      blocks.length = n ∧ blocks.Nodup ∧
      (∀ b, b ∈ blocks ↔ b.x < k.grid.x ∧ b.y < k.grid.y ∧ b.z < k.grid.z) ∧
      ∀ r, k.rasterization = some r → r.enable = true → 0 < r.panelSize →
        (blocks = (range k.grid.z).flatMap fun z =>
          (serpentine k.grid.x k.grid.y (min r.panelSize k.grid.x)).map
            fun (x, y) => ⟨x, y, z⟩) ∧
        (panels k.grid.x (min r.panelSize k.grid.x)).flatten = range k.grid.x ∧
        ∀ columns ∈ (panels k.grid.x (min r.panelSize k.grid.x)).dropLast,
          columns.length = min r.panelSize k.grid.x := by
  refine ⟨order k, first_eq_ok hgx hgy, ?_, nodup_order hgx hgy,
    mem_order_iff hgx hgy, ?_⟩
  · rw [length_order hgx hgy, numBlocks_eq hn]
  · intro r hr henable hsize
    have hpanels : panelling? k = some r := by
      simp [panelling?, hr, henable, hsize]
    refine ⟨?_, ?_⟩
    · unfold order planeOrder
      rw [hpanels]
    · rcases Nat.eq_zero_or_pos k.grid.x with hzero | hpos
      · simp [hzero, panels]
      · have hpanel : 0 < min r.panelSize k.grid.x := by omega
        exact ⟨flatten_panels hpanel, length_of_mem_dropLast_panels hpanel⟩

/-- Three columns in panels of two: the narrow panel is walked from its last
row. -/
def raggedLaunch : Kernel :=
  { Kernel.empty "ragged" with
    grid := ⟨3, 2, 1⟩
    rasterization := some ⟨2, true⟩ }

theorem launch_starts_each_block_once_ragged :
    raggedLaunch.numBlocks = .ok 6 ∧
      first raggedLaunch 6 =
        .ok [⟨0, 0, 0⟩, ⟨1, 0, 0⟩, ⟨0, 1, 0⟩, ⟨1, 1, 0⟩, ⟨2, 1, 0⟩,
          ⟨2, 0, 0⟩] := by
  obtain ⟨blocks, hfirst, hlength, _, _, hpanels⟩ :=
    launch_starts_each_block_once (k := raggedLaunch) (n := 6) (by decide)
      (by decide) rfl
  refine ⟨rfl, ?_⟩
  rw [hfirst, ← hlength, take_length, (hpanels ⟨2, true⟩ rfl rfl (by decide)).1]
  decide

end LaunchOrder
end TileProgram
