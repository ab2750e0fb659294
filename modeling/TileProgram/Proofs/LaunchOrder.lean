import TileProgram.LaunchOrder
import TileProgram.Proofs.Checked

/-!
# Launch order

The block of every number below the size of a launch is found: the columns that
are left over form a last panel only if there are some.  As long as a word holds
the extents of the grid, the blocks found are those of the grid, and each of
them is found.
-/

namespace TileProgram
namespace LaunchOrder

theorem block_congr
    {k k' : Kernel} (hgrid : k'.grid = k.grid)
    (hraster : k'.rasterization = k.rasterization) (n : Nat) :
    block k' n = block k n := by
  unfold block plane
  rw [hgrid, hraster]

theorem upTo_congr {k k' : Kernel} (hgrid : k'.grid = k.grid) (count : Nat) :
    upTo k' count = upTo k count := by
  unfold upTo plane
  rw [hgrid]

def panelWidth (columns panel index : Nat) : Nat :=
  if index < columns / panel then panel else columns - columns / panel * panel

theorem panelWidth_le {columns panel : Nat} (hpanel : 0 < panel) (index : Nat) :
    panelWidth columns panel index ≤ panel := by
  unfold panelWidth
  have hdiv := Nat.div_add_mod columns panel
  have hmod := Nat.mod_lt columns hpanel
  rw [Nat.mul_comm] at hdiv
  split <;> omega

theorem panel_end_le
    {columns panel index : Nat} (hindex : index ≤ columns / panel) :
    index * panel + panelWidth columns panel index ≤ columns := by
  have hfull : columns / panel * panel ≤ columns :=
    Nat.div_mul_le_self columns panel
  unfold panelWidth
  by_cases hlt : index < columns / panel
  · rw [if_pos hlt]
    calc index * panel + panel = (index + 1) * panel := by ring
      _ ≤ columns / panel * panel := Nat.mul_le_mul_right panel hlt
      _ ≤ columns := hfull
  · have heq : index = columns / panel := by omega
    subst heq
    rw [if_neg hlt]
    omega

theorem panel_within
    {linear columns rows panel : Nat} (hpanel : 0 < panel) (hrows : 0 < rows)
    (hlinear : linear < columns * rows) :
    linear / (panel * rows) ≤ columns / panel ∧
      linear % (panel * rows) <
        panelWidth columns panel (linear / (panel * rows)) * rows := by
  have hindex : linear / (panel * rows) ≤ columns / panel := by
    rw [Nat.mul_comm panel, ← Nat.div_div_eq_div_mul]
    apply Nat.div_le_div_right
    apply Nat.le_of_lt
    exact Nat.div_lt_of_lt_mul (by rwa [Nat.mul_comm])
  refine ⟨hindex, ?_⟩
  unfold panelWidth
  by_cases hlt : linear / (panel * rows) < columns / panel
  · rw [if_pos hlt]
    exact Nat.mod_lt _ (Nat.mul_pos hpanel hrows)
  · have heq : linear / (panel * rows) = columns / panel := by omega
    rw [if_neg hlt, Nat.sub_mul]
    have hsplit := Nat.div_add_mod linear (panel * rows)
    rw [heq] at hsplit
    have hfull : columns / panel * panel * rows =
        panel * rows * (columns / panel) := by
      ring
    omega

theorem mod_lt_panelWidth
    {columns panel x : Nat} (hpanel : 0 < panel) (hx : x < columns) :
    x % panel < panelWidth columns panel (x / panel) := by
  have hsplit := Nat.div_add_mod x panel
  have hmod := Nat.mod_lt x hpanel
  unfold panelWidth
  by_cases hlt : x / panel < columns / panel
  · rw [if_pos hlt]
    exact hmod
  · have hle : x / panel ≤ columns / panel :=
      Nat.div_le_div_right (Nat.le_of_lt hx)
    have heq : x / panel = columns / panel := by omega
    rw [if_neg hlt]
    rw [heq, Nat.mul_comm] at hsplit
    omega

theorem inPanels_settles
    {linear gx gy : Nat} (hx : 0 < gx) (hy : 0 < gy) (panelSize : Nat)
    (hlinear : linear < gx * gy) :
    Settles .overflow (fun _ => True) (inPanels linear gx gy panelSize) := by
  have hpanel : 0 < min (max 1 gx) (max 1 panelSize) := by omega
  have hcolumns : linear < max 1 gx * max 1 gy := by
    rwa [Nat.max_eq_right hx, Nat.max_eq_right hy]
  have hwidth : 0 < panelWidth (max 1 gx) (min (max 1 gx) (max 1 panelSize))
      (linear / (min (max 1 gx) (max 1 panelSize) * max 1 gy)) :=
    Nat.pos_of_mul_pos_right
      (Nat.zero_lt_of_lt (panel_within hpanel (by omega) hcolumns).2)
  unfold panelWidth at hwidth
  unfold inPanels Checked.mod
  simp only
  rw [if_neg hwidth.ne', ok_bind]
  apply (Checked.word64_settles _).bind
  intro x _
  by_cases hodd : linear / (min (max 1 gx) (max 1 panelSize) * max 1 gy) % 2 = 1
  · rw [if_pos hodd]
    exact (Checked.sub_settles _ _).bind fun _ _ => Settles.ok trivial
  · rw [if_neg hodd]
    exact Settles.ok trivial

theorem block_settles {k : Kernel} {n : Nat} (hn : n < plane k * k.grid.z) :
    Settles .overflow (fun _ => True) (block k n) := by
  have hplane : 0 < plane k := by
    rcases Nat.eq_zero_or_pos (plane k) with hzero | hpos
    · simp [hzero] at hn
    · exact hpos
  have hx : 0 < k.grid.x := Nat.pos_of_mul_pos_right hplane
  have hy : 0 < k.grid.y := Nat.pos_of_mul_pos_left hplane
  have hlinear : n % plane k < k.grid.x * k.grid.y := Nat.mod_lt n hplane
  unfold block
  cases k.rasterization with
  | none => exact Settles.ok trivial
  | some raster =>
      simp only
      split
      · exact (inPanels_settles hx hy raster.panelSize hlinear).bind fun _ _ =>
          Settles.ok trivial
      · exact Settles.ok trivial

theorem inPanels_eq_ok
    {gx gy panelSize panel index row offset : Nat}
    (hpanel : panel = min gx (max 1 panelSize)) (hindex : index ≤ gx / panel)
    (hoffset : offset < panelWidth gx panel index) (hrow : row < gy)
    (hgx : gx < limit32) (hgy : gy < limit32) :
    inPanels (index * (panel * gy) + (row * panelWidth gx panel index + offset))
        gx gy panelSize =
      .ok (index * panel + offset,
        if index % 2 = 1 then gy - 1 - row else row) := by
  have hend := panel_end_le hindex
  have hpos : 0 < panel := by omega
  have hwithin : row * panelWidth gx panel index + offset < panel * gy := by
    calc row * panelWidth gx panel index + offset
        < row * panelWidth gx panel index + panelWidth gx panel index := by
          omega
      _ = (row + 1) * panelWidth gx panel index := by ring
      _ ≤ gy * panel := Nat.mul_le_mul hrow (panelWidth_le hpos index)
      _ = panel * gy := Nat.mul_comm _ _
  have hdiv : (index * (panel * gy) +
      (row * panelWidth gx panel index + offset)) / (panel * gy) = index := by
    rw [Nat.mul_comm index, Nat.mul_add_div (by omega),
      Nat.div_eq_of_lt hwithin, Nat.add_zero]
  have hmod : (index * (panel * gy) +
      (row * panelWidth gx panel index + offset)) % (panel * gy) =
      row * panelWidth gx panel index + offset := by
    rw [Nat.mul_comm index, Nat.mul_add_mod, Nat.mod_eq_of_lt hwithin]
  have hcolumn : (row * panelWidth gx panel index + offset) %
      panelWidth gx panel index = offset := by
    rw [Nat.mul_comm row, Nat.mul_add_mod, Nat.mod_eq_of_lt hoffset]
  have hline : (row * panelWidth gx panel index + offset) /
      panelWidth gx panel index = row := by
    rw [Nat.mul_comm row, Nat.mul_add_div (by omega), Nat.div_eq_of_lt hoffset,
      Nat.add_zero]
  unfold inPanels
  simp only
  rw [Nat.max_eq_right (show 1 ≤ gx by omega),
    Nat.max_eq_right (show 1 ≤ gy by omega), ← hpanel, hdiv, hmod]
  rw [show (if index < gx / panel then panel else gx - gx / panel * panel) =
    panelWidth gx panel index from rfl, hline]
  have hwords : limit32 < limit64 := by decide
  have hlow : ∀ n, n < limit32 → low32 n = n := fun n hn => Nat.mod_eq_of_lt hn
  unfold Checked.mod Checked.word64
  rw [if_neg (by omega), ok_bind, hcolumn, if_pos (by omega), ok_bind]
  by_cases hodd : index % 2 = 1
  · unfold Checked.sub
    rw [if_pos hodd, if_pos hodd, if_pos (by omega), ok_bind, hlow _ (by omega),
      hlow _ (by omega)]
    rfl
  · rw [if_neg hodd, if_neg hodd]
    show Except.ok (low32 (index * panel + offset), low32 row) = _
    rw [hlow _ (by omega), hlow _ (by omega)]

theorem inPanels_mem
    {linear gx gy : Nat} (hgx : gx < limit32) (hgy : gy < limit32)
    (panelSize : Nat) (hlinear : linear < gx * gy) :
    ∃ x y, inPanels linear gx gy panelSize = .ok (x, y) ∧ x < gx ∧ y < gy := by
  have hgxpos : 0 < gx := Nat.pos_of_mul_pos_right (Nat.zero_lt_of_lt hlinear)
  have hgypos : 0 < gy := Nat.pos_of_mul_pos_left (Nat.zero_lt_of_lt hlinear)
  generalize hpanel : min gx (max 1 panelSize) = panel
  have hpos : 0 < panel := by omega
  obtain ⟨hindex, hwithin⟩ := panel_within hpos hgypos hlinear
  generalize hi : linear / (panel * gy) = index at hindex hwithin
  have hwidth : 0 < panelWidth gx panel index :=
    Nat.pos_of_mul_pos_right (Nat.zero_lt_of_lt hwithin)
  obtain ⟨row, offset, hrow, hoffset, hsplit⟩ : ∃ row offset, row < gy ∧
      offset < panelWidth gx panel index ∧
      linear = index * (panel * gy) +
        (row * panelWidth gx panel index + offset) := by
    refine ⟨linear % (panel * gy) / panelWidth gx panel index,
      linear % (panel * gy) % panelWidth gx panel index,
      Nat.div_lt_of_lt_mul hwithin, Nat.mod_lt _ hwidth, ?_⟩
    rw [Nat.div_add_mod', ← hi, Nat.div_add_mod']
  have hend := panel_end_le hindex
  rw [hsplit]
  refine ⟨_, _, inPanels_eq_ok hpanel.symm hindex hoffset hrow hgx hgy,
    by omega, ?_⟩
  by_cases hodd : index % 2 = 1
  · rw [if_pos hodd]
    omega
  · rw [if_neg hodd]
    exact hrow

theorem exists_inPanels
    {x y gx gy : Nat} (hgx : gx < limit32) (hgy : gy < limit32)
    (panelSize : Nat) (hx : x < gx) (hy : y < gy) :
    ∃ linear < gx * gy, inPanels linear gx gy panelSize = .ok (x, y) := by
  generalize hpanel : min gx (max 1 panelSize) = panel
  have hpos : 0 < panel := by omega
  have hindex : x / panel ≤ gx / panel := Nat.div_le_div_right (Nat.le_of_lt hx)
  have hoffset := mod_lt_panelWidth hpos hx
  -- rows are counted from the other end in every second panel
  obtain ⟨row, hrow, hback⟩ : ∃ row < gy,
      (if x / panel % 2 = 1 then gy - 1 - row else row) = y := by
    by_cases hodd : x / panel % 2 = 1
    · exact ⟨gy - 1 - y, by omega, by rw [if_pos hodd]; omega⟩
    · exact ⟨y, hy, by rw [if_neg hodd]⟩
  have hblock := inPanels_eq_ok hpanel.symm hindex hoffset hrow hgx hgy
  rw [hback, Nat.div_add_mod'] at hblock
  refine ⟨_, ?_, hblock⟩
  have hend := panel_end_le hindex
  calc x / panel * (panel * gy) +
    (row * panelWidth gx panel (x / panel) + x % panel)
      < x / panel * (panel * gy) +
          (row * panelWidth gx panel (x / panel) +
            panelWidth gx panel (x / panel)) := by omega
    _ = x / panel * panel * gy +
        (row + 1) * panelWidth gx panel (x / panel) := by
      ring
    _ ≤ x / panel * panel * gy + gy * panelWidth gx panel (x / panel) := by
        exact Nat.add_le_add_left (Nat.mul_le_mul_right _ hrow) _
    _ = (x / panel * panel + panelWidth gx panel (x / panel)) * gy := by ring
    _ ≤ gx * gy := Nat.mul_le_mul_right gy hend

section

variable {k : Kernel} (hgx : k.grid.x < limit32) (hgy : k.grid.y < limit32)

include hgx hgy

theorem block_eq_ok {n : Nat} (hn : n < plane k * k.grid.z) :
    ∃ x y, block k n = .ok ⟨x, y, n / plane k⟩ ∧ x < k.grid.x ∧
      y < k.grid.y := by
  have hplane : 0 < plane k := Nat.pos_of_mul_pos_right (Nat.zero_lt_of_lt hn)
  have hlinear : n % plane k < k.grid.x * k.grid.y := Nat.mod_lt n hplane
  have hrows : n % plane k % k.grid.x < k.grid.x ∧ n % plane k / k.grid.x <
      k.grid.y :=
    ⟨Nat.mod_lt _ (Nat.pos_of_mul_pos_right hplane),
      Nat.div_lt_of_lt_mul hlinear⟩
  unfold block
  cases k.rasterization with
  | none => exact ⟨_, _, rfl, hrows⟩
  | some raster =>
      simp only
      split
      · obtain ⟨x, y, hblock, hx, hy⟩ :=
          inPanels_mem hgx hgy raster.panelSize hlinear
        refine ⟨x, y, ?_, hx, hy⟩
        rw [hblock]
        rfl
      · exact ⟨_, _, rfl, hrows⟩

theorem exists_block
    {x y z : Nat} (hx : x < k.grid.x) (hy : y < k.grid.y) (hz : z < k.grid.z) :
    ∃ n < plane k * k.grid.z, block k n = .ok ⟨x, y, z⟩ := by
  have hrows : x + k.grid.x * y < k.grid.x * k.grid.y := by
    calc x + k.grid.x * y < k.grid.x + k.grid.x * y := by omega
      _ = k.grid.x * (y + 1) := by ring
      _ ≤ k.grid.x * k.grid.y := Nat.mul_le_mul_left _ hy
  have hcolumn : (x + k.grid.x * y) % k.grid.x = x := by
    rw [Nat.add_mul_mod_self_left, Nat.mod_eq_of_lt hx]
  have hrow : (x + k.grid.x * y) / k.grid.x = y := by
    rw [Nat.add_mul_div_left _ _ (by omega), Nat.div_eq_of_lt hx, Nat.zero_add]
  -- the number in its plane, whichever way the plane is walked
  obtain ⟨linear, hlinear, hfound⟩ : ∃ linear < plane k,
      ∀ n, n % plane k = linear →
      n / plane k = z → block k n = .ok ⟨x, y, z⟩ := by
    cases hraster : k.rasterization with
    | none =>
        refine ⟨x + k.grid.x * y, hrows, ?_⟩
        intro n hmod hdiv
        unfold block
        simp only [hraster, hmod, hdiv, hcolumn, hrow]
        rfl
    | some raster =>
        by_cases henable :
            (raster.enable && decide (0 < raster.panelSize)) = true
        · obtain ⟨linear, hlinear, hblock⟩ :=
            exists_inPanels hgx hgy raster.panelSize hx hy
          refine ⟨linear, hlinear, ?_⟩
          intro n hmod hdiv
          unfold block
          simp only [hraster, hmod, hdiv, if_pos henable]
          rw [hblock]
          rfl
        · refine ⟨x + k.grid.x * y, hrows, ?_⟩
          intro n hmod hdiv
          unfold block
          simp only [hraster, hmod, hdiv, hcolumn, hrow, if_neg henable]
          rfl
  refine ⟨linear + plane k * z, ?_, hfound _ ?_ ?_⟩
  · calc linear + plane k * z < plane k + plane k * z := by omega
      _ = plane k * (z + 1) := by ring
      _ ≤ plane k * k.grid.z := Nat.mul_le_mul_left _ hz
  · rw [Nat.add_mul_mod_self_left, Nat.mod_eq_of_lt hlinear]
  · rw [Nat.add_mul_div_left _ _ (by omega), Nat.div_eq_of_lt hlinear,
      Nat.zero_add]

end

end LaunchOrder
end TileProgram
