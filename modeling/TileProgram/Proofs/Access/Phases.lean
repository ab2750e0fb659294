import TileProgram.Proofs.Access.RowMajor

/-!
# Phases partition the tile

Whatever the order in which a pattern walks a tile, all of its accesses have one
width that divides a row, and they start at the multiples of that width.  So
each element is touched by one access, whether the phases are taken row by row,
column by column or in bands of rows.  A phase has as many lanes as the banks
serve at once, and at least one.
-/

namespace TileProgram

open Checked List

variable {v rows size bytes cols : Nat}

def LaneAccess.Touches (a : LaneAccess) (r c : Nat) : Prop :=
  a.row = r ∧ a.col ≤ c ∧ c < a.col + a.width

instance (a : LaneAccess) (r c : Nat) : Decidable (a.Touches r c) :=
  inferInstanceAs (Decidable (_ ∧ _ ∧ _))

namespace AccessPattern

/-! ## Accesses at multiples of their width -/

/-- In each row, `n` accesses of `v` elements one after the other. -/
def alignedAccesses (v rows n : Nat) : List LaneAccess :=
  (range rows).flatMap fun r => (range n).map fun i => ⟨r, i * v, v⟩

theorem mem_alignedAccesses {n : Nat} {a : LaneAccess} :
    a ∈ alignedAccesses v rows n ↔ ∃ r < rows, ∃ i < n, a = ⟨r, i * v, v⟩ := by
  simp [alignedAccesses, eq_comm]

theorem nodup_alignedAccesses (hv : 0 < v) (rows n : Nat) :
    (alignedAccesses v rows n).Nodup := by
  unfold alignedAccesses
  rw [nodup_flatMap]
  constructor
  · intro r _
    apply nodup_range.map
    intro i i' heq
    exact Nat.eq_of_mul_eq_mul_right hv (LaneAccess.mk.inj heq).2.1
  · apply nodup_range.imp
    intro r r' hne a ha ha'
    obtain ⟨i, _, rfl⟩ := mem_map.mp ha
    obtain ⟨i', _, heq⟩ := mem_map.mp ha'
    exact hne (LaneAccess.mk.inj heq).1.symm

/-- An element is touched by the access from the last multiple of the width
on. -/
theorem touches_aligned_iff (hv : 0 < v) (r' i r c : Nat) :
    LaneAccess.Touches ⟨r', i * v, v⟩ r c ↔
      (⟨r', i * v, v⟩ : LaneAccess) = ⟨r, c / v * v, v⟩ := by
  have hblock : i * v ≤ c ∧ c < i * v + v ↔ i = c / v := by
    rw [eq_comm, Nat.div_eq_iff hv]
    omega
  rw [LaneAccess.Touches, hblock, LaneAccess.mk.injEq, Nat.mul_left_inj hv.ne']
  simp

theorem countP_touches_aligned (hv : 0 < v) (rows n r c : Nat) :
    (alignedAccesses v rows n).countP (·.Touches r c) =
      if r < rows ∧ c < n * v then 1 else 0 := by
  have hcount : (alignedAccesses v rows n).countP (·.Touches r c) =
      (alignedAccesses v rows n).count ⟨r, c / v * v, v⟩ := by
    apply countP_congr
    intro a ha
    obtain ⟨r', _, i, _, rfl⟩ := mem_alignedAccesses.mp ha
    rw [decide_eq_true_iff, touches_aligned_iff hv, beq_iff_eq]
  have hmem : (⟨r, c / v * v, v⟩ : LaneAccess) ∈ alignedAccesses v rows n ↔
      r < rows ∧ c < n * v := by
    rw [mem_alignedAccesses, ← Nat.div_lt_iff_lt_mul hv]
    constructor
    · rintro ⟨r', hr', i, hi, heq⟩
      obtain ⟨rfl, hcol, _⟩ := LaneAccess.mk.inj heq
      exact ⟨hr', Nat.eq_of_mul_eq_mul_right hv hcol ▸ hi⟩
    · rintro ⟨hr, hc⟩
      exact ⟨r, hr, c / v, hc, rfl⟩
  rw [hcount, (nodup_alignedAccesses hv rows n).count, if_congr hmem rfl rfl]

/-! ## Groups -/

theorem groups_eq_panels (hsize : 0 < size) (total : Nat) :
    groups size total = panels total size := by
  unfold groups ceilDiv panels
  rw [Nat.max_eq_left hsize]

theorem flatten_groups (hsize : 0 < size) (total : Nat) :
    (groups size total).flatten = range total := by
  rw [groups_eq_panels hsize, flatten_panels hsize]

theorem length_of_mem_groups
    {total : Nat} {group : List Nat} (hsize : 0 < size)
    (h : group ∈ groups size total) :
    0 < group.length ∧ group.length ≤ size := by
  rw [groups_eq_panels hsize] at h
  obtain ⟨n, hn, rfl⟩ := mem_map.mp h
  rw [mem_range, lt_panels_iff hsize] at hn
  rw [length_range']
  omega

theorem bands_eq (height rows : Nat) :
    bands height rows =
      if ceilDiv rows height * height < limit32 then .ok (groups height rows)
      else .error .overflow := by
  rcases Nat.eq_zero_or_pos rows with rfl | hpos
  · have hnone : ceilDiv 0 height = 0 := by
      unfold ceilDiv
      exact Nat.div_eq_of_lt (by omega)
    rw [hnone, Nat.zero_mul]
    rfl
  · unfold bands
    rw [if_pos hpos, word32_bind]
    rfl

/-! ## The accesses of each pattern -/

theorem flatten_rowMajor
    {n lanes : Nat} (hrows : rows < limit32) (hcols : n * v < limit32)
    (hv : 0 < v) (hlanes : 0 < lanes) :
    ((groups lanes (rows * n)).map fun group =>
      group.map (rowMajorAccess (n * v) v)).flatten =
      alignedAccesses v rows n := by
  rw [← map_flatten, flatten_groups hlanes, map_range_mul]
  apply flatMap_congr
  intro r hr
  apply map_congr_left
  intro i hi
  have hr := mem_range.mp hr
  have hi := mem_range.mp hi
  have hcol : i * v < n * v := Nat.mul_lt_mul_of_pos_right hi hv
  have hstart : (r * n + i) * v = r * (n * v) + i * v := by ring
  rw [rowMajorAccess, hstart, Nat.mul_add_mod_self_right, Nat.mod_eq_of_lt hcol,
    Nat.mul_comm r, Nat.mul_add_div (by omega), Nat.div_eq_of_lt hcol,
    Nat.add_zero, low32, low32, Nat.mod_eq_of_lt (hr.trans hrows),
    Nat.mod_eq_of_lt (hcol.trans hcols)]

theorem columnwise_perm (v rows n : Nat) :
    ((range n).flatMap fun i =>
        (range rows).map fun r => (⟨r, i * v, v⟩ : LaneAccess)).Perm
      (alignedAccesses v rows n) := by
  unfold alignedAccesses
  simp only [map_eq_flatMap]
  exact flatMap_swap _ _ _

theorem flatten_columnMajor_perm
    {lanes : Nat} (hlanes : 0 < lanes) (rows cols : Nat) :
    ((range cols).flatMap fun c =>
        (groups lanes rows).map fun band =>
          band.map fun r => (⟨r, c, 1⟩ : LaneAccess)).flatten.Perm
      (alignedAccesses 1 rows cols) := by
  have hcolumn : ∀ c, ((groups lanes rows).map fun band =>
      band.map fun r => (⟨r, c, 1⟩ : LaneAccess)).flatten =
        (range rows).map fun r => ⟨r, c * 1, 1⟩ := by
    intro c
    rw [← map_flatten, flatten_groups hlanes, Nat.mul_one]
  rw [← flatMap_id, flatMap_assoc]
  simp only [flatMap_id, hcolumn]
  exact columnwise_perm 1 rows cols

theorem flatten_operand_perm
    {height : Nat} (hheight : 0 < height) (v rows n : Nat) :
    ((groups height rows).flatMap fun band =>
        (range n).map fun i =>
          band.map fun r => (⟨r, i * v, v⟩ : LaneAccess)).flatten.Perm
      (alignedAccesses v rows n) := by
  have hbands : ((groups height rows).flatMap fun band =>
      (range n).map fun i =>
        band.map fun r => (⟨r, i * v, v⟩ : LaneAccess)).flatten =
        (groups height rows).flatMap fun band =>
          (range n).flatMap fun i => band.map fun r => ⟨r, i * v, v⟩ := by
    rw [← flatMap_id, flatMap_assoc]
    simp only [flatMap_map, id]
  have hcolumn : ∀ i, ((groups height rows).flatMap fun band =>
      band.map fun r => (⟨r, i * v, v⟩ : LaneAccess)) =
        (range rows).map fun r => ⟨r, i * v, v⟩ := by
    intro i
    rw [flatMap_def, ← map_flatten, flatten_groups hheight]
  rw [hbands]
  apply (flatMap_swap _ _ _).trans
  simp only [hcolumn]
  exact columnwise_perm v rows n

/-! ## Lanes of one phase -/

/-- A phase is not empty, and several lanes together take at most a line of
`line` bytes. -/
structure Served (line bytes : Nat) (phase : List LaneAccess) : Prop where
  ne_nil : phase ≠ []
  le_line : 1 < phase.length → (phase.map (·.width)).sum * bytes ≤ line

theorem served_of_group
    {lanes total line : Nat} (hlanes : 0 < lanes)
    (hline : 1 < lanes → lanes * (v * bytes) ≤ line) {f : Nat → LaneAccess}
    (hf : ∀ i, (f i).width = v) {group : List Nat}
    (hgroup : group ∈ groups lanes total) :
    Served line bytes (group.map f) := by
  obtain ⟨hpos, hle⟩ := length_of_mem_groups hlanes hgroup
  constructor
  · rw [Ne, map_eq_nil_iff]
    exact ne_nil_of_length_pos hpos
  · intro hseveral
    rw [length_map] at hseveral
    have hsum : ((group.map f).map (·.width)).sum = group.length * v := by
      simp [Function.comp_def, hf]
    calc ((group.map f).map (·.width)).sum * bytes =
        group.length * (v * bytes) := by
          rw [hsum, Nat.mul_assoc]
      _ ≤ lanes * (v * bytes) := Nat.mul_le_mul_right _ hle
      _ ≤ line := hline (by omega)

end AccessPattern

def SharedMemory.line (s : SharedMemory) : Nat := s.banks * s.bankBytes

def Target.lanes (target : Target) (bytes : Nat) : Nat :=
  min (max 1 target.warpSize) (max 1 (target.shared.line / max 1 bytes))

def Target.bandHeight (target : Target) : Nat :=
  max 1 (target.shared.line / Swizzle.chunkBytes)

namespace Target

variable (target : Target)

theorem lanes_pos (bytes : Nat) : 0 < target.lanes bytes := by
  unfold lanes
  omega

theorem bandHeight_pos : 0 < target.bandHeight := by
  unfold bandHeight
  omega

theorem lanes_mul_le (h : 1 < target.lanes bytes) :
    target.lanes bytes * bytes ≤ target.shared.line := by
  have hle : target.lanes bytes ≤ target.shared.line / max 1 bytes := by
    unfold lanes at h ⊢
    omega
  calc target.lanes bytes * bytes ≤
      target.shared.line / max 1 bytes * max 1 bytes :=
        Nat.mul_le_mul hle (Nat.le_max_right 1 bytes)
    _ ≤ target.shared.line := Nat.div_mul_le_self _ _

theorem bandHeight_mul_le
    (hbytes : bytes ≤ Swizzle.chunkBytes) (h : 1 < target.bandHeight) :
    target.bandHeight * bytes ≤ target.shared.line := by
  have hle : target.bandHeight ≤ target.shared.line / Swizzle.chunkBytes := by
    unfold bandHeight at h ⊢
    omega
  calc target.bandHeight * bytes ≤
      target.shared.line / Swizzle.chunkBytes * Swizzle.chunkBytes :=
    Nat.mul_le_mul hle hbytes
    _ ≤ target.shared.line := Nat.div_mul_le_self _ _

end Target

namespace AccessPattern

/-- What is computed on the way fits words of 32 bits: the bytes of a line of
banks, the bytes that one lane takes, and the row after the last band. -/
def WithinWords (p : AccessPattern) (rows cols bytes : Nat) (target : Target) :
    Prop :=
  target.shared.line < limit32 ∧
    match p with
    | rowMajor vector => fitVector vector cols * bytes < limit32
    | columnMajor =>
        cols = 0 ∨
          ceilDiv rows (target.lanes bytes) * target.lanes bytes < limit32
    | operand _ => ceilDiv rows target.bandHeight * target.bandHeight < limit32

instance (p : AccessPattern) (rows cols bytes : Nat) (target : Target) :
    Decidable (p.WithinWords rows cols bytes target) :=
  match p with
  | rowMajor _ => inferInstanceAs (Decidable (_ ∧ _))
  | columnMajor => inferInstanceAs (Decidable (_ ∧ (_ ∨ _)))
  | operand _ => inferInstanceAs (Decidable (_ ∧ _))

theorem phases_rowMajor_eq (vector rows cols bytes : Nat) (target : Target) :
    (rowMajor vector).phases rows cols bytes target =
      if target.shared.line < limit32 ∧ fitVector vector cols * bytes <
        limit32 then
        .ok ((groups (target.lanes (fitVector vector cols * bytes))
          (rows * (cols / fitVector vector cols))).map fun group =>
            group.map (rowMajorAccess cols (fitVector vector cols)))
      else .error .overflow := by
  simp only [phases, SharedMemory.lineBytes, word32_bind, ite_and]
  rfl

theorem phases_columnMajor_eq (rows cols bytes : Nat) (target : Target) :
    columnMajor.phases rows cols bytes target =
      if target.shared.line < limit32 ∧
          (cols = 0 ∨ ceilDiv rows (target.lanes bytes) * target.lanes bytes <
            limit32) then
        .ok ((range cols).flatMap fun c =>
          (groups (target.lanes bytes) rows).map fun band =>
            band.map fun r => ⟨r, c, 1⟩)
      else .error .overflow := by
  simp only [phases, SharedMemory.lineBytes, word32_bind, ite_and]
  congr 1
  split
  · next hcols => simp [hcols, pure, Except.pure]
  · next hcols =>
      simp only [hcols, false_or, bands_eq]
      unfold Target.lanes SharedMemory.line
      split <;> rfl

theorem phases_operand_eq
    (registers : RegisterLayout) (rows cols bytes : Nat) (target : Target) :
    (operand registers).phases rows cols bytes target =
      if target.shared.line < limit32 ∧
          ceilDiv rows target.bandHeight * target.bandHeight < limit32 then
        .ok ((groups target.bandHeight rows).flatMap fun band =>
          let v := fitVector (max 1 (Swizzle.chunkBytes / max 1 bytes)) cols
          (range (ceilDiv cols v)).map fun i => band.map fun r => ⟨r, i * v, v⟩)
      else .error .overflow := by
  simp only [phases, SharedMemory.lineBytes, word32_bind, ite_and, bands_eq]
  congr 1
  unfold Target.bandHeight SharedMemory.line
  split <;> rfl

/-- Each element of the tile is touched once and nothing outside it, and each
phase can be served. -/
structure Partitions
    (line bytes rows cols : Nat) (phases : List (List LaneAccess)) : Prop where
  touched_once : ∀ r c,
    phases.flatten.countP (·.Touches r c) = if r < rows ∧ c < cols then 1 else 0
  served : ∀ phase ∈ phases, Served line bytes phase

theorem partitions_rowMajor
    (vector bytes : Nat) (target : Target) (hrows : rows < limit32)
    (hcols : cols < limit32) :
    Partitions target.shared.line bytes rows cols
      ((groups (target.lanes (fitVector vector cols * bytes))
        (rows * (cols / fitVector vector cols))).map fun group =>
          group.map (rowMajorAccess cols (fitVector vector cols))) := by
  have hv := fitVector_pos vector cols
  have hdvd := fitVector_dvd vector cols
  have hlanes := target.lanes_pos (fitVector vector cols * bytes)
  generalize fitVector vector cols = v at hv hdvd hlanes ⊢
  constructor
  · intro r c
    obtain ⟨n, rfl⟩ := hdvd
    rw [Nat.mul_comm v n] at hcols ⊢
    rw [Nat.mul_div_cancel n hv, flatten_rowMajor hrows hcols hv hlanes,
      countP_touches_aligned hv]
  · intro phase hphase
    obtain ⟨group, hgroup, rfl⟩ := mem_map.mp hphase
    exact served_of_group hlanes target.lanes_mul_le (fun _ => rfl) hgroup

theorem partitions_columnMajor (rows cols bytes : Nat) (target : Target) :
    Partitions target.shared.line bytes rows cols ((range cols).flatMap fun c =>
      (groups (target.lanes bytes) rows).map fun band =>
        band.map fun r => ⟨r, c, 1⟩) := by
  have hlanes := target.lanes_pos bytes
  constructor
  · intro r c
    rw [(flatten_columnMajor_perm hlanes rows cols).countP_eq,
      countP_touches_aligned Nat.one_pos, Nat.mul_one]
  · intro phase hphase
    obtain ⟨c, _, hphase⟩ := mem_flatMap.mp hphase
    obtain ⟨band, hband, rfl⟩ := mem_map.mp hphase
    have hline : 1 < target.lanes bytes →
        target.lanes bytes * (1 * bytes) ≤ target.shared.line := by
      rw [Nat.one_mul]
      exact target.lanes_mul_le
    exact served_of_group hlanes hline (fun _ => rfl) hband

theorem partitions_operand
    (hv : 0 < v) (hdvd : v ∣ cols) (hbytes : v * bytes ≤ Swizzle.chunkBytes)
    (rows : Nat) (target : Target) :
    Partitions target.shared.line bytes rows cols
      ((groups target.bandHeight rows).flatMap fun band =>
        (range (ceilDiv cols v)).map fun i =>
          band.map fun r => ⟨r, i * v, v⟩) := by
  have hheight := target.bandHeight_pos
  constructor
  · intro r c
    obtain ⟨n, rfl⟩ := hdvd
    have hn : ceilDiv (v * n) v = n := by
      unfold ceilDiv
      rw [Nat.max_eq_left hv, Nat.add_sub_assoc hv, Nat.mul_add_div hv,
        Nat.div_eq_of_lt (by omega), Nat.add_zero]
    rw [hn, (flatten_operand_perm hheight v rows n).countP_eq,
      countP_touches_aligned hv, Nat.mul_comm n v]
  · intro phase hphase
    obtain ⟨band, hband, hphase⟩ := mem_flatMap.mp hphase
    obtain ⟨i, _, rfl⟩ := mem_map.mp hphase
    exact served_of_group hheight (target.bandHeight_mul_le hbytes)
      (fun _ => rfl) hband

/-- A chunk holds as many elements as fit, and an element is not wider than a
chunk. -/
theorem chunkElements_mul_le (type : ElementType) :
    max 1 (Swizzle.chunkBytes / max 1 type.bytes) * type.bytes ≤
      Swizzle.chunkBytes := by
  cases type <;> decide

theorem partitions_of_eq_ite
    {line : Nat} {x : Checked (List (List LaneAccess))} {c : Prop} [Decidable c]
    {walk : List (List LaneAccess)}
    (h : x = if c then .ok walk else .error .overflow)
    (hwalk : Partitions line bytes rows cols walk) :
    (Returns x ↔ c) ∧ ∀ phases, x = .ok phases →
      Partitions line bytes rows cols phases := by
  refine ⟨Returns.iff_of_eq_ite h, ?_⟩
  intro phases hphases
  rw [h] at hphases
  split at hphases
  · cases hphases
    exact hwalk
  · cases hphases

theorem phases_partitions
    (p : AccessPattern) (type : ElementType) (target : Target)
    (hrows : rows < limit32) (hcols : cols < limit32) :
    (Returns (p.phases rows cols type.bytes target) ↔
      p.WithinWords rows cols type.bytes target) ∧
    ∀ phases, p.phases rows cols type.bytes target = .ok phases →
      Partitions target.shared.line type.bytes rows cols phases := by
  cases p with
  | rowMajor vector =>
      exact (partitions_of_eq_ite
        (phases_rowMajor_eq vector rows cols type.bytes target)
        (partitions_rowMajor vector type.bytes target hrows hcols) :)
  | columnMajor =>
      exact (partitions_of_eq_ite (phases_columnMajor_eq rows cols type.bytes
        target) (partitions_columnMajor rows cols type.bytes target) :)
  | operand registers =>
      have hbytes := fitVector_mul_le type (chunkElements_mul_le type) cols
      exact (partitions_of_eq_ite (phases_operand_eq registers rows cols
        type.bytes target) (partitions_operand (fitVector_pos _ cols)
        (fitVector_dvd _ cols) hbytes rows target) :)

/-- The walk of a pattern stops exactly where a word is exhausted.  Otherwise
its phases touch every element of the tile once and nothing else, none of them
is empty, and several lanes of one phase take no more than a line of banks. -/
theorem phases_partition_tile
    (p : AccessPattern) (rows cols : Nat) (type : ElementType) (target : Target)
    (hrows : rows < limit32) (hcols : cols < limit32) :
    (Returns (p.phases rows cols type.bytes target) ↔
      p.WithinWords rows cols type.bytes target) ∧
    ∀ phases, p.phases rows cols type.bytes target = .ok phases →
      ∃ line, target.shared.lineBytes = .ok line ∧
        (∀ r c, phases.flatten.countP (·.Touches r c) =
          if r < rows ∧ c < cols then 1 else 0) ∧
        ∀ phase ∈ phases, phase ≠ [] ∧
          (1 < phase.length →
            (phase.map (·.width)).sum * type.bytes ≤ line) := by
  obtain ⟨hreturns, hpartitions⟩ := p.phases_partitions type target hrows hcols
  refine ⟨hreturns, ?_⟩
  intro phases hphases
  have hline := (hreturns.mp ⟨phases, hphases⟩).1
  have h := hpartitions phases hphases
  refine ⟨target.shared.line, word32_of_lt hline, h.touched_once, ?_⟩
  intro phase hphase
  exact ⟨(h.served phase hphase).ne_nil, (h.served phase hphase).le_line⟩

/-- Seven rows of twelve halves: vectors of eight are cut to six, and of the
fourteen accesses ten make a phase of 120 bytes and four the last one. -/
theorem phases_partition_tile_ragged :
    (7 < limit32 ∧ 12 < limit32) ∧
      (rowMajor 8).WithinWords 7 12 ElementType.f16.bytes .sm80 ∧
      ∃ phases,
        (rowMajor 8).phases 7 12 ElementType.f16.bytes .sm80 = .ok phases ∧
        phases.map length = [10, 4] ∧
        ∀ r c, phases.flatten.countP (·.Touches r c) =
          if r < 7 ∧ c < 12 then 1 else 0 := by
  obtain ⟨hreturns, hpartition⟩ :=
    phases_partition_tile (rowMajor 8) 7 12 .f16 .sm80 (by decide) (by decide)
  obtain ⟨_, _, honce, _⟩ := hpartition _ rfl
  exact ⟨⟨by decide, by decide⟩, hreturns.mp ⟨_, rfl⟩, _, rfl, rfl, honce⟩

end AccessPattern

end TileProgram
