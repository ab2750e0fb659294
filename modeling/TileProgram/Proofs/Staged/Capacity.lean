import TileProgram.Proofs.Staged.Region

/-!
# Shared memory of scheduled kernels

The capacity check of a loop is made before the loop has its slots, from the
bytes of its buffers times the stages.  As long as no buffer is rotated by two
loops, the figure is what the slots and the other live tiles come to.
-/

namespace TileProgram

open Kernel List

variable {rotated buffers : List TileId} {stages total : Nat} {head : Loop}
  {inner : Body} {slots : List Tile} {k₁ : Kernel}

/-! ## What sharedBytes adds up -/

def Tile.sharedSize (t : Tile) : Nat :=
  if t.scope = .shared then t.footprintBytes.toOption.getD 0 else 0

namespace Kernel

def sharedSize (k : Kernel) (t : TileId) : Nat :=
  (k.tiles[t.index]?.map Tile.sharedSize).getD 0

/-- What a tile is charged with once each of `rotated` has `stages` slots. -/
def charge (k : Kernel) (rotated : List TileId) (stages : Nat) (t : TileId) :
    Nat :=
  if t ∈ k.retired then 0
  else if t ∈ rotated then k.sharedSize t * stages
  else k.sharedSize t

def entryCharge
    (k : Kernel) (rotated : List TileId) (stages : Nat) (entry : Tile × Nat) :
    Nat :=
  if ⟨entry.2⟩ ∈ k.retired then 0
  else if ⟨entry.2⟩ ∈ rotated then entry.1.sharedSize * stages
  else entry.1.sharedSize

/-- The entry has a size, if it is in shared memory and no slots have replaced
it. -/
def SizedEntry (k : Kernel) (entry : Tile × Nat) : Prop :=
  entry.1.scope = .shared → ⟨entry.2⟩ ∉ k.retired →
    ∃ bytes, entry.1.footprintBytes = .ok bytes

theorem addEntry_eq_ok_iff
    {k : Kernel} {total' : Nat} {entry : Tile × Nat}
    (htotal : total < limit64) :
    addEntry k.retired rotated stages total entry = .ok total' ↔
      k.SizedEntry entry ∧ total' = total + k.entryCharge rotated stages entry ∧
        total' < limit64 := by
  unfold addEntry SizedEntry entryCharge Tile.sharedSize
  by_cases hlive : entry.1.scope = .shared ∧ (⟨entry.2⟩ : TileId) ∉ k.retired
  · obtain ⟨hshared, hretired⟩ := hlive
    rw [if_neg (by simp [hshared, hretired]), if_neg hretired, if_pos hshared]
    cases hbytes : entry.1.footprintBytes with
    | error e =>
        constructor
        · intro h
          cases h
        · rintro ⟨hsized, _⟩
          obtain ⟨bytes, h⟩ := hsized hshared hretired
          cases h
    | ok bytes =>
        have hsized : entry.1.scope = .shared →
            (⟨entry.2⟩ : TileId) ∉ k.retired →
            ∃ b, (Except.ok bytes : Checked Nat) = .ok b :=
              fun _ _ => ⟨bytes, rfl⟩
        rw [ok_bind, and_iff_right hsized]
        by_cases hrotated : (⟨entry.2⟩ : TileId) ∈ rotated
        · rw [if_pos (contains_iff_mem.mpr hrotated), if_pos hrotated,
            bind_eq_ok_iff]
          simp only [Checked.word64_eq_ok_iff, Except.toOption,
            Option.getD_some]
          constructor
          · rintro ⟨product, ⟨_, rfl⟩, hlt, rfl⟩
            exact ⟨rfl, hlt⟩
          · rintro ⟨rfl, hlt⟩
            exact ⟨_, ⟨by omega, rfl⟩, hlt, rfl⟩
        · rw [if_neg (mt contains_iff_mem.mp hrotated), if_neg hrotated,
            pure_bind, Checked.word64_eq_ok_iff, and_comm, @eq_comm _ total']
          simp only [Except.toOption, Option.getD_some]
          constructor
          · rintro ⟨rfl, hlt⟩
            exact ⟨rfl, hlt⟩
          · rintro ⟨rfl, hlt⟩
            exact ⟨rfl, hlt⟩
  · have hskipped : entry.1.scope ≠ .shared ∨ k.retired.contains ⟨entry.2⟩ := by
      by_cases hshared : entry.1.scope = .shared
      · right
        rw [contains_iff_mem]
        by_contra hretired
        exact hlive ⟨hshared, hretired⟩
      · exact Or.inl hshared
    have hzero : (if (⟨entry.2⟩ : TileId) ∈ k.retired then 0
        else if (⟨entry.2⟩ : TileId) ∈ rotated then
          (if entry.1.scope = .shared then
            entry.1.footprintBytes.toOption.getD 0 else 0) * stages
        else if entry.1.scope = .shared then
          entry.1.footprintBytes.toOption.getD 0 else 0) = 0 := by
      split
      · rfl
      · next hretired =>
          rw [if_neg fun hshared => hlive ⟨hshared, hretired⟩]
          simp
    rw [if_pos hskipped, hzero]
    constructor
    · intro h
      cases h
      exact ⟨fun hshared hretired => absurd ⟨hshared, hretired⟩ hlive, rfl,
        htotal⟩
    · rintro ⟨_, rfl, _⟩
      rfl

theorem foldlM_addEntry_eq_ok_iff
    {k : Kernel} (entries : List (Tile × Nat)) {start : Nat}
    (hstart : start < limit64) :
    entries.foldlM (addEntry k.retired rotated stages) start = .ok total ↔
      (∀ entry ∈ entries, k.SizedEntry entry) ∧
        total = start + (entries.map (k.entryCharge rotated stages)).sum ∧
        total < limit64 := by
  induction entries generalizing start with
  | nil =>
      rw [foldlM_nil, map_nil, sum_nil, Nat.add_zero]
      constructor
      · intro h
        cases h
        exact ⟨fun _ hentry => (nomatch hentry), rfl, hstart⟩
      · rintro ⟨_, rfl, _⟩
        rfl
  | cons entry rest ih =>
      rw [foldlM_cons, bind_eq_ok_iff, map_cons, sum_cons, forall_mem_cons]
      constructor
      · rintro ⟨next, hnext, hrest⟩
        obtain ⟨hsized, rfl, hlt⟩ := (addEntry_eq_ok_iff hstart).mp hnext
        obtain ⟨hall, rfl, htotal⟩ := (ih hlt).mp hrest
        exact ⟨⟨hsized, hall⟩, by omega, htotal⟩
      · rintro ⟨⟨hsized, hall⟩, rfl, htotal⟩
        have hlt : start + k.entryCharge rotated stages entry < limit64 := by
          omega
        exact ⟨_, (addEntry_eq_ok_iff hstart).mpr ⟨hsized, rfl, hlt⟩,
          (ih hlt).mpr ⟨hall, by omega, htotal⟩⟩

/-- Every tile in shared memory that no slots have replaced has a size. -/
def Sized (k : Kernel) : Prop :=
  ∀ i tile, k.tiles[i]? = some tile → tile.scope = .shared → ⟨i⟩ ∉ k.retired →
    ∃ bytes, tile.footprintBytes = .ok bytes

theorem sharedBytes_eq_ok_iff {k : Kernel} :
    k.sharedBytes rotated stages = .ok total ↔
      k.Sized ∧ total =
        ((range k.tiles.size).map fun i => k.charge rotated stages ⟨i⟩).sum ∧
        total < limit64 := by
  have hcharges : k.tiles.toList.zipIdx.map (k.entryCharge rotated stages) =
      (range k.tiles.size).map fun i => k.charge rotated stages ⟨i⟩ := by
    apply ext_getElem?
    intro i
    by_cases hi : i < k.tiles.size
    · simp [hi, entryCharge, charge, sharedSize]
    · simp [hi]
  have hsized : (∀ entry ∈ k.tiles.toList.zipIdx, k.SizedEntry entry) ↔
      k.Sized := by
    constructor
    · intro h i tile htile
      exact h (tile, i) (mem_zipIdx_iff_getElem?.mpr (by simpa using htile))
    · rintro h ⟨tile, i⟩ hentry
      exact h i tile (by simpa using mem_zipIdx_iff_getElem?.mp hentry)
  rw [sharedBytes, foldlM_addEntry_eq_ok_iff _ (by decide : 0 < limit64),
    hcharges, hsized, Nat.zero_add]

theorem footprintBytes_le_sharedBytes
    {k : Kernel} (h : k.sharedBytes rotated stages = .ok total)
    (hstages : 1 ≤ stages) {i : Nat} {tile : Tile}
    (htile : k.tiles[i]? = some tile) (hshared : tile.scope = .shared)
    (hlive : ⟨i⟩ ∉ k.retired) :
    ∃ bytes, tile.footprintBytes = .ok bytes ∧ bytes ≤ total := by
  obtain ⟨hsized, htotal, _⟩ := sharedBytes_eq_ok_iff.mp h
  obtain ⟨bytes, hbytes⟩ := hsized i tile htile hshared hlive
  refine ⟨bytes, hbytes, ?_⟩
  have hsize : k.sharedSize ⟨i⟩ = bytes := by
    simp [sharedSize, htile, Tile.sharedSize, hshared, hbytes, Except.toOption]
  have hcharge : bytes ≤ k.charge rotated stages ⟨i⟩ := by
    unfold charge
    rw [if_neg hlive, hsize]
    split
    · exact Nat.le_mul_of_pos_right bytes hstages
    · exact Nat.le_refl bytes
  have hmem : k.charge rotated stages ⟨i⟩ ∈
      (range k.tiles.size).map fun i => k.charge rotated stages ⟨i⟩ :=
    mem_map.mpr ⟨i, mem_range.mpr (Array.getElem?_eq_some_iff.mp htile).1, rfl⟩
  rw [htotal]
  exact hcharge.trans (le_sum_of_mem hmem)

end Kernel

/-! ## What schedules replace -/

/-- Buffers that a schedule has replaced by several slots. -/
def StagedLoop.replaced (l : StagedLoop) : List TileId :=
  (l.rotation.filter (1 < ·.slots.size)).map (·.logical)

def Op.retired : Op → List TileId
  | loop head _ => (head.schedule.map StagedLoop.replaced).getD []
  | step _ => []

theorem Kernel.retired_eq (k : Kernel) :
    k.retired = k.ops.flatMap Op.retired := by
  unfold Kernel.retired
  congr 1
  funext op
  cases op with
  | step => rfl
  | loop head body =>
      simp only [Op.retired]
      cases head.schedule <;> rfl

namespace Body.Revised

variable {body body' : Body} {region : OpId} {l : StagedLoop}

theorem loop_mem
    (h : Revised region id (Loop.withSchedule (some l)) body body')
    (hin : Op.loop head inner ∈ body'.ops) :
    head.id = region ∧ head.schedule = some l ∨
      ∃ inner', Op.loop head inner' ∈ body.ops := by
  induction h with
  | step => exact Or.inr ⟨inner, hin⟩
  | loop hid =>
      rcases mem_cons.mp hin with heq | hin
      · cases heq
        exact Or.inl ⟨hid, rfl⟩
      · exact Or.inr ⟨inner, mem_cons_of_mem _ hin⟩
  | afterStep _ _ ih =>
      rcases mem_cons.mp hin with heq | hin
      · cases heq
      · exact (ih hin).imp_right fun ⟨inner', hold⟩ =>
          ⟨inner', mem_cons_of_mem _ hold⟩
  | inLoop _ _ ih =>
      rcases mem_cons.mp hin with heq | hin
      · cases heq
        exact Or.inr ⟨_, mem_cons_self⟩
      · rcases mem_append.mp hin with hin | hin
        · exact (ih hin).imp_right fun ⟨inner', hold⟩ =>
            ⟨inner', mem_cons_of_mem _ (mem_append_left _ hold)⟩
        · exact Or.inr ⟨inner, mem_cons_of_mem _ (mem_append_right _ hin)⟩
  | afterLoop _ _ _ ih =>
      rcases mem_cons.mp hin with heq | hin
      · cases heq
        exact Or.inr ⟨_, mem_cons_self⟩
      · rcases mem_append.mp hin with hin | hin
        · exact Or.inr ⟨inner, mem_cons_of_mem _ (mem_append_left _ hin)⟩
        · exact (ih hin).imp_right fun ⟨inner', hold⟩ =>
            ⟨inner', mem_cons_of_mem _ (mem_append_right _ hold)⟩

theorem retired_perm
    (h : Revised region id (Loop.withSchedule (some l)) body body')
    (hfind : body.find? region = some (.loop head inner))
    (hnone : head.schedule = none) :
    (body'.ops.flatMap Op.retired).Perm
      (l.replaced ++ body.ops.flatMap Op.retired) := by
  induction h with
  | step hid =>
      rw [find?, ops, find?_cons_of_pos (by simpa [Op.id] using hid)] at hfind
      cases hfind
  | loop hid =>
      rw [find?, ops, find?_cons_of_pos (by simpa [Op.id] using hid)] at hfind
      cases hfind
      simp [ops, Op.retired, Loop.withSchedule, hnone]
  | afterStep hne _ ih => exact ih (find?_step_of_ne hne ▸ hfind)
  | inLoop hne hbody ih =>
      have hperm := ih (find?_loop_of_mem hne hbody.mem_ids ▸ hfind)
      simp only [ops, flatMap_cons, flatMap_append]
      refine ((hperm.append_right _).append_left _).trans ?_
      rw [append_assoc]
      exact perm_append_comm_assoc _ _ _
  | afterLoop hne hnew _ ih =>
      have hperm := ih (find?_loop_of_not_mem hne hnew ▸ hfind)
      simp only [ops, flatMap_cons, flatMap_append]
      refine ((hperm.append_left _).append_left _).trans ?_
      exact ((perm_append_comm_assoc _ _ _).append_left _).trans
        (perm_append_comm_assoc _ _ _)

end Body.Revised

/-! ## The slots of a loop -/

theorem sum_range_ite
    {tiles : List TileId} {size : Nat} (hnodup : tiles.Nodup)
    (hlt : ∀ t ∈ tiles, t.index < size) (f : TileId → Nat) :
    ((range size).map fun i => if ⟨i⟩ ∈ tiles then f ⟨i⟩ else 0).sum =
      (tiles.map f).sum := by
  have hperm : (((range size).map TileId.mk).filter (· ∈ tiles)).Perm
      tiles := by
    have hids : ((range size).map TileId.mk).Nodup :=
      nodup_range.map fun _ _ heq => (TileId.mk.inj heq)
    refine (perm_ext_iff_of_nodup (hids.filter _) hnodup).mpr ?_
    intro t
    simp only [mem_filter, mem_map, mem_range, decide_eq_true_eq]
    exact ⟨fun h => h.2, fun h => ⟨⟨t.index, hlt t h, rfl⟩, h⟩⟩
  have hmap : (List.range size).map
      (fun i => if (⟨i⟩ : TileId) ∈ tiles then f ⟨i⟩ else 0) =
      ((List.range size).map TileId.mk).map fun t =>
        if t ∈ tiles then f t else 0 := by
    rw [List.map_map]
    rfl
  rw [hmap, sum_map_ite, (hperm.map f).sum_eq]
  simp

namespace Kernel

structure AppendsSlots
    (k : Kernel) (buffers : List TileId) (stages : Nat) (slots : List Tile) :
    Prop where
  copies : ∀ slot ∈ slots,
    ∃ t ∈ buffers, ∃ tile, k.tiles[t.index]? = some tile ∧
    ∃ name, slot = { tile with name := name }
  size : (slots.map Tile.sharedSize).sum =
    (buffers.map fun t => k.sharedSize t * stages).sum

theorem appendsSlots_slotTiles
    {k : Kernel} (stages : Nat) (hbuffers : ∀ t ∈ buffers, k.Has t) :
    AppendsSlots k buffers stages (k.slotTiles stages buffers) := by
  constructor
  · intro slot hslot
    obtain ⟨t, ht, hcopy⟩ := mem_flatMap.mp hslot
    obtain ⟨tile, htile⟩ := exists_tile? (hbuffers t ht)
    rw [htile] at hcopy
    obtain ⟨n, _, rfl⟩ := mem_map.mp hcopy
    exact ⟨t, ht, tile, htile, _, rfl⟩
  · induction buffers with
    | nil => rfl
    | cons logical rest ih =>
        obtain ⟨tile, htile⟩ := exists_tile? (hbuffers logical mem_cons_self)
        have hsize : ∀ n, (tile.slot n).sharedSize = tile.sharedSize :=
          fun _ => rfl
        have hentry : k.tiles[logical.index]? = some tile := htile
        rw [slotTiles_cons htile, map_append, sum_append, map_cons, sum_cons,
          ih fun t ht => hbuffers t (mem_cons_of_mem _ ht)]
        simp [sharedSize, hentry, Function.comp_def, hsize, Nat.mul_comm]

end Kernel

/-! ## The total after a step -/

namespace Kernel

variable {k k' : Kernel} {region : OpId} {target : Target} {l : StagedLoop}

/-- What one step does to the table and to the buffers that slots have
replaced. -/
structure Rotates (k k' : Kernel) (l : StagedLoop) (slots : List Tile) :
    Prop where
  tiles : k'.tiles = k.tiles ++ slots.toArray
  retired : ∀ t, t ∈ k'.retired ↔ t ∈ l.replaced ∨ t ∈ k.retired
  inTable : ∀ t ∈ l.replaced, k.Has t
  nodup : l.replaced.Nodup
  slots : AppendsSlots k l.replaced l.stages slots

/-- No loop before has replaced a shared buffer of this one by slots. -/
def FirstToReplace (k : Kernel) (l : StagedLoop) : Prop :=
  ∀ t ∈ l.replaced,
    t ∈ k.retired → k.tiles[t.index]?.map (·.scope) ≠ some .shared

instance (k : Kernel) (l : StagedLoop) : Decidable (k.FirstToReplace l) :=
  inferInstanceAs (Decidable (∀ t ∈ l.replaced, t ∈ k.retired → _ ≠ _))

theorem Rotates.sized
    (h : Rotates k k' l slots) (hfirst : k.FirstToReplace l)
    (hsized : k.Sized) : k'.Sized := by
  intro i tile htile hshared hlive
  rw [h.tiles, Array.getElem?_append] at htile
  split at htile
  · exact hsized i tile htile hshared fun hin =>
      hlive ((h.retired _).mpr (Or.inr hin))
  · obtain ⟨t, ht, original, horiginal, name, rfl⟩ := h.slots.copies tile
      (by simpa using Array.mem_of_getElem? htile)
    refine hsized t.index original horiginal hshared fun hin => ?_
    exact hfirst t ht hin (by rw [horiginal]; exact congrArg some hshared)

theorem sharedSize_of_retired
    (hfirst : k.FirstToReplace l) {t : TileId} (ht : t ∈ l.replaced)
    (hin : t ∈ k.retired) : k.sharedSize t = 0 := by
  have hscope := hfirst t ht hin
  unfold sharedSize
  cases htile : k.tiles[t.index]? with
  | none => rfl
  | some tile =>
      rw [htile, Option.map_some, ne_eq, Option.some.injEq] at hscope
      simp [Tile.sharedSize, hscope]

theorem Rotates.charge_sum
    (h : Rotates k k' l slots) (hlive : ∀ t ∈ k.retired, k.Has t)
    (hfirst : k.FirstToReplace l) :
    ((range k'.tiles.size).map fun i => k'.charge [] 1 ⟨i⟩).sum =
      ((range k.tiles.size).map fun i =>
        k.charge l.replaced l.stages ⟨i⟩).sum := by
  have hsize : k'.tiles.size = k.tiles.size + slots.length := by
    simp [h.tiles]
  -- the new entries are live and are charged their own size
  have hslot :
      (range slots.length).map (fun j => k'.charge [] 1 ⟨k.tiles.size + j⟩) =
      slots.map Tile.sharedSize := by
    apply ext_getElem?
    intro j
    by_cases hj : j < slots.length
    · have hkept : (⟨k.tiles.size + j⟩ : TileId) ∉ k'.retired := by
        rw [h.retired]
        rintro (hin | hin)
        · exact absurd (h.inTable _ hin) (by simp)
        · exact absurd (hlive _ hin) (by simp)
      simp [charge, hkept, sharedSize, h.tiles, hj]
    · simp [hj]
  -- an old entry that slots replace now is charged nothing, and the slots make
  -- up for it
  have htile : ∀ i ∈ range k.tiles.size,
      k.charge l.replaced l.stages ⟨i⟩ = k'.charge [] 1 ⟨i⟩ +
        if ⟨i⟩ ∈ l.replaced then k.sharedSize ⟨i⟩ * l.stages else 0 := by
    intro i hi
    have hsame : k'.sharedSize ⟨i⟩ = k.sharedSize ⟨i⟩ := by
      unfold sharedSize
      rw [h.tiles, Array.getElem?_append_left (mem_range.mp hi)]
    have hretired := h.retired ⟨i⟩
    unfold charge
    by_cases hreplaced : (⟨i⟩ : TileId) ∈ l.replaced
    · by_cases hin : (⟨i⟩ : TileId) ∈ k.retired
      · simp [hretired, hreplaced, hin,
          sharedSize_of_retired hfirst hreplaced hin]
      · simp [hretired, hreplaced, hin]
    · by_cases hin : (⟨i⟩ : TileId) ∈ k.retired
      · simp [hretired, hreplaced, hin]
      · simp [hretired, hreplaced, hin, hsame]
  rw [hsize, range_add, map_append, sum_append, List.map_map,
    map_congr_left htile, sum_map_add, sum_range_ite h.nodup h.inTable fun t =>
    k.sharedSize t * l.stages, ← h.slots.size, ← hslot]
  rfl

theorem SlotsAdded.replaced_of_one
    (hone : l.stages = 1) (h : k.SlotsAdded l.stages buffers l.rotation k₁) :
    l.replaced = [] := by
  unfold StagedLoop.replaced
  rw [map_eq_nil_iff, filter_eq_nil_iff]
  intro r hr
  simp [(h.one hone).2 r hr]

theorem SlotsAdded.replaced_of_lt
    (hmany : 1 < l.stages) (h : k.SlotsAdded l.stages buffers l.rotation k₁) :
    l.replaced = buffers := by
  unfold StagedLoop.replaced
  rw [← h.logicals, filter_eq_self.mpr]
  intro r hr
  simpa [(h.copies hmany r hr).1] using hmany

theorem SlotsAdded.appends
    (hpos : 1 ≤ l.stages) (hbuffers : ∀ t ∈ buffers, k.Has t)
    (h : k.SlotsAdded l.stages buffers l.rotation k₁) :
    (l.stages = 1 ∧ l.replaced = [] ∨ l.replaced = buffers) ∧
      ∃ slots : List Tile, k₁.tiles = k.tiles ++ slots.toArray ∧
        AppendsSlots k l.replaced l.stages slots := by
  rcases hpos.eq_or_lt with hone | hmany
  · rw [h.replaced_of_one hone.symm]
    exact ⟨Or.inl ⟨hone.symm, rfl⟩, [], by simp [(h.one hone.symm).1], by simp,
      by simp⟩
  · rw [h.replaced_of_lt hmany]
    exact ⟨Or.inr rfl, _, h.appended hmany, appendsSlots_slotTiles _ hbuffers⟩

theorem charge_replaced
    (h : l.stages = 1 ∧ l.replaced = [] ∨ l.replaced = buffers) (t : TileId) :
    k.charge buffers l.stages t = k.charge l.replaced l.stages t := by
  rcases h with ⟨hone, hnone⟩ | hsame
  · simp [charge, hone, hnone]
  · rw [hsame]

def Pending (k : Kernel) (region : OpId) : Prop :=
  ∀ head body, Op.loop head body ∈ k.ops → head.id = region →
    head.schedule = none

/-- Scheduling a loop adds the slots of the buffers its body rotates, within the
capacity, and retires the buffers that the slots replace. -/
theorem retires_of_scheduleRegion
    (h : k.scheduleRegion region target = .ok (l, k')) :
    ∃ (head : Loop) (body : Body) (steps : List Step) (roles : Roles)
      (k₁ : Kernel), Op.loop head body ∈ k.ops ∧
      body.entries = steps.map Op.step ∧
      Roles.ofBody k region (steps.map Op.step) = .ok roles ∧
      (∃ required, k.sharedBytes roles.rotated l.stages = .ok required ∧
        required ≤ target.shared.capacityBytes) ∧
      1 ≤ l.stages ∧ k.SlotsAdded l.stages roles.rotated l.rotation k₁ ∧
      k'.tiles = k₁.tiles ∧
      (k.Pending region → k'.retired.Perm (l.replaced ++ k.retired)) ∧
      ∀ head body, Op.loop head body ∈ k'.ops →
        head.id = region ∧ head.schedule = some l ∨
        ∃ inner, Op.loop head inner ∈ k.ops := by
  obtain ⟨head, body, steps, roles, k₁, hfind, hentries, hroles, hroom, hpos,
      hadded, _, rfl⟩ :=
    scheduleRegion_eq_ok h
  have hfound : Op.loop head body ∈ k.ops := mem_of_find?_eq_some hfind
  have hid : (Op.loop head body).id = region := by simpa using find?_some hfind
  have hfind₁ : k₁.findOp? region = some (.loop head body) := by
    rwa [findOp?, hadded.body]
  obtain ⟨_, hrevised⟩ := k₁.setSchedule_revised l (mem_ids_of_findOp? hfind₁)
  rw [hadded.body] at hrevised
  refine ⟨head, body, steps, roles, k₁, hfound, hentries, hroles, hroom, hpos,
    hadded, setSchedule_tiles .., ?_, fun _ _ => hrevised.loop_mem⟩
  intro hpending
  rw [retired_eq, retired_eq]
  exact hrevised.retired_perm hfind (hpending head body hfound hid)

theorem rotates_of_scheduleRegion
    (hpending : k.Pending region)
    (h : k.scheduleRegion region target = .ok (l, k')) :
    ∃ slots required, Rotates k k' l slots ∧
      k.sharedBytes (l.rotation.map (·.logical)) l.stages = .ok required ∧
      k.sharedBytes l.replaced l.stages = .ok required ∧
      required ≤ target.shared.capacityBytes := by
  obtain ⟨_, _, steps, roles, k₁, _, _, hroles, ⟨required, hrequired, hroom⟩,
      hpos, hadded, htiles₁, hretired, _⟩ := retires_of_scheduleRegion h
  have hbuffers := Roles.rotated_lt_size hroles
  obtain ⟨hreplaced, slots, htiles, happended⟩ := hadded.appends hpos hbuffers
  refine ⟨slots, required, ⟨?_, ?_, ?_, ?_, happended⟩, ?_, ?_, hroom⟩
  · rw [htiles₁, htiles]
  · intro t
    rw [(hretired hpending).mem_iff, mem_append]
  · intro t ht
    rcases hreplaced with ⟨_, hempty⟩ | hsame
    · rw [hempty] at ht
      cases ht
    · exact hbuffers t (hsame ▸ ht)
  · rcases hreplaced with ⟨_, hempty⟩ | hsame
    · rw [hempty]
      exact nodup_nil
    · rw [hsame]
      exact nodup_eraseDups _
  · rw [hadded.logicals, hrequired]
  · rw [sharedBytes_eq_ok_iff] at hrequired ⊢
    simpa only [charge_replaced hreplaced] using hrequired

theorem Rotates.sharedBytes_eq_ok
    {required : Nat} (h : Rotates k k' l slots)
    (hlive : ∀ t ∈ k.retired, k.Has t) (hfirst : k.FirstToReplace l)
    (hrequired : k.sharedBytes l.replaced l.stages = .ok required) :
    k'.sharedBytes [] 1 = .ok required := by
  obtain ⟨hsized, htotal, hlt⟩ := sharedBytes_eq_ok_iff.mp hrequired
  exact sharedBytes_eq_ok_iff.mpr
    ⟨h.sized hfirst hsized, by rw [htotal, h.charge_sum hlive hfirst], hlt⟩

/-- What a sequence of steps keeps for a loop that is none of theirs: it has no
schedule, and what slots have replaced stays in the table. -/
structure Stepped (k : Kernel) (region : OpId) : Prop where
  pending : k.Pending region
  retired : ∀ t ∈ k.retired, k.Has t

theorem Stepped.step
    {other : OpId} (h : k.Stepped region) (hne : other ≠ region)
    (hschedule : k.scheduleRegion other target = .ok (l, k')) :
    k'.Stepped region := by
  obtain ⟨_, _, _, roles, k₁, _, _, hroles, _, hpos, hadded, htiles, _,
      hloops⟩ :=
    retires_of_scheduleRegion hschedule
  have hbuffers := Roles.rotated_lt_size hroles
  have hgrows : k.tiles.size ≤ k'.tiles.size :=
    htiles ▸ (hadded.grows hpos).size_le
  constructor
  · intro head body hin hid
    rcases hloops head body hin with ⟨hother, _⟩ | ⟨inner, hold⟩
    · exact absurd (hother.symm.trans hid) hne
    · exact h.pending head inner hold hid
  · -- what is retired now was retired before, or is replaced by this step
    intro t ht
    rw [retired_eq] at ht
    obtain ⟨op, hop, ht⟩ := mem_flatMap.mp ht
    cases op with
    | step s => cases ht
    | loop head body =>
        rcases hloops head body hop with ⟨_, hschedule⟩ | ⟨inner, hold⟩
        · rw [Op.retired, hschedule] at ht
          have hbuffer : t ∈ roles.rotated := by
            rcases (hadded.appends hpos hbuffers).1 with ⟨_, hnone⟩ | hall
            · exact absurd (hnone ▸ ht : t ∈ []) not_mem_nil
            · exact hall ▸ ht
          exact (hbuffers t hbuffer).trans_le hgrows
        · refine (h.retired t ?_).trans_le hgrows
          rw [retired_eq]
          exact mem_flatMap.mpr ⟨_, hold, ht⟩

theorem Stepped.scheduleEach
    {earlier later : List OpId} (h : k.Stepped region) (hnew : region ∉ earlier)
    (hrun : k.scheduleEach (earlier ++ region :: later) target = .ok k') :
    ∃ k₁ l k₂, k.scheduleEach earlier target = .ok k₁ ∧
      k₁.scheduleRegion region target = .ok (l, k₂) ∧
      k₂.scheduleEach later target = .ok k' ∧ k₁.Stepped region := by
  induction earlier generalizing k with
  | nil =>
      obtain ⟨l, k₂, hstep, hrest⟩ := scheduleEach_cons_eq_ok hrun
      exact ⟨k, l, k₂, rfl, hstep, hrest, h⟩
  | cons first rest ih =>
      obtain ⟨hne, hnew⟩ := not_or.mp (mt mem_cons.mpr hnew)
      obtain ⟨l, kNext, hstep, hrest⟩ := scheduleEach_cons_eq_ok hrun
      obtain ⟨k₁, l', k₂, hearlier, hat, hlater, hstepped⟩ :=
        ih (h.step (Ne.symm hne) hstep) hnew hrest
      refine ⟨k₁, l', k₂, ?_, hat, hlater, hstepped⟩
      unfold Kernel.scheduleEach at hearlier ⊢
      rw [foldlM_cons, hstep]
      exact hearlier

theorem schedule_eq_none
    (h : k.scheduledRegions = []) (hin : Op.loop head inner ∈ k.ops) :
    head.schedule = none := by
  have hfilter := filter_eq_nil_iff.mp h _ hin
  simpa using hfilter

theorem retired_eq_nil (h : k.scheduledRegions = []) : k.retired = [] := by
  rw [retired_eq, flatMap_eq_nil_iff]
  intro op hop
  cases op with
  | step s => rfl
  | loop head body => rw [Op.retired, schedule_eq_none h hop]; rfl

theorem stepped_of_plain (h : k.scheduledRegions = []) (region : OpId) :
    k.Stepped region := by
  refine ⟨fun head body hin _ => schedule_eq_none h hin, ?_⟩
  rw [retired_eq_nil h]
  exact fun t ht => (not_mem_nil ht).elim

end Kernel

/-- After each step of a sequence the slots and the live tiles of shared memory
come to the figure that was checked, if the step does not replace a shared
buffer that had been replaced. -/
theorem scheduleEach_fits
    {k k' : Kernel} {target : Target} {earlier later : List OpId}
    {region : OpId} (hstart : k.Stepped region) (hnew : region ∉ earlier)
    (hrun : k.scheduleEach (earlier ++ region :: later) target = .ok k') :
    ∃ k₁ l k₂ required, k.scheduleEach earlier target = .ok k₁ ∧
      k₁.scheduleRegion region target = .ok (l, k₂) ∧
      k₂.scheduleEach later target = .ok k' ∧
      k₁.sharedBytes (l.rotation.map (·.logical)) l.stages = .ok required ∧
      required ≤ target.shared.capacityBytes ∧
      (k₁.FirstToReplace l → k₂.sharedBytes [] 1 = .ok required) := by
  obtain ⟨k₁, l, k₂, hearlier, hstep, hlater, hstepped⟩ :=
    hstart.scheduleEach hnew hrun
  obtain ⟨slots, required, hrotates, hrequired, hreplaced, hroom⟩ :=
    rotates_of_scheduleRegion hstepped.pending hstep
  exact ⟨k₁, l, k₂, required, hearlier, hstep, hlater, hrequired, hroom,
    fun hfirst =>
    hrotates.sharedBytes_eq_ok hstepped.retired hfirst hreplaced⟩

/-- Two loops that each take `a` to `c` through a shared buffer of 32 KiB, half
at a time. -/
def bufferedTwice (first second : TileId) : Kernel :=
  let half (t : TileId) : Region := ⟨t, [⟨0, [(.loop "k", 8192)]⟩], [8192]⟩
  let copies (id : Nat) (buffer : TileId) : Body :=
    .step ⟨⟨id⟩, .copy (half ⟨0⟩) (.full buffer [8192]) none, none⟩
      (.step ⟨⟨id + 1⟩, .copy (.full buffer [8192]) (half ⟨1⟩) none, none⟩
        .done)
  let buffer (name : String) : Tile :=
    { Tile.plain name [8192] .f32 .shared with
      layout := some (.rowMajor [8192]) }
  { Kernel.empty "buffered_twice" with
    threads := ⟨1, 1, 1⟩
    tiles := #[.plain "a" [16384] .f32 .global, .plain "c" [16384] .f32 .global,
      buffer "x", buffer "y"]
    body := .loop ⟨⟨0⟩, "k", 2, 2, none, none⟩ (copies 1 first)
      (.loop ⟨⟨3⟩, "k", 2, 2, none, none⟩ (copies 4 second) .done)
    nextOp := 6 }

theorem scheduleEach_fits_twoBuffers :
    ∃ k₁ l k₂, (bufferedTwice ⟨2⟩ ⟨3⟩).scheduleEach [⟨0⟩] .sm80 = .ok k₁ ∧
      k₁.scheduleRegion ⟨3⟩ .sm80 = .ok (l, k₂) ∧
      k₂.sharedBytes [] 1 = .ok 131072 ∧
      131072 ≤ Target.sm80.shared.capacityBytes := by
  have hcompute :
      (((bufferedTwice ⟨2⟩ ⟨3⟩).scheduleEach [⟨0⟩] .sm80).toOption.bind
        fun k₁ =>
      (k₁.scheduleRegion ⟨3⟩ .sm80).toOption.map fun (l, _) =>
        (decide (k₁.FirstToReplace l),
          (k₁.sharedBytes (l.rotation.map (·.logical)) l.stages).toOption)) =
      some (true, some 131072) := by
    decide +kernel
  have hrun : ((bufferedTwice ⟨2⟩ ⟨3⟩).scheduleEach ([⟨0⟩] ++
      ⟨3⟩ :: []) .sm80).toOption.isSome := by
    decide +kernel
  obtain ⟨k', hrun⟩ := Option.isSome_iff_exists.mp hrun
  rw [toOption_eq_some_iff] at hrun
  obtain ⟨k₁, l, k₂, required, hearlier, hstep, _, hrequired, hroom, htotal⟩ :=
    scheduleEach_fits (stepped_of_plain rfl _) (by decide) hrun
  rw [hearlier] at hcompute
  simp only [Except.toOption, Option.bind_some, hstep, Option.map_some,
    hrequired, Option.some.injEq, Prod.mk.injEq, decide_eq_true_eq] at hcompute
  obtain ⟨hfirst, rfl⟩ := hcompute
  exact ⟨k₁, l, k₂, hearlier, hstep, htotal hfirst, hroom⟩

/-- Two loops that rotate the same buffer: the check of the second one leaves
out the slots it is about to add. -/
theorem scheduleEach_exceeds_oneBuffer :
    ∃ k₁ l k₂, (bufferedTwice ⟨2⟩ ⟨2⟩).scheduleEach [⟨0⟩] .sm70 = .ok k₁ ∧
      k₁.scheduleRegion ⟨3⟩ .sm70 = .ok (l, k₂) ∧
      k₁.sharedBytes (l.rotation.map (·.logical)) l.stages = .ok 98304 ∧
      k₂.sharedBytes [] 1 = .ok 163840 ∧
      Target.sm70.shared.capacityBytes < 163840 := by
  have hcompute :
      (((bufferedTwice ⟨2⟩ ⟨2⟩).scheduleEach [⟨0⟩] .sm70).toOption.bind
        fun k₁ =>
      (k₁.scheduleRegion ⟨3⟩ .sm70).toOption.bind fun (l, k₂) =>
        (k₁.sharedBytes (l.rotation.map (·.logical)) l.stages).toOption.bind
          fun required =>
          (k₂.sharedBytes [] 1).toOption.map fun total => (required, total)) =
      some (98304, 163840) := by
    decide +kernel
  simp only [Option.bind_eq_some_iff, Option.map_eq_some_iff,
    toOption_eq_some_iff, Prod.mk.injEq] at hcompute
  obtain ⟨k₁, hfirst, ⟨l, k₂⟩, hsecond, required, hrequired, total, htotal, rfl,
      rfl⟩ :=
    hcompute
  exact ⟨k₁, l, k₂, hfirst, hsecond, hrequired, htotal, by decide⟩

end TileProgram
