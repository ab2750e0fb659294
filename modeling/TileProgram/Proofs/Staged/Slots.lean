import TileProgram.Proofs.Staged.Actions
import TileProgram.Proofs.Staged.Roles
import TileProgram.Staged.Schedule

/-!
# The slots of a staged loop

Scheduling a loop appends one tile for each buffer and stage to the table.  A
slot has the shape of its buffer, and two slots are the same tile only if they
belong to the same buffer and to iterations that are a multiple of the stage
count apart.
-/

namespace TileProgram

open Kernel List

variable {t logical : TileId} {rotation : List RotatedBuffer}

/-! ## Tables that grow -/

/-- The table of `k'` is that of `k` with further tiles after it. -/
def Kernel.Extends (k k' : Kernel) : Prop := ∃ more, k'.tiles = k.tiles ++ more

namespace Kernel.Extends

variable {k k' k'' : Kernel}

theorem refl (k : Kernel) : k.Extends k := ⟨#[], by simp⟩

theorem trans (h : k.Extends k') (h' : k'.Extends k'') : k.Extends k'' := by
  obtain ⟨more, hmore⟩ := h
  obtain ⟨more', hmore'⟩ := h'
  exact ⟨more ++ more', by rw [hmore', hmore, Array.append_assoc]⟩

theorem size_le (h : k.Extends k') : k.tiles.size ≤ k'.tiles.size := by
  obtain ⟨more, hmore⟩ := h
  rw [hmore, Array.size_append]
  omega

theorem tile_eq (h : k.Extends k') (ht : k.Has t) : k'.tile t = k.tile t := by
  obtain ⟨more, hmore⟩ := h
  unfold Kernel.tile Checked.entry
  rw [hmore, Array.getElem?_append_left ht]

theorem shapeOf_eq (h : k.Extends k') (ht : k.Has t) :
    k'.shapeOf t = k.shapeOf t := by
  unfold Kernel.shapeOf
  rw [h.tile_eq ht]

end Kernel.Extends

/-! ## The tiles that are appended -/

def Tile.slot (t : Tile) (n : Nat) : Tile := { t with name := s!"{t.name}@{n}" }

def slotsFrom (stages base : Nat) : List TileId → List RotatedBuffer
  | [] => []
  | logical :: rest =>
      ⟨logical, (Array.range' base stages).map TileId.mk⟩ :: slotsFrom stages
        (base + stages) rest

namespace Kernel

def slotTiles (k : Kernel) (stages : Nat) (buffers : List TileId) : List Tile :=
  buffers.flatMap fun logical => ((k.tile? logical).map fun t =>
    (range stages).map t.slot).getD []

variable {k : Kernel} {stages : Nat} {buffers : List TileId}

theorem exists_tile? (h : k.Has logical) : ∃ t, k.tile? logical = some t :=
  ⟨k.tiles[logical.index], Array.getElem?_eq_getElem h⟩

theorem slotTiles_cons
    {t : Tile} (h : k.tile? logical = some t) (rest : List TileId) :
    k.slotTiles stages (logical :: rest) =
      (range stages).map t.slot ++ k.slotTiles stages rest := by
  simp [slotTiles, h]

theorem slotTiles_of_append
    {k' : Kernel} {more : Array Tile} (htiles : k'.tiles = k.tiles ++ more)
    (hbuffers : ∀ t ∈ buffers, k.Has t) :
    k'.slotTiles stages buffers = k.slotTiles stages buffers := by
  unfold slotTiles
  apply flatMap_congr
  intro t ht
  unfold tile?
  rw [htiles, Array.getElem?_append_left (hbuffers t ht)]

theorem addSlots_of_tile
    {t : Tile} (hstages : 1 < stages) (ht : k.tile? logical = some t) :
    k.addSlots logical stages = (grownTable k.tiles.size stages).map fun _ =>
      (⟨logical, (Array.range' k.tiles.size stages).map TileId.mk⟩,
        { k with tiles := k.tiles ++
          ((range stages).map t.slot).toArray }) := by
  have htile : k.tile logical = .ok t := tile_eq_ok_iff.mpr ht
  have hcopies : (Array.range stages).map t.slot =
      ((range stages).map t.slot).toArray := by
    apply Array.ext'
    simp [Array.toList_range]
  unfold addSlots
  rw [if_neg (by omega), htile, ok_bind, ← hcopies, ← bind_pure_eq_map]
  rfl

theorem addAllSlots_settles
    (hstages : 1 < stages) (hbuffers : ∀ t ∈ buffers, k.Has t) :
    Settles .overflow
      (fun added => added = (slotsFrom stages k.tiles.size buffers,
        { k with tiles := k.tiles ++ (k.slotTiles stages buffers).toArray }))
      (addAllSlots stages buffers k) := by
  induction buffers generalizing k with
  | nil => exact Settles.ok (by simp [slotsFrom, slotTiles])
  | cons logical rest ih =>
      obtain ⟨t, ht⟩ := exists_tile? (hbuffers logical mem_cons_self)
      have hrest : ∀ t ∈ rest, k.Has t :=
        fun t ht => hbuffers t (mem_cons_of_mem _ ht)
      simp only [addAllSlots]
      rw [addSlots_of_tile hstages ht, map_bind]
      apply (grownTable_settles _ _).bind
      intro _ _
      apply (ih _).bind
      · rintro _ rfl
        rw [slotTiles_of_append (k := k) rfl hrest, slotTiles_cons ht]
        exact Settles.ok (by simp [slotsFrom, Array.append_assoc])
      · intro t ht
        have hlt := hrest t ht
        simp only [Has, Array.size_append]
        omega

theorem addAllSlots_one
    {stages : Nat} (hstages : stages ≤ 1) (buffers : List TileId) (k : Kernel) :
    addAllSlots stages buffers k = .ok (buffers.map fun t => ⟨t, #[t]⟩, k) := by
  induction buffers with
  | nil => rfl
  | cons logical rest ih =>
      simp only [addAllSlots, addSlots, if_pos hstages, pure, Except.pure,
        ok_bind, ih, map_cons]

end Kernel

section

variable {k : Kernel} {stages base : Nat} {buffers : List TileId}

theorem slotsFrom_logical :
    (slotsFrom stages base buffers).map (·.logical) = buffers := by
  induction buffers generalizing base with
  | nil => rfl
  | cons logical rest ih => rw [slotsFrom, map_cons, ih]

theorem slotsFrom_ids :
    (slotsFrom stages base buffers).flatMap (·.slots.toList) =
      (range' base (buffers.length * stages)).map TileId.mk := by
  induction buffers generalizing base with
  | nil => simp [slotsFrom]
  | cons logical rest ih =>
      have hsum : (rest.length + 1) * stages =
          stages + rest.length * stages := by
        ring
      rw [slotsFrom, flatMap_cons, ih, length_cons, hsum, ← range'_append_1,
        map_append]
      simp

theorem slotsFrom_copies (hbuffers : ∀ t ∈ buffers, k.Has t) :
    ∀ r ∈ slotsFrom stages base buffers, r.slots.size = stages ∧
      ∃ t, k.tile? r.logical = some t ∧ ∀ n < stages,
        ∃ i, r.slots[n]? = some ⟨base + i⟩ ∧
        (k.slotTiles stages buffers)[i]? = some (t.slot n) := by
  induction buffers generalizing base with
  | nil => nofun
  | cons logical rest ih =>
      obtain ⟨t, ht⟩ := exists_tile? (hbuffers logical mem_cons_self)
      rw [slotTiles_cons ht]
      intro r hr
      rcases mem_cons.mp hr with rfl | hrest
      · refine ⟨by simp, t, ht, ?_⟩
        intro n hn
        refine ⟨n, by simp [hn], ?_⟩
        rw [getElem?_append_left (by simpa using hn)]
        simp [hn]
      · obtain ⟨hsize, t', ht', hcopies⟩ :=
          ih (fun t ht => hbuffers t (mem_cons_of_mem _ ht)) r hrest
        refine ⟨hsize, t', ht', ?_⟩
        intro n hn
        obtain ⟨i, hslot, hcopy⟩ := hcopies n hn
        refine ⟨stages + i, by rw [hslot, Nat.add_assoc], ?_⟩
        rw [getElem?_append_right (by simp)]
        simpa using hcopy

end

namespace Kernel

/-- What adding the slots of buffers does to a kernel. -/
structure SlotsAdded
    (k : Kernel) (stages : Nat) (buffers : List TileId)
    (rotation : List RotatedBuffer) (k' : Kernel) : Prop where
  frame : k' = { k with tiles := k'.tiles }
  logicals : rotation.map (·.logical) = buffers
  filled : ∀ r ∈ rotation, ∀ n < stages, ∃ slot, r.slots[n]? = some slot
  one : stages = 1 → k'.tiles = k.tiles ∧ ∀ r ∈ rotation, r.slots = #[r.logical]
  appended : 1 < stages →
    k'.tiles = k.tiles ++ (k.slotTiles stages buffers).toArray
  copies : 1 < stages → ∀ r ∈ rotation, r.slots.size = stages ∧
    ∃ t, k.tile? r.logical = some t ∧
      ∀ n < stages,
        ∃ slot, r.slots[n]? = some slot ∧ k'.tile? slot = some (t.slot n)
  fresh : 1 < stages →
    ∀ r ∈ rotation, ∀ slot ∈ r.slots, k.tiles.size ≤ slot.index
  apart : 1 < stages → (rotation.flatMap (·.slots.toList)).Nodup

variable {k k' : Kernel} {stages : Nat} {buffers : List TileId}

theorem slotsAdded_self (k : Kernel) (buffers : List TileId) :
    k.SlotsAdded 1 buffers (buffers.map fun t => ⟨t, #[t]⟩) k := by
  have hown : ∀ r ∈ buffers.map fun t => (⟨t, #[t]⟩ : RotatedBuffer),
      r.slots = #[r.logical] := by
    intro r hr
    obtain ⟨t, _, rfl⟩ := mem_map.mp hr
    rfl
  refine ⟨rfl, ?_, ?_, fun _ => ⟨rfl, hown⟩, nofun, nofun, nofun, nofun⟩
  · rw [List.map_map]
    exact map_id _
  · intro r hr n hn
    refine ⟨r.logical, ?_⟩
    rw [hown r hr, Nat.lt_one_iff.mp hn]
    rfl

theorem slotsAdded_slotsFrom
    (hstages : 1 < stages) (hbuffers : ∀ t ∈ buffers, k.Has t) :
    k.SlotsAdded stages buffers (slotsFrom stages k.tiles.size buffers)
      { k with tiles := k.tiles ++ (k.slotTiles stages buffers).toArray } := by
  refine ⟨rfl, slotsFrom_logical, ?_, fun hone => by omega,
    fun _ => rfl, fun _ => ?_, fun _ => ?_, fun _ => ?_⟩
  · intro r hr n hn
    obtain ⟨-, t, -, hslot⟩ := slotsFrom_copies hbuffers r hr
    obtain ⟨i, hi, -⟩ := hslot n hn
    exact ⟨_, hi⟩
  · intro r hr
    obtain ⟨hsize, t, ht, hslot⟩ := slotsFrom_copies hbuffers r hr
    refine ⟨hsize, t, ht, ?_⟩
    intro n hn
    obtain ⟨i, hi, hcopy⟩ := hslot n hn
    refine ⟨_, hi, ?_⟩
    unfold tile?
    rw [Array.getElem?_append_right (by simp)]
    simpa using hcopy
  · intro r hr slot hslot
    have hin : slot ∈ (slotsFrom stages k.tiles.size buffers).flatMap
        (·.slots.toList) :=
      mem_flatMap.mpr ⟨r, hr, Array.mem_toList_iff.mpr hslot⟩
    rw [slotsFrom_ids] at hin
    obtain ⟨i, hi, rfl⟩ := mem_map.mp hin
    exact (mem_range'_1.mp hi).1
  · rw [slotsFrom_ids]
    exact (nodup_range').map fun _ _ heq => TileId.mk.inj heq

theorem slotsAdded_of_addAllSlots
    (hstages : 1 ≤ stages) (hbuffers : ∀ t ∈ buffers, k.Has t)
    (h : k.addAllSlots stages buffers = .ok (rotation, k')) :
    k.SlotsAdded stages buffers rotation k' := by
  rcases hstages.eq_or_lt with rfl | hmany
  · rw [addAllSlots_one le_rfl] at h
    cases h
    exact slotsAdded_self k buffers
  · cases (addAllSlots_settles hmany hbuffers).of_eq_ok h
    exact slotsAdded_slotsFrom hmany hbuffers

theorem SlotsAdded.grows
    (h : k.SlotsAdded stages buffers rotation k') (hstages : 1 ≤ stages) :
    k.Extends k' := by
  rcases hstages.eq_or_lt with hone | hmany
  · exact ⟨#[], by simp [(h.one hone.symm).1]⟩
  · exact ⟨_, h.appended hmany⟩

/-- A slot is known from its buffer and its place there. -/
theorem SlotsAdded.place_inj
    (h : k.SlotsAdded stages buffers rotation k') (hmany : 1 < stages)
    {r r' : RotatedBuffer} (hr : r ∈ rotation) (hr' : r' ∈ rotation)
    {n n' : Nat} {slot : TileId} (hn : r.slots[n]? = some slot)
    (hn' : r'.slots[n']? = some slot) : r' = r ∧ n = n' := by
  obtain ⟨hnodup, hdisjoint⟩ := nodup_flatMap.mp (h.apart hmany)
  have hsame : r' = r := by
    by_contra hne
    have hsymm : Std.Symm
        (Function.onFun Disjoint fun r : RotatedBuffer => r.slots.toList) :=
      ⟨fun _ _ hd => hd.symm⟩
    exact hdisjoint.forall hr hr' (Ne.symm hne)
      (Array.mem_toList_iff.mpr (Array.mem_of_getElem? hn))
      (Array.mem_toList_iff.mpr (Array.mem_of_getElem? hn'))
  subst hsame
  obtain ⟨hlt, _⟩ := Array.getElem?_eq_some_iff.mp hn
  refine ⟨rfl, ?_⟩
  apply (getElem?_inj (by simpa using hlt) (hnodup r' hr)).mp
  rw [Array.getElem?_toList, Array.getElem?_toList, hn, hn']

theorem SlotsAdded.body (h : k.SlotsAdded stages buffers rotation k') :
    k'.body = k.body := by
  rw [h.frame]

end Kernel

/-! ## The slots of an iteration -/

/-- The rotated buffers of a loop over the table of `k`, with their slots in
that of `k'`. -/
structure Slots (k k' : Kernel) (l : StagedLoop) (buffers : List TileId) :
    Prop where
  grows : k.Extends k'
  logicals : l.rotation.map (·.logical) = buffers
  inTable : ∀ t ∈ buffers, k.Has t
  slotted : ∀ t ∈ buffers, ∀ j, l.slotTile t j = some (l.inSlot j t)
  home : ∀ t ∈ buffers,
    ∀ j, l.inSlot j t = t ∨ k.tiles.size ≤ (l.inSlot j t).index
  shapeOf : ∀ t ∈ buffers, ∀ j, k'.shapeOf (l.inSlot j t) = k.shapeOf t
  apart : ∀ t ∈ buffers, ∀ u ∈ buffers, ∀ i j, l.inSlot i t = l.inSlot j u →
    u = t ∧ i % l.stages = j % l.stages

namespace StagedLoop

theorem find?_logical (h : t ∈ rotation.map (·.logical)) :
    ∃ r ∈ rotation,
      r.logical = t ∧ rotation.find? (·.logical == t) = some r := by
  obtain ⟨r, hr, hlogical⟩ := mem_map.mp h
  obtain ⟨found, hfound⟩ := Option.isSome_iff_exists.mp
    (find?_isSome.mpr ⟨r, hr, by simp [hlogical]⟩ :
      (rotation.find? (·.logical == t)).isSome)
  refine ⟨found, mem_of_find?_eq_some hfound, ?_, hfound⟩
  simpa using find?_some hfound

theorem slotTile_of_not_mem
    {l : StagedLoop} (h : t ∉ l.rotation.map (·.logical)) (j : Nat) :
    l.slotTile t j = none := by
  unfold slotTile
  have hnone : l.rotation.find? (·.logical == t) = none := by
    rw [find?_eq_none]
    intro r hr heq
    exact h (mem_map.mpr ⟨r, hr, by simpa using heq⟩)
  rw [hnone]
  rfl

theorem exists_slot_of_added
    {k k' : Kernel} {l : StagedLoop} {buffers : List TileId}
    (hpos : 1 ≤ l.stages) (h : k.SlotsAdded l.stages buffers l.rotation k')
    (ht : t ∈ buffers) :
    ∃ r ∈ l.rotation, r.logical = t ∧ ∀ j,
      r.slots[j % l.stages]? = some (l.inSlot j t) ∧
      l.slotTile t j = some (l.inSlot j t) := by
  obtain ⟨r, hr, hlogical, hfind⟩ := find?_logical (h.logicals.symm ▸ ht)
  refine ⟨r, hr, hlogical, fun j => ?_⟩
  obtain ⟨tile, hfilled⟩ := h.filled r hr (j % l.stages) (Nat.mod_lt j hpos)
  have hsome : l.slotTile t j = some tile := by
    unfold slotTile slot
    rw [hfind, Nat.max_eq_right hpos, Option.bind_some, hfilled]
  have hin : l.inSlot j t = tile := by
    unfold inSlot
    rw [hsome]
    rfl
  rw [hin]
  exact ⟨hfilled, hsome⟩

theorem slots_of_added
    {k k' : Kernel} {l : StagedLoop} {buffers : List TileId}
    (hpos : 1 ≤ l.stages) (hbuffers : ∀ t ∈ buffers, k.Has t)
    (h : k.SlotsAdded l.stages buffers l.rotation k') :
    Slots k k' l buffers := by
  have hgrows := h.grows hpos
  have hslotted : ∀ t ∈ buffers, ∀ j, l.slotTile t j = some (l.inSlot j t) := by
    intro t ht j
    obtain ⟨_, _, _, hat⟩ := exists_slot_of_added hpos h ht
    exact (hat j).2
  rcases hpos.eq_or_lt with hone | hmany
  · -- a buffer is its own slot
    have hown : ∀ t ∈ buffers, ∀ j, l.inSlot j t = t := by
      intro t ht j
      obtain ⟨r, hr, hlogical, hat⟩ := exists_slot_of_added hpos h ht
      have hself := (hat j).1
      rw [(h.one hone.symm).2 r hr, ← hone, Nat.mod_one, hlogical] at hself
      exact (Option.some.inj hself).symm
    refine ⟨hgrows, h.logicals, hbuffers, hslotted,
      fun t ht j => Or.inl (hown t ht j), ?_, ?_⟩
    · intro t ht j
      rw [hown t ht j, hgrows.shapeOf_eq (hbuffers t ht)]
    · intro t ht u hu i j hsame
      rw [hown t ht, hown u hu] at hsame
      exact ⟨hsame.symm, by rw [← hone, Nat.mod_one, Nat.mod_one]⟩
  · refine ⟨hgrows, h.logicals, hbuffers, hslotted, ?_, ?_, ?_⟩
    · intro t ht j
      obtain ⟨r, hr, _, hat⟩ := exists_slot_of_added hpos h ht
      exact Or.inr (h.fresh hmany r hr _ (Array.mem_of_getElem? (hat j).1))
    · intro t ht j
      obtain ⟨r, hr, rfl, hat⟩ := exists_slot_of_added hpos h ht
      obtain ⟨_, tile, htile, hcopies⟩ := h.copies hmany r hr
      obtain ⟨slot, hfilled, hcopy⟩ :=
        hcopies (j % l.stages) (Nat.mod_lt j hpos)
      rw [(hat j).1] at hfilled
      cases hfilled
      rw [shapeOf_eq_ok.mpr ⟨_, tile_eq_ok_iff.mpr hcopy, rfl⟩,
        shapeOf_eq_ok.mpr ⟨_, tile_eq_ok_iff.mpr htile, rfl⟩]
      rfl
    · intro t ht u hu i j hsame
      obtain ⟨r, hr, hlogical, hat⟩ := exists_slot_of_added hpos h ht
      obtain ⟨r', hr', hlogical', hat'⟩ := exists_slot_of_added hpos h hu
      obtain ⟨rfl, hplace⟩ :=
        h.place_inj hmany hr hr' (hat i).1 (hsame ▸ (hat' j).1)
      exact ⟨hlogical'.symm.trans hlogical, hplace⟩

end StagedLoop

namespace Slots

variable {k k' : Kernel} {l : StagedLoop} {buffers : List TileId}

theorem rebase
    {base k'' : Kernel} (h : Slots k k' l buffers) (hbase : base.Extends k)
    (hbuffers : ∀ t ∈ buffers, base.Has t) (hgrows : k'.Extends k'') :
    Slots base k'' l buffers := by
  have hshape : ∀ t ∈ buffers,
      ∀ j, k''.shapeOf (l.inSlot j t) = base.shapeOf t := by
    intro t ht j
    have hinner := h.shapeOf t ht j
    have hlt : (l.inSlot j t).index < k'.tiles.size := by
      obtain ⟨shape, hok⟩ := shapeOf_of_lt (h.inTable t ht)
      exact lt_of_shapeOf (hinner.trans hok)
    rw [hgrows.shapeOf_eq hlt, hinner, hbase.shapeOf_eq (hbuffers t ht)]
  refine ⟨(hbase.trans h.grows).trans hgrows, h.logicals, hbuffers, h.slotted,
    ?_, hshape, h.apart⟩
  intro t ht j
  rcases h.home t ht j with hself | hfresh
  · exact Or.inl hself
  · exact Or.inr (hbase.size_le.trans hfresh)

theorem inSlot_of_not_mem
    (h : Slots k k' l buffers) (ht : t ∉ buffers) (j : Nat) :
    l.inSlot j t = t := by
  unfold StagedLoop.inSlot
  rw [StagedLoop.slotTile_of_not_mem (h.logicals.symm ▸ ht)]
  rfl

theorem shapeOf_inSlot (h : Slots k k' l buffers) (ht : k.Has t) (j : Nat) :
    k'.shapeOf (l.inSlot j t) = k.shapeOf t := by
  by_cases hbuffer : t ∈ buffers
  · exact h.shapeOf t hbuffer j
  · rw [h.inSlot_of_not_mem hbuffer]
    exact h.grows.shapeOf_eq ht

theorem inSlot_ne
    (h : Slots k k' l buffers) {u : TileId} (ht : t ∈ buffers) (hu : k.Has u)
    (hnot : u ∉ buffers) (j : Nat) : l.inSlot j t ≠ u := by
  intro heq
  rcases h.home t ht j with hself | hfresh
  · exact hnot (heq ▸ hself.symm ▸ ht)
  · rw [heq] at hfresh
    omega

theorem inSlot_injOn
    (h : Slots k k' l buffers) {u : TileId} (ht : k.Has t) (hu : k.Has u)
    {j : Nat} (heq : l.inSlot j t = l.inSlot j u) : t = u := by
  by_cases htb : t ∈ buffers
  · by_cases hub : u ∈ buffers
    · exact (h.apart t htb u hub j j heq).1.symm
    · rw [h.inSlot_of_not_mem hub] at heq
      exact (h.inSlot_ne htb hu hub j heq).elim
  · by_cases hub : u ∈ buffers
    · rw [h.inSlot_of_not_mem htb] at heq
      exact (h.inSlot_ne hub ht htb j heq.symm).elim
    · rwa [h.inSlot_of_not_mem htb, h.inSlot_of_not_mem hub] at heq

end Slots

/-! ## Scheduling one loop -/

namespace Kernel

theorem setSchedule_tiles (k : Kernel) (region : OpId) (l : StagedLoop) :
    (k.setSchedule region l).tiles = k.tiles := by
  unfold setSchedule
  split <;> rfl

theorem entries_eq_map_step
    {entries : List Op} {isLoop : Op → Bool}
    (hloop : ∀ head body, isLoop (.loop head body))
    (h : entries.find? isLoop = none) :
    ∃ steps : List Step, entries = steps.map Op.step := by
  rw [find?_eq_none] at h
  induction entries with
  | nil => exact ⟨[], rfl⟩
  | cons first rest ih =>
      obtain ⟨steps, hsteps⟩ :=
        ih fun op hop => h op (mem_cons_of_mem first hop)
      cases first with
      | loop head body => exact (h _ mem_cons_self (hloop head body)).elim
      | step s => exact ⟨s :: steps, by rw [hsteps, map_cons]⟩

theorem testRegion_eq_ok
    {k : Kernel} {region : OpId} {target : Target} {head : Loop} {roles : Roles}
    (h : k.testRegion region target = .ok (head, roles)) :
    ∃ (body : Body) (steps : List Step),
      k.findOp? region = some (.loop head body) ∧
      body.entries = steps.map Op.step ∧
      Roles.ofBody k region (steps.map Op.step) = .ok roles ∧
      ∃ required, k.sharedBytes roles.rotated
        (effectiveStages head.stages head.tripCount) =
        .ok required ∧ required ≤ target.shared.capacityBytes := by
  unfold testRegion at h
  split at h
  next head body hfind =>
    simp only at h
    generalize hinner : body.entries.find? _ = inner at h
    rcases inner with _ | ⟨s⟩ | ⟨inner, _⟩
    case some.step => simpa using find?_some hinner
    case some.loop =>
        obtain ⟨_, hfail, _⟩ := bind_eq_ok h
        cases hfail
    case none =>
        obtain ⟨steps, hsteps⟩ := entries_eq_map_step (fun _ _ => rfl) hinner
        obtain ⟨unresolved, _, h⟩ := bind_eq_ok h
        cases unresolved with
        | some t =>
            obtain ⟨_, hfail, _⟩ := bind_eq_ok h
            cases hfail
        | none =>
            obtain ⟨found, hroles, h⟩ := bind_eq_ok h
            obtain ⟨required, hrequired, h⟩ := bind_eq_ok h
            split at h
            · obtain ⟨_, hfail, _⟩ := bind_eq_ok h
              cases hfail
            · next hroom =>
              cases h
              rw [hsteps] at hroles
              exact ⟨body, steps, hfind, hsteps, hroles, required,
                lift_eq_ok_iff.mp hrequired, Nat.le_of_not_lt hroom⟩
  next => cases h

theorem scheduleRegion_eq_ok
    {k k' : Kernel} {region : OpId} {target : Target} {l : StagedLoop}
    (h : k.scheduleRegion region target = .ok (l, k')) :
    ∃ (head : Loop) (body : Body) (steps : List Step) (roles : Roles)
      (k₁ : Kernel), k.findOp? region = some (.loop head body) ∧
      body.entries = steps.map Op.step ∧
      Roles.ofBody k region (steps.map Op.step) = .ok roles ∧
      (∃ required, k.sharedBytes roles.rotated l.stages = .ok required ∧
        required ≤ target.shared.capacityBytes) ∧
      1 ≤ l.stages ∧ k.SlotsAdded l.stages roles.rotated l.rotation k₁ ∧
      l = StagedLoop.build region head.var head.tripCount head.stages
        (roles.producers.map (·.op)) roles.consumers l.rotation ∧
      k' = k₁.setSchedule region l := by
  obtain ⟨⟨head, roles⟩, htest, h⟩ := bind_eq_ok h
  obtain ⟨⟨rotation, k₁⟩, hslots, h⟩ := bind_eq_ok h
  cases h
  obtain ⟨body, steps, hfind, hentries, hroles, hroom⟩ := testRegion_eq_ok htest
  have hpos := effectiveStages_pos head.stages head.tripCount
  have hadded := slotsAdded_of_addAllSlots hpos (Roles.rotated_lt_size hroles)
    (lift_eq_ok_iff.mp hslots)
  refine ⟨head, body, steps, roles, k₁, hfind, hentries, hroles, ?_⟩
  rw [StagedLoop.build_stages]
  exact ⟨hroom, hpos, hadded, rfl, rfl⟩

end Kernel

end TileProgram
