import TileProgram.Proofs.Outcome
import TileProgram.Kernel.Basic
import TileProgram.Simulation.Memory

/-!
# The contents of memory

A memory is seen through `Memory.tile`, the contents of one tile.  Committing
writes changes every tile by its own writes only, in their order: `overlay` is
that change.  Sizes never change, so a memory that fits the tile table of a
kernel fits it throughout a run.
-/

namespace TileProgram

open List

variable {t : TileId} {i : Nat}

def Write.rename {α : Type} (f : TileId → TileId) (w : Write α) : Write α :=
  { w with tile := f w.tile }

@[simp]
theorem Write.rename_tile {α : Type} (f : TileId → TileId) (w : Write α) :
    (w.rename f).tile = f w.tile := rfl

@[simp]
theorem Write.rename_index {α : Type} (f : TileId → TileId) (w : Write α) :
    (w.rename f).index = w.index := rfl

@[simp]
theorem Write.rename_value {α : Type} (f : TileId → TileId) (w : Write α) :
    (w.rename f).value = w.value := rfl

/-- The contents of a tile after those writes of a list that go to it. -/
def overlay {α : Type} (t : TileId) (writes : List (Write α)) (data : Array α) :
    Array α :=
  writes.foldl (fun data w =>
    if w.tile = t then data.setIfInBounds w.index w.value else data) data

/-- Every element of a tile of `size` elements is written. -/
def Covers {α : Type} (writes : List (Write α)) (t : TileId) (size : Nat) :
    Prop :=
  ∀ i < size, ∃ w ∈ writes, w.tile = t ∧ w.index = i

section

variable {α : Type} {writes : List (Write α)}

@[simp]
theorem overlay_nil (t : TileId) (data : Array α) :
    overlay t [] data = data := rfl

@[simp]
theorem overlay_cons
    (t : TileId) (w : Write α) (writes : List (Write α)) (data : Array α) :
    overlay t (w :: writes) data =
      overlay t writes
        (if w.tile = t then data.setIfInBounds w.index w.value else data) :=
  rfl

theorem overlay_append
    (t : TileId) (first second : List (Write α)) (data : Array α) :
    overlay t (first ++ second) data =
      overlay t second (overlay t first data) := by
  unfold overlay
  rw [foldl_append]

@[simp]
theorem size_overlay (t : TileId) (writes : List (Write α)) (data : Array α) :
    (overlay t writes data).size = data.size := by
  induction writes generalizing data with
  | nil => rfl
  | cons w writes ih =>
      rw [overlay_cons, ih]
      split
      · exact Array.size_setIfInBounds
      · rfl

theorem overlay_of_forall_ne (h : ∀ w ∈ writes, w.tile ≠ t) (data : Array α) :
    overlay t writes data = data := by
  induction writes generalizing data with
  | nil => rfl
  | cons w writes ih =>
      have hhead : w.tile ≠ t := h w mem_cons_self
      rw [overlay_cons, if_neg hhead]
      exact ih (fun v hv => h v (mem_cons_of_mem w hv)) data

theorem overlay_map_rename
    {f : TileId → TileId} (h : ∀ w ∈ writes, f w.tile = f t → w.tile = t)
    (data : Array α) :
    overlay (f t) (writes.map (Write.rename f)) data =
      overlay t writes data := by
  induction writes generalizing data with
  | nil => rfl
  | cons w writes ih =>
      rw [map_cons, overlay_cons, overlay_cons,
        ih (fun v hv => h v (mem_cons_of_mem w hv))]
      by_cases htile : w.tile = t
      · simp [htile]
      · have hmoved : f w.tile ≠ f t := fun heq => htile (h w mem_cons_self heq)
        simp [htile, hmoved]

theorem overlay_land
    {before now after : List (Write α)}
    (hapart : ∀ v ∈ before, ∀ w ∈ now, v.tile ≠ w.tile) (data : Array α) :
    overlay t (before ++ after) (overlay t now data) =
      overlay t (before ++ now ++ after) data := by
  rw [overlay_append, overlay_append, overlay_append]
  congr 1
  by_cases hnow : ∃ w ∈ now, w.tile = t
  · obtain ⟨w, hw, rfl⟩ := hnow
    have hbefore : ∀ v ∈ before, v.tile ≠ w.tile := fun v hv => hapart v hv w hw
    rw [overlay_of_forall_ne hbefore, overlay_of_forall_ne hbefore]
  · have hnone : ∀ w ∈ now, w.tile ≠ t := fun w hw heq => hnow ⟨w, hw, heq⟩
    rw [overlay_of_forall_ne hnone, overlay_of_forall_ne hnone]

theorem getElem?_overlay_of_forall_ne
    (h : ∀ w ∈ writes, w.tile = t → w.index ≠ i) (data : Array α) :
    (overlay t writes data)[i]? = data[i]? := by
  induction writes generalizing data with
  | nil => rfl
  | cons w writes ih =>
      rw [overlay_cons, ih (fun v hv => h v (mem_cons_of_mem w hv))]
      by_cases htile : w.tile = t
      · have hindex : w.index ≠ i := h w mem_cons_self htile
        rw [if_pos htile, Array.getElem?_setIfInBounds_ne hindex]
      · rw [if_neg htile]

theorem exists_write_of_overlay
    {data : Array α} (hi : i < data.size)
    (hmem : ∃ w ∈ writes, w.tile = t ∧ w.index = i) :
    ∃ w ∈ writes, w.tile = t ∧ w.index = i ∧
      (overlay t writes data)[i]? = some w.value := by
  induction writes generalizing data with
  | nil =>
      obtain ⟨w, hw, _⟩ := hmem
      cases hw
  | cons w writes ih =>
      rw [overlay_cons]
      by_cases hlater : ∃ v ∈ writes, v.tile = t ∧ v.index = i
      · have hsize : i < (if w.tile = t then data.setIfInBounds w.index w.value
            else data).size := by
          split
          · rw [Array.size_setIfInBounds]
            exact hi
          · exact hi
        obtain ⟨v, hv, hlast⟩ := ih hsize hlater
        exact ⟨v, mem_cons_of_mem w hv, hlast⟩
      · obtain ⟨v, hv, htile, hindex⟩ := hmem
        have hhead : v = w := by
          rcases mem_cons.mp hv with heq | hrest
          · exact heq
          · exact (hlater ⟨v, hrest, htile, hindex⟩).elim
        subst hhead
        refine ⟨v, mem_cons_self, htile, hindex, ?_⟩
        rw [getElem?_overlay_of_forall_ne
          (fun u hu hut hui => hlater ⟨u, hu, hut, hui⟩), if_pos htile, hindex,
          Array.getElem?_setIfInBounds_self_of_lt hi]

theorem getElem?_overlay_of_mem
    {value : α} {data : Array α} (hi : i < data.size)
    (hmem : ∃ w ∈ writes, w.tile = t ∧ w.index = i)
    (hvalue : ∀ w ∈ writes, w.tile = t → w.index = i → w.value = value) :
    (overlay t writes data)[i]? = some value := by
  obtain ⟨w, hw, htile, hindex, hget⟩ := exists_write_of_overlay hi hmem
  rw [hget, hvalue w hw htile hindex]

theorem overlay_eq_of_covers
    {data data' : Array α} (hsize : data.size = data'.size)
    (hcovers : Covers writes t data.size) :
    overlay t writes data = overlay t writes data' := by
  -- what differs must be at an index that no write has reached so far
  suffices h : ∀ (done : Nat → Prop),
      (∀ i < data.size, done i → data[i]? = data'[i]?) →
      (∀ i < data.size, done i ∨ ∃ w ∈ writes, w.tile = t ∧ w.index = i) →
      overlay t writes data = overlay t writes data' from
    h (fun _ => False) (fun _ _ hfalse => hfalse.elim)
      (fun i hi => Or.inr (hcovers i hi))
  clear hcovers
  induction writes generalizing data data' with
  | nil =>
      intro done hsame hall
      apply Array.ext hsize
      intro i hi hi'
      have hdone : done i := by
        rcases hall i hi with hdone | ⟨w, hw, _⟩
        · exact hdone
        · cases hw
      have hget := hsame i hi hdone
      rw [Array.getElem?_eq_getElem hi, Array.getElem?_eq_getElem hi'] at hget
      exact Option.some.inj hget
  | cons w writes ih =>
      intro done hsame hall
      rw [overlay_cons, overlay_cons]
      by_cases htile : w.tile = t
      · rw [if_pos htile, if_pos htile]
        apply ih (by simp [hsize]) (fun i => done i ∨ w.index = i)
        · intro i hi hdone
          rw [Array.size_setIfInBounds] at hi
          by_cases hindex : w.index = i
          · rw [hindex, Array.getElem?_setIfInBounds_self_of_lt hi,
              Array.getElem?_setIfInBounds_self_of_lt (hsize ▸ hi)]
          · rw [Array.getElem?_setIfInBounds_ne hindex,
              Array.getElem?_setIfInBounds_ne hindex]
            exact hsame i hi (hdone.resolve_right hindex)
        · intro i hi
          rw [Array.size_setIfInBounds] at hi
          rcases hall i hi with hdone | ⟨v, hv, hvt, hvi⟩
          · exact Or.inl (Or.inl hdone)
          · rcases mem_cons.mp hv with heq | hrest
            · exact Or.inl (Or.inr (heq ▸ hvi))
            · exact Or.inr ⟨v, hrest, hvt, hvi⟩
      · rw [if_neg htile, if_neg htile]
        apply ih hsize done hsame
        intro i hi
        rcases hall i hi with hdone | ⟨v, hv, hvt, hvi⟩
        · exact Or.inl hdone
        · rcases mem_cons.mp hv with heq | hrest
          · exact (htile (heq ▸ hvt)).elim
          · exact Or.inr ⟨v, hrest, hvt, hvi⟩

end

namespace Memory

variable {α : Type} {m : Memory α} {writes : List (Write α)}

def extent (m : Memory α) (t : TileId) : Checked Nat :=
  (m.tile t).map Array.size

/-- The memory after writes, whether or not their tiles exist. -/
def put (m : Memory α) (writes : List (Write α)) : Memory α :=
  writes.foldl write m

theorem tile_of_lt (h : t.index < m.tiles.size) :
    m.tile t = .ok (m.tiles[t.index]) := by
  simp [tile, h]

theorem tile_of_ge (h : m.tiles.size ≤ t.index) :
    m.tile t = .error .outOfRange := by
  simp [tile, h]

theorem exists_tile_iff :
    (∃ data, m.tile t = .ok data) ↔ t.index < m.tiles.size := by
  constructor
  · rintro ⟨data, hdata⟩
    by_contra hge
    rw [tile_of_ge (by omega)] at hdata
    cases hdata
  · intro hlt
    exact ⟨_, tile_of_lt hlt⟩

theorem tile_write (m : Memory α) (w : Write α) (t : TileId) :
    (m.write w).tile t = (m.tile t).map (overlay t [w]) := by
  simp only [tile, write, Array.getElem?_modify]
  by_cases hindex : w.tile.index = t.index
  · have htile : w.tile = t := by
      cases hw : w.tile
      cases ht : t
      simp_all
    cases hget : m.tiles[t.index]? with
    | none => simp [hindex, Except.map]
    | some data => simp [Except.map, htile]
  · have htile : w.tile ≠ t := fun heq => hindex (congrArg TileId.index heq)
    cases hget : m.tiles[t.index]? with
    | none => simp [hindex, Except.map]
    | some data => simp [hindex, Except.map, htile]

theorem tile_put (m : Memory α) (writes : List (Write α)) (t : TileId) :
    (m.put writes).tile t = (m.tile t).map (overlay t writes) := by
  induction writes generalizing m with
  | nil =>
      simp only [put, foldl_nil]
      cases m.tile t <;> rfl
  | cons w writes ih =>
      have hrest : (m.put (w :: writes)).tile t =
          ((m.write w).put writes).tile t := rfl
      rw [hrest, ih, tile_write, map_map]
      rfl

theorem tile_put_of_forall_ne (h : ∀ w ∈ writes, w.tile ≠ t) :
    (m.put writes).tile t = m.tile t := by
  rw [tile_put]
  cases m.tile t with
  | error e => rfl
  | ok data => exact congrArg Except.ok (overlay_of_forall_ne h data)

@[simp]
theorem size_write (m : Memory α) (w : Write α) :
    (m.write w).tiles.size = m.tiles.size := by
  simp [write]

@[simp]
theorem size_put (m : Memory α) (writes : List (Write α)) :
    (m.put writes).tiles.size = m.tiles.size := by
  induction writes generalizing m with
  | nil => rfl
  | cons w writes ih =>
      have hrest : m.put (w :: writes) = (m.write w).put writes := rfl
      rw [hrest, ih, size_write]

@[simp]
theorem extent_put (m : Memory α) (writes : List (Write α)) (t : TileId) :
    (m.put writes).extent t = m.extent t := by
  unfold extent
  rw [tile_put, map_map]
  cases m.tile t with
  | error e => rfl
  | ok data => exact congrArg Except.ok (size_overlay t writes data)

theorem put_append (m : Memory α) (first second : List (Write α)) :
    m.put (first ++ second) = (m.put first).put second := by
  unfold put
  rw [foldl_append]

theorem ext_tile {m m' : Memory α} (h : ∀ t, m.tile t = m'.tile t) :
    m = m' := by
  have hsize : m.tiles.size = m'.tiles.size := by
    rcases Nat.lt_trichotomy m.tiles.size m'.tiles.size with hlt | heq | hgt
    · have hmissing := h ⟨m.tiles.size⟩
      rw [tile_of_ge (by simp), tile_of_lt (by simpa using hlt)] at hmissing
      cases hmissing
    · exact heq
    · have hmissing := h ⟨m'.tiles.size⟩
      rw [tile_of_lt (by simpa using hgt), tile_of_ge (by simp)] at hmissing
      cases hmissing
  cases m with
  | mk tiles =>
      cases m' with
      | mk tiles' =>
          congr 1
          apply Array.ext hsize
          intro i hi hi'
          have hentry := h ⟨i⟩
          rw [tile_of_lt (by simpa using hi), tile_of_lt (by simpa using hi')]
            at hentry
          exact Except.ok.inj hentry

theorem put_comm
    {first second : List (Write α)}
    (h : ∀ v ∈ first, ∀ w ∈ second, v.tile ≠ w.tile) :
    (m.put first).put second = (m.put second).put first := by
  apply ext_tile
  intro t
  by_cases hfirst : ∃ v ∈ first, v.tile = t
  · obtain ⟨v, hv, rfl⟩ := hfirst
    have hsecond : ∀ w ∈ second, w.tile ≠ v.tile :=
      fun w hw heq => h v hv w hw heq.symm
    rw [tile_put_of_forall_ne hsecond, tile_put, tile_put,
      tile_put_of_forall_ne hsecond]
  · have hnone : ∀ v ∈ first, v.tile ≠ t := fun v hv heq => hfirst ⟨v, hv, heq⟩
    rw [tile_put_of_forall_ne hnone, tile_put, tile_put_of_forall_ne hnone,
      tile_put]

theorem commit_of_forall (h : ∀ w ∈ writes, w.tile.index < m.tiles.size) :
    m.commit writes = .ok (m.put writes) := by
  unfold commit
  rw [if_pos]
  · rfl
  · simpa using h

theorem commit_of_not_forall (h : ¬ ∀ w ∈ writes, w.tile.index < m.tiles.size) :
    m.commit writes = .error .outOfRange := by
  unfold commit
  rw [if_neg]
  simpa using h

theorem commit_eq_ok_iff {m m' : Memory α} :
    m.commit writes = .ok m' ↔
      (∀ w ∈ writes, w.tile.index < m.tiles.size) ∧ m' = m.put writes := by
  constructor
  · intro h
    unfold commit at h
    split at h
    next hall =>
      refine ⟨by simpa using hall, ?_⟩
      cases h
      rfl
    next => cases h
  · rintro ⟨hall, rfl⟩
    exact commit_of_forall hall

theorem replace_eq_ok (ht : t.index < m.tiles.size) (data : Array α) :
    ∃ m', m.replace t data = .ok m' ∧ m'.tile t = .ok data ∧ ∀ u,
      u ≠ t → m'.tile u = m.tile u := by
  refine ⟨⟨m.tiles.setIfInBounds t.index data⟩, if_pos ht, ?_, ?_⟩
  · unfold tile
    simp only
    rw [Array.getElem?_setIfInBounds_self_of_lt ht]
  · intro u hu
    have hindex : t.index ≠ u.index := by
      intro heq
      apply hu
      cases u
      cases t
      simp_all
    unfold tile
    simp only
    rw [Array.getElem?_setIfInBounds_ne hindex]

end Memory

def Kernel.shapeOf (k : Kernel) (t : TileId) : Checked Shape :=
  (k.tile t).map (·.shape)

theorem Kernel.bind_shapeOf
    {β : Type} (k : Kernel) (t : TileId) (f : Shape → Checked β) :
    (k.tile t >>= fun tile => f tile.shape) = (k.shapeOf t >>= f) := by
  unfold Kernel.shapeOf
  rw [map_bind]

/-- The memory holds every tile of the table, each in full. -/
def Memory.Fits {α : Type} (m : Memory α) (k : Kernel) : Prop :=
  ∀ t, m.extent t = (k.shapeOf t).map List.prod

namespace Memory.Fits

variable {α : Type} {m : Memory α} {k : Kernel}

theorem put (h : m.Fits k) (writes : List (Write α)) :
    (m.put writes).Fits k := by
  intro t
  rw [Memory.extent_put]
  exact h t

theorem tile_eq_ok
    (h : m.Fits k) {shape : Shape} (hshape : k.shapeOf t = .ok shape) :
    ∃ data, m.tile t = .ok data ∧ data.size = shape.prod := by
  have hextent := h t
  rw [hshape] at hextent
  exact map_eq_ok_iff.mp hextent

theorem extent_congr
    {k' : Kernel} {β : Type} {m' : Memory β} {t' : TileId} (h : m.Fits k)
    (h' : m'.Fits k') (hshape : k'.shapeOf t' = k.shapeOf t) :
    m'.extent t' = m.extent t := by
  rw [h t, h' t', hshape]

theorem size_eq (h : m.Fits k) : m.tiles.size = k.tiles.size := by
  have hiff : ∀ i, i < m.tiles.size ↔ i < k.tiles.size := by
    intro i
    have hextent := h ⟨i⟩
    unfold Memory.extent Kernel.shapeOf Kernel.tile Checked.entry at hextent
    constructor
    · intro hi
      by_contra hge
      rw [Memory.tile_of_lt (by simpa using hi)] at hextent
      simp [hge, Except.map] at hextent
    · intro hi
      by_contra hge
      rw [Memory.tile_of_ge (by simpa using hge)] at hextent
      simp [hi, Except.map] at hextent
  rcases Nat.lt_trichotomy m.tiles.size k.tiles.size with hlt | heq | hgt
  · exact (Nat.lt_irrefl _ ((hiff _).mpr hlt)).elim
  · exact heq
  · exact (Nat.lt_irrefl _ ((hiff _).mp hgt)).elim

end Memory.Fits

end TileProgram
