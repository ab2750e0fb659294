import TileProgram.Proofs.Staged.Sequential

/-!
# The invariant of a staged loop

A staged loop is compared with the same loop in sequence.  Between iterations
(`Idle c p`) the consumers of the iterations below `c` are done and the
producers of those below `p` have begun: tiles that are not rotated are as after
`c` laps, and every slot in use is right once the outstanding writes of its
iteration have landed.  While the consumers of iteration `c` are at work (`Busy
c p`), its slots hold what the sequential loop has in the buffers.  The lemmas
below say how each event changes the invariant: producers begin, writes land, an
iteration is acquired, a consumer runs, an iteration ends.
-/

namespace TileProgram

open Kernel List

variable {j p c : Nat} {t : TileId} {s : Step}

/-- A scheduled loop together with its laps in sequence. -/
structure LoopRun (α : Type) [Element α] where
  base : Kernel
  kernel : Kernel
  loop : StagedLoop
  steps : List Step
  env : Bindings
  laps : Nat → Memory α
  region : StagedRegion base kernel loop steps
  sequence : Laps kernel loop steps env laps

namespace LoopRun

variable {α : Type} [Element α] (r : LoopRun α)

def buffers : List TileId := rotatedBuffers r.base r.steps

def envAt (j : Nat) : Bindings := r.env.bind r.loop.var (signed64 j)

def writes (j : Nat) : List (Write α) :=
  r.loop.produce r.base r.kernel r.steps r.env (r.laps 0) j

def filled (j : Nat) : Memory α := (r.laps j).put (r.writes j)

/-- What is outstanding of the iterations from `first` to before `p`. -/
structure Outstanding
    (first p : Nat) (out : Nat → List (Write α)) (m : Memory α) : Prop where
  fits : m.Fits r.kernel
  targets : ∀ j, ∀ w ∈ out j, ∃ t ∈ r.buffers, w.tile = r.loop.inSlot j t
  pending : ∀ j, first ≤ j → j < p → ∀ t ∈ r.buffers,
    (m.tile (r.loop.inSlot j t)).map (overlay (r.loop.inSlot j t) (out j)) =
    (r.filled j).tile t

structure Idle (c p : Nat) (out : Nat → List (Write α)) (m : Memory α) : Prop
    extends r.Outstanding c p out m where
  off : ∀ t, r.base.Has t → t ∉ r.buffers → m.tile t = (r.laps c).tile t
  last : 0 < c → p < c + r.loop.stages → ∀ t ∈ r.buffers,
    m.tile (r.loop.inSlot (c - 1) t) = (r.laps c).tile t

/-- The consumers of iteration `c` are at work; in sequence the memory is
`now`. -/
structure Busy
    (c p : Nat) (out : Nat → List (Write α)) (now m : Memory α) : Prop
    extends r.Outstanding (c + 1) p out m where
  fitsNow : now.Fits r.kernel
  same : ∀ t, r.base.Has t → m.tile (r.loop.inSlot c t) = now.tile t

section

variable {r} {out : Nat → List (Write α)} {m : Memory α}

theorem fits_laps (hj : j ≤ r.loop.tripCount) : (r.laps j).Fits r.kernel :=
  (r.sequence.sourced r.region.runsAhead hj).fits

theorem buffers_lt (ht : t ∈ r.buffers) : r.base.Has t :=
  r.region.slots.inTable t ht

theorem inSlot_ne
    {u : TileId} (ht : t ∈ r.buffers) (hu : r.base.Has u) {i : Nat}
    (hne : i % r.loop.stages ≠ j % r.loop.stages) :
    r.loop.inSlot i t ≠ r.loop.inSlot j u := by
  intro heq
  by_cases hub : u ∈ r.buffers
  · exact hne (r.region.slots.apart t ht u hub i j heq).2
  · rw [r.region.slots.inSlot_of_not_mem hub] at heq
    exact r.region.slots.inSlot_ne ht hu hub i heq

/-! ## Events -/

section

variable {first : Nat} {now : Memory α} {before landed after : List (Write α)}

/-- Writes of an iteration reach the slots of that iteration only. -/
theorem Outstanding.tile_put
    (h : r.Outstanding first p out m) (hout : out j = before ++ landed ++ after)
    (hne : ∀ u ∈ r.buffers, r.loop.inSlot j u ≠ t) :
    (m.put landed).tile t = m.tile t := by
  apply Memory.tile_put_of_forall_ne
  intro w hw
  obtain ⟨u, hu, hwu⟩ := h.targets j w (by
    rw [hout]
    exact mem_append_left _ (mem_append_right _ hw))
  rw [hwu]
  exact hne u hu

theorem Outstanding.land
    (h : r.Outstanding first p out m) (hwindow : p ≤ first + r.loop.stages)
    (hlo : first ≤ j) (hhi : j < p) (hout : out j = before ++ landed ++ after)
    (hapart : ∀ v ∈ before, ∀ w ∈ landed, v.tile ≠ w.tile) :
    r.Outstanding first p (Function.update out j (before ++ after))
      (m.put landed) := by
  refine ⟨h.fits.put landed, ?_, ?_⟩
  · intro i w hw
    by_cases hij : i = j
    · subst hij
      rw [Function.update_self] at hw
      apply h.targets i w
      rw [hout]
      rcases mem_append.mp hw with hbefore | hafter
      · exact mem_append_left _ (mem_append_left _ hbefore)
      · exact mem_append_right _ hafter
    · rw [Function.update_of_ne hij] at hw
      exact h.targets i w hw
  · intro i hi hip t ht
    have hpending := h.pending i hi hip t ht
    by_cases hij : i = j
    · subst hij
      rw [Function.update_self, Memory.tile_put, map_map, ← hpending, hout]
      congr 1
      funext data
      exact overlay_land hapart data
    · rw [Function.update_of_ne hij, h.tile_put hout, hpending]
      intro u hu
      apply inSlot_ne hu (buffers_lt ht)
      rcases Nat.lt_or_gt_of_ne hij with hlt | hgt
      · exact (mod_ne_of_lt hlt (by omega)).symm
      · exact mod_ne_of_lt hgt (by omega)

theorem Idle.land
    (h : r.Idle c p out m) (hwindow : p ≤ c + r.loop.stages) (hlo : c ≤ j)
    (hhi : j < p) (hout : out j = before ++ landed ++ after)
    (hapart : ∀ v ∈ before, ∀ w ∈ landed, v.tile ≠ w.tile) :
    r.Idle c p (Function.update out j (before ++ after)) (m.put landed) := by
  refine ⟨h.toOutstanding.land hwindow hlo hhi hout hapart, ?_, ?_⟩
  · intro t ht hnot
    rw [h.tile_put hout, h.off t ht hnot]
    exact fun u hu => r.region.slots.inSlot_ne hu ht hnot j
  · intro hc hlast t ht
    rw [h.tile_put hout, h.last hc hlast t ht]
    exact fun u hu =>
      (inSlot_ne ht (buffers_lt hu) (mod_ne_of_lt (by omega) (by omega))).symm

theorem Busy.land
    (h : r.Busy c p out now m) (hwindow : p ≤ c + r.loop.stages) (hlo : c < j)
    (hhi : j < p) (hout : out j = before ++ landed ++ after)
    (hapart : ∀ v ∈ before, ∀ w ∈ landed, v.tile ≠ w.tile) :
    r.Busy c p (Function.update out j (before ++ after)) now
      (m.put landed) := by
  refine ⟨h.toOutstanding.land (by omega) hlo hhi hout hapart, h.fitsNow, ?_⟩
  intro t ht
  rw [h.tile_put hout, h.same t ht]
  exact fun u hu => inSlot_ne hu ht (mod_ne_of_lt hlo (by omega)).symm

end

/-- What the producers of an iteration write to its slots. -/
def landing (r : LoopRun α) (j : Nat) : List (Write α) :=
  (r.writes j).map (Write.rename (r.loop.inSlot j))

theorem landing_targets {w : Write α} (hw : w ∈ r.landing j) :
    ∃ t ∈ r.buffers, w.tile = r.loop.inSlot j t := by
  obtain ⟨v, hv, rfl⟩ := mem_map.mp hw
  exact ⟨v.tile, Laps.produce_targets hv, rfl⟩

/-- Once everything has landed a slot holds what the producers leave in the
buffer, whatever it held before. -/
theorem map_overlay_landing
    (hj : j < r.loop.tripCount) (hfits : m.Fits r.kernel) (ht : t ∈ r.buffers) :
    (m.tile (r.loop.inSlot j t)).map
      (overlay (r.loop.inSlot j t) (r.landing j)) = (r.filled j).tile t := by
  have hlt := buffers_lt ht
  obtain ⟨shape, hshape⟩ := shapeOf_of_lt hlt
  have hkernel : r.kernel.shapeOf t = .ok shape :=
    (r.region.slots.grows.shapeOf_eq hlt).trans hshape
  have hslot : r.kernel.shapeOf (r.loop.inSlot j t) = .ok shape :=
    (r.region.slots.shapeOf_inSlot hlt j).trans hshape
  obtain ⟨data, hdata, hsize⟩ := hfits.tile_eq_ok hslot
  obtain ⟨data', hdata', hsize'⟩ :=
    (fits_laps (Nat.le_of_lt hj)).tile_eq_ok hkernel
  have hcovers : Covers (r.writes j) t shape.prod :=
    r.sequence.produce_covers r.region hj ht hkernel
  have hmoved : overlay (r.loop.inSlot j t) (r.landing j) data =
      overlay t (r.writes j) data := by
    apply overlay_map_rename
    intro w hw heq
    exact r.region.slots.inSlot_injOn (buffers_lt (Laps.produce_targets hw))
      hlt heq
  unfold filled
  rw [Memory.tile_put, hdata, hdata']
  simp only [Except.map]
  rw [hmoved, overlay_eq_of_covers (hsize.trans hsize'.symm) (by rwa [hsize])]

theorem Idle.begin (h : r.Idle c p out m) (hp : p < r.loop.tripCount) :
    r.Idle c (p + 1) (Function.update out p (r.landing p)) m := by
  refine ⟨⟨h.fits, ?_, ?_⟩, h.off, fun hc hlast => h.last hc (by omega)⟩
  · intro j w hw
    by_cases hjp : j = p
    · subst hjp
      rw [Function.update_self] at hw
      exact landing_targets hw
    · rw [Function.update_of_ne hjp] at hw
      exact h.targets j w hw
  · intro j hlo hhi t ht
    by_cases hjp : j = p
    · subst hjp
      rw [Function.update_self]
      exact map_overlay_landing hp h.fits ht
    · rw [Function.update_of_ne hjp]
      exact h.pending j hlo (by omega) t ht

theorem Idle.acquire
    (h : r.Idle c p out m) (hcp : c < p) (hp : p ≤ r.loop.tripCount)
    (hout : out c = []) : r.Busy c p out (r.filled c) m := by
  refine ⟨⟨h.fits, h.targets, fun j hlo => h.pending j (by omega)⟩,
    (fits_laps (by omega)).put _, ?_⟩
  intro t ht
  by_cases hbuffer : t ∈ r.buffers
  · have hpending := h.pending c (Nat.le_refl c) hcp t hbuffer
    rw [← hpending, hout]
    cases m.tile (r.loop.inSlot c t) <;> rfl
  · rw [r.region.slots.inSlot_of_not_mem hbuffer, h.off t ht hbuffer]
    unfold filled
    rw [Memory.tile_put_of_forall_ne]
    intro w hw heq
    exact hbuffer (heq ▸ Laps.produce_targets hw)

theorem Idle.source
    (h : r.Idle c p out m) (hc : c ≤ r.loop.tripCount) (hs : s ∈ r.steps)
    (hside : s.isProducer r.base) (ht : t ∈ s.op.reads) :
    t ∉ r.buffers ∧ m.tile t = (r.laps 0).tile t := by
  have hnot : t ∉ r.buffers := by
    intro hbuffer
    obtain ⟨o, ho, _, hwrites⟩ := mem_rotatedBuffers.mp hbuffer
    exact r.region.runsAhead.sources s hs hside t ht o ho hwrites
  have hlt := (r.region.fitting s hs).lt_size t (mem_append_left _ ht)
  refine ⟨hnot, (h.off t hlt hnot).trans ?_⟩
  exact (r.sequence.sourced r.region.runsAhead hc).same s hs hside t ht

theorem mirrors_inSlot
    {op : TileOp} (hop : op.Fitting r.base) {now m : Memory α}
    (hnow : now.Fits r.kernel) (hm : m.Fits r.kernel)
    (hread : ∀ t ∈ op.reads, m.tile (r.loop.inSlot j t) = now.tile t) :
    Mirrors (r.loop.inSlot j) r.kernel r.kernel now m op.tiles op.reads := by
  have hshape : ∀ t ∈ op.tiles,
      r.kernel.shapeOf (r.loop.inSlot j t) = r.kernel.shapeOf t := by
    intro t ht
    have hlt := hop.lt_size t ht
    rw [r.region.slots.shapeOf_inSlot hlt, r.region.slots.grows.shapeOf_eq hlt]
  exact ⟨hshape, fun t ht => hnow.extent_congr hm (hshape t ht), hread⟩

theorem Idle.eval_producer
    (h : r.Idle c p out m) (hc : c ≤ r.loop.tripCount)
    (hj : j < r.loop.tripCount) (hs : s ∈ r.steps)
    (hside : s.isProducer r.base) :
    (s.op.mapTiles (r.loop.inSlot j)).eval r.kernel m (r.envAt j) =
      .ok ((producedBy r.kernel (r.envAt j) (r.laps 0) s).map
        (Write.rename (r.loop.inSlot j))) := by
  have hmirrors : Mirrors (r.loop.inSlot j) r.kernel r.kernel (r.laps 0) m
      s.op.tiles s.op.reads := by
    apply mirrors_inSlot (r.region.fitting s hs) r.sequence.fits h.fits
    intro t ht
    obtain ⟨hnot, hsame⟩ := h.source hc hs hside ht
    rw [r.region.slots.inSlot_of_not_mem hnot, hsame]
  have heval : s.op.eval r.kernel (r.laps 0) (r.envAt j) =
      .ok (producedBy r.kernel (r.envAt j) (r.laps 0) s) :=
    r.sequence.eval_producer r.region.runsAhead hj hs hside
  rw [TileOp.eval_mapTiles hmirrors, heval]
  rfl

theorem Busy.exec
    {now now' m : Memory α} (h : r.Busy c p out now m)
    (hwindow : p ≤ c + r.loop.stages) (hs : s ∈ r.steps)
    (hexec : s.op.exec r.kernel (r.envAt c) now = .ok now') :
    ∃ m', (s.op.mapTiles (r.loop.inSlot c)).exec r.kernel (r.envAt c) m =
      .ok m' ∧ r.Busy c p out now' m' := by
  have hfit := r.region.fitting s hs
  have hlt : ∀ t ∈ s.op.writes, r.base.Has t := fun t ht =>
    hfit.lt_size t (mem_append_right _ ht)
  have hmirrors := mirrors_inSlot hfit h.fitsNow h.fits
    (fun t ht => h.same t (hfit.lt_size t (mem_append_left _ ht)))
  have hmatches : Matches (TileOp.SameEffect (r.loop.inSlot c) s.op now m)
      (s.op.exec r.kernel (r.envAt c) now)
      ((s.op.mapTiles (r.loop.inSlot c)).exec r.kernel (r.envAt c) m) :=
    TileOp.exec_mapTiles hmirrors
  rw [hexec] at hmatches
  obtain ⟨m', hexec', heffect⟩ := hmatches.ok_left
  refine ⟨m', hexec', ⟨TileOp.fits_exec h.fits hexec', h.targets, ?_⟩,
    TileOp.fits_exec h.fitsNow hexec, ?_⟩
  · intro j hlo hhi t ht
    rw [heffect.untouched, h.pending j hlo hhi t ht]
    intro w hw
    exact (inSlot_ne ht (hlt w hw)
      (mod_ne_of_lt (by omega) (by omega)).symm).symm
  · intro t ht
    apply heffect.alike t _ (h.same t ht)
    intro w hw heq
    exact r.region.slots.inSlot_injOn (hlt w hw) ht heq

theorem Busy.finish (h : r.Busy c p out (r.laps (c + 1)) m) :
    r.Idle (c + 1) p out m := by
  refine ⟨h.toOutstanding, ?_, ?_⟩
  · intro t ht hnot
    have hsame := h.same t ht
    rwa [r.region.slots.inSlot_of_not_mem hnot] at hsame
  · intro _ _ t ht
    exact h.same t (buffers_lt ht)

theorem idle_start
    (hfits : m.Fits r.kernel)
    (hsame : ∀ t, r.base.Has t → m.tile t = (r.laps 0).tile t) :
    r.Idle 0 0 (fun _ => []) m := by
  refine ⟨⟨hfits, fun _ _ hw => (not_mem_nil hw).elim, fun _ _ hhi => by omega⟩,
    ?_, fun hc => by omega⟩
  intro t ht _
  exact hsame t ht

end

end LoopRun

/-! ## The end of the loop -/

namespace Slots

variable {α : Type} {base k : Kernel} {l : StagedLoop} {buffers : List TileId}

/-- The step gives the buffer what its slot of the iteration holds, and changes
no slot. -/
def Refills
    (k : Kernel) (l : StagedLoop) (buffers : List TileId) (j : Nat)
    (step : Memory α → RotatedBuffer → Checked (Memory α)) : Prop :=
  ∀ m r, m.Fits k → r.logical ∈ buffers → ∃ m', step m r = .ok m' ∧ m'.Fits k ∧
    (∀ u ∈ buffers, m'.tile (l.inSlot j u) = m.tile (l.inSlot j u)) ∧
    m'.tile r.logical = m.tile (l.inSlot j r.logical) ∧
    ∀ u, u ≠ r.logical → m'.tile u = m.tile u

theorem Refills.foldlM
    {step : Memory α → RotatedBuffer → Checked (Memory α)}
    (h : Refills k l buffers j step) {rotation : List RotatedBuffer}
    (hlogicals : ∀ r ∈ rotation, r.logical ∈ buffers) {m : Memory α}
    (hfits : m.Fits k) :
    ∃ m', rotation.foldlM step m = .ok m' ∧ m'.Fits k ∧
      (∀ r ∈ rotation, m'.tile r.logical = m.tile (l.inSlot j r.logical)) ∧
      ∀ u, u ∉ rotation.map (·.logical) → m'.tile u = m.tile u := by
  induction rotation generalizing m with
  | nil => exact ⟨m, rfl, hfits, by simp, fun _ _ => rfl⟩
  | cons r rest ih =>
      have hrest : ∀ r' ∈ rest, r'.logical ∈ buffers := fun r' hr' =>
        hlogicals r' (mem_cons_of_mem r hr')
      obtain ⟨m₁, hstep, hfits₁, hslots, hfilled, hkept⟩ :=
        h m r hfits (hlogicals r mem_cons_self)
      obtain ⟨m', hrun, hfits', hbuffers, hother⟩ := ih hrest hfits₁
      refine ⟨m', ?_, hfits', ?_, ?_⟩
      · rw [foldlM_cons, hstep, ok_bind]
        exact hrun
      · intro r' hr'
        by_cases hin : r'.logical ∈ rest.map (·.logical)
        · obtain ⟨r'', hr'', hsame⟩ := mem_map.mp hin
          rw [← hsame, hbuffers r'' hr'', hslots _ (hrest r'' hr'')]
        · rcases mem_cons.mp hr' with rfl | hother'
          · rw [hother _ hin, hfilled]
          · exact (hin (mem_map_of_mem hother')).elim
      · intro u hu
        rw [map_cons, mem_cons, not_or] at hu
        rw [hother u hu.2, hkept u hu.1]

theorem Refills.writes_back
    {step : Memory α → RotatedBuffer → Checked (Memory α)}
    (h : Refills k l buffers j step) {rotation : List RotatedBuffer}
    (hlogicals : rotation.map (·.logical) = buffers) {m : Memory α}
    (hfits : m.Fits k) :
    ∃ m', rotation.foldlM step m = .ok m' ∧ m'.Fits k ∧
      (∀ t ∈ buffers, m'.tile t = m.tile (l.inSlot j t)) ∧
      ∀ u, u ∉ buffers → m'.tile u = m.tile u := by
  have hin : ∀ r ∈ rotation, r.logical ∈ buffers := fun r hr =>
    hlogicals ▸ mem_map_of_mem hr
  obtain ⟨m', hrun, hfits', hbuffers, hother⟩ := h.foldlM hin hfits
  refine ⟨m', hrun, hfits', ?_, fun u hu => hother u (hlogicals ▸ hu)⟩
  intro t ht
  rw [← hlogicals] at ht
  obtain ⟨r, hr, rfl⟩ := mem_map.mp ht
  exact hbuffers r hr

theorem replace_slot
    (h : Slots base k l buffers) {m : Memory α} (hfits : m.Fits k)
    (ht : t ∈ buffers) (hslot : l.inSlot j t ≠ t) :
    ∃ data m', m.tile (l.inSlot j t) = .ok data ∧ m.replace t data = .ok m' ∧
      m'.Fits k ∧
      (∀ u ∈ buffers, m'.tile (l.inSlot j u) = m.tile (l.inSlot j u)) ∧
      m'.tile t = m.tile (l.inSlot j t) ∧ ∀ u,
        u ≠ t → m'.tile u = m.tile u := by
  have hlt := h.inTable t ht
  obtain ⟨shape, hshape⟩ := shapeOf_of_lt hlt
  have hkernel := (h.grows.shapeOf_eq hlt).trans hshape
  obtain ⟨data, hdata, hsize⟩ :=
    hfits.tile_eq_ok ((h.shapeOf t ht j).trans hshape)
  have hsizeOf : t.index < m.tiles.size := by
    rw [hfits.size_eq]
    exact Nat.lt_of_lt_of_le hlt h.grows.size_le
  obtain ⟨m', hreplace, hself, hother⟩ := Memory.replace_eq_ok hsizeOf data
  refine ⟨data, m', hdata, hreplace, ?_, ?_, hself.trans hdata.symm, hother⟩
  · intro u
    by_cases hut : u = t
    · subst hut
      unfold Memory.extent
      rw [hself, hkernel]
      exact congrArg Except.ok hsize
    · unfold Memory.extent
      rw [hother u hut]
      exact hfits u
  · intro u hu
    apply hother
    intro heq
    rcases h.home u hu j with hhome | hfresh
    · have hut : u = t := hhome.symm.trans heq
      exact hslot (hut ▸ heq)
    · rw [heq] at hfresh
      omega

theorem writeBack_eq_ok
    (h : Slots base k l buffers) {m : Memory α} (hfits : m.Fits k)
    (hpos : 0 < l.tripCount) :
    ∃ m', l.writeBack m = .ok m' ∧ m'.Fits k ∧
      (∀ t ∈ buffers, m'.tile t = m.tile (l.inSlot (l.tripCount - 1) t)) ∧
      ∀ u, u ∉ buffers → m'.tile u = m.tile u := by
  unfold StagedLoop.writeBack
  rw [if_neg (by omega)]
  apply Refills.writes_back _ h.logicals hfits
  intro m r hfits hr
  beta_reduce
  rw [h.slotted r.logical hr]
  by_cases hself : l.inSlot (l.tripCount - 1) r.logical = r.logical
  · exact ⟨m, if_pos hself, hfits, fun _ _ => rfl, by rw [hself],
      fun _ _ => rfl⟩
  · obtain ⟨data, m', hdata, hreplace, hfits', hslots, hfilled, hkept⟩ :=
      h.replace_slot hfits hr hself
    refine ⟨m', ?_, hfits', hslots, hfilled, hkept⟩
    simp only [if_neg hself]
    rw [hdata, ok_bind]
    exact hreplace

end Slots

/-- After all iterations the slots are written back and the loop ends as in
sequence. -/
theorem LoopRun.Idle.writeBack
    {α : Type} [Element α] {r : LoopRun α} {out : Nat → List (Write α)}
    {m : Memory α} (hpos : 0 < r.loop.tripCount)
    (h : r.Idle r.loop.tripCount r.loop.tripCount out m) :
    ∃ m', r.loop.writeBack m = .ok m' ∧ m'.Fits r.kernel ∧
      ∀ t, r.base.Has t → m'.tile t = (r.laps r.loop.tripCount).tile t := by
  obtain ⟨m', hrun, hfits, hbuffers, hother⟩ :=
    r.region.slots.writeBack_eq_ok h.fits hpos
  refine ⟨m', hrun, hfits, ?_⟩
  intro t ht
  by_cases hbuffer : t ∈ r.buffers
  · have hstages := r.region.stages
    rw [hbuffers t hbuffer]
    exact h.last hpos (by omega) t hbuffer
  · rw [hother t hbuffer]
    exact h.off t ht hbuffer

end TileProgram
