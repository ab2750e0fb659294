import TileProgram.Proofs.Revision
import TileProgram.Proofs.Staged.Slots
import TileProgram.Simulation.Verify

/-!
# Scheduled loops and scheduled kernels

`StagedRegion` collects what holds of a loop that has been scheduled: its body
is a list of steps on tiles of the original table, producers can run ahead, the
slots are in place, and the schedule unrolls to its ticks.  Scheduling a kernel
leaves every loop of its body in that state and changes nothing else.
-/

namespace TileProgram

open Kernel List

variable {steps : List Step} {body : Body} {s : Step} {region : OpId}
  {target : Target} {l : StagedLoop}

def rotatedBuffers (k : Kernel) (steps : List Step) : List TileId :=
  ((steps.filter (·.isProducer k)).flatMap (·.op.writes)).eraseDups

/-- A scheduled loop over the tiles of `base`, with its slots in the table of
`k`. -/
structure StagedRegion (base k : Kernel) (l : StagedLoop) (steps : List Step) :
    Prop where
  fitting : ∀ s ∈ steps, s.op.Fitting base
  distinct : (steps.map (·.id)).Nodup
  runsAhead : RunsAhead base steps
  stages : 1 ≤ l.stages
  producers : l.producers = (steps.filter (·.isProducer base)).map (·.id)
  consumers : l.consumers = (steps.filter (!·.isProducer base)).map (·.id)
  slots : Slots base k l (rotatedBuffers base steps)
  actions : Settles .overflow (· = l.ticks) l.actions
  short : l.tripCount ≤ 0x8000000000000000 → l.actions = .ok l.ticks

theorem mem_rotatedBuffers {k : Kernel} {t : TileId} :
    t ∈ rotatedBuffers k steps ↔
      ∃ s ∈ steps, s.isProducer k ∧ t ∈ s.op.writes := by
  unfold rotatedBuffers
  rw [mem_eraseDups, mem_flatMap]
  constructor
  · rintro ⟨s, hs, ht⟩
    obtain ⟨hin, hside⟩ := mem_filter.mp hs
    exact ⟨s, hin, hside, ht⟩
  · rintro ⟨s, hin, hside, ht⟩
    exact ⟨s, mem_filter.mpr ⟨hin, hside⟩, ht⟩

/-! ## Operations of a body -/

namespace Body

theorem entries_sublist_ops (body : Body) : body.entries.Sublist body.ops := by
  induction body with
  | done => exact Sublist.refl []
  | step s rest ih => exact ih.cons_cons _
  | loop head body rest _ ih =>
      exact (ih.trans (sublist_append_right body.ops rest.ops)).cons_cons _

theorem ops_sublist_of_loop
    {inner : Body} {head : Loop} (h : Op.loop head inner ∈ body.ops) :
    inner.ops.Sublist body.ops := by
  induction body with
  | done => cases h
  | step s rest ih =>
      rcases mem_cons.mp h with heq | hrest
      · cases heq
      · exact (ih hrest).cons _
  | loop head' body rest ihbody ihrest =>
      rcases mem_cons.mp h with heq | hin
      · cases heq
        exact (sublist_append_left inner.ops rest.ops).cons _
      · rcases mem_append.mp hin with hbody | hrest
        · exact ((ihbody hbody).trans
            (sublist_append_left body.ops rest.ops)).cons _
        · exact ((ihrest hrest).trans
            (sublist_append_right body.ops rest.ops)).cons _

end Body

/-! ## One loop -/

theorem Step.isProducer_of_extends
    {base k : Kernel} (hgrows : base.Extends k) (hfit : s.op.Fitting base) :
    s.isProducer k = s.isProducer base := by
  have htile : ∀ t ∈ s.op.tiles, k.tile? t = base.tile? t := by
    intro t ht
    obtain ⟨more, hmore⟩ := hgrows
    unfold Kernel.tile?
    rw [hmore, Array.getElem?_append_left (hfit.lt_size t ht)]
  obtain ⟨id, op, strategy⟩ := s
  cases op with
  | copy src dst width =>
      simp only [Step.isProducer]
      rw [htile src.tile (by simp),
        htile dst.tile (by simp)]
  | _ => rfl

theorem RunsAhead.of_extends
    {base k : Kernel} (hgrows : base.Extends k)
    (hfit : ∀ s ∈ steps, s.op.Fitting base) (h : RunsAhead k steps) :
    RunsAhead base steps := by
  have hside : ∀ s ∈ steps, s.isProducer k = s.isProducer base :=
    fun s hs => Step.isProducer_of_extends hgrows (hfit s hs)
  constructor
  · intro s hs hproducer
    obtain ⟨src, dst, width, shape, hop, hshape, hcovers⟩ :=
      h.fills s hs (by rw [hside s hs]; exact hproducer)
    refine ⟨src, dst, width, shape, hop, ?_, hcovers⟩
    have hlt := (hfit s hs).lt_size dst.tile (by simp [hop])
    rw [← hgrows.shapeOf_eq hlt, hshape]
  · intro s hs hproducer
    exact h.sources s hs (by rw [hside s hs]; exact hproducer)
  · apply h.ahead.imp_of_mem
    intro a b ha hb hindep
    rw [hside a ha, hside b hb] at hindep
    exact hindep

theorem stagedRegion_of_scheduleRegion
    {base k k' : Kernel} (hgrows : base.Extends k)
    (hfitting : ∀ s, Op.step s ∈ k.ops → s.op.Fitting base)
    (hdistinct : (k.ops.map Op.id).Nodup)
    (h : k.scheduleRegion region target = .ok (l, k')) :
    ∃ head body steps, k.findOp? region = some (.loop head body) ∧
      body.entries = steps.map Op.step ∧ l.var = head.var ∧
      l.tripCount = head.tripCount ∧
      StagedRegion base k' l steps ∧ k.Extends k' ∧
      k'.body = (k.setSchedule region l).body := by
  obtain ⟨head, body, steps, roles, k₁, hfind, hentries, hroles, _, hpos,
      hadded, hl, hk'⟩ :=
    scheduleRegion_eq_ok h
  have hloop : Op.loop head body ∈ k.body.ops := mem_of_find?_eq_some hfind
  have hsublist : (steps.map Op.step).Sublist k.ops := by
    rw [← hentries]
    exact (Body.entries_sublist_ops body).trans (Body.ops_sublist_of_loop hloop)
  have hfit : ∀ s ∈ steps, s.op.Fitting base := fun s hs =>
    hfitting s (hsublist.subset (mem_map_of_mem hs))
  have hids : (steps.map (·.id)).Nodup := by
    have hmap := (hsublist.map Op.id).nodup hdistinct
    rwa [List.map_map] at hmap
  obtain ⟨hsides, hahead⟩ := Roles.ofBody_eq_ok hids hroles
  have hside : ∀ s ∈ steps, s.isProducer k = s.isProducer base :=
    fun s hs => Step.isProducer_of_extends hgrows (hfit s hs)
  have hrotated : roles.rotated = rotatedBuffers base steps := by
    unfold Roles.rotated rotatedBuffers
    rw [hsides.buffers, filter_congr hside]
  have hbuffers : ∀ t ∈ roles.rotated, base.Has t := by
    intro t ht
    rw [hrotated] at ht
    obtain ⟨s, hs, _, htw⟩ := mem_rotatedBuffers.mp ht
    exact (hfit s hs).lt_size t (mem_append_right _ htw)
  have hslots :=
    StagedLoop.slots_of_added hpos (Roles.rotated_lt_size hroles) hadded
  have hbody := hadded.body
  have htiles : k₁.Extends k' := ⟨#[], by rw [hk', setSchedule_tiles]; simp⟩
  refine ⟨head, body, steps, hfind, hentries, by rw [hl]; rfl, by rw [hl]; rfl,
    ?_, hslots.grows.trans htiles, ?_⟩
  · constructor
    · exact hfit
    · exact hids
    · exact hahead.of_extends hgrows hfit
    · exact hpos
    · rw [← filter_congr hside, ← hsides.producers, hl]
      rfl
    · have hconsumers : ∀ s ∈ steps,
          (!s.isProducer k) = !s.isProducer base := by
        intro s hs
        rw [hside s hs]
      rw [← filter_congr hconsumers, ← hsides.consumers, hl]
      rfl
    · rw [← hrotated]
      exact hslots.rebase hgrows hbuffers htiles
    · rw [hl]
      rcases Nat.lt_or_ge 0x8000000000000000 head.tripCount with hlarge | hsmall
      · exact Or.inl (StagedLoop.actions_build_overflow _ _ _ _ _ _ _ hlarge)
      · exact Or.inr ⟨_, StagedLoop.actions_build _ _ _ _ _ _ _ hsmall, rfl⟩
    · intro hsmall
      rw [hl] at hsmall ⊢
      exact StagedLoop.actions_build _ _ _ _ _ _ _ hsmall
  · rw [hk']
    unfold Kernel.setSchedule
    rw [hbody]
    split
    · rfl
    · exact hbody

theorem StagedRegion.mono
    {base k k' : Kernel} (h : StagedRegion base k l steps)
    (hgrows : k.Extends k') : StagedRegion base k' l steps :=
  { h with slots :=
    h.slots.rebase (Kernel.Extends.refl base) h.slots.inTable hgrows }

/-! ## Changing the schedule of a loop -/

def Loop.withSchedule (schedule : Option StagedLoop) (head : Loop) : Loop :=
  { head with schedule := schedule }

namespace Body

def unscheduled : Body → Body
  | done => done
  | step s rest => step s rest.unscheduled
  | loop head body rest =>
      loop (head.withSchedule none) body.unscheduled rest.unscheduled

theorem ids_unscheduled (body : Body) :
    body.unscheduled.ops.map Op.id = body.ops.map Op.id := by
  induction body with
  | done => rfl
  | step s rest ih =>
      simp only [unscheduled, ops, map_cons]
      rw [ih]
  | loop head body rest ihbody ihrest =>
      simp only [unscheduled, ops, map_cons, map_append]
      rw [ihbody, ihrest]
      rfl

theorem step_mem_unscheduled :
    Op.step s ∈ body.unscheduled.ops ↔ Op.step s ∈ body.ops := by
  induction body with
  | done => rfl
  | step s' rest ih =>
      simp only [unscheduled, ops, mem_cons]
      rw [ih]
  | loop head body rest ihbody ihrest =>
      simp only [unscheduled, ops, mem_cons, mem_append]
      rw [ihbody, ihrest]
      simp

theorem Revised.unscheduled_eq
    {schedule : Option StagedLoop} {body' : Body}
    (h : Revised region id (Loop.withSchedule schedule) body body') :
    body'.unscheduled = body.unscheduled := by
  induction h with
  | step | loop => rfl
  | afterStep _ _ ih | inLoop _ _ ih | afterLoop _ _ _ ih =>
      simp only [unscheduled, ih]

/-- The entry with the schedule of its loop replaced, if it is the one
sought. -/
def scheduleEntry (region : OpId) (l : StagedLoop) : Op → Op
  | .step s => .step s
  | .loop head body =>
      if head.id = region then .loop (head.withSchedule (some l)) body
        else .loop head body

theorem map_scheduleEntry_of_not_mem
    {entries : List Op} (h : region ∉ entries.map Op.id) :
    entries.map (scheduleEntry region l) = entries := by
  rw [map_congr_left, map_id]
  intro op hop
  cases op with
  | step s => rfl
  | loop head body =>
      have hne : head.id ≠ region := fun heq =>
        h (mem_map.mpr ⟨_, hop, heq⟩)
      simp only [scheduleEntry, if_neg hne]
      rfl

theorem Revised.entries_eq
    {body' : Body}
    (h : Revised region id (Loop.withSchedule (some l)) body body')
    (hdistinct : (body.ops.map Op.id).Nodup)
    (hin : region ∈ body.entries.map Op.id) :
    body'.entries = body.entries.map (scheduleEntry region l) := by
  have hentries : ∀ {body : Body}, region ∈ body.entries.map Op.id →
      region ∈ body.ops.map Op.id :=
    fun {body} h => ((entries_sublist_ops body).map Op.id).subset h
  have hrest : ∀ {rest : Body}, region ∉ rest.ops.map Op.id →
      rest.entries.map (scheduleEntry region l) = rest.entries :=
    fun h => map_scheduleEntry_of_not_mem (mt hentries h)
  induction h with
  | step hid =>
      rw [ids_step, nodup_cons, hid] at hdistinct
      rw [entries, entries, map_cons, hrest hdistinct.1]
      rfl
  | loop hid =>
      rw [ids_loop, nodup_cons, mem_append, not_or, hid] at hdistinct
      rw [entries, entries, map_cons, hrest hdistinct.1.2, scheduleEntry,
        if_pos hid]
  | afterStep hne _ ih =>
      rw [ids_step, nodup_cons] at hdistinct
      rw [entries, entries, map_cons,
        ih hdistinct.2 ((mem_cons.mp hin).resolve_left (Ne.symm hne))]
      rfl
  | inLoop hne hbody =>
      -- the loop sought is an entry after this one, so it is not inside of it
      rw [ids_loop, nodup_cons, nodup_append'] at hdistinct
      exact (disjoint_left.mp hdistinct.2.2.2 hbody.mem_ids
        (hentries ((mem_cons.mp hin).resolve_left (Ne.symm hne)))).elim
  | afterLoop hne _ _ ih =>
      rw [ids_loop, nodup_cons, nodup_append'] at hdistinct
      rw [entries, entries, map_cons, scheduleEntry, if_neg hne,
        ih hdistinct.2.2.1 ((mem_cons.mp hin).resolve_left (Ne.symm hne))]

end Body

theorem Kernel.setSchedule_revised
    {k : Kernel} (l : StagedLoop) (h : region ∈ k.ops.map Op.id) :
    k.setSchedule region l = { k with body := (k.setSchedule region l).body } ∧
      Body.Revised region id (Loop.withSchedule (some l)) k.body
        (k.setSchedule region l).body := by
  obtain ⟨body', hmodify, hrevised⟩ :=
    Body.exists_revised id (Loop.withSchedule (some l)) h
  have hset : k.setSchedule region l = { k with body := body' } := by
    unfold setSchedule
    rw [show (k.body.modify? region id fun head =>
      { head with schedule := some l }) = some body' from hmodify]
  rw [hset]
  exact ⟨rfl, hrevised⟩

/-! ## All loops of a kernel -/

def StagedEntry (base k : Kernel) (head : Loop) (body : Body) : Prop :=
  ∃ l steps, head.schedule = some l ∧ body.entries = steps.map Op.step ∧
    l.var = head.var ∧
    l.tripCount = head.tripCount ∧ StagedRegion base k l steps

/-- A kernel on the way to being scheduled, with the loops that are still to
come. -/
structure PartlyStaged (base : Kernel) (pending : List OpId) (k : Kernel) :
    Prop where
  grows : base.Extends k
  grid : k.grid = base.grid
  rasterization : k.rasterization = base.rasterization
  unscheduled : k.body.unscheduled = base.body.unscheduled
  loops : ∀ head body, Op.loop head body ∈ k.body.entries →
    head.id ∈ pending ∨ StagedEntry base k head body
  present : ∀ region ∈ pending,
    ∃ head body, Op.loop head body ∈ k.body.entries ∧ head.id = region

namespace PartlyStaged

variable {base k k' : Kernel} {pending : List OpId}

theorem ids (h : PartlyStaged base pending k) :
    k.ops.map Op.id = base.ops.map Op.id := by
  unfold Kernel.ops
  rw [← Body.ids_unscheduled k.body, h.unscheduled, Body.ids_unscheduled]

theorem step_mem (h : PartlyStaged base pending k) :
    Op.step s ∈ k.ops ↔ Op.step s ∈ base.ops := by
  unfold Kernel.ops
  rw [← Body.step_mem_unscheduled, h.unscheduled, Body.step_mem_unscheduled]

theorem scheduleRegion_grid (h : k.scheduleRegion region target = .ok (l, k')) :
    k'.grid = k.grid ∧ k'.rasterization = k.rasterization := by
  obtain ⟨_, _, _, _, k₁, _, _, _, _, _, hadded, _, rfl⟩ :=
    scheduleRegion_eq_ok h
  obtain ⟨tiles, rfl⟩ : ∃ tiles, k₁ = { k with tiles := tiles } :=
    ⟨_, hadded.frame⟩
  unfold Kernel.setSchedule
  split <;> exact ⟨rfl, rfl⟩

theorem scheduleRegion
    (hwf : base.WellFormed) (h : PartlyStaged base (region :: pending) k)
    (hschedule : k.scheduleRegion region target = .ok (l, k')) :
    PartlyStaged base pending k' := by
  have hdistinct : (k.ops.map Op.id).Nodup := h.ids ▸ hwf.distinct
  obtain ⟨head, body, steps, hfind, hentries, hvar, htrip, hstaged, hgrows,
      hbody⟩ :=
    stagedRegion_of_scheduleRegion h.grows
      (fun s hs => hwf.fitting s (h.step_mem.mp hs)) hdistinct hschedule
  obtain ⟨head₀, body₀, hin₀, hid₀⟩ := h.present region mem_cons_self
  -- numbers are distinct, so the loop that is found is the loop of the body
  -- itself
  have hunique : ∀ head' body', Op.loop head' body' ∈ k.body.entries →
      head'.id = region → head' = head ∧ body' = body := by
    intro head' body' hin hid
    have hops := (Body.entries_sublist_ops k.body).subset hin
    have hfound : Op.loop head body ∈ k.body.ops := mem_of_find?_eq_some hfind
    have hfoundId : (Op.loop head body).id = region := by
      simpa using find?_some hfind
    have heq :=
      inj_on_of_nodup_map hdistinct hops hfound (hid.trans hfoundId.symm)
    cases heq
    exact ⟨rfl, rfl⟩
  have hregion : region ∈ k.body.entries.map Op.id :=
    mem_map.mpr ⟨_, hin₀, hid₀⟩
  obtain ⟨_, hrevised⟩ := k.setSchedule_revised l
    (((Body.entries_sublist_ops k.body).map Op.id).subset hregion)
  rw [← hbody] at hrevised
  have hentries' := hrevised.entries_eq hdistinct hregion
  obtain ⟨hgrid, hraster⟩ := scheduleRegion_grid hschedule
  refine ⟨h.grows.trans hgrows, hgrid.trans h.grid,
    hraster.trans h.rasterization, ?_, ?_, ?_⟩
  · rw [hrevised.unscheduled_eq, h.unscheduled]
  · intro head' inner' hin
    rw [hentries'] at hin
    obtain ⟨op, hop, hmap⟩ := mem_map.mp hin
    cases op with
    | step s => cases hmap
    | loop head₁ body₁ =>
        simp only [Body.scheduleEntry] at hmap
        by_cases hid : head₁.id = region
        · rw [if_pos hid] at hmap
          obtain ⟨rfl, rfl⟩ := hunique head₁ body₁ hop hid
          cases hmap
          exact Or.inr ⟨l, steps, rfl, hentries, hvar, htrip, hstaged⟩
        · rw [if_neg hid] at hmap
          cases hmap
          rcases h.loops head' inner' hop with hpending | hdone
          · exact Or.inl ((mem_cons.mp hpending).resolve_left hid)
          · obtain ⟨l', steps', hsome, hsteps', hvar', htrip', hstaged'⟩ :=
              hdone
            exact Or.inr
              ⟨l', steps', hsome, hsteps', hvar', htrip', hstaged'.mono hgrows⟩
  · intro region' hregion'
    obtain ⟨head', inner', hin, hid⟩ :=
      h.present region' (mem_cons_of_mem _ hregion')
    rw [hentries']
    by_cases hsame : head'.id = region
    · exact ⟨head'.withSchedule (some l), inner', mem_map.mpr ⟨_, hin,
        by simp only [Body.scheduleEntry, if_pos hsame]⟩, hid⟩
    · exact ⟨head', inner', mem_map.mpr ⟨_, hin,
        by simp only [Body.scheduleEntry, if_neg hsame]⟩, hid⟩

end PartlyStaged

theorem Kernel.scheduleEach_cons_eq_ok
    {k scheduled : Kernel} {rest : List OpId}
    (h : k.scheduleEach (region :: rest) target = .ok scheduled) :
    ∃ l k', k.scheduleRegion region target = .ok (l, k') ∧
      k'.scheduleEach rest target = .ok scheduled := by
  unfold scheduleEach at h
  rw [foldlM_cons] at h
  obtain ⟨k', hfirst, hrest⟩ := bind_eq_ok h
  obtain ⟨⟨l, k₁⟩, hschedule, hfirst⟩ := bind_eq_ok hfirst
  cases hfirst
  exact ⟨l, _, hschedule, hrest⟩

theorem partlyStaged_of_schedule
    {base scheduled : Kernel} (hwf : base.WellFormed)
    (hplain : base.scheduledRegions = [])
    (h : base.schedule target = .ok scheduled) :
    PartlyStaged base [] scheduled := by
  have hstart : PartlyStaged base base.pendingRegions base := by
    refine ⟨Kernel.Extends.refl base, rfl, rfl, rfl, ?_, ?_⟩
    · intro head body hin
      left
      have hnone : head.schedule.isNone := by
        have hops := (Body.entries_sublist_ops base.body).subset hin
        have hfilter := filter_eq_nil_iff.mp hplain _ hops
        simpa using hfilter
      exact mem_filterMap.mpr ⟨_, hin, by simp [hnone]⟩
    · intro region hregion
      obtain ⟨op, hop, hsome⟩ := mem_filterMap.mp hregion
      cases op with
      | step s => cases hsome
      | loop head body =>
          simp only [Option.ite_none_right_eq_some, Option.some.injEq] at hsome
          exact ⟨head, body, hop, hsome.2⟩
  unfold Kernel.schedule at h
  generalize base.pendingRegions = pending at h hstart
  suffices hfold : ∀ (pending : List OpId) (k : Kernel),
      PartlyStaged base pending k →
      k.scheduleEach pending target = .ok scheduled →
      PartlyStaged base [] scheduled from
    hfold pending base hstart h
  intro pending
  induction pending with
  | nil =>
      intro k hk hdone
      cases hdone
      exact hk
  | cons region rest ih =>
      intro k hk hcons
      obtain ⟨l, k', hschedule, hrest⟩ := scheduleEach_cons_eq_ok hcons
      exact ih _ (hk.scheduleRegion hwf hschedule) hrest

end TileProgram
