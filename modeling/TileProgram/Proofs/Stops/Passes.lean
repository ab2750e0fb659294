import TileProgram.Proofs.Selection
import TileProgram.Proofs.Stops.Inference

/-!
# Why scheduling and selection stop

After inference every tile that an operation mentions is in the table, and has a
layout under which elements can be placed.  Scheduling and selection keep these
facts, and with them nothing but an exhausted word stops the passes beside their
own errors.  Selection never fails on an inserted relayout.  Scheduling names
the reader of a dependence that it does not support, and that reader can be one.
-/

namespace TileProgram

open Inference Kernel List

variable {W : Prop} {d : Dependence} {t : TileId} {src dst : Region} {r : Roles}
  {target : Target}

/-! ## Dependences -/

theorem Op.defines_runs
    {k : Kernel} {s : Step} (h : ∀ t ∈ s.op.tiles, k.Has t) :
    Runs ((Op.step s).defines k) := by
  obtain ⟨defined, hdefines, -⟩ := Op.exists_defines h
  rw [hdefines]
  exact Runs.ok _

namespace Dependence

/-- A dependence is on a tile of its source, and its sink is the other
operation. -/
structure Between (d : Dependence) (a b : Effect) : Prop where
  tile : d.tile ∈ a.reads ++ a.writes
  sink : d.sink = b.op

theorem between_of_mem_within {a b : Effect} (h : d ∈ within a b) :
    d.Between a b := by
  simp only [within, mem_append, mem_flatMap, mem_ite_nil_right,
    mem_singleton] at h
  rcases h with ⟨t, ht, ⟨_, rfl⟩ | ⟨_, rfl⟩⟩ | ⟨t, ht, _, rfl⟩
  · exact ⟨mem_append_right _ ht, rfl⟩
  · exact ⟨mem_append_right _ ht, rfl⟩
  · exact ⟨mem_append_left _ ht, rfl⟩

theorem between_of_mem_across
    {before : List Effect} {a b : Effect} (h : d ∈ across before a b) :
    d.Between a b := by
  simp only [across, mem_flatMap, mem_ite_nil_right, mem_singleton] at h
  obtain ⟨t, ht, _, rfl⟩ := h
  exact ⟨mem_append_right _ ht, rfl⟩

theorem exists_between_of_mem_among
    {effects : List Effect} (h : d ∈ among effects) :
    ∃ a ∈ effects, ∃ b ∈ effects, d.Between a b := by
  obtain ⟨⟨a, i⟩, ha, hd⟩ := mem_flatMap.mp h
  obtain ⟨⟨b, j⟩, hb, hd⟩ := mem_flatMap.mp hd
  refine ⟨a, mem_of_getElem? (mem_zipIdx_iff_getElem?.mp ha), b,
    mem_of_getElem? (mem_zipIdx_iff_getElem?.mp hb), ?_⟩
  simp only at hd
  split at hd
  · exact between_of_mem_within hd
  · exact between_of_mem_across hd

theorem ofBody_settles
    {k : Kernel} {steps : List Step}
    (h : ∀ s ∈ steps, ∀ t ∈ s.op.tiles, k.Has t) :
    Settles .overflow (fun deps => ∀ d ∈ deps, k.Has d.tile)
      (ofBody k (steps.map Op.step)) := by
  have heffects : Settles .overflow
      (fun effects => ∀ a ∈ effects, ∀ t ∈ a.reads ++ a.writes, k.Has t)
      ((steps.map Op.step).mapM (effect k)) := by
    apply Settles.mapM
    intro op hop
    rcases mem_map.mp hop with ⟨s, hs, rfl⟩
    apply Settles.bind (Op.defines_runs (h s hs))
    intro defines _
    apply Settles.ok
    intro t ht
    apply h s hs
    rcases mem_append.mp ht with hread | hwrite
    · exact mem_append_left _ (mem_eraseDups.mp hread)
    · exact mem_append_right _ (mem_eraseDups.mp hwrite)
  apply heffects.bind
  intro effects hin
  apply Settles.ok
  intro d hd
  obtain ⟨a, ha, _, _, hbetween⟩ := exists_between_of_mem_among hd
  exact hin a ha d.tile hbetween.tile

theorem sink_mem_of_ofBody
    {k : Kernel} {steps : List Step} {deps : List Dependence}
    (h : ofBody k (steps.map Op.step) = .ok deps) (hd : d ∈ deps) :
    ∃ s ∈ steps, s.id = d.sink := by
  obtain ⟨effects, heffects, h⟩ := bind_eq_ok h
  cases h
  obtain ⟨_, _, b, hb, hbetween⟩ := exists_between_of_mem_among hd
  obtain ⟨op, hop, heffect⟩ := exists_of_mem_mapM heffects hb
  obtain ⟨s, hs, rfl⟩ := mem_map.mp hop
  obtain ⟨defines, _, heffect⟩ := bind_eq_ok heffect
  cases heffect
  exact ⟨s, hs, hbetween.sink.symm⟩

end Dependence

/-! ## Producers and consumers -/

/-- The error names a step as the reader of a dependence. -/
def ScheduleError.ReadBy (steps : List Step) (e : ScheduleError) : Prop :=
  ∃ s ∈ steps, ∃ region writer tile reason,
    e = .unsupportedDependency region s.id writer tile reason

def Roles.InTable (k : Kernel) (r : Roles) : Prop :=
  ∀ p ∈ r.producers, k.Has p.buffer

namespace Roles

variable {k : Kernel} {region : OpId} {steps : List Step}

theorem refuse_ends
    {α : Type} {P : α → Prop} {reader : OpId}
    (hreader : ∃ s ∈ steps, s.id = reader) (writer : OpId) (h : k.Has t)
    (reason : String) :
    Ends W (ScheduleError.ReadBy steps) P
      (refuse k region reader writer t reason) := by
  obtain ⟨s, hs, rfl⟩ := hreader
  apply Ends.bind_lift fun _ => tile_runs h
  exact fun tile _ _ => Ends.fail ⟨s, hs, _, _, _, _, rfl⟩

theorem checkProducer_ends
    {op : OpId} (hop : ∃ s ∈ steps, s.id = op) (hsrc : k.Has src.tile)
    (hdst : k.Has dst.tile) :
    Ends W (ScheduleError.ReadBy steps) (fun p => k.Has p.buffer)
      (checkProducer k region (steps.map Op.step) op src dst) := by
  have hreader : ∃ s ∈ steps, s.id = (((steps.map Op.step).find? fun o =>
      o.id != op && o.reads.contains dst.tile).map (·.id)).getD op := by
    cases hfind : (steps.map Op.step).find? fun o =>
      o.id != op && o.reads.contains dst.tile with
    | none => exact hop
    | some o =>
        obtain ⟨s, hs, rfl⟩ := mem_map.mp (mem_of_find?_eq_some hfind)
        exact ⟨s, hs, rfl⟩
  unfold checkProducer
  split
  on_goal 1 =>
    refine (refuse_ends (P := fun _ => True) hop _ hsrc _).bind fun _ _ => ?_
  all_goals
    apply Ends.bind_lift fun _ => tile_runs hdst
    intro buffer _ _
    split
    · apply (refuse_ends (P := fun _ => True) hreader _ hdst _).bind
      exact fun _ _ => Ends.ok hdst
    · exact Ends.ok hdst

theorem InTable.add_ends
    (hr : r.InTable k) {s : Step} (hs : s ∈ steps)
    (h : ∀ t ∈ s.op.tiles, k.Has t) :
    Ends W (ScheduleError.ReadBy steps) (InTable k)
      (add k region (steps.map Op.step) r (.step s)) := by
  rcases s with ⟨id, op, strategy⟩
  cases op with
  | copy src dst width =>
      have hsrc := h src.tile (by simp)
      have hdst := h dst.tile (by simp)
      simp only [add, Ends.bind_lift_iff, tile_runs, hsrc, hdst, implies_true]
      intro source _ buffer _
      split
      · apply (checkProducer_ends ⟨_, hs, rfl⟩ hsrc hdst).bind
        intro producer hproducer
        apply Ends.ok
        intro p hp
        rcases mem_append.mp hp with hold | hnew
        · exact hr p hold
        · rw [mem_singleton.mp hnew]
          exact hproducer
      · exact Ends.ok hr
  | _ => exact Ends.ok hr

theorem InTable.checkAhead_ends
    (hr : r.InTable k) (hproduced : ∀ p ∈ r.producers, ∃ s ∈ steps, s.id = p.op)
    (deps : List Dependence) :
    Ends W (ScheduleError.ReadBy steps) (fun _ => True)
      (checkAhead k region r deps) := by
  apply Meets.forM
  intro p hp
  split
  · exact refuse_ends (hproduced p hp) _ (hr p hp) _
  · exact Ends.ok trivial

theorem checkCarried_ends
    {deps : List Dependence} (hread : ∀ d ∈ deps, ∃ s ∈ steps, s.id = d.sink)
    (h : ∀ d ∈ deps, k.Has d.tile) :
    Ends W (ScheduleError.ReadBy steps) (fun _ => True)
      (checkCarried k region deps) := by
  unfold checkCarried
  split
  · next d hd =>
      have hin := mem_of_find?_eq_some hd
      exact refuse_ends (hread d hin) _ (h d hin) _
  · exact Ends.ok trivial

theorem ofBody_ends (h : ∀ s ∈ steps, ∀ t ∈ s.op.tiles, k.Has t) :
    Ends W (ScheduleError.ReadBy steps) (InTable k)
      (ofBody k region (steps.map Op.step)) := by
  have hruns := Dependence.ofBody_settles h
  apply Ends.bind_lift fun _ => hruns
  intro deps hdeps _
  apply Ends.bind_eq (P := InTable k)
  · apply Meets.foldlM
    · intro op hop r hr
      rcases mem_map.mp hop with ⟨s, hs, rfl⟩
      exact InTable.add_ends hr hs (h s hs)
    · exact fun p hp => absurd hp not_mem_nil
  intro roles hroles hin
  have hproduced : ∀ p ∈ roles.producers, ∃ s ∈ steps, s.id = p.op := by
    have hnone : SidesOf k [] ⟨[], []⟩ := ⟨rfl, rfl, rfl⟩
    obtain ⟨hsides, _⟩ := foldlM_add_eq_ok hnone hroles
    intro p hp
    have hop : p.op ∈ roles.producers.map (·.op) := mem_map_of_mem hp
    rw [hsides.producers] at hop
    obtain ⟨s, hs, hid⟩ := mem_map.mp hop
    exact ⟨s, mem_of_mem_filter hs, hid⟩
  apply (hin.checkAhead_ends hproduced deps).bind
  intro _ _
  have hread : ∀ d ∈ deps, ∃ s ∈ steps, s.id = d.sink :=
    fun d hd => Dependence.sink_mem_of_ofBody hdeps hd
  exact (checkCarried_ends hread (hruns.of_eq_ok hdeps)).bind fun _ _ =>
    Ends.ok hin

theorem InTable.rotated_lt (hr : r.InTable k) : ∀ t ∈ r.rotated, k.Has t := by
  intro t ht
  rcases mem_map.mp (mem_eraseDups.mp ht) with ⟨p, hp, rfl⟩
  exact hr p hp

end Roles

/-! ## Schedules -/

def Op.loopId? : Op → Option OpId
  | step _ => none
  | loop head _ => some head.id

theorem Body.loopIds_unscheduled (body : Body) :
    body.unscheduled.ops.filterMap Op.loopId? =
      body.ops.filterMap Op.loopId? := by
  induction body with
  | done => rfl
  | step s rest ih => exact ih
  | loop head body rest ihbody ihrest =>
      simp [Body.unscheduled, Body.ops, Op.loopId?, Loop.withSchedule, ihbody,
        ihrest]

theorem Kernel.mem_loopIds {k : Kernel} {id : OpId} :
    id ∈ k.ops.filterMap Op.loopId? ↔
      ∃ head body, Op.loop head body ∈ k.ops ∧ head.id = id := by
  constructor
  · intro hid
    obtain ⟨op, hop, hsome⟩ := mem_filterMap.mp hid
    cases op with
    | step s => cases hsome
    | loop head body => exact ⟨head, body, hop, Option.some.inj hsome⟩
  · rintro ⟨head, body, hloop, rfl⟩
    exact mem_filterMap.mpr ⟨_, hloop, rfl⟩

theorem Kernel.Copies.loop_iff {k k' : Kernel} (h : k.Copies k') {id : OpId} :
    (∃ head body, Op.loop head body ∈ k'.ops ∧ head.id = id) ↔
      ∃ head body, Op.loop head body ∈ k.ops ∧ head.id = id := by
  have hids : k'.ops.filterMap Op.loopId? = k.ops.filterMap Op.loopId? := by
    unfold Kernel.ops
    rw [← Body.loopIds_unscheduled, h.body, Body.loopIds_unscheduled]
  rw [← mem_loopIds, ← mem_loopIds, hids]

/-- The error is shown at a loop of the kernel, or names a step of the kernel as
a reader. -/
def ScheduleError.Concerns (k : Kernel) (e : ScheduleError) : Prop :=
  (∃ head body, Op.loop head body ∈ k.ops ∧ e.diagnostic.site = .op head.id) ∨
    ∃ s, Op.step s ∈ k.ops ∧ e.ReadBy [s]

theorem ScheduleError.Concerns.of_copies
    {k k' : Kernel} (h : k.Copies k') {e : ScheduleError} (he : e.Concerns k') :
    e.Concerns k := by
  rcases he with ⟨head, body, hloop, hsite⟩ | ⟨s, hs, hread⟩
  · obtain ⟨head₀, body₀, hloop₀, hid⟩ := h.loop_iff.mp ⟨head, body, hloop, rfl⟩
    exact Or.inl ⟨head₀, body₀, hloop₀, by rw [hsite, hid]⟩
  · exact Or.inr ⟨s, h.step_mem.mp hs, hread⟩

def Kernel.Resolved (k : Kernel) : Prop := ∀ t ∈ k.tiles, t.layout ≠ none

theorem Kernel.Copies.resolved
    {k k' : Kernel} (h : k.Copies k') (hk : k.Resolved) : k'.Resolved := by
  intro t ht
  obtain ⟨t₀, ht₀, name, rfl⟩ := h.tiles t ht
  exact hk t₀ ht₀

theorem Kernel.Resolved.unresolvedTile?_ne
    {k : Kernel} (h : k.Resolved) (ops : List Op) (t : Tile) :
    k.unresolvedTile? ops ≠ .ok (some t) := by
  intro hfound
  obtain ⟨found, hfind, hfound⟩ := bind_eq_ok hfound
  cases found with
  | none => cases hfound
  | some id =>
      have htest := (Checked.find?_eq_some hfind).2
      obtain ⟨tile, htile, htest⟩ := bind_eq_ok htest
      have hnone : tile.layout.isNone = true := by
        have hboth : (tile.scope.isOnChip && tile.layout.isNone) = true :=
          Except.ok.inj htest
        exact (Bool.and_eq_true_iff.mp hboth).2
      exact h tile (mem_tiles_of_tile htile)
        (Option.isNone_iff_eq_none.mp hnone)

section

variable {k : Kernel}

theorem Kernel.unresolvedTile?_runs
    {ops : List Op} (h : ∀ op ∈ ops, ∀ t ∈ op.mentions, k.Has t) :
    Runs (k.unresolvedTile? ops) := by
  have hfind : Settles .overflow
      (fun found => ∀ t, found = some t →
        t ∈ ops.flatMap (·.mentions) ∧ k.Has t)
      (Checked.find? (fun t => do
        let t ← k.tile t
        return t.scope.isOnChip && t.layout.isNone)
        (ops.flatMap (·.mentions))) := by
    apply Checked.find?_settles
    intro t ht
    rcases mem_flatMap.mp ht with ⟨op, hop, hin⟩
    have hlt := h op hop t hin
    apply (tile_settles hlt).bind
    intro tile _
    exact Settles.ok fun _ => hlt
  apply hfind.bind
  intro found hin
  split
  · next t => exact (tile_runs (hin t rfl).2).bind (by simp)
  · exact Runs.ok _

theorem Tile.footprintBytes_runs
    {t : Tile} (h : ∀ l, t.layout = some l → l.Usable) :
    Runs t.footprintBytes := by
  unfold Tile.footprintBytes
  split
  · next l hl => simp [(h l hl).footprint_runs]
  · simp

theorem Kernel.LaidOut.sharedBytes_runs
    (h : k.LaidOut) (rotated : List TileId) (stages : Nat) :
    Runs (k.sharedBytes rotated stages) := by
  apply Runs.foldlM
  rintro ⟨t, i⟩ hentry total
  have htile := mem_tiles_of_zipIdx hentry
  unfold Kernel.addEntry
  split
  · exact Runs.ok _
  · apply (Tile.footprintBytes_runs (h t htile)).bind
    intro bytes
    split <;> simp

theorem Kernel.addAllSlots_runs
    (stages : Nat) {buffers : List TileId} (hbuffers : ∀ t ∈ buffers, k.Has t) :
    Runs (Kernel.addAllSlots stages buffers k) := by
  rcases Nat.lt_or_ge 1 stages with hmany | hone
  · exact (addAllSlots_settles hmany hbuffers).runs
  · rw [addAllSlots_one hone]
    exact Runs.ok _

theorem Kernel.Copies.inTable
    {k' : Kernel} (h : k.Copies k') (hin : k.InTable) : k'.InTable :=
  fun s hs t ht => (hin s (h.step_mem.mp hs) t ht).trans_le h.grows

theorem Kernel.Copies.laidOut
    {k' : Kernel} (h : k.Copies k') (hlaid : k.LaidOut) : k'.LaidOut := by
  intro tile htile l hl
  rcases h.tiles tile htile with ⟨t₀, ht₀, _, rfl⟩
  exact hlaid t₀ ht₀ l hl

theorem Kernel.InTable.testRegion_ends
    (hin : k.InTable) (hresolved : k.Resolved) (hlaid : W → k.LaidOut)
    {region : OpId}
    (hregion : ∃ head body, Op.loop head body ∈ k.ops ∧ head.id = region)
    (target : Target) :
    Ends W (ScheduleError.Concerns k)
      (fun tested => ∀ t ∈ tested.2.rotated, k.Has t)
      (k.testRegion region target) := by
  obtain ⟨outer, inside, houter, rfl⟩ := hregion
  unfold Kernel.testRegion
  split
  · next head body hfind =>
      have hloop : Op.loop head body ∈ k.ops := mem_of_find?_eq_some hfind
      have hentries : ∀ op ∈ body.entries, op ∈ k.ops := fun op hop =>
        (Body.ops_sublist_of_loop hloop).subset
          ((Body.entries_sublist_ops body).subset hop)
      simp only
      generalize hinner : body.entries.find? _ = inner
      rcases inner with _ | ⟨s⟩ | ⟨inner, nested⟩
      case some.step => simpa using find?_some hinner
      case some.loop =>
        have hnested := hentries _ (mem_of_find?_eq_some hinner)
        apply Ends.fail_bind
        exact Or.inl ⟨inner, nested, hnested, rfl⟩
      case none =>
        rcases entries_eq_map_step (fun _ _ => rfl) hinner with ⟨steps, hsteps⟩
        rw [hsteps] at hentries ⊢
        have hops : ∀ s ∈ steps, Op.step s ∈ k.ops :=
          fun s hs => hentries _ (mem_map_of_mem hs)
        have hmentions : ∀ op ∈ steps.map Op.step,
            ∀ t ∈ op.mentions, k.Has t := by
          intro op hop
          rcases mem_map.mp hop with ⟨s, hs, rfl⟩
          exact hin s (hops s hs)
        apply Ends.bind_lift fun _ => Kernel.unresolvedTile?_runs hmentions
        intro unresolved hunresolved _
        cases unresolved with
        | some t => exact absurd hunresolved (hresolved.unresolvedTile?_ne _ t)
        | none =>
            have htiles := fun s hs => hin.step_tiles (hops s hs)
            apply Ends.bind
            · apply (Roles.ofBody_ends htiles).mono_error
              rintro e ⟨s, hs, hread⟩
              exact Or.inr ⟨s, hops s hs, s, mem_singleton_self s, hread⟩
            intro roles hroles
            apply Ends.bind_lift fun hW => (hlaid hW).sharedBytes_runs _ _
            intro required _ _
            split
            · apply Ends.fail_bind
              exact Or.inl ⟨outer, inside, houter, rfl⟩
            · exact Ends.ok hroles.rotated_lt
  · exact Ends.fail (Or.inl ⟨outer, inside, houter, rfl⟩)

theorem Kernel.InTable.schedule_ends
    (hin : k.InTable) (hresolved : k.Resolved) (hlaid : W → k.LaidOut) :
    Ends W (ScheduleError.Concerns k) (fun _ => True) (k.schedule target) := by
  refine (Meets.foldlM (I := k.Copies) ?_ (Kernel.Copies.refl k)).mono
    fun _ _ => trivial
  intro region hregion k' hcopies
  have hloop : ∃ head body, Op.loop head body ∈ k.ops ∧ head.id = region := by
    obtain ⟨op, hop, hsome⟩ := mem_filterMap.mp hregion
    cases op with
    | step s => cases hsome
    | loop head body =>
        rw [Option.ite_none_right_eq_some] at hsome
        have hmem := (Body.entries_sublist_ops k.body).subset hop
        exact ⟨head, body, hmem, Option.some.inj hsome.2⟩
  have hends : Ends W (ScheduleError.Concerns k) (fun _ => True)
      (k'.scheduleRegion region target) := by
    have htest := (hcopies.inTable hin).testRegion_ends
      (hcopies.resolved hresolved) (fun hW => hcopies.laidOut (hlaid hW))
      (hcopies.loop_iff.mpr hloop) target
    apply (htest.mono_error fun e he => he.of_copies hcopies).bind
    intro tested hrotated
    simp [addAllSlots_runs _ hrotated]
  apply hends.bind_eq
  intro scheduled hscheduled _
  exact Ends.ok (hcopies.trans (copies_of_scheduleRegion hscheduled))

end

/-! ## Strategies -/

namespace Selection

section

variable {layouts : List Layout}

theorem fits_runs (h : ∀ l ∈ layouts, l.Usable) (inner w : Nat) :
    Runs (fits inner layouts w) := by
  unfold fits
  split
  · exact Runs.ok _
  · exact Runs.all fun l hl => by simp [(h l hl).contiguousRun_runs]

theorem halveToFit_runs (h : ∀ l ∈ layouts, l.Usable) (inner w : Nat) :
    Runs (halveToFit inner layouts w) := by
  induction w using Nat.strongRecOn with
  | ind w ih =>
      rw [halveToFit]
      split
      · exact Runs.ok _
      · simp [fits_runs h, ih (w / 2) (by omega)]

theorem vector_runs
    (h : ∀ l ∈ layouts, l.Usable) (target : Target) (leading : ElementType)
    (inner : Nat) :
    Runs (vector target leading inner layouts) := by
  exact (halveToFit_runs h inner _).bind (by simp)

theorem unitStride_runs (inner : String) (indices : List Affine) :
    Runs (unitStride inner indices) := by
  unfold unitStride
  split
  · exact Runs.ok _
  · next last _ =>
      apply (last.coefficient_runs inner).bind
      intro c
      split
      · exact Runs.ok _
      · exact Runs.all (by simp)

@[simp] theorem bulkReady_runs (l : Layout) (elementBytes : Nat) :
    Runs (bulkReady l elementBytes) := by
  unfold bulkReady
  split <;> simp

theorem bulkEngine?_runs
    (bulk : BulkCopy) {l : Layout} (h : l.Usable) (loading : Bool)
    (elementBytes : Nat) :
    Runs (bulkEngine? bulk l loading elementBytes) := by
  simp [bulkEngine?, h.contiguousRun_runs]

end

def IsAbout (id : OpId) (e : SelectionError) : Prop :=
  ∃ tile requirement, e = .layoutMismatch id tile requirement

section

variable {k : Kernel} {id : OpId} {Q : SelectionError → Prop}

@[simp] theorem mismatch_ends
    {α : Type} {P : α → Prop} (h : k.Has t) (requirement : String) :
    Ends W (IsAbout id) P (mismatch k id t requirement) := by
  simp [mismatch, h, IsAbout]

theorem mismatch_bind_ends
    {α β : Type} {P : β → Prop} (h : k.Has t) (requirement : String)
    (f : α → Pass SelectionError β) :
    Ends W (IsAbout id) P (mismatch k id t requirement >>= f) :=
  (mismatch_ends (P := fun _ => False) h requirement).bind nofun

theorem layoutOf_ends
    (hresolved : k.Resolved) (hlaid : W → k.LaidOut) (h : k.Has t) :
    Ends W Q (fun l => W → l.Usable) (layoutOf k id t) := by
  apply Ends.bind_lift fun _ => tile_runs h
  intro tile htile _
  have hmem := mem_tiles_of_tile htile
  split
  · next l hl => exact Ends.ok fun hW => hlaid hW tile hmem l hl
  · exact Ends.ok fun _ => Layout.usable_rowMajor _
  · next hnone _ => exact absurd hnone (hresolved tile hmem)

theorem vectorFor_ends
    {layouts : List Layout} (hlayouts : W → ∀ l ∈ layouts, l.Usable)
    {leading : TileId} (h : k.Has leading) (inner : Nat) :
    Ends W Q (fun _ => True) (vectorFor k target leading inner layouts) := by
  apply Ends.bind_lift fun _ => tile_runs h
  intro tile _ _
  simp [Ends.lift_iff fun hW =>
    vector_runs (hlayouts hW) target tile.type inner]

theorem rowBytes_runs {r : Region} (h : k.Has r.tile) :
    Runs (rowBytes k r) := by
  simp [rowBytes, h]

theorem bulk?_runs
    (target : Target) (hsrc : k.Has src.tile) (hdst : k.Has dst.tile)
    {srcLayout dstLayout : Layout} (hs : srcLayout.Usable)
    (hd : dstLayout.Usable) :
    Runs (bulk? k target src dst srcLayout dstLayout) := by
  unfold bulk?
  split
  · next bulk _ =>
      apply (tile_runs hsrc).bind
      intro ts
      apply (tile_runs hdst).bind
      intro td
      simp only
      split
      · next shared layout loading hside =>
          have hlayout : layout.Usable := by
            split at hside
            · cases hside
              exact hd
            · cases hside
              exact hs
            · cases hside
          simp [Region.numel, rowBytes_runs hsrc, rowBytes_runs hdst,
            bulkEngine?_runs bulk hlayout]
      · exact Runs.ok _
  · exact Runs.ok _

theorem pinned_ends
    {src dst : TileId} (hsrc : k.Has src) (hdst : k.Has dst)
    {srcLayout dstLayout : Layout} (hs : W → srcLayout.Usable)
    (hd : W → dstLayout.Usable) (width inner : Nat) :
    Ends W (IsAbout id) (fun _ => True)
      (pinned k id width inner src dst srcLayout dstLayout) := by
  unfold pinned
  simp only
  split
  · exact mismatch_bind_ends hsrc _ _
  · split
    · exact mismatch_bind_ends hsrc _ _
    · have hsides : ∀ side ∈ [(src, srcLayout), (dst, dstLayout)],
          k.Has side.1 ∧ (W → side.2.Usable) := by
        rw [forall_mem_cons, forall_mem_singleton]
        exact ⟨⟨hsrc, hs⟩, hdst, hd⟩
      apply Ends.bind_lift (P := fun _ => True)
      · intro hW
        refine (Checked.find?_settles (P := fun _ => True) ?_).runs
        intro side hside
        apply Settles.bind ((hsides side hside).2 hW).contiguousRun_runs
        exact fun run _ => Settles.ok fun _ => trivial
      intro found hfound _
      split
      · next tile l =>
          obtain ⟨htile, hl⟩ := hsides _ (Checked.find?_eq_some hfound).1
          apply Ends.bind_lift fun hW => (hl hW).contiguousRun_runs
          exact fun run _ _ => mismatch_bind_ends htile _ _
      · exact Ends.ok trivial

variable (hresolved : k.Resolved) (hlaid : W → k.LaidOut)

include hresolved hlaid

theorem checkOperand_ends
    (binding : GemmBinding) (h : k.Has t) (role : Role) (transposed : Bool) :
    Ends W (IsAbout id) (fun _ => True)
      (checkOperand k id binding t role transposed) :=
  (layoutOf_ends hresolved hlaid h).bind (by simp [h])

theorem gemm_ends
    (htarget : W → target.Admissible) {a b c : TileId} (ha : k.Has a)
    (hb : k.Has b) (hc : k.Has c) (transposeA transposeB : Bool) :
    Ends W (IsAbout id) (fun _ => True)
      (gemm k target id a b c transposeA transposeB) := by
  have hbind := bindGemm_ends htarget ha hb hc transposeA transposeB
  apply (Ends.within (hbind.mono_error fun e _ => ⟨_, _, rfl⟩)).bind
  intro bound hbound
  split
  · exact Ends.ok trivial
  · next binding =>
      apply (checkOperand_ends hresolved hlaid binding ha .a transposeA).bind
      intro _ _
      apply (checkOperand_ends hresolved hlaid binding hb .b transposeB).bind
      intro _ _
      apply (checkOperand_ends hresolved hlaid binding hc .c false).bind
      simp [Ends.lift_iff fun hW => (hbound hW binding rfl).repeats]

theorem parallel_ends
    (vars : List String) (extents : Shape) {body : List Assign}
    (h : ∀ assign ∈ body,
      ∀ a ∈ assign.dst :: assign.value.loads, k.Has a.tile) :
    Ends W (IsAbout id) (fun _ => True)
      (parallel k target id vars extents body) := by
  have haccesses : ∀ a ∈ body.flatMap fun assign =>
      assign.dst :: assign.value.loads, k.Has a.tile := by
    intro a ha
    rcases mem_flatMap.mp ha with ⟨assign, hassign, hin⟩
    exact h assign hassign a hin
  apply Ends.bind_lift fun _ => Runs.all fun a _ => unitStride_runs _ _
  intro unit _ _
  generalize body.flatMap (fun assign => assign.dst :: assign.value.loads) =
    accesses at haccesses ⊢
  cases accesses with
  | nil => exact Ends.ok trivial
  | cons leading rest =>
      simp only
      split
      · exact Ends.ok trivial
      · apply Ends.bind
        · apply Meets.mapM
          exact fun a ha => layoutOf_ends hresolved hlaid (haccesses a ha)
        intro layouts hlayouts
        apply vectorFor_ends _ (haccesses leading mem_cons_self)
        exact fun hW l hl => hlayouts l hl hW

theorem copy_ends
    (hsrc : k.Has src.tile) (hdst : k.Has dst.tile) (width : Option Nat) :
    Ends W (IsAbout id) (fun _ => True) (copy k target id src dst width) := by
  apply (layoutOf_ends hresolved hlaid hsrc).bind
  intro s hs
  apply (layoutOf_ends hresolved hlaid hdst).bind
  intro d hd
  cases width with
  | some w => exact pinned_ends hsrc hdst hs hd w _
  | none =>
      apply Ends.bind_lift fun hW => bulk?_runs target hsrc hdst (hs hW) (hd hW)
      intro found _ _
      cases found with
      | some strategy => exact Ends.ok trivial
      | none =>
          apply vectorFor_ends _ hdst
          intro hW
          simp [hs hW, hd hW]

theorem relayout_ends {src dst : TileId} (hsrc : k.Has src) (hdst : k.Has dst) :
    Ends W Q (fun _ => True) (strategy? k target id (.relayout src dst)) := by
  apply (layoutOf_ends hresolved hlaid hsrc).bind
  intro s hs
  apply (layoutOf_ends hresolved hlaid hdst).bind
  intro d hd
  have hboth : W → ∀ l ∈ [s, d], l.Usable := by
    intro hW
    simp [hs hW, hd hW]
  simp [hdst, vectorFor_ends hboth]

theorem strategy?_ends
    (htarget : W → target.Admissible) {op : TileOp}
    (h : ∀ t ∈ op.tiles, k.Has t) :
    Ends W (IsAbout id) (fun _ => True) (strategy? k target id op) := by
  have hone : ∀ {l : Layout}, (W → l.Usable) → W →
      ∀ other ∈ [l], other.Usable := by
    intro l hl hW
    simp [hl hW]
  cases op with
  | alloc tile => exact Ends.ok trivial
  | copy src dst width =>
      have hsrc := h src.tile (by simp)
      have hdst := h dst.tile (by simp)
      exact Ends.map_iff.mpr (copy_ends hresolved hlaid hsrc hdst width)
  | fill tile value =>
      have htile := h tile (by simp)
      apply (layoutOf_ends hresolved hlaid htile).bind
      intro l hl
      simp [htile, vectorFor_ends (hone hl)]
  | parallel vars extents body =>
      have hbody : ∀ assign ∈ body, ∀ a ∈ assign.dst :: assign.value.loads,
          k.Has a.tile := by
        intro assign hassign a ha
        exact h _ (TileOp.mem_tiles_of_access hassign ha)
      exact Ends.map_iff.mpr (parallel_ends hresolved hlaid vars extents hbody)
  | gemm a b c transposeA transposeB clear =>
      have ha := h a (by simp)
      have hb := h b (by simp)
      have hc := h c (by simp)
      exact Ends.map_iff.mpr
        (gemm_ends hresolved hlaid htarget ha hb hc transposeA transposeB)
  | reduce src dst axis kind clear =>
      have hsrc := h src (by simp)
      apply (layoutOf_ends hresolved hlaid hsrc).bind
      intro l hl
      simp [hsrc, vectorFor_ends (hone hl)]
  | relayout src dst =>
      exact relayout_ends hresolved hlaid (h src (by simp)) (h dst (by simp))

end

end Selection

/-- Selection fails on no relayout. -/
theorem Kernel.InTable.selectAll_ends
    {k : Kernel} (hin : k.InTable) (hresolved : k.Resolved)
    (hlaid : W → k.LaidOut) (htarget : W → target.Admissible) :
    Ends W (fun e => ∃ s, Op.step s ∈ k.ops ∧
      (∀ src dst, s.op ≠ .relayout src dst) ∧ Selection.IsAbout s.id e)
      (fun _ => True) (k.selectAll target) := by
  apply Ends.bind (P := fun _ => True)
  · refine (Meets.mapM (P := fun _ => True) ?_).mono fun _ _ => trivial
    intro op hop
    apply Ends.bind (P := fun _ => True) _ (by simp)
    cases op with
    | loop head body => exact Ends.ok trivial
    | step s =>
        have htiles := hin.step_tiles hop
        by_cases hrelayout : ∃ src dst, s.op = .relayout src dst
        · obtain ⟨src, dst, hrelayout⟩ := hrelayout
          simp only [Kernel.select, hrelayout] at htiles ⊢
          exact Selection.relayout_ends hresolved hlaid
            (htiles src (by simp)) (htiles dst (by simp))
        · apply (Selection.strategy?_ends hresolved hlaid htarget
            htiles).mono_error
          intro e he
          exact ⟨s, hop, fun src dst heq => hrelayout ⟨src, dst, heq⟩, he⟩
  · simp

end TileProgram
