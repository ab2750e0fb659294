import TileProgram.Proofs.Staged.Region

/-!
# Scheduling a loop in place

A loop can be scheduled on the kernel itself: the slots are appended tile by
tile and the schedule is attached at the end, and whatever has been done stays
done when the pass stops.  All errors are found before the first tile is
appended, so a loop that is refused leaves the kernel as it was; after that,
only a table with no identifiers left can stop the pass.  A loop that is
scheduled changes its own schedule and the end of the table, and nothing else.
-/

namespace TileProgram

open Kernel List

variable {stages : Nat} {region : OpId} {l : StagedLoop}

/-! ## The pass in place -/

/-- A pass over one kernel.  What it has done to the kernel stays when it
stops. -/
abbrev InPlace := ExceptT (Stop ScheduleError) (StateM Kernel)

namespace InPlace

def after {α : Type} (x : InPlace α) (k : Kernel) :
    Except (Stop ScheduleError) α × Kernel :=
  x.run.run k

def look {α : Type} (f : Kernel → Pass ScheduleError α) : InPlace α :=
  ExceptT.mk fun k => (f k, k)

/-- Append a tile.  The table has it even where there is no identifier for
it. -/
def append (t : Tile) : InPlace TileId :=
  ExceptT.mk fun k =>
    (liftM ((k.addTile t).map (·.1)), { k with tiles := k.tiles.push t })

def attach (region : OpId) (l : StagedLoop) : InPlace Unit :=
  ExceptT.mk fun k => (.ok (), k.setSchedule region l)

theorem after_bind
    {α β : Type} (x : InPlace α) (f : α → InPlace β) (k : Kernel) :
    (x >>= f).after k = match x.after k with
      | (.ok a, k') => (f a).after k'
      | (.error stop, k') => (.error stop, k') := by
  unfold after ExceptT.run StateT.run
  simp only [bind, ExceptT.bind, ExceptT.mk, StateT.bind, ExceptT.bindCont]
  cases x k with
  | mk outcome k' => cases outcome <;> rfl

@[simp] theorem after_look
    {α : Type} (f : Kernel → Pass ScheduleError α) (k : Kernel) :
    (look f).after k = (f k, k) := rfl

def growSlots (stages : Nat) (logical : TileId) : InPlace RotatedBuffer := do
  if stages ≤ 1 then return ⟨logical, #[logical]⟩
  let t ← look fun k => k.tile logical
  let slots ← (range stages).mapM fun n => append (t.slot n)
  return ⟨logical, slots.toArray⟩

def scheduleRegion (region : OpId) (target : Target) : InPlace StagedLoop := do
  let (head, roles) ← look fun k => k.testRegion region target
  let rotation ← roles.rotated.mapM
    (growSlots (effectiveStages head.stages head.tripCount))
  let staged := StagedLoop.build region head.var head.tripCount head.stages
    (roles.producers.map (·.op)) roles.consumers rotation
  attach region staged
  return staged

/-- The pass stopped because the table was full, and has only appended to it. -/
def Full
    {α : Type} (k : Kernel) (outcome : Except (Stop ScheduleError) α × Kernel) :
    Prop :=
  ∃ more, outcome =
    (.error (.fault .overflow), { k with tiles := k.tiles ++ more }) ∧
    limit32 ≤ k.tiles.size + more.size

/-- In place, a computation that appends tiles has the same outcome; the table
is full where it stops. -/
def Appends
    {α : Type} (k : Kernel) (result : Checked (α × Kernel))
    (outcome : Except (Stop ScheduleError) α × Kernel) : Prop :=
  match result with
  | .ok (a, k') =>
      outcome = (.ok a, k') ∧ ∃ more, k' = { k with tiles := k.tiles ++ more }
  | .error fault => fault = .overflow ∧ Full k outcome

section

variable {α β : Type} {k : Kernel}

theorem Full.bind {x : InPlace α} (h : Full k (x.after k)) (f : α → InPlace β) :
    Full k ((x >>= f).after k) := by
  obtain ⟨more, houtcome, hfull⟩ := h
  exact ⟨more, by rw [after_bind, houtcome], hfull⟩

theorem Full.append
    {outcome : Except (Stop ScheduleError) α × Kernel} {more : Array Tile}
    (h : Full { k with tiles := k.tiles ++ more } outcome) :
    Full k outcome := by
  obtain ⟨further, houtcome, hfull⟩ := h
  refine ⟨more ++ further, ?_, ?_⟩
  · rw [houtcome, Array.append_assoc]
  · simp only [Array.size_append] at hfull ⊢
    omega

theorem Appends.bind
    {x : Checked (α × Kernel)} {f : α × Kernel → Checked (β × Kernel)}
    {y : InPlace α} {g : α → InPlace β} (hx : Appends k x (y.after k))
    (hf : ∀ a more, x = .ok (a, { k with tiles := k.tiles ++ more }) →
      Appends { k with tiles := k.tiles ++ more } (f (a, { k with tiles :=
        k.tiles ++ more })) ((g a).after { k with tiles := k.tiles ++ more })) :
    Appends k (x >>= f) ((y >>= g).after k) := by
  cases x with
  | error fault => exact ⟨hx.1, hx.2.bind g⟩
  | ok result =>
      obtain ⟨a, k'⟩ := result
      obtain ⟨houtcome, more, rfl⟩ := hx
      have hnext := hf a more rfl
      rw [ok_bind, after_bind, houtcome]
      generalize f (a, _) = last at hnext ⊢
      cases last with
      | error fault => exact ⟨hnext.1, hnext.2.append⟩
      | ok result =>
          obtain ⟨hok, further, hmore⟩ := hnext
          exact ⟨hok, more ++ further, by rw [hmore, Array.append_assoc]⟩

theorem Appends.pure (a : α) :
    Appends k (.ok (a, k)) ((pure a : InPlace α).after k) :=
  ⟨rfl, #[], by simp⟩

theorem after_append (t : Tile) :
    Appends k (k.addTile t) ((append t).after k) := by
  have hrun : (append t).after k =
      (liftM ((k.addTile t).map (·.1)),
        { k with tiles := k.tiles ++ #[t] }) := by
    rw [← Array.push_eq_append]
    rfl
  rw [hrun]
  by_cases hroom : k.tiles.size + 1 < limit32
  · rw [addTile_eq_ok_iff.mpr ⟨hroom, rfl⟩]
    exact ⟨rfl, #[t], by rw [← Array.push_eq_append]⟩
  · have hadd : k.addTile t = .error .overflow := by
      rw [Kernel.addTile, Kernel.grownTable, if_neg one_ne_zero, Checked.word32,
        if_neg hroom]
      rfl
    rw [hadd]
    exact ⟨rfl, #[t], rfl, Nat.le_of_not_lt hroom⟩

/-- Tiles are appended one after another, and the room for all of them is tested
on the way. -/
theorem after_mapM_append (tiles : List Tile) :
    Appends k ((Kernel.grownTable k.tiles.size tiles.length).map fun _ =>
      ((range' k.tiles.size tiles.length).map TileId.mk,
        { k with tiles := k.tiles ++ tiles.toArray }))
        ((tiles.mapM append).after k) := by
  induction tiles generalizing k with
  | nil =>
      refine ⟨?_, #[], rfl⟩
      rw [mapM_nil, Array.append_empty]
      rfl
  | cons t rest ih =>
      have hsteps :
          ((Kernel.grownTable k.tiles.size (t :: rest).length).map fun _ =>
          ((range' k.tiles.size (t :: rest).length).map TileId.mk,
            { k with tiles := k.tiles ++ (t :: rest).toArray })) =
          k.addTile t >>= fun first =>
            ((Kernel.grownTable first.2.tiles.size rest.length).map fun _ =>
              ((range' first.2.tiles.size rest.length).map TileId.mk,
                { first.2 with tiles := first.2.tiles ++ rest.toArray })) >>=
                fun others =>
            .ok (first.1 :: others.1, others.2) := by
        rw [length_cons, grownTable_succ, Kernel.addTile]
        rcases grownTable_settles k.tiles.size 1 with hfull | ⟨_, hgrown, rfl⟩
        · rw [hfull]
          rfl
        · simp only [hgrown, ok_bind, pure, Except.pure, Array.size_push]
          cases Kernel.grownTable (k.tiles.size + 1) rest.length with
          | error fault => rfl
          | ok grown => simp [Except.map, ok_bind, range'_succ]
      rw [hsteps, mapM_cons]
      apply (after_append t).bind
      intro id more _
      apply ih.bind
      intro ids further _
      exact Appends.pure _

theorem after_growSlots {logical : TileId} (h : k.Has logical) :
    Appends k (k.addSlots logical stages)
      ((growSlots stages logical).after k) := by
  unfold growSlots
  by_cases hone : stages ≤ 1
  · rw [Kernel.addSlots, if_pos hone, if_pos hone]
    exact Appends.pure _
  · obtain ⟨t, ht⟩ := exists_tile? h
    have hslots : ((range stages).mapM fun n => append (t.slot n)) =
        ((range stages).map t.slot).mapM append := by
      rw [mapM_map]
      rfl
    have hids : ((range' k.tiles.size stages).map TileId.mk).toArray =
        (Array.range' k.tiles.size stages).map TileId.mk := by
      apply Array.ext'
      simp
    have hsteps : k.addSlots logical stages =
        ((Kernel.grownTable k.tiles.size stages).map fun _ =>
          ((range' k.tiles.size stages).map TileId.mk, { k with tiles :=
            k.tiles ++ ((range stages).map t.slot).toArray })) >>=
          fun slots => .ok (⟨logical, slots.1.toArray⟩, slots.2) := by
      rw [addSlots_of_tile (by omega) ht, map_bind, ← hids, ← bind_pure_eq_map]
      rfl
    have happend := after_mapM_append (k := k) ((range stages).map t.slot)
    rw [length_map, length_range] at happend
    rw [if_neg hone, after_bind, after_look, tile_eq_ok_iff.mpr ht, lift_ok,
      hsteps]
    dsimp only
    rw [hslots]
    apply happend.bind
    intro ids more _
    exact Appends.pure _

theorem after_mapM_growSlots
    (stages : Nat) {buffers : List TileId} (h : ∀ t ∈ buffers, k.Has t) :
    Appends k (Kernel.addAllSlots stages buffers k)
      ((buffers.mapM (growSlots stages)).after k) := by
  induction buffers generalizing k with
  | nil => exact Appends.pure _
  | cons logical rest ih =>
      rw [mapM_cons]
      apply (after_growSlots (h logical mem_cons_self)).bind
      intro first more _
      apply (ih _).bind
      · intro others further _
        exact Appends.pure _
      · intro t ht
        have hlt := h t (mem_cons_of_mem _ ht)
        simp only [Kernel.Has, Array.size_append]
        omega

end

/-- In place, a loop is scheduled as in the functional form, and a loop that is
refused leaves the kernel as it was. -/
theorem after_scheduleRegion (region : OpId) (target : Target) (k : Kernel) :
    match k.scheduleRegion region target with
    | .ok (l, k') => (scheduleRegion region target).after k = (.ok l, k')
    | .error stop => (scheduleRegion region target).after k = (.error stop, k) ∨
        stop = .fault .overflow ∧
        Full k ((scheduleRegion region target).after k) := by
  unfold scheduleRegion Kernel.scheduleRegion
  rw [after_bind, after_look]
  cases htest : k.testRegion region target with
  | error stop => exact Or.inl rfl
  | ok tested =>
      obtain ⟨head, roles⟩ := tested
      obtain ⟨_, _, _, _, hroles, _⟩ := testRegion_eq_ok htest
      have hslots :=
        after_mapM_growSlots (effectiveStages head.stages head.tripCount)
          (Roles.rotated_lt_size hroles)
      rw [ok_bind]
      dsimp only
      generalize Kernel.addAllSlots _ _ _ = added at hslots
      cases added with
      | error fault =>
          exact Or.inr ⟨congrArg Stop.fault hslots.1, hslots.2.bind _⟩
      | ok result =>
          rw [after_bind, hslots.1]
          rfl

end InPlace

/-! ## The loop that is scheduled -/

namespace Body

/-- The body with one schedule replaced, at whatever depth the loop stands. -/
def withSchedule (region : OpId) (l : StagedLoop) : Body → Body
  | done => done
  | step s rest => step s (rest.withSchedule region l)
  | loop head body rest =>
      loop (if head.id = region then head.withSchedule (some l) else head)
        (body.withSchedule region l) (rest.withSchedule region l)

theorem withSchedule_of_not_mem
    {body : Body} (h : region ∉ body.ops.map Op.id) :
    body.withSchedule region l = body := by
  induction body with
  | done => rfl
  | step s rest ih =>
      simp only [ops, map_cons, mem_cons, not_or] at h
      rw [withSchedule, ih h.2]
  | loop head body rest ihbody ihrest =>
      simp only [ops, map_cons, map_append, mem_cons, mem_append,
        not_or] at h
      rw [withSchedule, if_neg (fun heq => h.1 heq.symm), ihbody h.2.1,
        ihrest h.2.2]

theorem Revised.eq_withSchedule
    {body body' : Body}
    (h : Revised region id (Loop.withSchedule (some l)) body body')
    (hdistinct : (body.ops.map Op.id).Nodup) :
    body' = body.withSchedule region l := by
  induction h with
  | step hid =>
      rw [ids_step, nodup_cons, hid] at hdistinct
      rw [withSchedule, withSchedule_of_not_mem hdistinct.1]
      rfl
  | loop hid =>
      rw [ids_loop, nodup_cons, mem_append, not_or, hid] at hdistinct
      rw [withSchedule, if_pos hid, withSchedule_of_not_mem hdistinct.1.1,
        withSchedule_of_not_mem hdistinct.1.2]
  | afterStep _ _ ih =>
      rw [ids_step, nodup_cons] at hdistinct
      rw [withSchedule, ih hdistinct.2]
  | inLoop hne hbody ih =>
      rw [ids_loop, nodup_cons, nodup_append'] at hdistinct
      obtain ⟨_, hbodyIds, _, hapart⟩ := hdistinct
      rw [withSchedule, if_neg hne, ih hbodyIds,
        withSchedule_of_not_mem (disjoint_left.mp hapart hbody.mem_ids)]
  | afterLoop hne hnew _ ih =>
      rw [ids_loop, nodup_cons, nodup_append'] at hdistinct
      rw [withSchedule, if_neg hne,
        ih hdistinct.2.2.1, withSchedule_of_not_mem hnew]

end Body

theorem StagedLoop.slotTile_of_mem
    (hstages : 1 ≤ l.stages) (hnodup : (l.rotation.map (·.logical)).Nodup)
    {r : RotatedBuffer} (hr : r ∈ l.rotation) (j : Nat) :
    l.slotTile r.logical j = r.slots[j % l.stages]? := by
  obtain ⟨r', hr', hlogical, hfind⟩ := find?_logical (mem_map_of_mem hr)
  have hsame : r' = r := inj_on_of_nodup_map hnodup hr' hr hlogical
  unfold slotTile slot
  rw [hfind, hsame, Nat.max_eq_right hstages, Option.bind_some]

/-! ## Atomicity -/

/-- What scheduling a loop has done: the loop has the schedule, and the table
has the slots of the buffers that the producers of the loop fill. -/
structure Kernel.Scheduled
    (k : Kernel) (region : OpId) (l : StagedLoop) (k' : Kernel) : Prop where
  loop : ∃ head body steps, k.findOp? region = some (.loop head body) ∧
    body.entries = steps.map Op.step ∧
    l.stages = effectiveStages head.stages head.tripCount ∧
    l.rotation.map (·.logical) = rotatedBuffers k steps
  frame : k' =
    { k with tiles := k'.tiles, body := k.body.withSchedule region l }
  one : l.stages = 1 → k'.tiles = k.tiles ∧ ∀ r ∈ l.rotation,
    r.slots = #[r.logical]
  appended : 1 < l.stages →
    k'.tiles = k.tiles ++
    (k.slotTiles l.stages (l.rotation.map (·.logical))).toArray
  copies : 1 < l.stages → ∀ r ∈ l.rotation, r.slots.size = l.stages ∧
    ∃ t, k.tile? r.logical = some t ∧
      ∀ n < l.stages,
        ∃ slot, r.slots[n]? = some slot ∧ k'.tile? slot = some (t.slot n)
  fresh : 1 < l.stages →
    ∀ r ∈ l.rotation, ∀ slot ∈ r.slots, k.tiles.size ≤ slot.index
  apart : 1 < l.stages → (l.rotation.flatMap (·.slots.toList)).Nodup
  slotTile : ∀ r ∈ l.rotation, ∀ j, ∃ slot,
    r.slots[j % l.stages]? = some slot ∧ l.slotTile r.logical j = some slot

namespace Kernel

theorem setSchedule_eq
    {k : Kernel} {head : Loop} {inner : Body}
    (hdistinct : (k.ops.map Op.id).Nodup)
    (hfind : k.findOp? region = some (.loop head inner)) :
    k.setSchedule region l =
      { k with body := k.body.withSchedule region l } := by
  obtain ⟨hset, hrevised⟩ := k.setSchedule_revised l (mem_ids_of_findOp? hfind)
  rw [hset, hrevised.eq_withSchedule hdistinct]

theorem scheduled_of_scheduleRegion
    {k k' : Kernel} {target : Target} (hdistinct : (k.ops.map Op.id).Nodup)
    (h : k.scheduleRegion region target = .ok (l, k')) :
    k.Scheduled region l k' := by
  obtain ⟨head, body, steps, roles, k₁, hfind, hentries, hroles, _, hpos,
      hadded, hl, rfl⟩ :=
    scheduleRegion_eq_ok h
  have hstages : l.stages = effectiveStages head.stages head.tripCount := by
    rw [hl, StagedLoop.build_stages]
  obtain ⟨_, _, hsides, _⟩ := Roles.ofBody_inv hroles
  have hrotated : roles.rotated = rotatedBuffers k steps := by
    unfold Roles.rotated rotatedBuffers
    rw [hsides.buffers]
  have hlogicals := hadded.logicals
  have hnodup : (l.rotation.map (·.logical)).Nodup :=
    hlogicals.symm ▸ nodup_eraseDups _
  have htiles : (k₁.setSchedule region l).tiles = k₁.tiles :=
    setSchedule_tiles ..
  have hframe : k₁.setSchedule region l =
      { k with tiles := k₁.tiles, body := k.body.withSchedule region l } := by
    obtain ⟨tiles, rfl⟩ : ∃ tiles, k₁ = { k with tiles := tiles } :=
      ⟨_, hadded.frame⟩
    exact setSchedule_eq hdistinct hfind
  refine ⟨⟨head, body, steps, hfind, hentries, hstages,
    hlogicals.trans hrotated⟩, ?_, ?_, ?_, ?_, hadded.fresh, hadded.apart, ?_⟩
  · rw [htiles]
    exact hframe
  · rw [htiles]
    exact hadded.one
  · rw [htiles, hlogicals]
    exact hadded.appended
  · unfold tile?
    rw [htiles]
    exact hadded.copies
  · intro r hr j
    obtain ⟨slot, hslot⟩ :=
      hadded.filled r hr (j % l.stages) (Nat.mod_lt j hpos)
    exact ⟨slot, hslot,
      by rw [StagedLoop.slotTile_of_mem hpos hnodup hr, hslot]⟩

end Kernel

/-- Scheduling a loop in place either refuses it and leaves the kernel as it
was, or it gives the loop its schedule, appends the slots of its buffers to the
table and changes nothing else.  A fault leaves the kernel as it was too, unless
the table is full. -/
theorem scheduleRegion_atomic
    (k : Kernel) (hdistinct : (k.ops.map Op.id).Nodup) (region : OpId)
    (target : Target) :
    (∀ e, k.scheduleRegion region target = .error (.error e) →
      (InPlace.scheduleRegion region target).after k = (.error (.error e), k)) ∧
    (∀ fault, k.scheduleRegion region target = .error (.fault fault) →
      (InPlace.scheduleRegion region target).after k =
        (.error (.fault fault), k) ∨ fault = .overflow ∧
          InPlace.Full k ((InPlace.scheduleRegion region target).after k)) ∧
    ∀ l k', k.scheduleRegion region target = .ok (l, k') →
      (InPlace.scheduleRegion region target).after k = (.ok l, k') ∧
        k.Scheduled region l k' := by
  have hafter := InPlace.after_scheduleRegion region target k
  refine ⟨?_, ?_, ?_⟩
  · intro e he
    rw [he] at hafter
    exact hafter.resolve_right fun ⟨hstop, _⟩ => nomatch hstop
  · intro fault hfault
    rw [hfault] at hafter
    exact hafter.imp_right fun ⟨hstop, hfull⟩ => ⟨Stop.fault.inj hstop, hfull⟩
  · intro l k' hok
    rw [hok] at hafter
    exact ⟨hafter, scheduled_of_scheduleRegion hdistinct hok⟩

/-- A loop inside a loop: it takes parts of `a` and `b` to two buffers, and the
first one to `c`. -/
def nestedCopies : Kernel :=
  let part (t : TileId) : Region := ⟨t, [⟨0, [(.loop "k", 4)]⟩], [4]⟩
  let buffer (name : String) : Tile :=
    { Tile.plain name [4] .f32 .shared with layout := some (.rowMajor [4]) }
  { Kernel.empty "nested_copies" with
    tiles := #[.plain "a" [16] .f32 .global, .plain "b" [16] .f32 .global,
      .plain "c" [16] .f32 .global, buffer "x", buffer "y"]
    body := .loop ⟨⟨0⟩, "i", 2, 2, none, none⟩
      (.loop ⟨⟨1⟩, "k", 4, 3, none, none⟩
        (.step ⟨⟨2⟩, .copy (part ⟨0⟩) (.full ⟨3⟩ [4]) none, none⟩
          (.step ⟨⟨3⟩, .copy (part ⟨1⟩) (.full ⟨4⟩ [4]) none, none⟩
            (.step ⟨⟨4⟩, .copy (.full ⟨3⟩ [4]) (part ⟨2⟩) none, none⟩ .done)))
            .done) .done
    nextOp := 5 }

/-- The inner loop gets three slots for each of its two buffers; the outer one
is refused. -/
theorem scheduleRegion_atomic_nestedCopies :
    (nestedCopies.ops.map Op.id).Nodup ∧
    (∃ l k', nestedCopies.scheduleRegion ⟨1⟩ .sm80 = .ok (l, k') ∧
      l.stages = 3 ∧
      l.rotation.map (·.logical) = [⟨3⟩, ⟨4⟩] ∧
      nestedCopies.Scheduled ⟨1⟩ l k') ∧
    (InPlace.scheduleRegion ⟨0⟩ .sm80).after nestedCopies =
      (.error (.error (.nestedRegion ⟨0⟩ ⟨1⟩)), nestedCopies) := by
  have hdistinct : (nestedCopies.ops.map Op.id).Nodup := by decide
  have hcompute :
      ((nestedCopies.scheduleRegion ⟨1⟩ .sm80).toOption.map fun (l, _) =>
      (l.stages, l.rotation.map (·.logical))) = some (3, [⟨3⟩, ⟨4⟩]) := by
    decide +kernel
  obtain ⟨⟨l, k'⟩, hok, hfigures⟩ := Option.map_eq_some_iff.mp hcompute
  rw [toOption_eq_some_iff] at hok
  obtain ⟨hstages, hlogicals⟩ := Prod.mk.inj hfigures
  refine ⟨hdistinct, ⟨l, k', hok, hstages, hlogicals, ?_⟩, ?_⟩
  · exact ((scheduleRegion_atomic nestedCopies hdistinct ⟨1⟩ .sm80).2.2
      l k' hok).2
  · exact (scheduleRegion_atomic nestedCopies hdistinct ⟨0⟩ .sm80).1 _ rfl

end TileProgram
