import TileProgram.Proofs.Compile

/-!
# Strategies of a compiled kernel

Selection annotates operations one after another, by their numbers.  Since the
numbers are distinct, every step of the result carries the strategy that was
selected for its own operation.  The tables of tiles that the passes leave
behind have layouts that come from inference: a slot of a rotated buffer is a
copy of the buffer under another name.
-/

namespace TileProgram

open Inference Kernel List

variable {k k' : Kernel} {chosen : List (OpId × Option Strategy)}
  {target : Target}

theorem Selection.mismatch_ne_ok
    {op : OpId} {α : Type} (tile : TileId) (requirement : String) (a : α) :
    mismatch k op tile requirement ≠ .ok a := by
  intro h
  rcases bind_eq_ok h with ⟨t, _, h⟩
  cases h

/-! ## Annotations by number -/

def Op.annotation (op : Op) : OpId × Option Strategy := (op.id, op.strategy)

namespace Body

/-- The numbers and strategies of all operations, in program order. -/
def annotations (body : Body) : List (OpId × Option Strategy) :=
  body.ops.map Op.annotation

theorem annotations_step (s : Step) (rest : Body) :
    (step s rest).annotations = (s.id, s.strategy) :: rest.annotations := rfl

theorem annotations_loop (head : Loop) (body rest : Body) :
    (loop head body rest).annotations =
      (head.id, head.strategy) :: (body.annotations ++ rest.annotations) := by
  unfold annotations
  rw [ops, map_cons, map_append]
  rfl

theorem keys_annotations (body : Body) :
    body.annotations.map Prod.fst = body.ops.map Op.id := by
  unfold annotations
  rw [List.map_map]
  rfl

def annotate
    (id : OpId) (strategy : Option Strategy) (a : OpId × Option Strategy) :
    OpId × Option Strategy :=
  if a.1 = id then (id, strategy) else a

theorem map_annotate_of_not_mem
    {id : OpId} {l : List (OpId × Option Strategy)} (h : id ∉ l.map Prod.fst)
    (strategy : Option Strategy) :
    l.map (annotate id strategy) = l := by
  have hsame : ∀ a ∈ l, annotate id strategy a = a := fun a ha =>
    if_neg fun heq => h (mem_map.mpr ⟨a, ha, heq⟩)
  rw [map_congr_left hsame, map_id']

/-- With distinct numbers the first operation with a number is the only one. -/
theorem Revised.annotations_eq
    {id : OpId} {strategy : Option Strategy} {body body' : Body}
    (h : Revised id (fun s => { s with strategy := strategy }) (fun head =>
      { head with strategy := strategy }) body body')
    (hdistinct : (body.ops.map Op.id).Nodup) :
    body'.annotations = body.annotations.map (annotate id strategy) := by
  have hkept : ∀ {body : Body}, id ∉ body.ops.map Op.id →
      body.annotations.map (annotate id strategy) = body.annotations :=
    fun {body} hnew =>
      map_annotate_of_not_mem (body.keys_annotations ▸ hnew) strategy
  induction h with
  | step hid =>
      rw [ids_step, nodup_cons, hid] at hdistinct
      rw [annotations_step, annotations_step, map_cons, hkept hdistinct.1,
        annotate, if_pos hid, hid]
  | loop hid =>
      rw [ids_loop, nodup_cons, mem_append, not_or, hid] at hdistinct
      rw [annotations_loop, annotations_loop, map_cons, map_append,
        hkept hdistinct.1.1, hkept hdistinct.1.2, annotate, if_pos hid, hid]
  | afterStep hne _ ih =>
      rw [ids_step, nodup_cons] at hdistinct
      rw [annotations_step, annotations_step, map_cons, ih hdistinct.2,
        annotate, if_neg hne]
  | inLoop hne hbody ih =>
      rw [ids_loop, nodup_cons, nodup_append'] at hdistinct
      obtain ⟨_, hbodyIds, _, hapart⟩ := hdistinct
      rw [annotations_loop, annotations_loop, map_cons, map_append, ih hbodyIds,
        hkept (disjoint_left.mp hapart hbody.mem_ids), annotate, if_neg hne]
  | afterLoop hne hnew _ ih =>
      rw [ids_loop, nodup_cons, nodup_append'] at hdistinct
      rw [annotations_loop, annotations_loop, map_cons, map_append,
        ih hdistinct.2.2.1, hkept hnew, annotate, if_neg hne]

end Body

namespace Kernel

theorem ops_unselected (k : Kernel) :
    k.unselected.ops = k.ops.map Op.unselected :=
  k.body.ops_unselected

theorem ids_of_unselected (h : k.unselected = k'.unselected) :
    k.ops.map Op.id = k'.ops.map Op.id := by
  have hids : ∀ k : Kernel, k.unselected.ops.map Op.id = k.ops.map Op.id := by
    intro k
    simp [ops_unselected, Function.comp_def, Op.id_unselected]
  rw [← hids k, h, hids k']

/-- The numbers and strategies of all operations, in program order. -/
def annotations (k : Kernel) : List (OpId × Option Strategy) :=
  k.body.annotations

theorem keys_annotations (k : Kernel) :
    k.annotations.map Prod.fst = k.ops.map Op.id :=
  k.body.keys_annotations

theorem annotations_setStrategy
    (hdistinct : (k.ops.map Op.id).Nodup) (id : OpId)
    (strategy : Option Strategy) :
    (k.setStrategy id strategy).annotations =
      k.annotations.map (Body.annotate id strategy) := by
  unfold setStrategy
  split
  · next body hbody =>
      exact (Body.revised_of_modify? hbody).annotations_eq hdistinct
  · next hnone =>
      rw [Body.map_annotate_of_not_mem]
      rw [keys_annotations]
      exact Body.modify?_eq_none_iff.mp hnone

/-- Writing strategies one by one: those before the place reached are new, the
others old. -/
theorem annotations_foldl
    (written : List (OpId × Option Strategy))
    {left : List (OpId × Option Strategy)} (hdistinct : (k.ops.map Op.id).Nodup)
    (h : k.annotations = written ++ left)
    (hkeys : left.map Prod.fst = chosen.map Prod.fst) :
    (chosen.foldl (fun k (id, s) => k.setStrategy id s) k).annotations =
      written ++ chosen := by
  induction chosen generalizing k written left with
  | nil =>
      rw [map_nil, map_eq_nil_iff] at hkeys
      rw [foldl_nil, h, hkeys]
  | cons entry rest ih =>
      cases left with
      | nil => cases hkeys
      | cons old others =>
          obtain ⟨hid, hkeys⟩ := cons.inj hkeys
          have hnodup := hdistinct
          rw [← keys_annotations, h, map_append, map_cons, nodup_append_comm,
            cons_append, nodup_cons, mem_append, not_or, hid] at hnodup
          obtain ⟨⟨hothers, hwritten⟩, _⟩ := hnodup
          have hset : (k.setStrategy entry.1 entry.2).annotations =
              (written ++ [entry]) ++ others := by
            rw [annotations_setStrategy hdistinct, h, map_append, map_cons,
              Body.map_annotate_of_not_mem hwritten,
              Body.map_annotate_of_not_mem hothers, Body.annotate, if_pos hid,
              append_assoc]
            rfl
          rw [foldl_cons,
            ih _ (by rwa [ids_of_unselected (k.unselected_setStrategy ..)]) hset
            hkeys, append_assoc]
          rfl

/-- Selection reads the table and the launch of a kernel, and of an operation
all but its strategy. -/
theorem select_unselected (k : Kernel) (target : Target) (op : Op) :
    k.unselected.select target op.unselected = k.select target op := by
  cases op <;> rfl

/-- The strategies that selection finds, under the numbers of their
operations. -/
def choices (k : Kernel) (target : Target) :
    Pass SelectionError (List (OpId × Option Strategy)) :=
  k.ops.mapM fun op => (k.select target op).map (Prod.mk op.id)

theorem selectAll_eq (k : Kernel) (target : Target) :
    k.selectAll target = (k.choices target).map fun chosen =>
      chosen.foldl (fun k (id, s) => k.setStrategy id s) k := by
  unfold selectAll choices
  simp only [bind_pure_eq_map]

theorem forall₂_of_choices (h : k.choices target = .ok chosen) :
    Forall₂ (fun op entry => op.id = entry.1 ∧ k.select target op = .ok entry.2)
      k.ops chosen := by
  apply (mapM_eq_ok_iff_forall₂.mp h).imp
  intro op entry hentry
  obtain ⟨strategy, hselect, rfl⟩ := map_eq_ok_iff.mp hentry
  exact ⟨rfl, hselect⟩

theorem annotations_of_choices
    (hdistinct : (k.ops.map Op.id).Nodup) (h : k.choices target = .ok chosen) :
    (chosen.foldl (fun k (id, s) => k.setStrategy id s) k).annotations =
      chosen := by
  have hkeys : k.annotations.map Prod.fst = chosen.map Prod.fst := by
    rw [keys_annotations, ← forall₂_eq_eq_eq, forall₂_map_left_iff,
      forall₂_map_right_iff]
    exact (forall₂_of_choices h).imp fun _ _ hentry => hentry.1
  exact annotations_foldl [] hdistinct rfl hkeys

theorem selectAll_eq_ok
    (hdistinct : (k.ops.map Op.id).Nodup) (h : k.selectAll target = .ok k') :
    k'.unselected = k.unselected ∧
      Forall₂ (fun op op' => k.select target op = .ok op'.strategy)
        k.ops k'.ops := by
  rw [selectAll_eq] at h
  obtain ⟨chosen, hchosen, rfl⟩ := map_eq_ok_iff.mp h
  refine ⟨unselected_foldl chosen k, ?_⟩
  have hselected := forall₂_of_choices hchosen
  rw [← annotations_of_choices hdistinct hchosen] at hselected
  exact (forall₂_map_right_iff.mp hselected).imp fun _ _ hop => hop.2

theorem select_of_selectAll
    (hdistinct : (k.ops.map Op.id).Nodup) (h : k.selectAll target = .ok k') :
    ∀ op ∈ k'.ops, k.select target op = .ok op.strategy := by
  obtain ⟨hunselected, hops⟩ := selectAll_eq_ok hdistinct h
  have hsame : k'.ops.map Op.unselected = k.ops.map Op.unselected := by
    rw [← ops_unselected, hunselected, ops_unselected]
  intro op hop
  obtain ⟨i, hi, rfl⟩ := mem_iff_getElem.mp hop
  have hlt : i < k.ops.length := hops.length_eq ▸ hi
  have hentry : k'.ops[i].unselected = k.ops[i].unselected := by
    simpa [hi, hlt] using congrArg (·[i]?) hsame
  rw [← select_unselected, hentry, select_unselected]
  exact (forall₂_iff_get.mp hops).2 i hlt hi

end Kernel

/-! ## Tables of the passes -/

/-- The same operations over a table of tiles that are copies of the old
ones. -/
structure Kernel.Copies (k k' : Kernel) : Prop where
  tiles : ∀ t ∈ k'.tiles, ∃ t₀ ∈ k.tiles, ∃ name, t = { t₀ with name := name }
  grows : k.tiles.size ≤ k'.tiles.size
  body : k'.body.unscheduled = k.body.unscheduled

theorem Kernel.Copies.refl (k : Kernel) : k.Copies k :=
  ⟨fun t ht => ⟨t, ht, t.name, rfl⟩, Nat.le_refl _, rfl⟩

theorem Kernel.Copies.trans
    {k'' : Kernel} (h : k.Copies k') (h' : k'.Copies k'') : k.Copies k'' := by
  refine ⟨?_, h.grows.trans h'.grows, h'.body.trans h.body⟩
  intro t ht
  rcases h'.tiles t ht with ⟨t₁, ht₁, name, rfl⟩
  rcases h.tiles t₁ ht₁ with ⟨t₀, ht₀, _, rfl⟩
  exact ⟨t₀, ht₀, name, rfl⟩

theorem Kernel.Copies.ids (h : k.Copies k') :
    k'.ops.map Op.id = k.ops.map Op.id := by
  unfold Kernel.ops
  rw [← Body.ids_unscheduled k'.body, h.body, Body.ids_unscheduled]

theorem Kernel.Copies.step_mem (h : k.Copies k') {s : Step} :
    Op.step s ∈ k'.ops ↔ Op.step s ∈ k.ops := by
  unfold Kernel.ops
  rw [← Body.step_mem_unscheduled, h.body, Body.step_mem_unscheduled]

theorem Kernel.SlotsAdded.tiles_cases
    {stages : Nat} {buffers : List TileId} {rotation : List RotatedBuffer}
    (h : k.SlotsAdded stages buffers rotation k') (hstages : 1 ≤ stages)
    {t : Tile} (ht : t ∈ k'.tiles) :
    ∃ t₀ ∈ k.tiles, ∃ name, t = { t₀ with name := name } := by
  rcases hstages.eq_or_lt with hone | hmany
  · rw [(h.one hone.symm).1] at ht
    exact ⟨t, ht, t.name, rfl⟩
  · rw [h.appended hmany] at ht
    rcases Array.mem_append.mp ht with hold | hnew
    · exact ⟨t, hold, t.name, rfl⟩
    · obtain ⟨logical, _, hcopy⟩ := mem_flatMap.mp (mem_toArray.mp hnew)
      cases htile : k.tile? logical with
      | none => simp [htile] at hcopy
      | some t₀ =>
          rw [htile] at hcopy
          obtain ⟨n, _, rfl⟩ := mem_map.mp hcopy
          exact ⟨t₀, Array.mem_of_getElem? htile, _, rfl⟩

theorem Kernel.copies_setSchedule
    (k : Kernel) (region : OpId) (l : StagedLoop) :
    k.Copies (k.setSchedule region l) := by
  unfold Kernel.setSchedule
  split
  · next body hbody =>
      exact ⟨(Kernel.Copies.refl k).tiles, Nat.le_refl _,
        (Body.revised_of_modify? hbody).unscheduled_eq⟩
  · exact Kernel.Copies.refl k

theorem Kernel.copies_of_scheduleRegion
    {region : OpId} {l : StagedLoop}
    (h : k.scheduleRegion region target = .ok (l, k')) : k.Copies k' := by
  rcases scheduleRegion_eq_ok h with
    ⟨_, _, _, _, k₁, _, _, _, _, hpos, hadded, _, rfl⟩
  have hcopies : k.Copies k₁ :=
    ⟨fun _ => hadded.tiles_cases hpos, (hadded.grows hpos).size_le,
      congrArg _ hadded.body⟩
  exact hcopies.trans (k₁.copies_setSchedule region l)

theorem Kernel.copies_of_schedule (h : k.schedule target = .ok k') :
    k.Copies k' := by
  have hstep : ∀ (done : List OpId) (region : OpId) (k₁ k₂ : Kernel),
      k.Copies k₁ →
      (do return (← k₁.scheduleRegion region target).2 :
        Pass ScheduleError Kernel) = .ok k₂ →
      k.Copies k₂ := by
    intro _ region k₁ k₂ hcopies hregion
    rcases bind_eq_ok hregion with ⟨⟨l, k₃⟩, hschedule, hregion⟩
    cases hregion
    exact hcopies.trans (copies_of_scheduleRegion hschedule)
  exact foldlM_induct (I := fun _ k₁ => k.Copies k₁) hstep
    (Kernel.Copies.refl k) h

theorem compiled_closed
    {compiled : Compiled} (hcompile : k.compile target = .ok compiled) :
    compiled.kernel.body.Closed compiled.kernel := by
  rcases compile_eq_ok hcompile with
    ⟨inferred, scheduled, hinfer, hschedule, hselect⟩
  have hcopies := copies_of_schedule hschedule
  have hwf := (infers_of_infer hinfer).wellFormed_kernel
  have hreselected := reselected_of_selectAll hselect
  intro s hs t ht
  have hs₀ : (Op.step s).unselected ∈ scheduled.ops.map Op.unselected :=
    hreselected.ops ▸ mem_map_of_mem hs
  rcases mem_map.mp hs₀ with ⟨op, hop, hsame⟩
  cases op with
  | loop => cases hsame
  | step s₀ =>
      have hstep : s₀.op = s.op := (Step.mk.inj (Op.step.inj hsame)).2.1
      have hlt :=
        (hwf.fitting s₀ (hcopies.step_mem.mp hop)).lt_size t (hstep ▸ ht)
      rw [Kernel.Has, hreselected.tiles]
      exact hlt.trans_le hcopies.grows

end TileProgram
