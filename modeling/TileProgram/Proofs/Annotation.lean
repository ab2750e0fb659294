import TileProgram.Proofs.Selection

/-!
# Annotating a kernel

Strategies are chosen in program order and then written one by one to the
operation that is found under each number.  Where the numbers are distinct the
search for a number finds the operation that the strategy was chosen for, at
whatever depth it stands; so in the end every operation has its own strategy,
and nothing else has changed.
-/

namespace TileProgram

variable {k k' : Kernel} {target : Target}

/-! ## Strategies in program order -/

theorem Step.eq_of_unselected
    {s s' : Step} (h : s.unselected = s'.unselected)
    (hstrategy : s.strategy = s'.strategy) : s = s' := by
  obtain ⟨hid, hop, _⟩ := Step.mk.inj h
  cases s
  cases s'
  congr

theorem Loop.eq_of_unselected
    {head head' : Loop} (h : head.unselected = head'.unselected)
    (hstrategy : head.strategy = head'.strategy) : head = head' := by
  obtain ⟨hid, hvar, htrips, hstages, hschedule, _⟩ := Loop.mk.inj h
  cases head
  cases head'
  congr

namespace Body

theorem length_annotations
    {body body' : Body} (h : body.unselected = body'.unselected) :
    body.annotations.length = body'.annotations.length := by
  have hops := congrArg (fun b : Body => b.ops.length) h
  simpa [annotations, ops_unselected] using hops

theorem eq_of_annotations
    {body body' : Body} (h : body.unselected = body'.unselected)
    (hannotations : body.annotations = body'.annotations) : body = body' := by
  induction body generalizing body' with
  | done =>
      cases body' with
      | done => rfl
      | step | loop => cases h
  | step s rest ih =>
      cases body' with
      | done | loop => cases h
      | step s' rest' =>
          obtain ⟨hhead, hrest⟩ := step.inj h
          rw [annotations_step, annotations_step] at hannotations
          obtain ⟨hfirst, hothers⟩ := List.cons.inj hannotations
          rw [Step.eq_of_unselected hhead (congrArg Prod.snd hfirst),
            ih hrest hothers]
  | loop head body rest ihbody ihrest =>
      cases body' with
      | done | step => cases h
      | loop head' inner' rest' =>
          obtain ⟨hhead, hbody, hrest⟩ := loop.inj h
          rw [annotations_loop, annotations_loop] at hannotations
          obtain ⟨hfirst, hothers⟩ := List.cons.inj hannotations
          obtain ⟨hinner, hothers⟩ :=
            List.append_inj hothers (length_annotations hbody)
          rw [Loop.eq_of_unselected hhead (congrArg Prod.snd hfirst),
            ihbody hbody hinner, ihrest hrest hothers]

end Body

namespace Kernel

/-! ## Kernels that differ in strategies -/

theorem eq_of_annotations
    (h : k.unselected = k'.unselected)
    (hannotations : k.annotations = k'.annotations) : k = k' := by
  obtain ⟨hname, hgrid, hthreads, htiles, hbody, hrasterization, hnext⟩ :=
    Kernel.mk.inj h
  have hsame := Body.eq_of_annotations hbody hannotations
  cases k
  cases k'
  congr

end Kernel

/-! ## Selection in program order -/

namespace Kernel

theorem choices_unselected (k : Kernel) (target : Target) :
    k.unselected.choices target = k.choices target := by
  unfold choices
  rw [ops_unselected, List.mapM_map]
  simp only [Function.comp_def, select_unselected, Op.id_unselected]

theorem returns_selectAll_iff :
    Returns (k.selectAll target) ↔
      ∀ op ∈ k.ops, Returns (k.select target op) := by
  rw [selectAll_eq, Returns.map_iff, choices, Returns.mapM_iff]
  simp only [Returns.map_iff]

theorem selectAll_eq_error_iff {stop : Stop SelectionError} :
    k.selectAll target = .error stop ↔
      ∃ before op after, k.ops = before ++ op :: after ∧
      (∀ earlier ∈ before, Returns (k.select target earlier)) ∧
      k.select target op = .error stop := by
  rw [selectAll_eq, map_eq_error_iff, choices, mapM_eq_error_iff]
  simp only [Returns.map_iff, map_eq_error_iff]

theorem mapM_select_eq_ok
    (h : List.Forall₂ (fun op op' =>
      k.select target op = .ok op'.strategy) k.ops k'.ops) :
    k.ops.mapM (k.select target) = .ok (k'.ops.map Op.strategy) :=
  mapM_eq_ok_iff_forall₂.mpr (List.forall₂_map_right_iff.mpr h)

theorem eq_of_selected
    {k₁ k₂ : Kernel} (hunselected : k₁.unselected = k₂.unselected)
    (h₁ : List.Forall₂ (fun op op' =>
      k.select target op = .ok op'.strategy) k.ops k₁.ops)
    (h₂ : List.Forall₂ (fun op op' =>
      k.select target op = .ok op'.strategy) k.ops k₂.ops) : k₁ = k₂ := by
  have hzip : ∀ k : Kernel,
      k.annotations = (k.ops.map Op.id).zip (k.ops.map Op.strategy) := by
    intro k
    exact (List.zip_map' ..).symm
  have hstrategies := (mapM_select_eq_ok h₁).symm.trans (mapM_select_eq_ok h₂)
  apply eq_of_annotations hunselected
  rw [hzip, hzip, ids_of_unselected hunselected, Except.ok.inj hstrategies]

theorem selectAll_eq_ok_iff (hdistinct : (k.ops.map Op.id).Nodup) :
    k.selectAll target = .ok k' ↔ k'.unselected = k.unselected ∧
      List.Forall₂ (fun op op' => k.select target op = .ok op'.strategy)
        k.ops k'.ops := by
  refine ⟨selectAll_eq_ok hdistinct, ?_⟩
  rintro ⟨hunselected, hops⟩
  have hreturns : Returns (k.selectAll target) :=
    returns_selectAll_iff.mpr (Returns.mapM_iff.mp ⟨_, mapM_select_eq_ok hops⟩)
  obtain ⟨found, hfound⟩ := hreturns
  obtain ⟨hfoundUnselected, hfoundOps⟩ := selectAll_eq_ok hdistinct hfound
  rw [hfound,
    eq_of_selected (hunselected.trans hfoundUnselected.symm) hops hfoundOps]

theorem selectAll_of_unselected
    {other : Kernel} (hdistinct : (k.ops.map Op.id).Nodup)
    (h : other.unselected = k.unselected) (target : Target) :
    other.selectAll target = k.selectAll target := by
  have hchoices : other.choices target = k.choices target := by
    rw [← choices_unselected, h, choices_unselected]
  have hothers : (other.ops.map Op.id).Nodup := ids_of_unselected h ▸ hdistinct
  rw [selectAll_eq, selectAll_eq, hchoices]
  cases hchosen : k.choices target with
  | error stop => rfl
  | ok chosen =>
      apply congrArg Except.ok
      apply eq_of_annotations
      · rw [unselected_foldl, unselected_foldl, h]
      · rw [annotations_of_choices hothers (hchoices.trans hchosen),
          annotations_of_choices hdistinct hchosen]

/-- Selection annotates every operation and nothing else.  It finishes if it
finds a strategy for every operation and otherwise reports the first for which
it does not; what it returns is the given kernel with the strategy of each
operation in its place, whatever strategies were there before. -/
theorem selectAll_annotates_each
    {k : Kernel} (hdistinct : (k.ops.map Op.id).Nodup) (target : Target) :
    (Returns (k.selectAll target) ↔
      ∀ op ∈ k.ops, Returns (k.select target op)) ∧
    (∀ stop, k.selectAll target = .error stop ↔
      ∃ before op after, k.ops = before ++ op :: after ∧
        (∀ earlier ∈ before, Returns (k.select target earlier)) ∧
        k.select target op = .error stop) ∧
    (∀ k', k.selectAll target = .ok k' ↔ k'.unselected = k.unselected ∧
      List.Forall₂ (fun op op' => k.select target op = .ok op'.strategy)
        k.ops k'.ops) ∧
    ∀ other : Kernel, other.unselected = k.unselected →
      other.selectAll target = k.selectAll target :=
  ⟨returns_selectAll_iff, fun _ => selectAll_eq_error_iff,
    fun _ => selectAll_eq_ok_iff hdistinct,
    fun _ h => selectAll_of_unselected hdistinct h target⟩

/-- A row that is filled in a loop and after it, with strategies in its
operations. -/
def filledTwice (outer inner after : Option Strategy) : Kernel :=
  { Kernel.empty "filled_twice" with
    tiles := #[.plain "x" [12] .f16 .global]
    body := .loop ⟨⟨1⟩, "k", 4, 2, none, outer⟩ (.step ⟨⟨0⟩, .fill ⟨0⟩ 0,
      inner⟩ .done) (.step ⟨⟨2⟩, .fill ⟨0⟩ 1, after⟩ .done)
    nextOp := 3 }

/-- Strategies that were there before are overwritten, also by none. -/
theorem selectAll_annotates_each_filledTwice :
    ((filledTwice (some .scalar) none (some (.vector 8))).ops.map Op.id).Nodup ∧
      (filledTwice (some .scalar) none (some (.vector 8))).selectAll .sm80 =
        .ok (filledTwice none (some (.vector 4)) (some (.vector 4))) := by
  have hdistinct : ((filledTwice (some .scalar) none (some (.vector 8))).ops.map
      Op.id).Nodup := by
    decide
  refine ⟨hdistinct,
    ((selectAll_annotates_each hdistinct .sm80).2.2.1 _).mpr ⟨rfl, ?_⟩⟩
  refine .cons rfl (.cons ?_ (.cons ?_ .nil))
  · decide +kernel
  · decide +kernel

end Kernel

end TileProgram
