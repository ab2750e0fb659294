import Mathlib.Data.List.Basic
import TileProgram.Kernel.Basic
import TileProgram.Proofs.Inference.Splice

/-!
# Changing one operation

An operation is looked up by its number and changed where it is first found, at
whatever depth it stands.  `Revised` follows the way to it, and what a change
keeps is an induction over that way.
-/

namespace TileProgram

open List

namespace Body

/-- The second body is the first with the first operation of a number
changed. -/
inductive Revised (id : OpId) (onStep : Step → Step) (onLoop : Loop → Loop) :
    Body → Body → Prop
  | step {s : Step} {rest : Body} (hid : s.id = id) :
      Revised id onStep onLoop (.step s rest) (.step (onStep s) rest)
  | afterStep {s : Step} {rest rest' : Body} (hne : s.id ≠ id)
      (hrest : Revised id onStep onLoop rest rest') :
      Revised id onStep onLoop (.step s rest) (.step s rest')
  | loop {head : Loop} {body rest : Body} (hid : head.id = id) :
      Revised id onStep onLoop (.loop head body rest)
        (.loop (onLoop head) body rest)
  | inLoop {head : Loop} {body body' rest : Body} (hne : head.id ≠ id)
      (hbody : Revised id onStep onLoop body body') :
      Revised id onStep onLoop (.loop head body rest) (.loop head body' rest)
  | afterLoop {head : Loop} {body rest rest' : Body} (hne : head.id ≠ id)
      (hnew : id ∉ body.ops.map Op.id)
      (hrest : Revised id onStep onLoop rest rest') :
      Revised id onStep onLoop (.loop head body rest) (.loop head body rest')

variable {id : OpId} {onStep : Step → Step} {onLoop : Loop → Loop}
  {body body' : Body}

theorem ids_step (s : Step) (rest : Body) :
    (step s rest).ops.map Op.id = s.id :: rest.ops.map Op.id := rfl

theorem ids_loop (head : Loop) (body rest : Body) :
    (loop head body rest).ops.map Op.id =
      head.id :: (body.ops.map Op.id ++ rest.ops.map Op.id) := by
  rw [ops, map_cons, map_append]
  rfl

theorem modify?_eq_none_iff :
    body.modify? id onStep onLoop = none ↔ id ∉ body.ops.map Op.id := by
  induction body with
  | done => simp [modify?, ops]
  | step s rest ih =>
      rw [modify?, ids_step, mem_cons, not_or]
      split
      · next heq => simp [heq]
      · next hne =>
          rw [Option.map_eq_none_iff, ih]
          exact (and_iff_right (Ne.symm hne)).symm
  | loop head body rest ihbody ihrest =>
      rw [modify?, ids_loop, mem_cons, mem_append, not_or, not_or, ← ihbody,
        ← ihrest]
      split
      · next heq => simp [heq]
      · next hne => split <;> simp_all [Ne.symm hne]

theorem revised_of_modify? (h : body.modify? id onStep onLoop = some body') :
    Revised id onStep onLoop body body' := by
  induction body generalizing body' with
  | done => cases h
  | step s rest ih =>
      rw [modify?] at h
      split at h
      · next hid =>
          cases h
          exact .step hid
      · next hne =>
          obtain ⟨rest', hrest, rfl⟩ := Option.map_eq_some_iff.mp h
          exact .afterStep hne (ih hrest)
  | loop head body rest ihbody ihrest =>
      rw [modify?] at h
      split at h
      · next hid =>
          cases h
          exact .loop hid
      · next hne =>
          split at h
          · next inner hinner =>
              cases h
              exact .inLoop hne (ihbody hinner)
          · next hinner =>
              obtain ⟨rest', hrest, rfl⟩ := Option.map_eq_some_iff.mp h
              exact .afterLoop hne (modify?_eq_none_iff.mp hinner)
                (ihrest hrest)

theorem exists_revised
    (onStep : Step → Step) (onLoop : Loop → Loop)
    (h : id ∈ body.ops.map Op.id) :
    ∃ body', body.modify? id onStep onLoop = some body' ∧
      Revised id onStep onLoop body body' := by
  obtain ⟨body', hbody'⟩ :=
    Option.ne_none_iff_exists'.mp (mt modify?_eq_none_iff.mp
      (not_not_intro h) : body.modify? id onStep onLoop ≠ none)
  exact ⟨body', hbody', revised_of_modify? hbody'⟩

theorem Revised.mem_ids (h : Revised id onStep onLoop body body') :
    id ∈ body.ops.map Op.id := by
  induction h with
  | step hid | loop hid => exact mem_cons.mpr (Or.inl hid.symm)
  | afterStep _ _ ih => exact mem_cons_of_mem _ ih
  | inLoop _ _ ih =>
      rw [ids_loop]
      exact mem_cons_of_mem _ (mem_append_left _ ih)
  | afterLoop _ _ _ ih =>
      rw [ids_loop]
      exact mem_cons_of_mem _ (mem_append_right _ ih)

/-! ## Where the operation is found -/

variable {head : Loop} {inner rest : Body} {s : Step}

theorem mem_ids_iff_find? :
    id ∈ body.ops.map Op.id ↔ (body.find? id).isSome := by
  simp [find?, find?_isSome]

theorem find?_step_of_ne (hne : s.id ≠ id) :
    (step s rest).find? id = rest.find? id := by
  unfold find?
  rw [ops, find?_cons_of_neg (by simpa [Op.id] using hne)]

theorem find?_loop_of_mem (hne : head.id ≠ id) (h : id ∈ inner.ops.map Op.id) :
    (loop head inner rest).find? id = inner.find? id := by
  obtain ⟨op, hop⟩ := Option.isSome_iff_exists.mp (mem_ids_iff_find?.mp h)
  unfold find? at hop ⊢
  rw [ops, find?_cons_of_neg (by simpa [Op.id] using hne), find?_append, hop,
    Option.some_or]

theorem find?_loop_of_not_mem
    (hne : head.id ≠ id) (h : id ∉ inner.ops.map Op.id) :
    (loop head inner rest).find? id = rest.find? id := by
  have hnone : inner.find? id = none := by simpa [mem_ids_iff_find?] using h
  unfold find? at hnone ⊢
  rw [ops, find?_cons_of_neg (by simpa [Op.id] using hne), find?_append, hnone,
    Option.none_or]

end Body

theorem Kernel.mem_ids_of_findOp?
    {k : Kernel} {id : OpId} {op : Op} (h : k.findOp? id = some op) :
    id ∈ k.ops.map Op.id :=
  mem_map.mpr ⟨op, mem_of_find?_eq_some h, by simpa using find?_some h⟩

end TileProgram
