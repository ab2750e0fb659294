import TileProgram.Proofs.Stops.Basic
import TileProgram.Proofs.Inference.Choice

/-!
# Usable layouts

Placing an element divides by the sizes of atoms, warp grids and runs.  A layout
is usable when none of these is zero.  A layout that passes the test of
well-formedness is usable, except that the test itself divides by the sizes of
an operand layout: those have to be positive beforehand.
-/

namespace TileProgram

open Checked

/-! ## Sizes -/

/-- The atom has elements, and an accumulator no more columns than it has
lanes. -/
def Atom.Sized : Atom → Prop
  | mmaA pack | mmaB pack => 0 < pack
  | mmaC => True
  | mfmaA m k => 0 < m ∧ 0 < k
  | mfmaB n k => 0 < n ∧ 0 < k
  | mfmaC m n => 0 < m ∧ 0 < n ∧ n ≤ 64

def RegisterLayout.Sized : RegisterLayout → Prop
  | operand atom warps _ _ => atom.Sized ∧ 0 < warps.rows ∧ 0 < warps.cols
  | striped threads vector => 0 < threads ∧ 0 < vector

/-- The sizes that a test of the layout divides by are not zero. -/
def RegisterLayout.Testable : RegisterLayout → Prop
  | f@(operand ..) => f.Sized
  | striped .. => True

def Layout.Usable (l : Layout) : Prop := ∀ f, l.kind = .fragment f → f.Sized

def Layout.Testable (l : Layout) : Prop :=
  ∀ f, l.kind = .fragment f → f.Testable

def AccessPattern.Sized : AccessPattern → Prop
  | operand f => f.Sized
  | _ => True

theorem RegisterLayout.Sized.testable {f : RegisterLayout} (h : f.Sized) :
    f.Testable := by
  cases f with
  | operand atom warps replicas transposed => exact h
  | striped threads vector => trivial

theorem Layout.Usable.testable {l : Layout} (h : l.Usable) : l.Testable :=
  fun f hf => (h f hf).testable

theorem Layout.usable_of_isFragment {l : Layout} (h : l.isFragment = false) :
    l.Usable := by
  intro f hf
  simp [Layout.isFragment, hf] at h

theorem Layout.usable_rowMajor (shape : Shape) :
    (Layout.rowMajor shape).Usable :=
  Layout.usable_of_isFragment rfl

/-! ## Atoms -/

namespace Atom

variable {a : Atom}

theorem Sized.rows_settles (h : a.Sized) :
    Settles .overflow (0 < ·) a.rows := by
  cases a with
  | mmaB pack =>
      apply (word32_settles _).mono
      rintro _ rfl
      have hpack : 0 < pack := h
      omega
  | mfmaA m k => exact Settles.ok h.1
  | mfmaB n k => exact Settles.ok h.2
  | mfmaC m n => exact Settles.ok h.1
  | _ => exact Settles.ok (by decide)

theorem Sized.cols_settles (h : a.Sized) :
    Settles .overflow (0 < ·) a.cols := by
  cases a with
  | mmaA pack =>
      apply (word32_settles _).mono
      rintro _ rfl
      have hpack : 0 < pack := h
      omega
  | mfmaA m k => exact Settles.ok h.2
  | mfmaB n k => exact Settles.ok h.1
  | mfmaC m n => exact Settles.ok h.2.1
  | _ => exact Settles.ok (by decide)

theorem Sized.locals_runs (h : a.Sized) : Runs a.locals := by
  simp [locals, h.rows_settles.runs, h.cols_settles.runs]

theorem Sized.slot_runs (h : a.Sized) (r c : Nat) : Runs (a.slot r c) := by
  cases a with
  | mmaA pack | mmaB pack =>
      have hpack : 0 < pack := h
      simp [slot, hpack]
  | mfmaC m n =>
      rcases h with ⟨-, hn, hle⟩
      simp only [slot]
      rw [div_of_ne_zero 64 hn.ne', ok_bind]
      simp [Nat.div_pos hle hn]
  | _ => simp [slot]

end Atom

/-! ## Register layouts -/

namespace RegisterLayout

variable {f : RegisterLayout}

@[simp] theorem threads_runs (f : RegisterLayout) : Runs f.threads := by
  cases f <;> simp [threads]

theorem Sized.slot_runs (h : f.Sized) (rows cols r c : Nat) :
    Runs (f.slot rows cols r c) := by
  cases f with
  | operand atom warps replicas transposed =>
      rcases h with ⟨hatom, hwarpRows, hwarpCols⟩
      simp only [slot]
      generalize (if transposed = true then (c, r, cols, rows)
        else (r, c, rows, cols)) = oriented
      rcases oriented with ⟨r, c, rows, cols⟩
      apply hatom.rows_settles.bind
      intro atomRows hatomRows
      apply (word32_settles _).bind
      rintro _ rfl
      apply (Runs.of_div rows (Nat.mul_pos hatomRows hwarpRows)).bind
      intro repeatRows
      apply hatom.cols_settles.bind
      intro atomCols hatomCols
      apply (word32_settles _).bind
      rintro _ rfl
      apply (Runs.of_div cols (Nat.mul_pos hatomCols hwarpCols)).bind
      simp [hatom.slot_runs, hatom.locals_runs]
  | striped threads vector => simp [slot, h.1, h.2]

theorem Sized.localsPerThread_runs (h : f.Sized) (numel : Nat) :
    Runs (f.localsPerThread numel) := by
  apply f.threads_runs.bind
  intro threads
  have hthreads : 0 < max 1 threads := by omega
  cases f with
  | operand atom warps replicas transposed =>
      exact Runs.of_ceilDiv numel hthreads
  | striped count vector =>
      exact (Runs.of_ceilDiv numel (Nat.mul_pos hthreads h.2)).bind (by simp)

theorem Testable.fits_settles (h : f.Testable) (rows cols : Nat) :
    Settles .overflow (fun fits => fits = true → f.Sized)
      (f.fits rows cols) := by
  cases f with
  | operand atom warps replicas transposed =>
      have hsized : (operand atom warps replicas transposed).Sized := h
      rcases h with ⟨hatom, hwarpRows, hwarpCols⟩
      simp only [fits]
      generalize (if transposed = true then (cols, rows) else (rows, cols)) =
        oriented
      rcases oriented with ⟨rows, cols⟩
      apply hatom.rows_settles.bind
      intro atomRows hatomRows
      apply (word32_settles _).bind
      rintro _ rfl
      apply Settles.bind (Runs.of_mod rows (Nat.mul_pos hatomRows hwarpRows))
      intro rowsLeft _
      split
      · apply hatom.cols_settles.bind
        intro atomCols hatomCols
        apply (word32_settles _).bind
        rintro _ rfl
        apply Settles.bind (Runs.of_mod cols (Nat.mul_pos hatomCols hwarpCols))
        intro colsLeft _
        exact Settles.ok fun _ => hsized
      · exact Settles.ok fun _ => hsized
  | striped threads vector =>
      apply Settles.ok
      intro hfits
      simp only [Bool.and_eq_true, decide_eq_true_eq] at hfits
      exact hfits.1

end RegisterLayout

/-! ## Layouts -/

@[simp] theorem Swizzle.apply_runs (s : Swizzle) (offset : Nat) :
    Runs (s.apply offset) := by
  simp [Swizzle.apply]

@[simp] theorem Swizzle.isWellFormed_runs (s : Swizzle) :
    Runs s.isWellFormed := by
  simp [Swizzle.isWellFormed]

@[simp] theorem Swizzle.period_runs (s : Swizzle) : Runs s.period := by
  simp [Swizzle.period]

@[simp] theorem Swizzle.isHardwareMode_runs (s : Swizzle) (elementBytes : Nat) :
    Runs (s.isHardwareMode elementBytes) := by
  simp [Swizzle.isHardwareMode, Swizzle.chunkElements]

@[simp] theorem Shape.numel_runs (shape : Shape) : Runs shape.numel :=
  shape.numel_settles.runs

@[simp] theorem Shape.rows_runs (shape : Shape) : Runs shape.rows :=
  shape.rows_settles.runs

namespace Layout

variable {l : Layout}

theorem Usable.slotAt_runs (h : l.Usable) (r c : Nat) :
    Runs (l.slotAt r c) := by
  rcases l with ⟨shape, kind⟩
  cases kind with
  | fragment f => simp [slotAt, (h f rfl).slot_runs]
  | _ => simp [slotAt]

theorem Usable.footprint_runs (h : l.Usable) : Runs l.footprint := by
  rcases l with ⟨shape, kind⟩
  cases kind with
  | fragment f => simp [footprint, (h f rfl).localsPerThread_runs]
  | _ => simp [footprint]

theorem Testable.isWellFormed_settles (h : l.Testable) :
    Settles .overflow (fun good => good = true → l.Usable) l.isWellFormed := by
  rcases l with ⟨shape, kind⟩
  unfold isWellFormed
  split
  · exact Settles.ok nofun
  · cases kind with
    | rowMajor => exact Settles.ok fun _ => usable_of_isFragment rfl
    | padded pad => exact Settles.ok fun _ => usable_of_isFragment rfl
    | swizzled s =>
        apply Settles.bind s.isWellFormed_runs
        intro good _
        cases good with
        | false => exact Settles.ok nofun
        | true =>
            apply Settles.bind shape.numel_runs
            intro numel _
            apply Settles.bind s.period_runs
            intro period _
            exact Settles.ok fun _ => usable_of_isFragment rfl
    | fragment f =>
        apply Settles.bind shape.rows_runs
        intro rows _
        apply ((h f rfl).fits_settles rows shape.cols).mono
        intro fits hfits hgood g hg
        cases hg
        exact hfits hgood

theorem Usable.inside_runs (h : l.Usable) : Runs l.inside := by
  apply h.footprint_runs.bind
  intro footprint
  rcases l with ⟨shape, kind⟩
  cases kind with
  | fragment f => simp [(h f rfl).localsPerThread_runs]
  | _ => simp

theorem Usable.freshInRow_runs
    (h : l.Usable) (accept : Slot → Bool) (r c left : Nat)
    (seen : Std.HashSet Slot) :
    Runs (l.freshInRow accept r c left seen) := by
  induction left generalizing c seen with
  | zero => exact Runs.ok _
  | succ left ih => simp [freshInRow, h.slotAt_runs, ih]

theorem Usable.freshRows_runs
    (h : l.Usable) (accept : Slot → Bool) (cols r left : Nat)
    (seen : Std.HashSet Slot) :
    Runs (l.freshRows accept cols r left seen) := by
  induction left generalizing r seen with
  | zero => exact Runs.ok _
  | succ left ih =>
      apply (h.freshInRow_runs accept r 0 cols seen).bind
      intro result
      cases result <;> simp [ih]

theorem Testable.isInjective_settles (h : l.Testable) :
    Settles .overflow (fun good => good = true → l.Usable) l.isInjective := by
  apply h.isWellFormed_settles.bind
  intro good hgood
  cases good with
  | false => exact Settles.ok nofun
  | true =>
      have husable := hgood rfl
      apply Settles.bind husable.inside_runs
      intro accept _
      apply Settles.bind l.shape.numel_runs
      intro numel _
      apply (table_settles _ _).bind
      intro room _
      apply Settles.bind l.shape.rows_runs
      intro rows _
      exact (husable.freshRows_runs accept _ 0 rows ∅).mono fun _ _ _ => husable

theorem Usable.shortestRun_runs
    (h : l.Usable) (r c : Nat) (previous : Slot) (run shortest left : Nat) :
    Runs (l.shortestRun r c previous run shortest left) := by
  induction left generalizing c previous run shortest with
  | zero => exact Runs.ok _
  | succ left ih => simp [shortestRun, h.slotAt_runs, ih]

theorem Usable.shortestRunFrom_runs (h : l.Usable) (r left shortest : Nat) :
    Runs (l.shortestRunFrom r left shortest) := by
  induction left generalizing r shortest with
  | zero => exact Runs.ok _
  | succ left ih =>
      simp [shortestRunFrom, h.slotAt_runs, h.shortestRun_runs, ih]

theorem Usable.contiguousRun_runs (h : l.Usable) : Runs l.contiguousRun := by
  simp [contiguousRun, h.shortestRunFrom_runs]

theorem Usable.isBulkCompatible_runs
    (h : l.Usable) (elementBytes : Nat) (target : Target) :
    Runs (l.isBulkCompatible elementBytes target) := by
  unfold isBulkCompatible
  split
  · exact Runs.ok _
  · split
    · split
      · exact Runs.ok _
      · exact Swizzle.isHardwareMode_runs _ elementBytes
      · exact Runs.ok _
    · simp [h.contiguousRun_runs]

end Layout

/-! ## Bank conflicts -/

@[simp] theorem AccessPattern.bands_runs (height rows : Nat) :
    Runs (AccessPattern.bands height rows) := by
  simp [AccessPattern.bands]

theorem AccessPattern.phases_runs
    (p : AccessPattern) (rows cols elementBytes : Nat) (target : Target) :
    Runs (p.phases rows cols elementBytes target) := by
  apply (Runs.of_word32 _).bind
  intro line
  cases p <;> simp

namespace Layout

variable {l : Layout}

theorem Usable.askElement_runs
    (h : l.Usable) (elementBytes wordBytes banks r c : Nat) (load : BankLoad) :
    Runs (l.askElement elementBytes wordBytes banks r c load) := by
  apply (h.slotAt_runs r c).bind
  intro slot
  cases slot with
  | register thread index => exact Runs.ok _
  | offset offset => simp [(sub_settles _ _).runs]

theorem Usable.conflictDegree_runs
    (h : l.Usable) (p : AccessPattern) (elementBytes : Nat) (target : Target) :
    Runs (l.conflictDegree p elementBytes target) := by
  unfold conflictDegree
  split
  · exact Runs.ok _
  · apply l.shape.rows_runs.bind
    intro rows
    apply (p.phases_runs rows _ elementBytes target).bind
    intro phases
    apply Runs.foldlM
    intro phase _ worst
    refine Runs.bind ?_ fun load => Runs.ok _
    apply Runs.foldlM
    intro access _ load
    exact Runs.foldM (fun c load => h.askElement_runs _ _ _ _ c load) _ _ _

theorem Usable.worstDegree_runs
    (h : l.Usable) (patterns : List AccessPattern) (elementBytes : Nat)
    (target : Target) :
    Runs (l.worstDegree patterns elementBytes target) := by
  exact (Runs.mapM fun p _ => h.conflictDegree_runs p elementBytes target).bind
    (by simp)

/-! ## Choosing a layout -/

theorem sharedCandidates_settles (shape : Shape) (type : ElementType) :
    Settles .overflow (fun candidates => ∀ l ∈ candidates, l.Usable)
      (sharedCandidates shape type) := by
  have hruns : Runs (sharedCandidates shape type) := by
    refine Runs.bind ?_ fun swizzled => Runs.ok _
    apply Runs.filterM
    intro l hl
    rcases List.mem_map.mp hl with ⟨s, _, rfl⟩
    exact (usable_of_isFragment rfl).testable.isWellFormed_settles.runs
  apply hruns.settles
  intro candidates hcandidates l hl
  exact usable_of_isFragment (candidate_of_mem hcandidates hl).isFragment_eq

end Layout

theorem fitVector_pos (vector cols : Nat) : 0 < fitVector vector cols := by
  have hdescend : ∀ v, 0 < fitVector.descend cols v := by
    intro v
    fun_induction fitVector.descend cols v with
    | case1 => decide
    | case2 => decide
    | case3 v _ => omega
    | case4 v _ ih => exact ih
  exact hdescend _

namespace LayoutRequest

variable {W : Prop} (req : LayoutRequest) {patterns : List AccessPattern}

theorem resolveShared_ends (patterns : List AccessPattern) (target : Target) :
    Ends W (·.tile = req.tile) (fun l => W → l.Usable)
      (req.resolveShared patterns target) := by
  apply Ends.bind_lift fun _ =>
    Layout.sharedCandidates_settles req.shape req.type
  intro candidates _ hcandidates
  have hgrade : ∀ l ∈ candidates,
      Ends W (·.tile = req.tile) (fun graded => W → graded.1.Usable)
        (do return (l, ← l.worstDegree patterns req.type.bytes target) :
          Pass LayoutError (Layout × Nat)) := by
    intro l hl
    have husable : W → l.Usable := fun hW => hcandidates hW l hl
    apply Ends.bind_lift fun hW => (husable hW).worstDegree_runs _ _ _
    exact fun degree _ _ => Ends.ok husable
  apply Ends.bind (Meets.mapM hgrade)
  intro graded hgraded
  have hfree : ∀ l ∈ (graded.filter (·.2 ≤ 1)).map (·.1), W → l.Usable := by
    intro l hl
    rcases List.mem_map.mp hl with ⟨g, hg, rfl⟩
    exact hgraded g (List.mem_filter.mp hg).1
  apply Ends.bind_lift fun hW => Checked.find?_settles fun l hl =>
    ((hfree l hl hW).isBulkCompatible_runs req.type.bytes target).mono
      fun _ _ _ => trivial
  intro found _ hfound
  cases found with
  | some l => exact Ends.ok fun hW => hfree l (hfound hW l rfl).1 hW
  | none =>
      cases hempty : (graded.filter (·.2 ≤ 1)).map (·.1) with
      | nil => exact Ends.fail rfl
      | cons l rest =>
          rw [hempty] at hfree
          exact Ends.ok (hfree l List.mem_cons_self)

theorem demandedRegisters_ends
    (hpatterns : W → ∀ p ∈ patterns, p.Sized) {exact : Option RegisterLayout}
    (hexact : W → ∀ f, exact = some f → f.Sized) :
    Ends W (·.tile = req.tile) (fun found => W → ∀ f, found = some f → f.Sized)
      (req.demandedRegisters patterns exact) := by
  induction patterns generalizing exact with
  | nil => exact Ends.ok hexact
  | cons p rest ih =>
      have hrest : W → ∀ p ∈ rest, p.Sized :=
        fun hW q hq => hpatterns hW q (List.mem_cons_of_mem p hq)
      cases p with
      | rowMajor vector => exact ih hrest hexact
      | columnMajor => exact ih hrest hexact
      | operand f =>
          have hdemanded : W → ∀ g, some f = some g → g.Sized := by
            rintro hW _ ⟨⟩
            exact hpatterns hW (.operand f) List.mem_cons_self
          have hnext := ih hrest hdemanded
          cases exact with
          | none => exact hnext
          | some first =>
              simp only [demandedRegisters]
              split
              · exact Ends.fail rfl
              · exact hnext

theorem resolveFragment_ends (hpatterns : W → ∀ p ∈ patterns, p.Sized) :
    Ends W (·.tile = req.tile) (fun l => W → l.Usable)
      (req.resolveFragment patterns) := by
  have hnone : W → ∀ f : RegisterLayout, none = some f → f.Sized :=
    fun _ => nofun
  apply (req.demandedRegisters_ends hpatterns hnone).bind
  intro found hfound
  have htestable : ∀ f : RegisterLayout, (W → f.Sized) →
      Ends W (·.tile = req.tile) (fun l => W → l.Usable) (do
        let l : Layout := ⟨req.shape, .fragment f⟩
        if ← l.isWellFormed then return l
        else Pass.fail (.incompatibleShape req.tile req.shape l.text
          "the fragment grid does not tile the shape") :
          Pass LayoutError Layout) := by
    intro f hf
    have husable : W → Layout.Usable ⟨req.shape, .fragment f⟩ := by
      rintro hW _ ⟨⟩
      exact hf hW
    apply Ends.bind_lift fun hW => (husable hW).testable.isWellFormed_settles
    intro good _ _
    cases good with
    | true => exact Ends.ok husable
    | false => exact Ends.fail rfl
  cases found with
  | some f => exact htestable f fun hW => hfound hW f rfl
  | none => exact htestable _ fun _ => ⟨by omega, fitVector_pos _ _⟩

theorem resolve_ends
    (target : Target) (hpatterns : W → ∀ p ∈ patterns, p.Sized) :
    Ends W (·.tile = req.tile) (fun l => W → l.Usable)
      (req.resolve patterns target) := by
  unfold resolve
  split
  · exact Ends.fail rfl
  · split
    · exact Ends.ok fun _ => Layout.usable_rowMajor req.shape
    · exact req.resolveShared_ends patterns target
    · exact req.resolveFragment_ends hpatterns

end LayoutRequest

end TileProgram
