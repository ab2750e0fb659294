import TileProgram.Proofs.Stops.Passes

/-!
# Why compilation stops

The passes after inference work on a kernel with inserted operations, but their
errors are shown in the listing of the kernel as it was written.  Only a refused
dependence can name an operation that the listing does not have.
-/

namespace TileProgram

open Inference Kernel List

/-! ## Inserted operations -/

theorem Inserts.step_cases
    {redirects : List Redirect} {body body' : Body}
    {records : List RelayoutRecord} (h : Inserts redirects body body' records)
    {s' : Step} (hs' : Op.step s' ∈ body'.ops) :
    (∃ s, Op.step s ∈ body.ops ∧ s.id = s'.id) ∨
      ∃ record ∈ records, s' = record.step := by
  induction h with
  | done => cases hs'
  | @step s rest rest' later next hrest ih =>
      have hperm := perm_recordsFrom next (redirectsOf redirects s.id)
      simp only [ops_prepend, Body.ops, mem_append, mem_cons, mem_map] at hs'
      rcases hs' with ⟨other, hload, heq⟩ | heq | ⟨other, hstore, heq⟩ | hin
      · obtain ⟨record, hrecord, rfl⟩ := mem_map.mp hload
        cases heq
        have hin := hperm.mem_iff.mpr (mem_append_left _ hrecord)
        exact Or.inr ⟨record, mem_append_left _ hin, rfl⟩
      · cases heq
        exact Or.inl ⟨s, mem_cons_self, rfl⟩
      · obtain ⟨record, hrecord, rfl⟩ := mem_map.mp hstore
        cases heq
        have hin := hperm.mem_iff.mpr (mem_append_right _ hrecord)
        exact Or.inr ⟨record, mem_append_left _ hin, rfl⟩
      · rcases ih hin with ⟨s₀, hs₀, hid⟩ | ⟨record, hrecord, hstep⟩
        · exact Or.inl ⟨s₀, mem_cons_of_mem _ hs₀, hid⟩
        · exact Or.inr ⟨record, mem_append_right _ hrecord, hstep⟩
  | loop hbody hrest ihbody ihrest =>
      simp only [Body.ops, mem_cons, mem_append, reduceCtorEq, false_or] at hs'
      rcases hs' with hin | hin
      · rcases ihbody hin with ⟨s₀, hs₀, hid⟩ | ⟨record, hrecord, hstep⟩
        · exact Or.inl ⟨s₀, mem_cons_of_mem _ (mem_append_left _ hs₀), hid⟩
        · exact Or.inr ⟨record, mem_append_left _ hrecord, hstep⟩
      · rcases ihrest hin with ⟨s₀, hs₀, hid⟩ | ⟨record, hrecord, hstep⟩
        · exact Or.inl ⟨s₀, mem_cons_of_mem _ (mem_append_right _ hs₀), hid⟩
        · exact Or.inr ⟨record, mem_append_right _ hrecord, hstep⟩

section

variable {k : Kernel} {target : Target} {all : List TileUse}
  {planned : List PlannedTile} {inferred : Inferred}

theorem InfersBy.step_cases
    (h : InfersBy k target all planned inferred) {s' : Step}
    (hs' : Op.step s' ∈ inferred.kernel.ops) :
    .op s'.id ∈ k.sites ∨ ∃ record ∈ inferred.relayouts, s' = record.step := by
  obtain ⟨next, _, hsplice⟩ := h.splice_eq
  rcases (inserts_of_splice hsplice).1.step_cases hs' with
    ⟨s, hs, hid⟩ | hinserted
  · exact Or.inl (hid ▸ op_mem_sites hs)
  · exact Or.inr hinserted

theorem InfersBy.loop_mem_sites
    (h : InfersBy k target all planned inferred) {head : Loop} {body : Body}
    (hloop : Op.loop head body ∈ inferred.kernel.ops) :
    .op head.id ∈ k.sites := by
  obtain ⟨next, _, hspliced⟩ := h.spliced
  obtain ⟨inner, hinner, _⟩ := hspliced.rerouted.loop_mem hloop
  exact op_mem_sites hinner

theorem InfersBy.inserted_not_mem_sites
    (h : InfersBy k target all planned inferred) {record : RelayoutRecord}
    (hrecord : record ∈ inferred.relayouts) : .op record.op ∉ k.sites := by
  obtain ⟨next, hbelow, hsplice⟩ := h.splice_eq
  obtain ⟨_, count, hnumbers⟩ := inserts_of_splice hsplice
  have hfresh : next ≤ record.op.number := by
    have hin : record.op.number ∈ inferred.relayouts.map (·.op.number) :=
      mem_map_of_mem hrecord
    rw [hnumbers, mem_range'_1] at hin
    exact hin.1
  rw [op_mem_sites_iff]
  intro hin
  obtain ⟨op, hop, hid⟩ := mem_map.mp hin
  have hlt := hbelow op hop
  rw [hid] at hlt
  omega

theorem InfersBy.resolved (h : InfersBy k target all planned inferred) :
    inferred.kernel.Resolved := by
  intro t ht
  rw [h.tiles] at ht
  rcases mem_append.mp (mem_toArray.mp ht) with hin | hin
  · obtain ⟨p, _, rfl⟩ := mem_map.mp hin
    exact Option.some_ne_none _
  · obtain ⟨p, _, htwin⟩ := mem_flatMap.mp hin
    obtain ⟨⟨twin, n⟩, _, rfl⟩ := mem_map.mp htwin
    exact Option.some_ne_none _

end

/-! ## Listings -/

@[simp] theorem Iteration.text_runs (iter : Iteration) : Runs iter.text := by
  cases iter <;> simp [Iteration.text]

theorem Action.text_runs (action : Action) : Runs action.text := by
  rcases action with ⟨op, role, iter⟩ | ⟨_ | _, iter⟩ <;> simp [Action.text]

@[simp] theorem StagedLoop.stepText_runs (actions : List Action) :
    Runs (StagedLoop.stepText actions) :=
  (Runs.mapM fun action _ => Action.text_runs action).bind (by simp)

@[simp] theorem StagedLoop.phaseLines_runs
    (name : String) (steps : List (List Action)) :
    Runs (StagedLoop.phaseLines name steps) :=
  Runs.mapM (by simp)

@[simp] theorem StagedLoop.lines_runs (l : StagedLoop) : Runs l.lines := by
  have hsteady : ∀ steady, Runs (StagedLoop.steadyLines steady) := by
    rintro (_ | s) <;> simp [StagedLoop.steadyLines]
  simp [StagedLoop.lines, hsteady]

@[simp] theorem Kernel.bodyLines_runs (k : Kernel) (depth : Nat) (body : Body) :
    Runs (k.bodyLines depth body) := by
  have hschedule : ∀ depth schedule,
      Runs (Kernel.scheduleLines depth schedule) := by
    rintro depth (_ | l) <;> simp [Kernel.scheduleLines]
  induction body generalizing depth with
  | done => exact Runs.ok _
  | step s rest ih => simp [Kernel.bodyLines, ih]
  | loop head body rest ihbody ihrest =>
      simp [Kernel.bodyLines, hschedule, ihbody, ihrest]

theorem Kernel.fingerprint_runs (k : Kernel) : Runs k.fingerprint := by
  simp [Kernel.fingerprint, Kernel.listing, Kernel.lines]

/-! ## Compilation -/

/-- Scheduling refuses a dependence that an inserted relayout reads. -/
def CompileError.ReadsInserted
    (k : Kernel) (target : Target) (e : CompileError) : Prop :=
  ∃ inferred, k.infer target = .ok inferred ∧ ∃ record ∈ inferred.relayouts,
    ∃ region writer tile reason,
      e = .schedule (.unsupportedDependency region record.op writer tile reason)

theorem compile_ends
    {W : Prop} {k : Kernel} {target : Target} (htarget : W → target.Admissible)
    (hdeclared : W → k.TestableLayouts) :
    Ends W (fun e => e.diagnostic.site ∈ k.sites ∨ e.ReadsInserted k target)
      (fun _ => True) (k.compile target) := by
  apply Ends.bind_eq
  · apply Ends.within
    exact (infer_ends htarget hdeclared).mono_error fun e he => Or.inl he
  intro inferred hinfer _
  have hinfer := within_eq_ok_iff.mp hinfer
  obtain ⟨all, planned, hby⟩ := infersBy_of_infer hinfer
  have hin := hby.inTable
  have hresolved := hby.resolved
  have hlaid : W → inferred.kernel.LaidOut :=
    fun hW => hby.laidOut (htarget hW) (hdeclared hW)
  apply Ends.bind_eq
  · apply Ends.within
    apply (hin.schedule_ends hresolved hlaid).mono_error
    rintro e (⟨head, body, hloop, hsite⟩ | ⟨s, hs, hread⟩)
    · left
      change e.diagnostic.site ∈ k.sites
      rw [hsite]
      exact hby.loop_mem_sites hloop
    · obtain ⟨s', hs', region, writer, tile, reason, rfl⟩ := hread
      rw [mem_singleton.mp hs']
      rcases hby.step_cases hs with hgiven | ⟨record, hrecord, rfl⟩
      · exact Or.inl hgiven
      · right
        exact ⟨inferred, hinfer, record, hrecord, region, writer, tile, reason,
          rfl⟩
  intro scheduled hschedule _
  have hcopies := copies_of_schedule (within_eq_ok_iff.mp hschedule)
  have hselect := (hcopies.inTable hin).selectAll_ends
    (hcopies.resolved hresolved) (fun hW => hcopies.laidOut (hlaid hW)) htarget
  apply Ends.bind
  · apply Ends.within
    apply hselect.mono_error
    rintro e ⟨s, hs, hother, tile, requirement, rfl⟩
    rcases hby.step_cases (hcopies.step_mem.mp hs) with
      hgiven | ⟨record, _, rfl⟩
    · exact Or.inl hgiven
    · exact absurd rfl (hother record.src record.dst)
  simp [fingerprint_runs]

/-- Compiling a kernel whose declared layouts can be tested returns a result or
reports an error, unless a word is exhausted: it never divides by zero or leaves
a table. -/
theorem compile_returns_or_refuses
    {k : Kernel} {target : Target} (htarget : target.Known)
    (hdeclared : k.TestableLayouts) :
    (∃ compiled, k.compile target = .ok compiled) ∨
      (∃ e, k.compile target = .error (.error e)) ∨
      k.compile target = .error (.fault .overflow) := by
  have hends :=
    compile_ends (W := True) (fun _ => htarget.admissible) fun _ => hdeclared
  rcases hcompile : k.compile target with (fault | e) | compiled
  · rw [hcompile] at hends
    have hoverflow : fault = .overflow := hends trivial
    exact Or.inr (Or.inr (by rw [hoverflow]))
  · exact Or.inr (Or.inl ⟨e, rfl⟩)
  · exact Or.inl ⟨compiled, rfl⟩

/-- A tile that is declared row-major, and is copied to registers. -/
def declaredCopy : Kernel :=
  { Kernel.empty "declared_copy" with
    threads := ⟨2, 1, 1⟩
    tiles := #[
      { Tile.plain "g" [8] .f32 .global with declared := some (.rowMajor [8]) },
      .plain "x" [8] .f32 .fragment]
    body := .step ⟨⟨0⟩, .copy (.full ⟨0⟩ [8]) (.full ⟨1⟩ [8]) none, none⟩ .done
    nextOp := 1 }

theorem compile_returns_or_refuses_declaredCopy :
    Target.sm80.Known ∧ declaredCopy.TestableLayouts ∧
      ∃ compiled, declaredCopy.compile .sm80 = .ok compiled := by
  have hknown : Target.sm80.Known := Or.inl (by decide)
  have htestable : declaredCopy.TestableLayouts := by
    intro tile htile l hl
    simp only [declaredCopy, mem_toArray, mem_cons, not_mem_nil, or_false]
      at htile
    rcases htile with rfl | rfl
    · cases hl
      exact (Layout.usable_rowMajor [8]).testable
    · cases hl
  have hcompiles : (declaredCopy.compile .sm80).toOption.isSome = true := by
    decide +kernel
  refine ⟨hknown, htestable, ?_⟩
  rcases compile_returns_or_refuses hknown htestable with
    hreturns | ⟨e, he⟩ | hstop
  · exact hreturns
  · rw [he] at hcompiles
    cases hcompiles
  · rw [hstop] at hcompiles
    cases hcompiles

/-- An accumulator that is declared to be divided among no warps. -/
def filledAccumulator : Kernel :=
  { Kernel.empty "filled_accumulator" with
    threads := ⟨32, 1, 1⟩
    tiles := #[{ Tile.plain "x" [16, 8] .f32 .fragment with
      declared := some ⟨[16, 8], .fragment (.operand .mmaC ⟨0, 1⟩ 1 false)⟩ }]
    body := .step ⟨⟨0⟩, .fill ⟨0⟩ 0.0, none⟩ .done
    nextOp := 1 }

/-- A grid without warps is divided by before it is refused. -/
theorem compile_divides_by_zero_noWarps :
    filledAccumulator.compile .sm80 = .error (.fault .divisionByZero) := by
  rfl

/-- An error of compilation is shown at its own line of the listing of the
kernel, and not at the header, except where scheduling refuses a dependence that
an inserted relayout reads. -/
theorem compile_error_recorded_iff
    {k : Kernel} {target : Target} {e : CompileError} {given : Listing}
    (herror : k.compile target = .error (.error e))
    (hgiven : k.listing = .ok given) :
    (∃ span, given.spans.get? e.diagnostic.site = some span ∧
      given.spans.lookup e.diagnostic.site = span) ↔
      ¬ e.ReadsInserted k target := by
  have hrecorded : (∃ span, given.spans.get? e.diagnostic.site = some span ∧
      given.spans.lookup e.diagnostic.site = span) ↔
      e.diagnostic.site ∈ k.sites := by
    rw [← recorded_iff_mem_sites hgiven, Option.isSome_iff_exists]
    apply exists_congr
    intro span
    apply and_iff_left_of_imp
    intro hspan
    simp [SpanMap.lookup, hspan]
  rw [hrecorded]
  constructor
  · rintro hsite
      ⟨inferred, hinfer, record, hrecord, region, writer, tile, reason, rfl⟩
    obtain ⟨all, planned, hby⟩ := infersBy_of_infer hinfer
    exact hby.inserted_not_mem_sites hrecord hsite
  · intro hother
    exact ((compile_ends False.elim False.elim).of_error herror).resolve_right
      hother

/-- A loop that fills `x` from `g`, fills the first two elements again, and
copies `x` to `h`. -/
def refilled (whole part : Option Nat) : Kernel :=
  let all (t : TileId) : Region := .full t [6]
  let start (t : TileId) : Region := ⟨t, [⟨0, []⟩], [2]⟩
  { Kernel.empty "refilled" with
    threads := ⟨2, 1, 1⟩
    tiles := #[.plain "g" [6] .f32 .global, .plain "h" [6] .f32 .global,
      .plain "x" [6] .f32 .fragment]
    body := .loop ⟨⟨3⟩, "i", 2, 1, none, none⟩
      (.step ⟨⟨0⟩, .copy (all ⟨0⟩) (all ⟨2⟩) whole, none⟩
        (.step ⟨⟨1⟩, .copy (start ⟨0⟩) (start ⟨2⟩) part, none⟩
          (.step ⟨⟨2⟩, .copy (all ⟨2⟩) (all ⟨1⟩) whole, none⟩ .done))) .done
    nextOp := 4 }

/-- Why the loop is refused, with the reader and the tile it reads. -/
def refilledError (reader : OpId) (tile : String) : CompileError :=
  .schedule (.unsupportedDependency ⟨3⟩ reader ⟨1⟩ tile
    "a producer fills only part of a rotated buffer")

theorem compile_refilled :
    (refilled none none).compile .sm70 =
      .error (.error (refilledError ⟨2⟩ "x")) ∧
      (refilled (some 3) (some 2)).compile .sm70 =
        .error (.error (refilledError ⟨4⟩ "x_relayout0")) := by
  have hcompute : ∀ {k : Kernel} {e : CompileError},
      (match k.compile .sm70 with
        | .error stop => decide (stop = .error e)
        | .ok _ => false) = true →
      k.compile .sm70 = .error (.error e) := by
    intro k e h
    split at h
    · next stop hstop => rw [hstop, of_decide_eq_true h]
    · cases h
  constructor
  · exact hcompute (by decide +kernel)
  · exact hcompute (by decide +kernel)

/-- Without widths nothing is inserted, and the error is shown at the last
copy. -/
theorem compile_error_recorded_iff_refilled :
    ∃ e given, (refilled none none).compile .sm70 = .error (.error e) ∧
      (refilled none none).listing = .ok given ∧ e.diagnostic.site = .op ⟨2⟩ ∧
      ∃ span, given.spans.get? (.op ⟨2⟩) = some span ∧
        given.spans.lookup (.op ⟨2⟩) = span := by
  have hlisting : (refilled none none).listing.toOption.isSome := by
    decide +kernel
  obtain ⟨given, hgiven⟩ := Option.isSome_iff_exists.mp hlisting
  rw [toOption_eq_some_iff] at hgiven
  have hnone : ((refilled none none).infer .sm70).toOption.map (·.relayouts) =
      some [] := by
    decide +kernel
  refine ⟨_, given, compile_refilled.1, hgiven, rfl, ?_⟩
  apply (compile_error_recorded_iff compile_refilled.1 hgiven).mpr
  rintro ⟨inferred, hinfer, record, hrecord, _⟩
  rw [hinfer] at hnone
  have hempty : inferred.relayouts = [] := Option.some.inj hnone
  rw [hempty] at hrecord
  cases hrecord

/-- With a twin for the second copy, the reader is the relayout that carries the
twin back: the kernel has no such operation, and the error is shown at the
header. -/
theorem compile_error_not_recorded_refilled :
    ∃ e given, (refilled (some 3) (some 2)).compile .sm70 = .error (.error e) ∧
      (refilled (some 3) (some 2)).listing = .ok given ∧
      given.spans.get? e.diagnostic.site = none ∧
      given.spans.lookup e.diagnostic.site = given.spans.lookup .kernel := by
  have hlisting : (refilled (some 3) (some 2)).listing.toOption.isSome := by
    decide +kernel
  obtain ⟨given, hgiven⟩ := Option.isSome_iff_exists.mp hlisting
  rw [toOption_eq_some_iff] at hgiven
  have hnone : given.spans.get?
      (refilledError ⟨4⟩ "x_relayout0").diagnostic.site = none := by
    rw [← Option.not_isSome_iff_eq_none, recorded_iff_mem_sites hgiven]
    decide
  refine ⟨_, given, compile_refilled.2, hgiven, hnone, ?_⟩
  simp [SpanMap.lookup, hnone]

end TileProgram
