import TileProgram.Proofs.Inference.Result
import TileProgram.Proofs.Staged.Equivalence

/-!
# Scheduled kernels refine their kernels

A kernel that inference accepts can be scheduled before or after its tiles have
layouts.  Either way the run by the schedules ends where the run in sequence
ends, up to the slots, and nothing stops it but a loop with more iterations than
a signed word can count.
-/

namespace TileProgram

section

variable {α : Type} [Element α] {base k : Kernel}

/-- How often an operation is executed each time it is reached. -/
def Op.iterations : Op → Nat
  | step _ => 1
  | loop head _ => head.tripCount

/-- Some loop of the kernel has iterations that a signed word cannot count. -/
def Kernel.Uncountable (k : Kernel) : Prop :=
  ∃ op ∈ k.ops, 0x8000000000000000 < op.iterations

instance (k : Kernel) : Decidable k.Uncountable :=
  inferInstanceAs (Decidable (∃ op ∈ k.ops, 0x8000000000000000 < op.iterations))

/-- The run by the schedules ends as the run in sequence does, on the tiles of
`base`, or it could not count the iterations of a loop. -/
def Refined
    (base k : Kernel) (expected : Memory α)
    (run : Pass SimulationError (Memory α)) : Prop :=
  (∃ actual, run = .ok actual ∧
    ∀ t, base.Has t → actual.tile t = expected.tile t) ∨
  run = .error (.fault .overflow) ∧ k.Uncountable

theorem PartlyStaged.closed
    (hwf : base.WellFormed) (h : PartlyStaged base [] k) : k.body.Closed k := by
  intro s hs t ht
  have hlt := (hwf.fitting s (h.step_mem.mp hs)).lt_size t ht
  exact Nat.lt_of_lt_of_le hlt h.grows.size_le

theorem PartlyStaged.run_refined
    (hwf : base.WellFormed) (h : PartlyStaged base [] k) (limit : Option Nat)
    {m : Memory α} (hfits : m.Fits k)
    (hruns : k.run .sequential limit m ≠ .error (.fault .overflow)) :
    ∃ expected, k.run .sequential limit m = .ok expected ∧
      Refined base k expected (k.run .scheduled limit m) := by
  rcases Kernel.run_settles (h.closed hwf) limit hfits with
    hstop | ⟨expected, hexpected, _⟩
  · exact (hruns hstop).elim
  · refine ⟨expected, hexpected, ?_⟩
    have hfollows : ∀ stop : Stop SimulationError,
        (k.Uncountable → stop = .fault .overflow) →
        Settles stop
          (fun actual => ∀ t, base.Has t → actual.tile t = expected.tile t)
          (k.run .scheduled limit m) := by
      intro stop hstop
      have hsettles : Settles stop _ (k.run .scheduled limit m) :=
        h.run_follows hwf (fun head inner hin hlong => hstop ⟨_, hin, hlong⟩)
          limit hfits expected hexpected
      exact hsettles.mono fun actual hactual => hactual.2.2
    by_cases hlong : k.Uncountable
    · rcases hfollows (.fault .overflow) fun _ => rfl with hstop | hactual
      · exact Or.inr ⟨hstop, hlong⟩
      · exact Or.inl hactual
    · -- were it stopped, it would be stopped for two reasons
      rcases hfollows (.fault .overflow) fun _ => rfl with hstop | hactual
      · rcases hfollows (.fault .outOfRange) fun hlong' =>
          (hlong hlong').elim with hstop' | hactual
        · rw [hstop] at hstop'
          cases hstop'
        · exact Or.inl hactual
      · exact Or.inl hactual

end

/-- Staged execution equals sequential execution. -/
theorem scheduled_run_eq_sequential_run
    {k base scheduled : Kernel} {target target' : Target} {inferred : Inferred}
    (hplain : k.scheduledRegions = []) (hinfer : k.infer target = .ok inferred)
    (hbase : base = k ∨ base = inferred.kernel)
    (hschedule : base.schedule target' = .ok scheduled) :
    (∀ {α : Type} [Element α] (limit : Option Nat) (start : Memory α),
      start.Fits scheduled →
      scheduled.run .sequential limit start ≠ .error (.fault .overflow) →
      ∃ expected, scheduled.run .sequential limit start = .ok expected ∧
        Refined base scheduled expected
          (scheduled.run .scheduled limit start)) ∧
    ∀ opts : RunOptions,
      scheduled.simulate .sequential opts ≠ .error (.fault .overflow) →
      ∃ expected, scheduled.simulate .sequential opts = .ok expected ∧
        Refined base scheduled expected
          (scheduled.simulate .scheduled opts) := by
  have hinfers := infers_of_infer hinfer
  have hwf : base.WellFormed := by
    rcases hbase with rfl | rfl
    · exact hinfers.wellFormed
    · exact hinfers.wellFormed_kernel
  have hnone : base.scheduledRegions = [] := by
    rcases hbase with rfl | rfl
    · exact hplain
    · exact hinfers.scheduledRegions_eq_nil hplain
  have hstaged := partlyStaged_of_schedule hwf hnone hschedule
  refine ⟨fun limit start hfits hruns =>
    hstaged.run_refined hwf limit hfits hruns, ?_⟩
  intro opts hruns
  unfold Kernel.simulate at hruns ⊢
  rcases Memory.initial_settles scheduled opts with
    hstop | ⟨start, hstart, hfits⟩
  · rw [hstop] at hruns
    exact (hruns rfl).elim
  · rw [hstart] at hruns ⊢
    exact hstaged.run_refined hwf opts.maxBlocks hfits hruns

/-- Two elements of a tile at a time, as the loop goes on. -/
def pairAt (t : TileId) : Region := ⟨t, [⟨0, [(.loop "k", 2)]⟩], [2]⟩

/-- Copies four elements through a rotated buffer of two. -/
def pairwiseCopy : Kernel :=
  { Kernel.empty "pairwise_copy" with
    threads := ⟨1, 1, 1⟩
    tiles := #[.plain "a" [4] .f32 .global, .plain "c" [4] .f32 .global,
      .plain "x" [2] .f32 .fragment]
    body := .loop ⟨⟨2⟩, "k", 2, 2, none, none⟩
      (.step ⟨⟨0⟩, .copy (pairAt ⟨0⟩) (.full ⟨2⟩ [2]) none, none⟩
        (.step ⟨⟨1⟩, .copy (.full ⟨2⟩ [2]) (pairAt ⟨1⟩) none, none⟩ .done))
        .done
    nextOp := 3 }

theorem scheduled_run_eq_sequential_run_pairwiseCopy :
    ∃ inferred scheduled expected actual,
      pairwiseCopy.infer .sm70 = .ok inferred ∧
      inferred.kernel.schedule .sm70 = .ok scheduled ∧
      scheduled.simulate .sequential .standard = .ok expected ∧
      scheduled.simulate .scheduled .standard = .ok actual ∧
      ∀ t, inferred.kernel.Has t → actual.tile t = expected.tile t := by
  have hcompute : ((pairwiseCopy.infer .sm70).toOption.bind fun inferred =>
      (inferred.kernel.schedule .sm70).toOption.bind fun scheduled =>
        (scheduled.simulate .sequential .standard).toOption.map fun _ =>
          decide scheduled.Uncountable) = some false := by
    decide +kernel
  simp only [Option.bind_eq_some_iff, Option.map_eq_some_iff,
    toOption_eq_some_iff] at hcompute
  obtain ⟨inferred, hinfer, scheduled, hschedule, final, hfinal, hcount⟩ :=
    hcompute
  have hruns : scheduled.simulate .sequential .standard ≠
      .error (.fault .overflow) := by
    rw [hfinal]
    simp
  obtain ⟨expected, hexpected, hactual⟩ :=
    (scheduled_run_eq_sequential_run rfl hinfer (Or.inr rfl) hschedule).2
      .standard hruns
  rcases hactual with ⟨actual, hactual, hsame⟩ | ⟨_, hlong⟩
  · exact ⟨inferred, scheduled, expected, actual, hinfer, hschedule, hexpected,
      hactual, hsame⟩
  · exact (of_decide_eq_false hcount hlong).elim

end TileProgram
