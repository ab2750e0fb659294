import TileProgram.Proofs.Checked
import TileProgram.Proofs.Lists
import TileProgram.Staged.Unroll

/-!
# The actions of a staged loop

Prologue, steady state and epilogue are three parts of one sequence of ticks.
Tick `i` gives back the slot of iteration `i - S`, issues the producers of
iteration `i` and then the consumers of iteration `i - (S - 1)`, each as far as
there is such an iteration.  A loop unrolls to its ticks unless it has more
iterations than a signed word can count.
-/

namespace TileProgram

open List

theorem effectiveStages_pos (requested tripCount : Nat) :
    1 ≤ effectiveStages requested tripCount := by
  unfold effectiveStages
  omega

theorem effectiveStages_le
    (requested : Nat) {tripCount : Nat} (h : 0 < tripCount) :
    effectiveStages requested tripCount ≤ tripCount := by
  unfold effectiveStages
  omega

theorem effectiveStages_zero (requested : Nat) :
    effectiveStages requested 0 = 1 := by
  unfold effectiveStages
  omega

namespace StagedLoop

def producing (l : StagedLoop) (iter : Nat) : List ConcreteAction :=
  l.producers.map fun op => .issue op .producer iter (l.slot iter)

/-- The wait for an iteration and the issues of its consumers. -/
def consuming (l : StagedLoop) (iter : Nat) : List ConcreteAction :=
  .wait .acquire iter (l.slot iter)
    :: l.consumers.map fun op => .issue op .consumer iter (l.slot iter)

/-- The wait for the iteration that used the slot before, if there was one. -/
def releasing (l : StagedLoop) (iter : Nat) : List ConcreteAction :=
  if l.stages ≤ iter then
    [.wait .release (iter - l.stages) (l.slot (iter - l.stages))] else []

def tick (l : StagedLoop) (i : Nat) : List ConcreteAction :=
  (if i < l.tripCount then l.releasing i ++ l.producing i else [])
  ++ (if l.stages ≤ i + 1 then l.consuming (i + 1 - l.stages) else [])

def phaseAt (l : StagedLoop) (i : Nat) : Phase :=
  if i + 1 < l.stages then .prologue else if i < l.tripCount then .steady
    else .epilogue

def ticks (l : StagedLoop) : List ConcreteAction :=
  (range (l.tripCount + l.stages - 1)).flatMap l.tick

section

variable {l : StagedLoop} {counter : Nat}

theorem concreteAction?_issueAll
    {iter : Iteration} {j : Nat} (hiter : iter.at? counter = .ok (some j))
    (ops : List OpId) (role : StageRole) :
    (issueAll ops role iter).mapM (l.concreteAction? counter) =
      .ok (ops.map fun op => some (.issue op role j (l.slot j))) := by
  unfold issueAll
  have hsteps :=
    mapM_map_eq_map (r := fun op => Action.issue op role iter) (h := id)
      (f := fun op => .ok (some (ConcreteAction.issue op role j (l.slot j))))
      (g := l.concreteAction? counter) (l := ops) (by
      intro op _
      simp only [concreteAction?, hiter, ok_bind]
      rfl)
  rw [hsteps, mapM_eq_ok_map fun op _ => rfl]
  simp [Except.map]

theorem concreteAction?_consume
    {iter : Iteration} {j : Nat} (hiter : iter.at? counter = .ok (some j))
    (consumers : List OpId) :
    (consume consumers iter).mapM (l.concreteAction? counter) =
      .ok (some (.wait .acquire j (l.slot j)) ::
        consumers.map fun op => some (.issue op .consumer j (l.slot j))) := by
  unfold consume
  rw [mapM_cons, concreteAction?_issueAll hiter]
  simp only [concreteAction?, hiter, ok_bind]
  rfl

theorem concreteStep_issueAll {j : Nat} (phase : Phase) :
    l.concreteStep phase counter (issueAll l.producers .producer (.fixed j)) =
      .ok ⟨phase, l.producing j⟩ := by
  unfold concreteStep
  rw [concreteAction?_issueAll rfl, ok_bind, reduceOption_map_some]
  rfl

theorem concreteStep_consume {j : Nat} (phase : Phase) :
    l.concreteStep phase counter (consume l.consumers (.fixed j)) =
      .ok ⟨phase, l.consuming j⟩ := by
  unfold concreteStep
  rw [concreteAction?_consume rfl, ok_bind]
  rw [reduceOption_eq_filterMap, filterMap_cons]
  exact congrArg
    (fun actions => Except.ok (ConcreteStep.mk phase (_ :: actions)))
    (reduceOption_map_some _ _)

theorem at?_relative
    {d : Int} (hcounter : counter < 0x8000000000000000)
    (hfits : IsInt64 (counter + d)) :
    (Iteration.relative d).at? counter =
      .ok (if 0 ≤ counter + d then some (counter + d).toNat else none) := by
  simp only [Iteration.at?]
  rw [signed64_of_lt hcounter]
  unfold Checked.int64
  rw [if_pos hfits]
  rfl

theorem concreteStep_steady
    (hpos : 1 ≤ l.stages) (hstages : l.stages ≤ counter + 1)
    (hlast : counter < l.tripCount) (hcounter : counter < 0x8000000000000000) :
    l.concreteStep .steady counter
      (steadyActions l.stages l.producers l.consumers) =
      .ok ⟨.steady, l.tick counter⟩ := by
  have hrelease : (Iteration.relative (-(l.stages : Int))).at? counter =
      .ok (if l.stages ≤ counter then some (counter - l.stages) else none) := by
    rw [at?_relative hcounter (by omega)]
    by_cases hle : l.stages ≤ counter
    · rw [if_pos (by omega), if_pos hle]
      congr 2
      omega
    · rw [if_neg (by omega), if_neg hle]
  have hproduce : (Iteration.relative 0).at? counter = .ok (some counter) := by
    rw [at?_relative hcounter (by omega), if_pos (by omega)]
    congr 2
  have hconsume : (Iteration.relative (-((l.stages - 1 : Nat) : Int))).at?
      counter = .ok (some (counter + 1 - l.stages)) := by
    rw [at?_relative hcounter (by omega), if_pos (by omega)]
    congr 2
    omega
  have hwait : l.concreteAction? counter
      (.wait .release (.relative (-(l.stages : Int)))) =
      .ok (if l.stages ≤ counter then
        some (.wait .release (counter - l.stages) (l.slot (counter - l.stages)))
        else none) := by
    simp only [concreteAction?, hrelease, ok_bind]
    by_cases hle : l.stages ≤ counter
    · rw [if_pos hle, if_pos hle]
      rfl
    · rw [if_neg hle, if_neg hle]
      rfl
  unfold concreteStep steadyActions tick
  rw [cons_append, mapM_cons, hwait, ok_bind, mapM_append,
    concreteAction?_issueAll hproduce, ok_bind,
    concreteAction?_consume hconsume, if_pos hlast, if_pos hstages]
  simp only [pure, Except.pure, ok_bind]
  congr 2
  unfold releasing producing consuming
  rw [reduceOption_eq_filterMap, filterMap_cons, filterMap_append,
    filterMap_cons]
  have hissues : ∀ (ops : List OpId) (role : StageRole) (j : Nat),
      (ops.map fun op =>
        some (ConcreteAction.issue op role j (l.slot j))).filterMap id =
        ops.map fun op => .issue op role j (l.slot j) := by
    intro ops role j
    exact reduceOption_map_some _ _
  rw [hissues, hissues]
  by_cases hle : l.stages ≤ counter
  · simp [hle]
  · simp [hle]

theorem step_at_prologue
    (hle : l.stages ≤ l.tripCount) (h : counter + 1 < l.stages) :
    (⟨l.phaseAt counter, l.tick counter⟩ : ConcreteStep) =
      ⟨.prologue, l.producing counter⟩ := by
  unfold phaseAt tick releasing
  rw [if_pos (by omega), if_pos (by omega), if_neg (by omega),
    if_neg (by omega)]
  simp

theorem step_at_epilogue
    (hle : l.stages ≤ counter + 1) (h : l.tripCount ≤ counter) :
    (⟨l.phaseAt counter, l.tick counter⟩ : ConcreteStep) =
      ⟨.epilogue, l.consuming (counter + 1 - l.stages)⟩ := by
  unfold phaseAt tick
  rw [if_neg (by omega), if_neg (by omega), if_neg (by omega),
    if_pos (by omega)]
  rfl

theorem concreteAction?_settles (action : Action) :
    Settles .overflow (fun _ => True) (l.concreteAction? counter action) := by
  have hat : ∀ iter : Iteration,
      Settles .overflow (fun _ => True) (iter.at? counter) := by
    intro iter
    cases iter with
    | fixed j => exact Settles.ok trivial
    | relative d =>
        simp only [Iteration.at?]
        exact (Checked.int64_settles _).bind fun _ _ => Settles.ok trivial
  cases action with
  | issue op role iter =>
      simp only [concreteAction?]
      exact (hat iter).bind fun _ _ => Settles.ok trivial
  | wait kind iter =>
      simp only [concreteAction?]
      exact (hat iter).bind fun _ _ => Settles.ok trivial

theorem concreteStep_settles (phase : Phase) (actions : List Action) :
    Settles .overflow (fun _ => True)
      (l.concreteStep phase counter actions) := by
  unfold concreteStep
  apply (Settles.mapM fun action _ => concreteAction?_settles action).bind
  intro _ _
  exact Settles.ok trivial

theorem concreteStep_steady_overflow
    (hpos : 1 ≤ l.stages)
    (hcounter : counter = 0x8000000000000000 ∨ 0x8000000000000000 ≤ counter ∧
      counter + 1 = l.stages) :
    l.concreteStep .steady counter
      (steadyActions l.stages l.producers l.consumers) = .error .overflow := by
  have hrelease : (Iteration.relative (-(l.stages : Int))).at? counter =
      .error .overflow := by
    simp only [Iteration.at?]
    have hsigned : signed64 counter =
        (counter : Int) - 0x10000000000000000 := by
      unfold signed64
      rw [if_neg (by omega)]
    rw [hsigned]
    unfold Checked.int64
    rw [if_neg (by omega)]
    rfl
  unfold concreteStep steadyActions
  rw [cons_append, mapM_cons]
  simp only [concreteAction?, hrelease, error_bind]

end

section

variable (region : OpId) (var : String) (tripCount requested : Nat)
  (producers consumers : List OpId) (rotation : List RotatedBuffer)

@[simp]
theorem build_tripCount :
    (build region var tripCount requested producers consumers
      rotation).tripCount = tripCount :=
  rfl

@[simp]
theorem build_stages :
    (build region var tripCount requested producers consumers rotation).stages =
      effectiveStages requested tripCount := rfl

theorem build_prologue (hpos : 0 < tripCount) :
    (build region var tripCount requested producers consumers rotation).prologue
      = (range (effectiveStages requested tripCount - 1)).map fun p =>
        issueAll producers .producer (.fixed p) := by
  simp [build, hpos.ne']

theorem build_steady (hpos : 0 < tripCount) :
    (build region var tripCount requested producers consumers rotation).steady =
      some ⟨effectiveStages requested tripCount - 1, tripCount - 1,
        steadyActions (effectiveStages requested tripCount)
          producers consumers⟩ := by
  simp [build, hpos.ne']

theorem build_epilogue (hpos : 0 < tripCount) :
    (build region var tripCount requested producers consumers rotation).epilogue
      = (range' (tripCount - (effectiveStages requested tripCount - 1))
        (effectiveStages requested tripCount - 1)).map fun j =>
        consume consumers (.fixed j) := by
  simp [build, hpos.ne']

theorem unroll_build_prologue
    (ahead : Nat) {l : StagedLoop} (hl : l.producers = producers) :
    ((range ahead).map fun p => issueAll producers .producer (.fixed p)).mapM
        (l.concreteStep .prologue 0) =
      .ok ((range ahead).map fun p => ⟨.prologue, l.producing p⟩) := by
  subst hl
  have hsteps :=
    mapM_map_eq_map (h := id) (f := fun p => .ok ⟨.prologue, l.producing p⟩)
      (l := range ahead) (g := l.concreteStep .prologue 0)
      (r := fun p => issueAll l.producers .producer (.fixed p))
      (fun p _ => concreteStep_issueAll .prologue)
  rw [hsteps, mapM_eq_ok_map fun p _ => rfl]
  simp [Except.map]

theorem unroll_build_epilogue
    (first ahead : Nat) {l : StagedLoop} (hl : l.consumers = consumers) :
    ((range' first ahead).map fun j => consume consumers (.fixed j)).mapM
        (l.concreteStep .epilogue 0) =
      .ok ((range' first ahead).map fun j => ⟨.epilogue, l.consuming j⟩) := by
  subst hl
  have hsteps :=
    mapM_map_eq_map (h := id) (f := fun j => .ok ⟨.epilogue, l.consuming j⟩)
      (l := range' first ahead) (g := l.concreteStep .epilogue 0)
      (r := fun j => consume l.consumers (.fixed j))
      (fun j _ => concreteStep_consume .epilogue)
  rw [hsteps, mapM_eq_ok_map fun j _ => rfl]
  simp [Except.map]

theorem actions_build_overflow (hlarge : 0x8000000000000000 < tripCount) :
    (build region var tripCount requested producers consumers
        rotation).actions = .error .overflow := by
  have hpositive : 0 < tripCount := by omega
  have hpos := effectiveStages_pos requested tripCount
  have hle := effectiveStages_le requested hpositive
  have hsteady : Counted.mapM (fun counter =>
      (build region var tripCount requested producers consumers
        rotation).concreteStep .steady counter
        (steadyActions (effectiveStages requested tripCount) producers
          consumers))
      (effectiveStages requested tripCount - 1)
      (tripCount - 1 + 1 - (effectiveStages requested tripCount - 1)) =
        .error .overflow := by
    rw [Counted.mapM_eq_mapM]
    apply Settles.mapM_eq_error (P := fun _ => True)
      (i := max (effectiveStages requested tripCount - 1) 0x8000000000000000)
    · intro counter _
      exact concreteStep_settles .steady _
    · rw [mem_range'_1]
      omega
    · apply concreteStep_steady_overflow hpos
      rw [build_stages]
      omega
  unfold actions unroll
  rw [build_steady _ _ _ _ _ _ _ hpositive]
  simp only [hsteady, error_bind]
  unfold build
  simp only
  rw [unroll_build_prologue producers _ rfl]
  rfl

theorem unroll_build
    (hsmall : tripCount ≤ 0x8000000000000000) {l : StagedLoop}
    (hl :
      build region var tripCount requested producers consumers rotation = l) :
    l.unroll =
      .ok ((range (l.tripCount + l.stages - 1)).map fun i =>
        ⟨l.phaseAt i, l.tick i⟩) := by
  have hstages : l.stages = effectiveStages requested tripCount := by
    rw [← hl, build_stages]
  have htrip : l.tripCount = tripCount := by rw [← hl, build_tripCount]
  rcases Nat.eq_zero_or_pos tripCount with rfl | hpositive
  · rw [htrip, hstages, effectiveStages_zero, ← hl]
    rfl
  have hpos := effectiveStages_pos requested tripCount
  have hle := effectiveStages_le requested hpositive
  have hproducers : l.producers = producers := by rw [← hl]; rfl
  have hconsumers : l.consumers = consumers := by rw [← hl]; rfl
  rw [← hstages] at hpos hle
  have hprologue : l.prologue.mapM (l.concreteStep .prologue 0) =
      .ok ((range (l.stages - 1)).map fun i => ⟨l.phaseAt i, l.tick i⟩) := by
    have hfield : l.prologue = _ := hl ▸ build_prologue _ _ _ _ _ _ _ hpositive
    rw [hfield, ← hstages, unroll_build_prologue producers _ hproducers]
    congr 1
    apply map_congr_left
    intro i hi
    rw [mem_range] at hi
    exact (step_at_prologue (by omega) (by omega)).symm
  have hsteady : Counted.mapM (fun counter => l.concreteStep .steady counter
        (steadyActions l.stages producers consumers)) (l.stages - 1)
        (tripCount - 1 + 1 - (l.stages - 1)) =
      .ok ((range' (l.stages - 1) (tripCount - (l.stages - 1))).map fun i =>
        ⟨l.phaseAt i, l.tick i⟩) := by
    rw [Counted.mapM_eq_mapM, show tripCount - 1 + 1 = tripCount by omega]
    apply mapM_eq_ok_map
    intro i hi
    rw [mem_range'_1] at hi
    have hphase : l.phaseAt i = .steady := by
      unfold phaseAt
      rw [if_neg (by omega), if_pos (by omega)]
    rw [hphase, ← hproducers, ← hconsumers]
    exact concreteStep_steady hpos (by omega) (by omega) (by omega)
  have hepilogue : l.epilogue.mapM (l.concreteStep .epilogue 0) =
      .ok ((range' tripCount (l.stages - 1)).map fun i =>
        ⟨l.phaseAt i, l.tick i⟩) := by
    have hfield : l.epilogue = _ := hl ▸ build_epilogue _ _ _ _ _ _ _ hpositive
    rw [hfield, ← hstages, unroll_build_epilogue consumers _ _ hconsumers]
    congr 1
    rw [range'_eq_map_range, range'_eq_map_range, List.map_map, List.map_map]
    apply map_congr_left
    intro n hn
    rw [mem_range] at hn
    simp only [Function.comp_apply]
    rw [step_at_epilogue (by omega) (by omega)]
    congr 2
    omega
  have hbody : l.steady =
      some ⟨l.stages - 1, tripCount - 1,
        steadyActions l.stages producers consumers⟩ := by
    rw [hstages, ← hl]
    exact build_steady _ _ _ _ _ _ _ hpositive
  have hrange : range (l.tripCount + l.stages - 1) =
      range (l.stages - 1) ++
      range' (l.stages - 1) (tripCount - (l.stages - 1)) ++
        range' tripCount (l.stages - 1) := by
    rw [htrip, range_eq_range', range_eq_range', append_assoc,
      show tripCount + l.stages - 1 = (l.stages - 1) +
        ((tripCount - (l.stages - 1)) + (l.stages - 1))
        by omega,
      ← range'_append_1, ← range'_append_1,
      show 0 + (l.stages - 1) + (tripCount - (l.stages - 1)) =
        tripCount by omega, Nat.zero_add]
  unfold unroll
  rw [hprologue, ok_bind, hbody]
  simp only [hsteady, ok_bind]
  rw [hepilogue, ok_bind, hrange, map_append, map_append]
  rfl

theorem actions_build (hsmall : tripCount ≤ 0x8000000000000000) :
    (build region var tripCount requested producers consumers
        rotation).actions =
      .ok (build region var tripCount requested producers consumers
        rotation).ticks := by
  unfold actions ticks
  rw [unroll_build region var tripCount requested producers consumers rotation
    hsmall rfl, ok_bind]
  simp only [flatMap_map]
  rfl

end

end StagedLoop

end TileProgram
