import TileProgram.Proofs.Staged.Actions

/-!
# The handshake of a staged loop

Producers and consumers hand slots to each other.  Every action has a time: its
tick and, within the tick, release waits first, then producers, the acquire wait
and consumers.  The actions run in the order of their times, and every law of
the handshake is a comparison of two times.
-/

namespace TileProgram

open List

variable {stages i : Nat} {a : ConcreteAction}

namespace ConcreteAction

def iter : ConcreteAction → Nat
  | issue _ _ iter _ => iter
  | wait _ iter _ => iter

def slot : ConcreteAction → Nat
  | issue _ _ _ slot => slot
  | wait _ _ slot => slot

/-- Operation and iteration of an issue on one side of the pipeline. -/
def issued? (role : StageRole) : ConcreteAction → Option (OpId × Nat)
  | issue op side iter _ => if side = role then some (op, iter) else none
  | wait .. => none

/-- Iteration of a wait of one kind. -/
def waited? (kind : WaitKind) : ConcreteAction → Option Nat
  | issue .. => none
  | wait side iter _ => if side = kind then some iter else none

/-- An issue of the iteration on one side of the pipeline. -/
def Issues (role : StageRole) (iter : Nat) (a : ConcreteAction) : Prop :=
  ∃ op, a.issued? role = some (op, iter)

/-- A wait of one kind on the iteration. -/
def Waits (kind : WaitKind) (iter : Nat) (a : ConcreteAction) : Prop :=
  a.waited? kind = some iter

/-- When an action runs in a loop of so many stages. -/
def time (stages : Nat) : ConcreteAction → Nat
  | wait .release iter _ => 4 * (iter + stages)
  | issue _ .producer iter _ => 4 * iter + 1
  | wait .acquire iter _ => 4 * (iter + stages - 1) + 2
  | issue _ .consumer iter _ => 4 * (iter + stages - 1) + 3

theorem time_of_issues_producer {iter : Nat} (h : a.Issues .producer iter) :
    a.time stages = 4 * iter + 1 := by
  obtain ⟨op, h⟩ := h
  cases a with
  | issue _ side _ _ =>
      cases side <;> cases h
      rfl
  | wait => cases h

theorem time_of_issues_consumer {iter : Nat} (h : a.Issues .consumer iter) :
    a.time stages = 4 * (iter + stages - 1) + 3 := by
  obtain ⟨op, h⟩ := h
  cases a with
  | issue _ side _ _ =>
      cases side <;> cases h
      rfl
  | wait => cases h

theorem time_of_waits_acquire {iter : Nat} (h : a.Waits .acquire iter) :
    a.time stages = 4 * (iter + stages - 1) + 2 := by
  cases a with
  | issue => cases h
  | wait side _ _ =>
      cases side <;> cases h
      rfl

theorem time_of_waits_release {iter : Nat} (h : a.Waits .release iter) :
    a.time stages = 4 * (iter + stages) := by
  cases a with
  | issue => cases h
  | wait side _ _ =>
      cases side <;> cases h
      rfl

end ConcreteAction

/-- Whatever satisfies `P` stands before whatever satisfies `Q`. -/
def Precedes {α : Type} (P Q : α → Prop) (actions : List α) : Prop :=
  ∀ (m n : Nat) (a b : α), actions[m]? = some a → actions[n]? = some b → P a →
    Q b → m < n

/-- After the actions `done` and before the actions `rest`, the iteration has
been issued by some producer and has not been consumed to the end. -/
def Occupies (done rest : List ConcreteAction) (iter : Nat) : Prop :=
  (∃ a ∈ done, a.Issues .producer iter) ∧
    ∃ a ∈ rest, a.Waits .acquire iter ∨ a.Issues .consumer iter

/-- Actions by which producers and consumers of a loop hand slots to each
other. -/
structure Handshake
    (stages tripCount : Nat) (producers consumers : List OpId)
    (actions : List ConcreteAction) : Prop where
  /-- Producers are issued in list order, once for each iteration and no
  other. -/
  produced : actions.filterMap (·.issued? .producer) =
    (range tripCount).flatMap fun j => producers.map fun op => (op, j)
  /-- So are consumers, and their iterations in increasing order. -/
  consumed : actions.filterMap (·.issued? .consumer) =
    (range tripCount).flatMap fun j => consumers.map fun op => (op, j)
  acquired : actions.filterMap (·.waited? .acquire) = range tripCount
  released : actions.filterMap (·.waited? .release) = range (tripCount - stages)
  acquire_after : ∀ j,
    Precedes (·.Issues .producer j) (·.Waits .acquire j) actions
  acquire_before : ∀ j,
    Precedes (·.Waits .acquire j) (·.Issues .consumer j) actions
  release_after : ∀ j, stages ≤ j →
    Precedes (·.Issues .consumer (j - stages)) (·.Waits .release (j - stages))
      actions
  release_before : ∀ j, stages ≤ j →
    Precedes (·.Waits .release (j - stages)) (·.Issues .producer j) actions
  slots : ∀ a ∈ actions, a.slot = a.iter % stages
  /-- At no time do two iterations occupy one slot. -/
  exclusive : ∀ done rest, actions = done ++ rest →
    ∀ i j, Occupies done rest i →
    Occupies done rest j → i % stages = j % stages → i = j

theorem precedes_of_pairwise
    {α : Type} {P Q : α → Prop} {actions : List α} {time : α → Nat}
    (hsorted : actions.Pairwise fun a b => time a ≤ time b)
    (hlt : ∀ a b, P a → Q b → time a < time b) : Precedes P Q actions := by
  intro m n a b hm hn ha hb
  have hearlier := hlt a b ha hb
  by_contra hle
  obtain ⟨hm', rfl⟩ := List.getElem?_eq_some_iff.mp hm
  obtain ⟨hn', rfl⟩ := List.getElem?_eq_some_iff.mp hn
  rcases Nat.lt_or_eq_of_le (Nat.le_of_not_lt hle) with hlt | rfl
  · have hsorted := pairwise_iff_getElem.mp hsorted n m hn' hm' hlt
    omega
  · omega

/-! ## Windows of a range -/

namespace StagedLoop

variable {l : StagedLoop}

/-! ## One tick -/

theorem mem_tick (h : a ∈ l.tick i) :
    (l.stages ≤ i ∧ a = .wait .release (i - l.stages) (l.slot (i - l.stages))) ∨
      (∃ op, a = .issue op .producer i (l.slot i)) ∨
      (l.stages ≤ i + 1 ∧
        a = .wait .acquire (i + 1 - l.stages) (l.slot (i + 1 - l.stages))) ∨
      (l.stages ≤ i + 1 ∧
        ∃ op, a = .issue op .consumer (i + 1 - l.stages)
          (l.slot (i + 1 - l.stages))) := by
  unfold tick at h
  rcases mem_append.mp h with hin | hin
  · split at hin
    · rcases mem_append.mp hin with hin | hin
      · left
        unfold releasing at hin
        split at hin
        · next hle => exact ⟨hle, mem_singleton.mp hin⟩
        · cases hin
      · obtain ⟨op, _, rfl⟩ := mem_map.mp hin
        exact Or.inr (Or.inl ⟨op, rfl⟩)
    · cases hin
  · split at hin
    · next hle =>
        rcases mem_cons.mp hin with rfl | hin
        · exact Or.inr (Or.inr (Or.inl ⟨hle, rfl⟩))
        · obtain ⟨op, _, rfl⟩ := mem_map.mp hin
          exact Or.inr (Or.inr (Or.inr ⟨hle, op, rfl⟩))
    · cases hin

theorem slot_of_mem_tick (hpos : 1 ≤ l.stages) (h : a ∈ l.tick i) :
    a.slot = a.iter % l.stages := by
  have hslot : ∀ j, l.slot j = j % l.stages := by
    intro j
    unfold slot
    rw [Nat.max_eq_right hpos]
  rcases mem_tick h with ⟨_, rfl⟩ | ⟨_, rfl⟩ | ⟨_, rfl⟩ | ⟨_, _, rfl⟩ <;>
    exact hslot _

theorem time_of_mem_tick (hpos : 1 ≤ l.stages) (h : a ∈ l.tick i) :
    4 * i ≤ a.time l.stages ∧ a.time l.stages < 4 * (i + 1) := by
  rcases mem_tick h with ⟨_, rfl⟩ | ⟨_, rfl⟩ | ⟨_, rfl⟩ | ⟨_, _, rfl⟩ <;>
    simp only [ConcreteAction.time] <;> omega

theorem time_of_mem_releasing (h : a ∈ l.releasing i) :
    a.time l.stages = 4 * i := by
  unfold releasing at h
  split at h
  · rw [mem_singleton.mp h]
    simp only [ConcreteAction.time]
    omega
  · cases h

theorem time_of_mem_producing (h : a ∈ l.producing i) :
    a.time l.stages = 4 * i + 1 := by
  obtain ⟨op, _, rfl⟩ := mem_map.mp h
  rfl

theorem time_of_mem_consuming
    (hle : l.stages ≤ i + 1) (h : a ∈ l.consuming (i + 1 - l.stages)) :
    4 * i + 2 ≤ a.time l.stages := by
  rcases mem_cons.mp h with rfl | h
  · simp only [ConcreteAction.time]
    omega
  · obtain ⟨op, _, rfl⟩ := mem_map.mp h
    simp only [ConcreteAction.time]
    omega

theorem pairwise_time_issues (ops : List OpId) (role : StageRole) (j : Nat) :
    (ops.map fun op => ConcreteAction.issue op role j (l.slot j)).Pairwise
      fun a b => a.time l.stages ≤ b.time l.stages := by
  rw [pairwise_map]
  apply pairwise_of_forall
  intro _ _
  cases role <;> exact Nat.le_refl _

theorem pairwise_time_producers (i : Nat) :
    (l.releasing i ++ l.producing i).Pairwise
    fun a b => a.time l.stages ≤ b.time l.stages := by
  rw [pairwise_append]
  refine ⟨?_, pairwise_time_issues _ _ _, ?_⟩
  · unfold releasing
    split
    · exact pairwise_singleton _ _
    · exact Pairwise.nil
  · intro a ha b hb
    rw [time_of_mem_releasing ha, time_of_mem_producing hb]
    omega

theorem pairwise_time_consuming (j : Nat) :
    (l.consuming j).Pairwise fun a b => a.time l.stages ≤ b.time l.stages := by
  unfold consuming
  rw [pairwise_cons]
  refine ⟨?_, pairwise_time_issues _ _ _⟩
  intro a ha
  obtain ⟨op, _, rfl⟩ := mem_map.mp ha
  simp only [ConcreteAction.time]
  omega

theorem pairwise_time_tick (i : Nat) :
    (l.tick i).Pairwise fun a b => a.time l.stages ≤ b.time l.stages := by
  unfold tick
  rw [pairwise_append]
  refine ⟨?_, ?_, ?_⟩
  · split
    · exact pairwise_time_producers i
    · exact Pairwise.nil
  · split
    · exact pairwise_time_consuming _
    · exact Pairwise.nil
  · intro a ha b hb
    split at ha
    · split at hb
      · next hle =>
          have hlate := time_of_mem_consuming hle hb
          rcases mem_append.mp ha with ha | ha
          · rw [time_of_mem_releasing ha]
            omega
          · rw [time_of_mem_producing ha]
            omega
      · cases hb
    · cases ha

theorem pairwise_time_ticks (hpos : 1 ≤ l.stages) :
    l.ticks.Pairwise fun a b => a.time l.stages ≤ b.time l.stages := by
  unfold ticks
  rw [pairwise_flatMap]
  refine ⟨fun i _ => pairwise_time_tick i, ?_⟩
  apply pairwise_lt_range.imp
  intro i k hlt a ha b hb
  have hbefore := time_of_mem_tick hpos ha
  have hafter := time_of_mem_tick hpos hb
  omega

/-! ## What is issued and awaited -/

theorem filterMap_ticks {β : Type} (f : ConcreteAction → Option β) :
    l.ticks.filterMap f =
      (range (l.tripCount + l.stages - 1)).flatMap fun i =>
        (l.tick i).filterMap f := by
  unfold ticks
  rw [filterMap_flatMap]

/-- What an issue of a producer or a release wait is mapped to, over all
ticks. -/
theorem filterMap_ticks_early
    {β : Type} {f : ConcreteAction → Option β} (hpos : 1 ≤ l.stages)
    (hlate : ∀ j, (l.consuming j).filterMap f = []) :
    l.ticks.filterMap f =
      (range l.tripCount).flatMap fun i =>
        (l.releasing i ++ l.producing i).filterMap f := by
  rw [filterMap_ticks, show l.tripCount + l.stages - 1 = l.tripCount +
    (l.stages - 1) by omega, ← flatMap_range_of_lt l.tripCount (l.stages - 1)]
  apply flatMap_congr
  intro i _
  unfold tick
  rw [filterMap_append]
  split <;> split <;> simp [hlate]

/-- What an acquire wait or an issue of a consumer is mapped to, over all
ticks. -/
theorem filterMap_ticks_late
    {β : Type} {f : ConcreteAction → Option β} (hpos : 1 ≤ l.stages)
    (hearly : ∀ i, (l.releasing i ++ l.producing i).filterMap f = []) :
    l.ticks.filterMap f =
      (range l.tripCount).flatMap fun j => (l.consuming j).filterMap f := by
  rw [filterMap_ticks, show l.tripCount + l.stages - 1 = l.stages - 1 +
    l.tripCount by omega, ← flatMap_range_of_le (l.stages - 1) l.tripCount]
  apply flatMap_congr
  intro i _
  unfold tick
  rw [filterMap_append]
  have hnone : (if i < l.tripCount then l.releasing i ++ l.producing i
      else []).filterMap f = [] := by
    split
    · exact hearly i
    · rfl
  rw [hnone, nil_append]
  by_cases hle : l.stages ≤ i + 1
  · rw [if_pos hle, if_pos (by omega),
      show i + 1 - l.stages = i - (l.stages - 1) by omega]
  · rw [if_neg hle, if_neg (by omega)]
    rfl

theorem filterMap_producing
    {β : Type} (f : ConcreteAction → Option β) (i : Nat) :
    (l.producing i).filterMap f =
      l.producers.filterMap fun op => f (.issue op .producer i (l.slot i)) := by
  unfold producing
  rw [filterMap_map]
  rfl

theorem filterMap_consuming
    {β : Type} (f : ConcreteAction → Option β) (j : Nat) :
    (l.consuming j).filterMap f =
      (f (.wait .acquire j (l.slot j))).toList ++
        l.consumers.filterMap fun op =>
          f (.issue op .consumer j (l.slot j)) := by
  unfold consuming
  rw [filterMap_cons, filterMap_map]
  cases f (.wait .acquire j (l.slot j)) <;> rfl

theorem filterMap_releasing
    {β : Type} (f : ConcreteAction → Option β) (i : Nat) :
    (l.releasing i).filterMap f =
      if l.stages ≤ i then
        (f (.wait .release (i - l.stages) (l.slot (i - l.stages)))).toList
      else [] := by
  unfold releasing
  split
  · rw [filterMap_cons]
    cases f (.wait .release (i - l.stages) (l.slot (i - l.stages))) <;> rfl
  · rfl

theorem produced_ticks (hpos : 1 ≤ l.stages) :
    l.ticks.filterMap (·.issued? .producer) =
      (range l.tripCount).flatMap fun j =>
        l.producers.map fun op => (op, j) := by
  rw [filterMap_ticks_early hpos]
  · apply flatMap_congr
    intro i _
    rw [filterMap_append, filterMap_releasing, filterMap_producing]
    simp [ConcreteAction.issued?]
  · intro j
    rw [filterMap_consuming]
    simp [ConcreteAction.issued?]

theorem consumed_ticks (hpos : 1 ≤ l.stages) :
    l.ticks.filterMap (·.issued? .consumer) =
      (range l.tripCount).flatMap fun j =>
        l.consumers.map fun op => (op, j) := by
  rw [filterMap_ticks_late hpos]
  · apply flatMap_congr
    intro j _
    rw [filterMap_consuming]
    simp [ConcreteAction.issued?]
  · intro i
    rw [filterMap_append, filterMap_releasing, filterMap_producing]
    simp [ConcreteAction.issued?]

theorem acquired_ticks (hpos : 1 ≤ l.stages) :
    l.ticks.filterMap (·.waited? .acquire) = range l.tripCount := by
  rw [filterMap_ticks_late hpos]
  · have hone : ∀ j, (l.consuming j).filterMap (·.waited? .acquire) = [j] := by
      intro j
      rw [filterMap_consuming]
      simp [ConcreteAction.waited?]
    simp only [hone, flatMap_singleton']
  · intro i
    rw [filterMap_append, filterMap_releasing, filterMap_producing]
    simp [ConcreteAction.waited?]

theorem released_ticks (hpos : 1 ≤ l.stages) :
    l.ticks.filterMap (·.waited? .release) =
      range (l.tripCount - l.stages) := by
  rw [filterMap_ticks_early hpos]
  · have hone : ∀ i,
        (l.releasing i ++ l.producing i).filterMap (·.waited? .release) =
        if l.stages ≤ i then [i - l.stages] else [] := by
      intro i
      rw [filterMap_append, filterMap_releasing, filterMap_producing]
      simp [ConcreteAction.waited?]
    simp only [hone]
    rcases Nat.le_total l.stages l.tripCount with hle | hle
    · have hwindow :=
        flatMap_range_of_le l.stages (l.tripCount - l.stages) fun j => [j]
      rw [Nat.add_sub_cancel' hle] at hwindow
      rw [hwindow, flatMap_singleton']
    · rw [Nat.sub_eq_zero_of_le hle, range_zero, flatMap_eq_nil_iff]
      intro i hi
      rw [mem_range] at hi
      rw [if_neg (by omega)]
  · intro j
    rw [filterMap_consuming]
    simp [ConcreteAction.waited?]

/-! ## All ticks -/

theorem lt_of_occupies
    (hpos : 1 ≤ l.stages) {done rest : List ConcreteAction}
    (hsplit : l.ticks = done ++ rest) {j : Nat} (hi : Occupies done rest i)
    (hj : Occupies done rest j) : j < i + l.stages := by
  -- whatever has been done runs no later than whatever is left
  have hsorted := pairwise_time_ticks hpos
  rw [hsplit, pairwise_append] at hsorted
  obtain ⟨_, late, hlate, hconsumes⟩ := hi
  obtain ⟨⟨early, hearly, hproduces⟩, _⟩ := hj
  have hle := hsorted.2.2 early hearly late hlate
  rw [ConcreteAction.time_of_issues_producer hproduces] at hle
  rcases hconsumes with hwait | hissue
  · rw [ConcreteAction.time_of_waits_acquire hwait] at hle
    omega
  · rw [ConcreteAction.time_of_issues_consumer hissue] at hle
    omega

theorem handshake_ticks (hpos : 1 ≤ l.stages) :
    Handshake l.stages l.tripCount l.producers l.consumers l.ticks where
  produced := produced_ticks hpos
  consumed := consumed_ticks hpos
  acquired := acquired_ticks hpos
  released := released_ticks hpos
  acquire_after j := by
    apply precedes_of_pairwise (pairwise_time_ticks hpos)
    intro a b ha hb
    rw [ConcreteAction.time_of_issues_producer ha,
      ConcreteAction.time_of_waits_acquire hb]
    omega
  acquire_before j := by
    apply precedes_of_pairwise (pairwise_time_ticks hpos)
    intro a b ha hb
    rw [ConcreteAction.time_of_waits_acquire ha,
      ConcreteAction.time_of_issues_consumer hb]
    omega
  release_after j hj := by
    apply precedes_of_pairwise (pairwise_time_ticks hpos)
    intro a b ha hb
    rw [ConcreteAction.time_of_issues_consumer ha,
      ConcreteAction.time_of_waits_release hb]
    omega
  release_before j hj := by
    apply precedes_of_pairwise (pairwise_time_ticks hpos)
    intro a b ha hb
    rw [ConcreteAction.time_of_waits_release ha,
      ConcreteAction.time_of_issues_producer hb]
    omega
  slots a ha := by
    obtain ⟨i, _, hin⟩ := mem_flatMap.mp ha
    exact slot_of_mem_tick hpos hin
  exclusive done rest hsplit i j hi hj hslot :=
    eq_of_mod_eq (lt_of_occupies hpos hsplit hj hi)
      (lt_of_occupies hpos hsplit hi hj) hslot

/-! ## Edges -/

theorem stepEdges_issueAll (producers consumers : List OpId) (j slot : Nat) :
    stepEdges producers (some j)
      (consumers.map fun op => .issue op .consumer j slot) =
      consumers.flatMap fun c => producers.map fun p => ⟨p, c, j, slot⟩ := by
  induction consumers with
  | nil => rfl
  | cons c rest ih => simp only [map_cons, stepEdges, if_true, ih, flatMap_cons]

theorem stepEdges_append_producers
    (producers issued : List OpId) (acquired : Option Nat) (i slot : Nat)
    (rest : List ConcreteAction) :
    stepEdges producers acquired
      (issued.map (fun op => .issue op .producer i slot) ++ rest) =
      stepEdges producers acquired rest := by
  induction issued with
  | nil => rfl
  | cons op issued ih => simpa only [map_cons, cons_append, stepEdges] using ih

theorem stepEdges_consuming (acquired : Option Nat) (j : Nat) :
    stepEdges l.producers acquired (l.consuming j) =
      l.consumers.flatMap fun c =>
        l.producers.map fun p => ⟨p, c, j, l.slot j⟩ := by
  unfold consuming
  rw [stepEdges, stepEdges_issueAll]

theorem stepEdges_tick (i : Nat) :
    stepEdges l.producers none (l.tick i) =
      if l.stages ≤ i + 1 then
        l.consumers.flatMap fun c => l.producers.map fun p =>
          ⟨p, c, i + 1 - l.stages, l.slot (i + 1 - l.stages)⟩
      else [] := by
  have hconsuming : stepEdges l.producers none
      (if l.stages ≤ i + 1 then l.consuming (i + 1 - l.stages) else []) =
        if l.stages ≤ i + 1 then
          l.consumers.flatMap fun c => l.producers.map fun p =>
            ⟨p, c, i + 1 - l.stages, l.slot (i + 1 - l.stages)⟩
        else [] := by
    split
    · exact stepEdges_consuming none _
    · rfl
  have hproducing : ∀ rest, stepEdges l.producers none (l.producing i ++ rest) =
      stepEdges l.producers none rest :=
    fun rest => stepEdges_append_producers _ _ _ _ _ _
  unfold tick
  rw [← hconsuming]
  split
  · unfold releasing
    split
    · simp only [cons_append, nil_append, stepEdges, hproducing]
    · rw [nil_append, hproducing]
  · rfl

theorem edges_ticks (hpos : 1 ≤ l.stages) :
    (range (l.tripCount + l.stages - 1)).flatMap
        (fun i => stepEdges l.producers none (l.tick i)) =
      (range l.tripCount).flatMap fun j =>
        l.consumers.flatMap fun c =>
          l.producers.map fun p => ⟨p, c, j, j % l.stages⟩ := by
  rw [show l.tripCount + l.stages - 1 = l.stages - 1 + l.tripCount by omega,
    ← flatMap_range_of_le (l.stages - 1) l.tripCount]
  apply flatMap_congr
  intro i _
  rw [stepEdges_tick]
  by_cases hle : l.stages ≤ i + 1
  · rw [if_pos hle, if_pos (by omega),
      show i + 1 - l.stages = i - (l.stages - 1) by omega]
    unfold slot
    rw [Nat.max_eq_right hpos]
  · rw [if_neg hle, if_neg (by omega)]

end StagedLoop

open StagedLoop in
/-- The three phases of a staged loop are a correct protocol between producers
and consumers, and its edges are all there is between them. -/
theorem staged_loop_handshake
    (region : OpId) (var : String) (tripCount requested : Nat)
    (producers consumers : List OpId) (rotation : List RotatedBuffer)
    (hcount : tripCount ≤ 0x8000000000000000) :
    ∃ actions,
      (build region var tripCount requested producers consumers
        rotation).actions = .ok actions ∧
      Handshake (effectiveStages requested tripCount) tripCount producers
        consumers actions ∧
      (build region var tripCount requested producers consumers
        rotation).syncEdges =
        .ok ((range tripCount).flatMap fun j => consumers.flatMap fun c =>
          producers.map fun p =>
            ⟨p, c, j, j % effectiveStages requested tripCount⟩) := by
  have hpos : 1 ≤ (build region var tripCount requested producers consumers
      rotation).stages :=
    effectiveStages_pos requested tripCount
  refine ⟨_, actions_build region var tripCount requested producers consumers
    rotation hcount, handshake_ticks hpos, ?_⟩
  unfold syncEdges
  rw [unroll_build region var tripCount requested producers consumers rotation
    hcount rfl, ok_bind, flatMap_map]
  exact congrArg Except.ok (edges_ticks hpos)

/-- Five iterations in three stages. -/
theorem staged_loop_handshake_five :
    ∃ actions,
      (StagedLoop.build ⟨0⟩ "k" 5 3 [⟨1⟩, ⟨2⟩] [⟨3⟩] []).actions = .ok actions ∧
      Handshake 3 5 [⟨1⟩, ⟨2⟩] [⟨3⟩] actions ∧
      (StagedLoop.build ⟨0⟩ "k" 5 3 [⟨1⟩, ⟨2⟩] [⟨3⟩] []).syncEdges =
        .ok [⟨⟨1⟩, ⟨3⟩, 0, 0⟩, ⟨⟨2⟩, ⟨3⟩, 0, 0⟩, ⟨⟨1⟩, ⟨3⟩, 1, 1⟩,
          ⟨⟨2⟩, ⟨3⟩, 1, 1⟩, ⟨⟨1⟩, ⟨3⟩, 2, 2⟩, ⟨⟨2⟩, ⟨3⟩, 2, 2⟩,
          ⟨⟨1⟩, ⟨3⟩, 3, 0⟩, ⟨⟨2⟩, ⟨3⟩, 3, 0⟩, ⟨⟨1⟩, ⟨3⟩, 4, 1⟩,
          ⟨⟨2⟩, ⟨3⟩, 4, 1⟩] :=
  staged_loop_handshake ⟨0⟩ "k" 5 3 [⟨1⟩, ⟨2⟩] [⟨3⟩] [] (by decide)

end TileProgram
