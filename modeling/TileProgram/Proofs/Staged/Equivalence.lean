import TileProgram.Proofs.Staged.Pipeline

/-!
# Staged execution equals sequential execution

A staged loop performs its ticks without a release violation and ends with the
memory that the loop has in sequence, slots apart.  The invariant is that of
`LoopRun`, taken at the beginning of every tick; the writes in flight are the
outstanding ones.
-/

namespace TileProgram

open Kernel List

variable {s : Step} {c q i : Nat}

theorem findRev?_step
    {steps : List Step} (hdistinct : (steps.map (·.id)).Nodup)
    (hs : s ∈ steps) :
    (steps.map Op.step).findRev? (·.id == s.id) = some (.step s) := by
  rw [findRev?_eq_find?_reverse]
  have hin : Op.step s ∈ (steps.map Op.step).reverse :=
    mem_reverse.mpr (mem_map_of_mem hs)
  obtain ⟨found, hfound⟩ := Option.isSome_iff_exists.mp
    (find?_isSome.mpr ⟨Op.step s, hin, by simp [Op.id]⟩ :
      ((steps.map Op.step).reverse.find? (·.id == s.id)).isSome)
  obtain ⟨o, ho, rfl⟩ :=
    mem_map.mp (mem_reverse.mp (mem_of_find?_eq_some hfound))
  have hid : o.id = s.id := by simpa [Op.id] using find?_some hfound
  rw [hfound, inj_on_of_nodup_map hdistinct ho hs hid]

namespace LoopRun

variable {α : Type} [Element α] {r : LoopRun α} {p : Pipeline α}
  {out : Nat → List (Write α)}

def ops (r : LoopRun α) : List Op := r.steps.map Op.step

/-- The loop variable aside, the variables are those at the start. -/
def SameEnv (r : LoopRun α) (env : Bindings) : Prop :=
  env.unbind r.loop.var = r.env.unbind r.loop.var

theorem SameEnv.bind {env : Bindings} (h : r.SameEnv env) (j : Nat) :
    env.bind r.loop.var (signed64 j) = r.envAt j :=
  Bindings.bind_eq_of_unbind_eq h _

theorem SameEnv.machine_bind {m : Machine α} (h : r.SameEnv m.env) (j : Nat) :
    m.bind r.loop.var (signed64 j) = ⟨m.memory, r.envAt j⟩ := by
  unfold Machine.bind
  rw [h.bind]

theorem sameEnv_envAt (j : Nat) : r.SameEnv (r.envAt j) :=
  Bindings.unbind_bind _ _ _

/-! ## Issues -/

theorem issue_producer
    (henv : r.SameEnv p.machine.env) (h : r.Idle c q out p.machine.memory)
    (hc : c ≤ r.loop.tripCount) (hi : i < r.loop.tripCount)
    (hreleased : r.loop.stages ≤ i → p.released.contains (i - r.loop.stages))
    (hs : s ∈ r.steps) (hside : s.isProducer r.base) (slot : Nat) :
    r.loop.act r.kernel r.ops p (.issue s.id .producer i slot) =
      .ok { p with
        machine := ⟨p.machine.memory, r.envAt i⟩
        inFlight := p.inFlight.insert i (p.inFlight.getD i [] ++
          (producedBy r.kernel (r.envAt i) (r.laps 0) s).map
            (Write.rename (r.loop.inSlot i))) } := by
  have hcond :
      ¬ (r.loop.stages ≤ i ∧ !p.released.contains (i - r.loop.stages)) := by
    rintro ⟨hle, hnot⟩
    simp [hreleased hle] at hnot
  simp only [StagedLoop.act, StagedLoop.issue]
  rw [show r.ops.findRev? (·.id == s.id) = some (.step s) from
    findRev?_step r.region.distinct hs]
  simp only [henv.machine_bind, StagedLoop.issueWrites]
  rw [h.eval_producer hc hi hs hside, lift_ok, ok_bind]
  simp only [if_neg hcond]
  rfl

theorem issue_consumer
    {now now' : Memory α} (henv : r.SameEnv p.machine.env)
    (h : r.Busy c q out now p.machine.memory) (hwindow : q ≤ c + r.loop.stages)
    (hs : s ∈ r.steps) (hexec : s.op.exec r.kernel (r.envAt c) now = .ok now')
    (slot : Nat) :
    ∃ m', r.loop.act r.kernel r.ops p (.issue s.id .consumer c slot) =
        .ok { p with
          machine := ⟨m', r.envAt c⟩
          consumed := p.consumed.insert c (p.consumed.getD c 0 + 1) } ∧
      r.Busy c q out now' m' := by
  obtain ⟨m', hexec', hbusy⟩ := h.exec hwindow hs hexec
  obtain ⟨all, heval, hcommit⟩ := bind_eq_ok hexec'
  refine ⟨m', ?_, hbusy⟩
  simp only [StagedLoop.act, StagedLoop.issue]
  rw [show r.ops.findRev? (·.id == s.id) = some (.step s) from
    findRev?_step r.region.distinct hs]
  simp only [henv.machine_bind, StagedLoop.issueWrites]
  rw [heval, lift_ok, ok_bind]
  simp only [Machine.commit]
  rw [hcommit]
  rfl

theorem issue_producers
    {part : List Step} (hpart : ∀ s ∈ part, s ∈ r.steps ∧ s.isProducer r.base)
    (henv : r.SameEnv p.machine.env) (h : r.Idle c q out p.machine.memory)
    (hc : c ≤ r.loop.tripCount) (hi : i < r.loop.tripCount)
    (hreleased : r.loop.stages ≤ i → p.released.contains (i - r.loop.stages))
    (slot : Nat) :
    ∃ p', (part.map fun s => ConcreteAction.issue s.id .producer i slot).foldlM
        (r.loop.act r.kernel r.ops) p = .ok p' ∧
      r.SameEnv p'.machine.env ∧ p'.machine.memory = p.machine.memory ∧
      p'.consumed = p.consumed ∧
      ∀ j, p'.inFlight.getD j [] = if i = j then p.inFlight.getD i [] ++
        (part.flatMap (producedBy r.kernel (r.envAt i) (r.laps 0))).map
          (Write.rename (r.loop.inSlot i)) else p.inFlight.getD j [] := by
  induction part generalizing p with
  | nil =>
      refine ⟨p, rfl, henv, rfl, rfl, ?_⟩
      intro j
      by_cases hij : i = j
      · subst hij
        simp
      · rw [if_neg hij]
  | cons s rest ih =>
      obtain ⟨hs, hside⟩ := hpart s mem_cons_self
      have hfirst := issue_producer henv h hc hi hreleased hs hside slot
      obtain ⟨p', hrun, henv', hmemory, hconsumed, hflight⟩ := ih
        (fun o ho => hpart o (mem_cons_of_mem s ho))
        (p := { p with
          machine := ⟨p.machine.memory, r.envAt i⟩
          inFlight := p.inFlight.insert i (p.inFlight.getD i [] ++
            (producedBy r.kernel (r.envAt i) (r.laps 0) s).map
              (Write.rename (r.loop.inSlot i))) })
        (sameEnv_envAt i) h hreleased
      refine ⟨p', ?_, henv', hmemory, hconsumed, ?_⟩
      · rw [map_cons, foldlM_cons, hfirst, ok_bind]
        exact hrun
      · intro j
        rw [hflight j]
        by_cases hij : i = j
        · subst hij
          simp [append_assoc]
        · rw [if_neg hij, if_neg hij, Std.HashMap.getD_insert]
          simp [hij]

theorem issue_consumers
    {part : List Step} (hpart : ∀ s ∈ part, s ∈ r.steps) {now now' : Memory α}
    (henv : r.SameEnv p.machine.env) (h : r.Busy c q out now p.machine.memory)
    (hwindow : q ≤ c + r.loop.stages)
    (hrun : runSteps r.kernel (r.envAt c) part now = .ok now') (slot : Nat) :
    ∃ p', (part.map fun s => ConcreteAction.issue s.id .consumer c slot).foldlM
        (r.loop.act r.kernel r.ops) p = .ok p' ∧
      r.SameEnv p'.machine.env ∧ r.Busy c q out now' p'.machine.memory ∧
      p'.inFlight = p.inFlight ∧
      ∀ j, p'.consumed.getD j 0 =
        if c = j then p.consumed.getD c 0 + part.length
          else p.consumed.getD j 0 := by
  induction part generalizing p now with
  | nil =>
      cases hrun
      refine ⟨p, rfl, henv, h, rfl, ?_⟩
      intro j
      by_cases hcj : c = j
      · subst hcj
        simp
      · rw [if_neg hcj]
  | cons s rest ih =>
      rw [runSteps_cons] at hrun
      obtain ⟨middle, hexec, hrest⟩ := bind_eq_ok hrun
      obtain ⟨m', hfirst, hbusy⟩ :=
        issue_consumer henv h hwindow (hpart s mem_cons_self) hexec slot
      obtain ⟨p', hrun', henv', hbusy', hflight, hconsumed⟩ := ih
        (fun o ho => hpart o (mem_cons_of_mem s ho))
        (p := { p with
          machine := ⟨m', r.envAt c⟩
          consumed := p.consumed.insert c (p.consumed.getD c 0 + 1) })
        (sameEnv_envAt c) hbusy hrest
      refine ⟨p', ?_, henv', hbusy', hflight, ?_⟩
      · rw [map_cons, foldlM_cons, hfirst, ok_bind]
        exact hrun'
      · intro j
        rw [hconsumed j]
        by_cases hcj : c = j
        · subst hcj
          simp only [if_true, Std.HashMap.getD_insert_self, length_cons]
          omega
        · rw [if_neg hcj, if_neg hcj, Std.HashMap.getD_insert]
          simp [hcj]

/-! ## Halves of a tick -/

/-- The pipeline between its events: nothing is in flight but what is
outstanding, and the consumers of every finished iteration have been counted. -/
structure Stage (r : LoopRun α) (c q : Nat) (p : Pipeline α) : Prop where
  env : r.SameEnv p.machine.env
  idle : r.Idle c q (fun j => p.inFlight.getD j []) p.machine.memory
  clear : ∀ j, q ≤ j → p.inFlight.getD j [] = []
  consumed : ∀ j < c, r.loop.consumers.length ≤ p.consumed.getD j 0

theorem Stage.releasing
    (h : r.Stage c q p) (hreuse : r.loop.stages ≤ i → i - r.loop.stages < c) :
    ∃ p' : Pipeline α,
      (r.loop.releasing i).foldlM (r.loop.act r.kernel r.ops) p = .ok p' ∧
      p'.machine = p.machine ∧ p'.inFlight = p.inFlight ∧
      p'.consumed = p.consumed ∧
      (r.loop.stages ≤ i → p'.released.contains (i - r.loop.stages)) := by
  unfold StagedLoop.releasing
  by_cases hle : r.loop.stages ≤ i
  · have hcount := h.consumed _ (hreuse hle)
    have hact : ∀ slot,
        r.loop.act r.kernel r.ops p (.wait .release (i - r.loop.stages) slot) =
        .ok { p with released := p.released.insert (i - r.loop.stages) } := by
      intro slot
      simp only [StagedLoop.act]
      rw [if_neg (by omega)]
      rfl
    refine ⟨{ p with released := p.released.insert (i - r.loop.stages) }, ?_,
      rfl, rfl, rfl, ?_⟩
    · rw [if_pos hle, foldlM_cons, hact, ok_bind]
      rfl
    · intro _
      simp
  · rw [if_neg hle]
    exact ⟨p, rfl, rfl, rfl, rfl, fun hle' => (hle hle').elim⟩

theorem Stage.produce
    (h : r.Stage c q p) (hc : c ≤ r.loop.tripCount) (hq : q < r.loop.tripCount)
    (hreuse : r.loop.stages ≤ q → q - r.loop.stages < c) :
    ∃ p', (r.loop.releasing q ++ r.loop.producing q).foldlM
      (r.loop.act r.kernel r.ops) p =
        .ok p' ∧ r.Stage c (q + 1) p' := by
  obtain ⟨p₁, hrelease, hmachine, hflight, hconsumed, hreleased⟩ :=
    h.releasing hreuse
  have hpart : ∀ s ∈ r.steps.filter (·.isProducer r.base),
      s ∈ r.steps ∧ s.isProducer r.base := fun s hs => mem_filter.mp hs
  obtain ⟨p', hissue, henv, hmemory, hconsumed', hflight'⟩ := issue_producers
    hpart (hmachine ▸ h.env) (hmachine ▸ h.idle) hc hq hreleased (r.loop.slot q)
  have hproducing : r.loop.producing q =
      (r.steps.filter (·.isProducer r.base)).map fun s =>
        ConcreteAction.issue s.id .producer q (r.loop.slot q) := by
    unfold StagedLoop.producing
    rw [r.region.producers, List.map_map]
    rfl
  refine ⟨p', ?_, henv, ?_, ?_, ?_⟩
  · rw [foldlM_append, hrelease, ok_bind, hproducing]
    exact hissue
  · have hout : (fun j => p'.inFlight.getD j []) =
        Function.update (fun j => p.inFlight.getD j []) q (r.landing q) := by
      funext j
      rw [hflight' j, hflight]
      by_cases hqj : q = j
      · subst hqj
        rw [if_pos rfl, Function.update_self, h.clear q (Nat.le_refl q)]
        rfl
      · rw [if_neg hqj, Function.update_of_ne (Ne.symm hqj)]
    rw [hout, hmemory, hmachine]
    exact h.idle.begin hq
  · intro j hj
    rw [hflight' j, hflight, if_neg (by omega)]
    exact h.clear j (by omega)
  · intro j hj
    rw [hconsumed', hconsumed]
    exact h.consumed j hj

theorem Outstanding.lt_size
    {first j : Nat} {m : Memory α} (h : r.Outstanding first q out m) :
    ∀ w ∈ out j, w.tile.index < m.tiles.size := by
  intro w hw
  obtain ⟨t, ht, hwt⟩ := h.targets j w hw
  obtain ⟨shape, hshape⟩ := shapeOf_of_lt (buffers_lt ht)
  rw [h.fits.size_eq, hwt]
  exact lt_of_shapeOf ((r.region.slots.shapeOf t ht j).trans hshape)

theorem Stage.consume
    (h : r.Stage c q p) (hcq : c < q) (hq : q ≤ r.loop.tripCount)
    (hwindow : q ≤ c + r.loop.stages) :
    ∃ p', (r.loop.consuming c).foldlM (r.loop.act r.kernel r.ops) p = .ok p' ∧
      r.Stage (c + 1) q p' := by
  have hcommit : p.machine.memory.commit (p.inFlight.getD c []) =
      .ok (p.machine.memory.put (p.inFlight.getD c [])) :=
    Memory.commit_of_forall fun w hw => h.idle.toOutstanding.lt_size w hw
  have hacquire : ∀ slot, r.loop.act r.kernel r.ops p (.wait .acquire c slot) =
      .ok { p with
        machine := ⟨p.machine.memory.put (p.inFlight.getD c []), p.machine.env⟩
        inFlight := p.inFlight.erase c } := by
    intro slot
    simp only [StagedLoop.act, Machine.commit]
    rw [hcommit]
    rfl
  have herase : (fun j => (p.inFlight.erase c).getD j []) =
      Function.update (fun j => p.inFlight.getD j []) c [] := by
    funext j
    rw [Std.HashMap.getD_erase]
    by_cases hcj : c = j
    · subst hcj
      simp
    · simp [hcj, Function.update_of_ne (Ne.symm hcj)]
  have hlanded :=
    h.idle.land hwindow (Nat.le_refl c) hcq (show p.inFlight.getD c [] = [] ++
      p.inFlight.getD c [] ++ [] by simp) (by simp)
  rw [append_nil, ← herase] at hlanded
  have hbusy := hlanded.acquire hcq hq (by simp)
  have hrun :=
    r.sequence.consume r.region.runsAhead (show c < r.loop.tripCount by omega)
  obtain ⟨p', hissue, henv, hbusy', hflight, hconsumed⟩ := issue_consumers
    (p := { p with
      machine := ⟨p.machine.memory.put (p.inFlight.getD c []), p.machine.env⟩
      inFlight := p.inFlight.erase c })
    (fun s hs => (mem_filter.mp hs).1) h.env hbusy hwindow hrun (r.loop.slot c)
  have hconsuming : r.loop.consuming c = .wait .acquire c (r.loop.slot c) ::
      (r.steps.filter (!·.isProducer r.base)).map fun s =>
        ConcreteAction.issue s.id .consumer c (r.loop.slot c) := by
    unfold StagedLoop.consuming
    rw [r.region.consumers, List.map_map]
    rfl
  refine ⟨p', ?_, henv, ?_, ?_, ?_⟩
  · rw [hconsuming, foldlM_cons, hacquire, ok_bind]
    exact hissue
  · rw [hflight]
    exact hbusy'.finish
  · intro j hj
    rw [hflight, congrFun herase j, Function.update_of_ne (by omega)]
    exact h.clear j hj
  · intro j hj
    rw [hconsumed j]
    by_cases hcj : c = j
    · rw [if_pos hcj, r.region.consumers, length_map]
      omega
    · rw [if_neg hcj]
      exact h.consumed j (by omega)

/-! ## The loop -/

theorem Stage.tick
    (h : r.Stage (i + 1 - r.loop.stages) (min i r.loop.tripCount) p)
    (hi : i < r.loop.tripCount + r.loop.stages - 1) :
    ∃ p', (r.loop.tick i).foldlM (r.loop.act r.kernel r.ops) p = .ok p' ∧
      r.Stage (i + 1 + 1 - r.loop.stages)
        (min (i + 1) r.loop.tripCount) p' := by
  have hstages := r.region.stages
  obtain ⟨p₁, hproduce, hstage⟩ : ∃ p₁,
      (if i < r.loop.tripCount then
        r.loop.releasing i ++ r.loop.producing i else []).foldlM
          (r.loop.act r.kernel r.ops) p = .ok p₁ ∧
      r.Stage (i + 1 - r.loop.stages) (min (i + 1) r.loop.tripCount) p₁ := by
    by_cases hlt : i < r.loop.tripCount
    · rw [if_pos hlt, Nat.min_eq_left hlt]
      rw [Nat.min_eq_left (Nat.le_of_lt hlt)] at h
      exact h.produce (by omega) hlt (by omega)
    · rw [if_neg hlt, Nat.min_eq_right (by omega)]
      rw [Nat.min_eq_right (by omega)] at h
      exact ⟨p, rfl, h⟩
  unfold StagedLoop.tick
  rw [foldlM_append, hproduce, ok_bind]
  by_cases hle : r.loop.stages ≤ i + 1
  · rw [if_pos hle,
      show i + 1 + 1 - r.loop.stages = i + 1 - r.loop.stages + 1 by omega]
    exact hstage.consume (by omega) (by omega) (by omega)
  · rw [if_neg hle]
    rw [show i + 1 - r.loop.stages = i + 1 + 1 - r.loop.stages by omega]
      at hstage
    exact ⟨p₁, rfl, hstage⟩

theorem stage_ticks
    {m : Machine α} (henv : r.SameEnv m.env) (hfits : m.memory.Fits r.kernel)
    (hsame : ∀ t, r.base.Has t → m.memory.tile t = (r.laps 0).tile t) {n : Nat}
    (hn : n ≤ r.loop.tripCount + r.loop.stages - 1) :
    ∃ p, ((range n).flatMap r.loop.tick).foldlM (r.loop.act r.kernel r.ops)
        (Pipeline.start m) = .ok p ∧
      r.Stage (n + 1 - r.loop.stages) (min n r.loop.tripCount) p := by
  induction n with
  | zero =>
      have hstages := r.region.stages
      refine ⟨Pipeline.start m, rfl, henv, ?_, ?_, ?_⟩
      · have hout : (fun j => (Pipeline.start m).inFlight.getD j []) = fun _ =>
            [] := by
          funext j
          simp [Pipeline.start]
        rw [hout, show 0 + 1 - r.loop.stages = 0 by omega, Nat.zero_min]
        exact idle_start hfits hsame
      · intro j _
        simp [Pipeline.start]
      · intro j hj
        omega
  | succ n ih =>
      obtain ⟨p, hrun, hstage⟩ := ih (by omega)
      obtain ⟨p', htick, hstage'⟩ := hstage.tick (by omega)
      refine ⟨p', ?_, hstage'⟩
      rw [range_succ, flatMap_append, foldlM_append, hrun, ok_bind]
      simpa using htick

theorem ticks_eq_nil (hzero : r.loop.tripCount = 0) : r.loop.ticks = [] := by
  apply flatMap_eq_nil_iff.mpr
  intro i hi
  rw [mem_range] at hi
  unfold StagedLoop.tick
  rw [if_neg (by omega), if_neg (by omega)]
  rfl

/-- A staged loop whose actions can be listed ends as the loop does in
sequence. -/
theorem run_eq_ok
    {m : Machine α} (henv : r.SameEnv m.env) (hfits : m.memory.Fits r.kernel)
    (hsame : ∀ t, r.base.Has t → m.memory.tile t = (r.laps 0).tile t)
    (hactions : r.loop.actions = .ok r.loop.ticks) :
    ∃ m', r.loop.run r.kernel r.ops m = .ok m' ∧
      m'.env = r.env.unbind r.loop.var ∧ m'.memory.Fits r.kernel ∧
      ∀ t, r.base.Has t →
        m'.memory.tile t = (r.laps r.loop.tripCount).tile t := by
  unfold StagedLoop.run
  rw [hactions, lift_ok, ok_bind]
  rcases Nat.eq_zero_or_pos r.loop.tripCount with hzero | hpos
  · refine ⟨m.unbind r.loop.var, ?_, henv, hfits,
      fun t ht => hzero ▸ hsame t ht⟩
    rw [ticks_eq_nil hzero]
    simp only [foldlM_nil, pure, Except.pure, ok_bind, StagedLoop.writeBack]
    rw [if_pos hzero]
    rfl
  · have hstages := r.region.stages
    obtain ⟨p, hrun, hstage⟩ := stage_ticks henv hfits hsame (Nat.le_refl _)
    rw [show r.loop.tripCount + r.loop.stages - 1 + 1 - r.loop.stages =
      r.loop.tripCount by omega, Nat.min_eq_right (by omega)] at hstage
    obtain ⟨memory, hback, hfits', htiles⟩ := hstage.idle.writeBack hpos
    refine ⟨⟨memory, p.machine.env.unbind r.loop.var⟩, ?_, hstage.env, hfits',
      htiles⟩
    unfold StagedLoop.ticks
    rw [hrun, ok_bind]
    simp only [Machine.unbind]
    rw [hback]
    rfl

end LoopRun

/-! ## Bodies, blocks and launches -/

section

variable {α : Type} [Element α] {base k : Kernel}

/-- Two machines that differ in the slots only. -/
structure SlotsApart (base k : Kernel) (s s' : Machine α) : Prop where
  env : s'.env = s.env
  fits : s.memory.Fits k
  fits' : s'.memory.Fits k
  same : ∀ t, base.Has t → s'.memory.tile t = s.memory.tile t

theorem SlotsApart.perform
    {s s' : Machine α} (h : SlotsApart base k s s') {op : TileOp}
    (hop : op.Fitting base) :
    Matches (SlotsApart base k) (s.perform k op) (s'.perform k op) := by
  have hread : ∀ t ∈ op.reads, s'.memory.tile t = s.memory.tile t := fun t ht =>
    h.same t (hop.lt_size t (mem_append_left _ ht))
  have hmatches : Matches _ (op.exec k s.env s.memory)
      (op.exec k s.env s'.memory) :=
    TileOp.exec_congr (fun _ _ => rfl) h.fits h.fits' hread
  rw [TileOp.perform_eq, TileOp.perform_eq, h.env, ← bind_pure_eq_map,
    ← bind_pure_eq_map]
  apply hmatches.attach.bind
  rintro memory memory' ⟨hexec, hexec', heffect⟩
  exact ⟨rfl, TileOp.fits_exec h.fits hexec, TileOp.fits_exec h.fits' hexec',
    fun t ht => heffect t (h.same t ht)⟩

theorem SlotsApart.loop
    {s s' : Machine α} (h : SlotsApart base k s s') {head : Loop} {body : Body}
    {l : StagedLoop} {steps : List Step}
    (hentries : body.entries = steps.map Op.step) (hvar : l.var = head.var)
    (htrip : l.tripCount = head.tripCount)
    (hregion : StagedRegion base k l steps) {stop : Stop SimulationError}
    (hstop : 0x8000000000000000 < head.tripCount → stop = .fault .overflow) :
    Follows stop
      (fun m m' => SlotsApart base k (m.unbind head.var) m')
      (Counted.foldM (fun iter m =>
        body.run k .sequential (m.bind head.var (signed64 iter))) 0
        head.tripCount s)
      (l.run k body.entries s') := by
  intro finish hfinish
  rw [← hvar, ← htrip] at hfinish
  obtain ⟨laps, hlaps, hstart, hend, henv⟩ :=
    exists_laps h.fits hentries hfinish
  let r : LoopRun α := ⟨base, k, l, steps, s.env, laps, hregion, hlaps⟩
  by_cases hlong : 0x8000000000000000 < head.tripCount ∧
    l.actions = .error .overflow
  · left
    unfold StagedLoop.run
    rw [hlong.2, hstop hlong.1]
    rfl
  · right
    have hacts : l.actions = .ok l.ticks := by
      by_cases hcount : l.tripCount ≤ 0x8000000000000000
      · exact hregion.short hcount
      · rcases hregion.actions with hfail | ⟨acts, hacts, rfl⟩
        · exact (hlong ⟨by omega, hfail⟩).elim
        · exact hacts
    have hsame : ∀ t, r.base.Has t → s'.memory.tile t = (r.laps 0).tile t := by
      intro t ht
      rw [h.same t ht, ← hstart]
    obtain ⟨m', hrun, henv', hfits', htiles⟩ :=
      LoopRun.run_eq_ok (r := r) (congrArg (Bindings.unbind · l.var) h.env)
        h.fits' hsame hacts
    refine ⟨m', ?_, ?_⟩
    · rw [hentries]
      exact hrun
    · constructor
      · rw [henv', ← hvar]
        exact henv.symm
      · show finish.memory.Fits k
        rw [hend]
        exact LoopRun.fits_laps (r := r) (Nat.le_refl _)
      · exact hfits'
      · intro t ht
        show m'.memory.tile t = finish.memory.tile t
        rw [htiles t ht, hend]

theorem Body.run_follows
    {body : Body} {stop : Stop SimulationError}
    (hsteps : ∀ s, Op.step s ∈ body.entries → s.op.Fitting base)
    (hloops : ∀ head inner, Op.loop head inner ∈ body.entries →
      StagedEntry base k head inner)
    (hstop : ∀ head inner, Op.loop head inner ∈ body.entries →
      0x8000000000000000 < head.tripCount → stop = .fault .overflow)
    {s s' : Machine α} (h : SlotsApart base k s s') :
    Follows stop (SlotsApart base k)
      (body.run k .sequential s) (body.run k .scheduled s') := by
  induction body generalizing s s' with
  | done => exact Follows.ok h
  | step head rest ih =>
      simp only [Body.run]
      apply Follows.bind
        (Follows.of_matches (h.perform (hsteps head mem_cons_self)).lift)
      intro m m' hm
      exact ih (fun o ho => hsteps o (mem_cons_of_mem _ ho))
        (fun head' inner hin => hloops head' inner (mem_cons_of_mem _ hin))
        (fun head' inner hin => hstop head' inner (mem_cons_of_mem _ hin)) hm
  | loop head inner rest _ ih =>
      obtain ⟨l, steps, hschedule, hentries, hvar, htrip, hregion⟩ :=
        hloops head inner mem_cons_self
      rw [Body.run_loop_sequential, Body.run_loop_scheduled k hschedule]
      apply Follows.bind
        (h.loop hentries hvar htrip hregion (hstop head inner mem_cons_self))
      intro m m' hm
      exact ih (fun o ho => hsteps o (mem_cons_of_mem _ ho))
        (fun head' inner' hin => hloops head' inner' (mem_cons_of_mem _ hin))
        (fun head' inner' hin => hstop head' inner' (mem_cons_of_mem _ hin)) hm

theorem PartlyStaged.run_follows
    (hwf : base.WellFormed) (h : PartlyStaged base [] k)
    {stop : Stop SimulationError}
    (hstop : ∀ head inner, Op.loop head inner ∈ k.ops →
      0x8000000000000000 < head.tripCount → stop = .fault .overflow)
    (limit : Option Nat) {m : Memory α} (hfits : m.Fits k) :
    Follows stop
      (fun expected actual => expected.Fits k ∧ actual.Fits k ∧
        ∀ t, base.Has t → actual.tile t = expected.tile t)
      (k.run .sequential limit m) (k.run .scheduled limit m) := by
  have hsteps : ∀ s, Op.step s ∈ k.body.entries → s.op.Fitting base :=
    fun s hs =>
    hwf.fitting s (h.step_mem.mp ((Body.entries_sublist_ops k.body).subset hs))
  have hloops : ∀ head inner, Op.loop head inner ∈ k.body.entries →
      StagedEntry base k head inner := by
    intro head inner hin
    rcases h.loops head inner hin with hpending | hstaged
    · cases hpending
    · exact hstaged
  unfold Kernel.run
  apply Follows.bind (Follows.of_matches (Matches.refl _))
  rintro count _ rfl
  apply Follows.foldM _ _ _ _ _ ⟨hfits, hfits, fun _ _ => rfl⟩
  rintro n expected actual ⟨hexpected, hactual, hsame⟩
  apply Follows.bind (Follows.of_matches (Matches.refl _))
  rintro block _ rfl
  unfold Kernel.runBlock
  have hreset : SlotsApart base k (⟨expected.resetOnChip k,
      .ofBlock block⟩ : Machine α) ⟨actual.resetOnChip k, .ofBlock block⟩ := by
    refine ⟨rfl, hexpected.resetOnChip, hactual.resetOnChip, ?_⟩
    intro t ht
    rw [Memory.tile_resetOnChip, Memory.tile_resetOnChip, hsame t ht]
  have hcount : ∀ head inner, Op.loop head inner ∈ k.body.entries →
      0x8000000000000000 < head.tripCount → stop = .fault .overflow :=
      fun head inner hin =>
    hstop head inner ((Body.entries_sublist_ops k.body).subset hin)
  apply Follows.bind (Body.run_follows hsteps hloops hcount hreset)
  intro s s' hs
  exact Follows.ok ⟨hs.fits, hs.fits', hs.same⟩

end

end TileProgram
