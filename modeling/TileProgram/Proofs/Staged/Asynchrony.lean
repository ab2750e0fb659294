import TileProgram.Proofs.Staged.Landing
import TileProgram.Proofs.Staged.Refinement

/-!
# The waits of a schedule suffice

`Protocol` says which actions may come next at each point of a schedule, and
every event takes the invariant from one point to another.  As long as every
producer fills a buffer of its own, no choice of landings can be told from the
loop in sequence; two producers that fill one buffer may land in either order.
-/

namespace TileProgram

open List

variable {j : Nat} {acts : List ConcreteAction} {progress : Progress}

namespace LoopRun

variable {α : Type} [Element α] {r : LoopRun α}

/-! ## The protocol -/

inductive Progress where
  | idle (c q : Nat) (todo : List Step)
  | busy (c q : Nat) (before after : List Step)

def Reached (r : LoopRun α) (s : AsyncLoop α) : Progress → Prop
  | .idle c q todo => r.IdleAt c q todo s
  | .busy c q before after => r.BusyAt c q before after s

inductive Protocol (r : LoopRun α) : Progress → List ConcreteAction → Prop where
  | done : Protocol r (.idle r.loop.tripCount r.loop.tripCount []) []
  | release {c q j slot : Nat} {acts : List ConcreteAction} :
      Protocol r (.idle c q []) acts →
      Protocol r (.idle c q []) (.wait .release j slot :: acts)
  | begin {c q : Nat} {acts : List ConcreteAction} (hq : q < r.loop.tripCount)
      (hfree : q < c + r.loop.stages) :
      Protocol r (.idle c (q + 1) r.producers) acts →
      Protocol r (.idle c q []) acts
  | produce {c j slot : Nat} {p : Step} {todo : List Step}
      {acts : List ConcreteAction} (hcj : c ≤ j) :
      Protocol r (.idle c (j + 1) todo) acts →
      Protocol r (.idle c (j + 1) (p :: todo))
        (.issue p.id .producer j slot :: acts)
  | acquire {c q slot : Nat} {acts : List ConcreteAction} (hcq : c < q) :
      Protocol r (.busy c q [] r.steps) acts →
      Protocol r (.idle c q []) (.wait .acquire c slot :: acts)
  | skip {c q : Nat} {p : Step} {before after : List Step}
      {acts : List ConcreteAction} (hside : p.isProducer r.base) :
      Protocol r (.busy c q (before ++ [p]) after) acts →
      Protocol r (.busy c q before (p :: after)) acts
  | consume {c q slot : Nat} {o : Step} {before after : List Step}
      {acts : List ConcreteAction} (hside : ¬ o.isProducer r.base) :
      Protocol r (.busy c q (before ++ [o]) after) acts →
      Protocol r (.busy c q before (o :: after))
        (.issue o.id .consumer c slot :: acts)
  | finish {c q : Nat} {acts : List ConcreteAction} :
      Protocol r (.idle (c + 1) q []) acts →
      Protocol r (.busy c q r.steps []) acts

theorem Protocol.producing
    {c : Nat} (hcj : c ≤ j) (slot : Nat)
    (h : Protocol r (.idle c (j + 1) []) acts) (todo : List Step) :
    Protocol r (.idle c (j + 1) todo)
      ((todo.map fun p => ConcreteAction.issue p.id .producer j slot) ++
        acts) := by
  induction todo with
  | nil => exact h
  | cons p todo ih => exact .produce hcj ih

theorem Protocol.consuming
    {c q : Nat} (slot : Nat) (h : Protocol r (.idle (c + 1) q []) acts)
    {before after : List Step} (hsplit : r.steps = before ++ after) :
    Protocol r (.busy c q before after)
      (((after.filter (!·.isProducer r.base)).map fun o =>
        ConcreteAction.issue o.id .consumer c slot) ++ acts) := by
  induction after generalizing before with
  | nil =>
      rw [append_nil] at hsplit
      subst hsplit
      exact .finish h
  | cons o after ih =>
      have hrest := @ih (before ++ [o]) (by simp [hsplit])
      by_cases hside : o.isProducer r.base
      · rw [filter_cons_of_neg (by simp [hside])]
        exact .skip hside hrest
      · rw [filter_cons_of_pos (by simp [hside])]
        exact .consume hside hrest

theorem Protocol.tick
    {i : Nat} (hi : i < r.loop.tripCount + r.loop.stages - 1)
    (h : Protocol r (.idle (i + 1 +
      1 - r.loop.stages) (min (i + 1) r.loop.tripCount) []) acts) :
    Protocol r (.idle (i + 1 - r.loop.stages) (min i r.loop.tripCount) [])
      (r.loop.tick i ++ acts) := by
  have hstages := r.region.stages
  have hconsume : Protocol r
      (.idle (i + 1 - r.loop.stages) (min (i + 1) r.loop.tripCount) [])
        ((if r.loop.stages ≤ i + 1 then r.loop.consuming (i + 1 - r.loop.stages)
        else []) ++ acts) := by
    by_cases hle : r.loop.stages ≤ i + 1
    · rw [show i + 1 + 1 - r.loop.stages = i + 1 - r.loop.stages + 1 by omega]
        at h
      rw [if_pos hle]
      unfold StagedLoop.consuming
      rw [r.region.consumers, List.map_map]
      exact .acquire (by omega) (h.consuming _ rfl)
    · rw [show i + 1 + 1 - r.loop.stages = i + 1 - r.loop.stages by omega] at h
      rw [if_neg hle]
      exact h
  unfold StagedLoop.tick
  rw [append_assoc]
  by_cases hlt : i < r.loop.tripCount
  · rw [Nat.min_eq_left (by omega)] at hconsume
    rw [if_pos hlt, Nat.min_eq_left (by omega)]
    have hproduce : Protocol r (.idle (i + 1 - r.loop.stages) i [])
        (r.loop.producing i ++
        ((if r.loop.stages ≤ i + 1 then r.loop.consuming (i + 1 - r.loop.stages)
          else []) ++ acts)) := by
      unfold StagedLoop.producing
      rw [r.region.producers, List.map_map]
      exact .begin hlt (by omega) (hconsume.producing (by omega) _ _)
    unfold StagedLoop.releasing
    rw [append_assoc]
    by_cases hreuse : r.loop.stages ≤ i
    · rw [if_pos hreuse]
      exact .release hproduce
    · rw [if_neg hreuse]
      exact hproduce
  · rw [Nat.min_eq_right (by omega)] at hconsume
    rw [if_neg hlt, Nat.min_eq_right (by omega)]
    exact hconsume

theorem protocol_ticks : Protocol r (.idle 0 0 []) r.loop.ticks := by
  have hstages := r.region.stages
  -- from the last tick back to the first
  have hfrom : ∀ count i, i + count = r.loop.tripCount + r.loop.stages - 1 →
      Protocol r (.idle (i + 1 - r.loop.stages) (min i r.loop.tripCount) [])
        ((range' i count).flatMap r.loop.tick) := by
    intro count
    induction count with
    | zero =>
        intro i hi
        rw [show i + 1 - r.loop.stages = r.loop.tripCount by omega,
          Nat.min_eq_right (by omega)]
        exact .done
    | succ count ih =>
        intro i hi
        rw [range'_succ, flatMap_cons]
        exact (ih (i + 1) (by omega)).tick (by omega)
  have hall := hfrom _ 0 (Nat.zero_add _)
  rw [show 0 + 1 - r.loop.stages = 0 by omega, Nat.zero_min, ← range_eq_range']
    at hall
  exact hall

/-! ## Events -/

theorem Reached.land {s : AsyncLoop α} (h : r.Reached s progress) (n : Nat) :
    ∃ s', r.loop.event r.kernel r.ops s (.land n) = .ok s' ∧
      r.Reached s' progress := by
  cases progress with
  | idle c q todo => exact IdleAt.land h n
  | busy c q before after => exact BusyAt.land h n

theorem Protocol.act
    (hown : r.OwnBuffers) {action : ConcreteAction}
    (h : Protocol r progress (action :: acts)) {s : AsyncLoop α}
    (hs : r.Reached s progress) :
    ∃ s' progress', r.loop.event r.kernel r.ops s (.act action) = .ok s' ∧
      r.Reached s' progress' ∧ Protocol r progress' acts := by
  generalize hall : action :: acts = all at h
  induction h with
  | done => cases hall
  | release hrest =>
      cases hall
      exact ⟨s, _, rfl, hs, hrest⟩
  | begin hq hfree _ ih => exact ih (IdleAt.begin hs hq hfree) hall
  | produce hcj hrest =>
      cases hall
      obtain ⟨s', hevent, hs'⟩ := IdleAt.issue hs hcj hown _
      exact ⟨s', .idle .., hevent, hs', hrest⟩
  | acquire hcq hrest =>
      cases hall
      obtain ⟨s', hevent, hs'⟩ := IdleAt.acquire hs hcq _
      exact ⟨s', .busy .., hevent, hs', hrest⟩
  | skip hside _ ih => exact ih (BusyAt.skip hs hside) hall
  | consume hside hrest =>
      cases hall
      obtain ⟨s', hevent, hs'⟩ := BusyAt.issue hs hside _
      exact ⟨s', .busy .., hevent, hs', hrest⟩
  | finish _ ih => exact ih (BusyAt.finish hs) hall

theorem Protocol.events
    (hown : r.OwnBuffers) {all : List Event}
    (h : Protocol r progress (all.filterMap Event.action? ++ acts))
    {s : AsyncLoop α} (hs : r.Reached s progress) :
    ∃ s' progress', r.loop.events r.kernel r.ops all s = .ok s' ∧
      r.Reached s' progress' ∧ Protocol r progress' acts := by
  induction all generalizing progress s with
  | nil => exact ⟨s, progress, rfl, hs, h⟩
  | cons event rest ih =>
      obtain ⟨s₁, progress₁, hevent, hs₁, hrest⟩ : ∃ s₁ progress₁,
          r.loop.event r.kernel r.ops s event = .ok s₁ ∧
          r.Reached s₁ progress₁ ∧
            Protocol r progress₁ (rest.filterMap Event.action? ++ acts) := by
        cases event with
        | act action => exact h.act hown hs
        | land n =>
            obtain ⟨s₁, hevent, hs₁⟩ := hs.land n
            exact ⟨s₁, progress, hevent, hs₁, h⟩
      obtain ⟨s', progress', hevents, hs', hprotocol⟩ := ih hrest hs₁
      refine ⟨s', progress', ?_, hs', hprotocol⟩
      unfold StagedLoop.events
      rw [foldlM_cons, hevent, ok_bind]
      exact hevents

theorem Protocol.idleAt_end
    (h : Protocol r progress []) {s : AsyncLoop α} (hs : r.Reached s progress) :
    r.IdleAt r.loop.tripCount r.loop.tripCount [] s := by
  generalize hall : ([] : List ConcreteAction) = all at h
  induction h with
  | done => exact hs
  | release => cases hall
  | begin hq hfree _ ih => exact ih (IdleAt.begin hs hq hfree) hall
  | produce => cases hall
  | acquire => cases hall
  | skip hside _ ih => exact ih (BusyAt.skip hs hside) hall
  | consume => cases hall
  | finish _ ih => exact ih (BusyAt.finish hs) hall

/-- The issue of a consumer comes when the steps before it are done. -/
theorem Protocol.busyAt_issue
    {op : OpId} {slot : Nat}
    (h : Protocol r progress (.issue op .consumer j slot :: acts))
    {s : AsyncLoop α} (hs : r.Reached s progress) :
    ∃ q before o after, r.BusyAt j q before (o :: after) s ∧ o.id = op ∧
      ¬ o.isProducer r.base := by
  generalize hall : ConcreteAction.issue op .consumer j slot :: acts = all at h
  induction h with
  | done => cases hall
  | release => cases hall
  | begin hq hfree _ ih => exact ih (IdleAt.begin hs hq hfree) hall
  | produce => cases hall
  | acquire => cases hall
  | skip hside _ ih => exact ih (BusyAt.skip hs hside) hall
  | consume hside _ =>
      cases hall
      exact ⟨_, _, _, _, hs, rfl, hside⟩
  | finish _ ih => exact ih (BusyAt.finish hs) hall

theorem reached_start
    {m : Machine α} (henv : r.SameEnv m.env) (hfits : m.memory.Fits r.kernel)
    (hsame : ∀ t, r.base.Has t → m.memory.tile t = (r.laps 0).tile t) :
    r.Reached ⟨m, []⟩ (.idle 0 0 []) := by
  refine ⟨henv, Nat.le_refl 0, Nat.zero_le _, Nat.zero_le _, nil_sublist _, ?_,
    ⟨by simp, Pairwise.nil, by simp⟩⟩
  rw [awaited_nil]
  exact idle_start hfits hsame

end LoopRun

section

variable {α : Type} [Element α]

/-- The first iterations of a loop in sequence. -/
def Body.repeated
    (k : Kernel) (var : String) (body : Body) (count : Nat)
    (start : Machine α) : Pass SimulationError (Machine α) :=
  Counted.foldM (fun iter m =>
    body.run k .sequential (m.bind var (signed64 iter))) 0 count start

namespace StagedLoop

/-- Every producer fills a rotated buffer of its own. -/
def BufferEach (l : StagedLoop) : Prop := l.producers.length = l.rotation.length

instance (l : StagedLoop) : Decidable l.BufferEach :=
  inferInstanceAs (Decidable (l.producers.length = l.rotation.length))

/-- An operation issued for iteration `j` finds in the slots what it reads when
the loop in sequence comes to it. -/
def ReadsInSequence
    (l : StagedLoop) (k : Kernel) (body : Body) (start : Machine α)
    (s : AsyncLoop α) (op : OpId) (j : Nat) : Prop :=
  ∃ before step after lap now, j < l.tripCount ∧
    body.entries = (before ++ step :: after).map Op.step ∧ step.id = op ∧
    body.repeated k l.var j start = .ok lap ∧
    runSteps k (lap.env.bind l.var (signed64 j)) before lap.memory = .ok now ∧
    s.machine.env.bind l.var (signed64 j) = lap.env.bind l.var (signed64 j) ∧
    ∀ t ∈ step.op.reads, s.machine.memory.tile (l.inSlot j t) = now.tile t

end StagedLoop

theorem StagedLoop.events_eq_self
    (k : Kernel) (l : StagedLoop) (ops : List Op) {all : List Event}
    (hall : all.filterMap Event.action? = []) (m : Machine α) :
    l.events k ops all ⟨m, []⟩ = .ok ⟨m, []⟩ := by
  induction all with
  | nil => rfl
  | cons event rest ih =>
      cases event with
      | act action => cases hall
      | land n => exact ih hall

namespace LoopRun

variable {r : LoopRun α} {m : Machine α} {all : List Event}

/-- A run by any events with the actions of the schedule ends as the loop in
sequence. -/
theorem runAsync_eq_ok
    (hown : r.OwnBuffers) (henv : r.SameEnv m.env)
    (hfits : m.memory.Fits r.kernel)
    (hsame : ∀ t, r.base.Has t → m.memory.tile t = (r.laps 0).tile t)
    (hall : all.filterMap Event.action? = r.loop.ticks) :
    ∃ m', r.loop.runAsync r.kernel r.ops all m = .ok m' ∧
      ∀ t, r.base.Has t →
        m'.memory.tile t = (r.laps r.loop.tripCount).tile t := by
  obtain ⟨s, memory, hevents, hback, htiles⟩ : ∃ s memory,
      r.loop.events r.kernel r.ops all ⟨m, []⟩ = .ok s ∧
      r.loop.writeBack s.machine.memory = .ok memory ∧
      ∀ t, r.base.Has t →
        memory.tile t = (r.laps r.loop.tripCount).tile t := by
    rcases Nat.eq_zero_or_pos r.loop.tripCount with hzero | hpos
    · -- without iterations the buffers are not written back either
      rw [ticks_eq_nil hzero] at hall
      refine ⟨⟨m, []⟩, m.memory, r.loop.events_eq_self _ _ hall m, ?_, ?_⟩
      · unfold StagedLoop.writeBack
        rw [if_pos hzero]
      · rw [hzero]
        exact hsame
    · have hprotocol :
          Protocol r (.idle 0 0 []) (all.filterMap Event.action? ++ []) := by
        rw [hall, append_nil]
        exact protocol_ticks
      obtain ⟨s, progress, hevents, hs, hend⟩ :=
        hprotocol.events hown (reached_start henv hfits hsame)
      obtain ⟨memory, hback, _, htiles⟩ :=
        (hend.idleAt_end hs).idle.writeBack hpos
      exact ⟨s, memory, hevents, hback, htiles⟩
  refine ⟨⟨memory, s.machine.env.unbind r.loop.var⟩, ?_, htiles⟩
  unfold StagedLoop.runAsync
  rw [hevents, ok_bind]
  simp only [Machine.unbind]
  rw [hback]
  rfl

/-- A consumer reads what it reads in sequence, whatever has landed by then. -/
theorem readsInSequence
    (hown : r.OwnBuffers) (henv : m.env = r.env) (hmemory : m.memory = r.laps 0)
    {body : Body} (hentries : body.entries = r.steps.map Op.step)
    {before after : List Event} {op : OpId} {slot : Nat}
    (hall : (before ++ .act (.issue op .consumer j slot) :: after).filterMap
      Event.action? = r.loop.ticks) :
    ∃ s, r.loop.events r.kernel r.ops before ⟨m, []⟩ = .ok s ∧
      r.loop.ReadsInSequence r.kernel body m s op j := by
  have hstart : r.Reached ⟨m, []⟩ (.idle 0 0 []) := by
    apply reached_start
    · exact congrArg (Bindings.unbind · r.loop.var) henv
    · exact hmemory ▸ r.sequence.fits
    · intro t _
      rw [hmemory]
  have hprotocol : Protocol r (.idle 0 0 []) r.loop.ticks := protocol_ticks
  rw [← hall, filterMap_append] at hprotocol
  obtain ⟨s, progress, hevents, hs, hrest⟩ := hprotocol.events hown hstart
  obtain ⟨q, earlier, o, later, hbusy, hid, hside⟩ := hrest.busyAt_issue hs
  have hj : j < r.loop.tripCount := Nat.lt_of_lt_of_le hbusy.begun hbusy.bound
  obtain ⟨now, hnow, _⟩ := hbusy.busy
  have hlaps : Laps r.kernel r.loop r.steps m.env r.laps := henv ▸ r.sequence
  obtain ⟨lap, hlap, hlapMemory, hlapEnv⟩ :=
    hlaps.foldM_eq_ok hentries hmemory.symm (Nat.le_of_lt hj)
  have hbound : lap.env.bind r.loop.var (signed64 j) = r.envAt j := by
    rw [Bindings.bind_eq_of_unbind_eq hlapEnv, henv]
    rfl
  refine ⟨s, hevents, earlier, o, later, lap, now, hj,
    hentries.trans (by rw [hbusy.split]), hid, hlap, ?_, ?_,
    fun t ht => hbusy.reads hside hnow ht⟩
  · rw [hbound, hlapMemory]
    exact hnow
  · rw [hbound]
    exact hbusy.env.bind j

end LoopRun

end

/-- The waits of a schedule suffice for producers that land on their own, if
each fills a buffer of its own. -/
theorem runAsync_eq_sequential_loop
    {k base staged : Kernel} {target target' : Target} {inferred : Inferred}
    {region : OpId} {l : StagedLoop} {head : Loop} {body : Body}
    (hinfer : k.infer target = .ok inferred)
    (hbase : base = k ∨ base = inferred.kernel)
    (hschedule : base.scheduleRegion region target' = .ok (l, staged))
    (hloop : base.findOp? region = some (.loop head body))
    (heach : l.BufferEach) {α : Type} [Element α] {start : Machine α}
    (hfits : start.memory.Fits staged)
    (hruns : body.repeated staged head.var head.tripCount start ≠
      .error (.fault .overflow)) :
    ∃ finish, body.repeated staged head.var head.tripCount start = .ok finish ∧
      ∀ all : List Event, l.actions = .ok (all.filterMap Event.action?) →
        (∃ m, l.runAsync staged body.entries all start = .ok m ∧
          ∀ t, base.Has t → m.memory.tile t = finish.memory.tile t) ∧
        ∀ before after op j slot,
          all = before ++ .act (.issue op .consumer j slot) :: after →
          ∃ s, l.events staged body.entries before ⟨start, []⟩ = .ok s ∧
            l.ReadsInSequence staged body start s op j := by
  have hinfers := infers_of_infer hinfer
  have hwf : base.WellFormed := by
    rcases hbase with rfl | rfl
    · exact hinfers.wellFormed
    · exact hinfers.wellFormed_kernel
  obtain ⟨head', body', steps, hfind, hentries, hvar, htrip, hregion, hgrows,
      _⟩ :=
    stagedRegion_of_scheduleRegion (Kernel.Extends.refl base) hwf.fitting
      hwf.distinct hschedule
  rw [hloop] at hfind
  cases hfind
  have hclosed : body.Closed staged := by
    intro s hs t ht
    have hin : Op.step s ∈ base.ops :=
      (Body.ops_sublist_of_loop (mem_of_find?_eq_some hloop)).subset hs
    exact Nat.lt_of_lt_of_le ((hwf.fitting s hin).lt_size t ht) hgrows.size_le
  have hsettles : Settles (.fault .overflow) (fun m => m.memory.Fits staged)
      (body.repeated staged head.var head.tripCount start) := by
    refine Settles.foldM (I := fun m : Machine α => m.memory.Fits staged) ?_ _ _
      _ (Nat.le_refl _) hfits
    intro iter m _ hm
    exact Body.run_settles hclosed hm
  rcases hsettles with hstop | ⟨finish, hfinish, _⟩
  · exact (hruns hstop).elim
  refine ⟨finish, hfinish, ?_⟩
  intro all hactions
  unfold Body.repeated at hfinish
  rw [← hvar, ← htrip] at hfinish
  obtain ⟨laps, hlaps, hstart, hend, _⟩ := exists_laps hfits hentries hfinish
  let r : LoopRun α := ⟨base, staged, l, steps, start.env, laps, hregion, hlaps⟩
  have hown : r.OwnBuffers := LoopRun.ownBuffers_of_length heach
  have hticks : all.filterMap Event.action? = l.ticks := by
    rcases hregion.actions with hfail | ⟨acts, hacts, rfl⟩
    · rw [hfail] at hactions
      cases hactions
    · exact Except.ok.inj (hactions.symm.trans hacts)
  rw [hentries]
  constructor
  · obtain ⟨m, hrun, htiles⟩ := LoopRun.runAsync_eq_ok (r := r) hown rfl hfits
      (fun t _ => by rw [← hstart]) hticks
    refine ⟨m, hrun, ?_⟩
    intro t ht
    rw [htiles t ht, hend]
  · intro before after op j slot hsplit
    subst hsplit
    exact LoopRun.readsInSequence (r := r) hown rfl hstart.symm hentries hticks

/-- Fills a buffer from the first tile and `t` from the second, and takes both
away. -/
def fillBoth (t : TileId) : Body :=
  .step ⟨⟨0⟩, .copy (pairAt ⟨0⟩) (.full ⟨4⟩ [2]) none, none⟩
    (.step ⟨⟨1⟩, .copy (pairAt ⟨1⟩) (.full t [2]) none, none⟩
      (.step ⟨⟨2⟩, .copy (.full ⟨4⟩ [2]) (pairAt ⟨2⟩) none, none⟩
        (.step ⟨⟨3⟩, .copy (.full t [2]) (pairAt ⟨3⟩) none, none⟩ .done)))

/-- A loop of two iterations in two stages. -/
def twoStages : Loop := ⟨⟨4⟩, "k", 2, 2, none, none⟩

def twoFills (t : TileId) : Kernel :=
  { Kernel.empty "two_fills" with
    threads := ⟨1, 1, 1⟩
    tiles := #[.plain "a" [4] .f32 .global, .plain "b" [4] .f32 .global,
      .plain "c" [4] .f32 .global, .plain "d" [4] .f32 .global, .plain "x" [2]
      .f32 .fragment, .plain "y" [2] .f32 .fragment].extract 0 (t.index + 1)
    body := .loop twoStages (fillBoth t) .done
    nextOp := 5 }

/-- The second producer of each iteration overtakes the first. -/
def overtaking : List Event :=
  [.act (.issue ⟨0⟩ .producer 0 0), .act (.issue ⟨1⟩ .producer 0 0), .land 1,
    .act (.issue ⟨0⟩ .producer 1 1), .act (.issue ⟨1⟩ .producer 1 1), .land 2,
    .land 0, .act (.wait .acquire 0 0), .act (.issue ⟨2⟩ .consumer 0 0),
    .act (.issue ⟨3⟩ .consumer 0 0), .act (.wait .acquire 1 1),
    .act (.issue ⟨2⟩ .consumer 1 1), .act (.issue ⟨3⟩ .consumer 1 1)]

theorem runAsync_eq_sequential_loop_twoFills :
    ∃ inferred l staged memory finish m,
      (twoFills ⟨5⟩).infer .sm70 = .ok inferred ∧
      inferred.kernel.scheduleRegion ⟨4⟩ .sm70 = .ok (l, staged) ∧
      Memory.initial staged .standard = .ok memory ∧
      (fillBoth ⟨5⟩).repeated staged "k" 2 ⟨memory, .empty⟩ = .ok finish ∧
      l.actions = .ok (overtaking.filterMap Event.action?) ∧
      l.runAsync staged (fillBoth ⟨5⟩).entries overtaking ⟨memory, .empty⟩ =
        .ok m ∧
      ∀ t, inferred.kernel.Has t →
        m.memory.tile t = finish.memory.tile t := by
  have hcompute : (((twoFills ⟨5⟩).infer .sm70).toOption.bind fun inferred =>
      (inferred.kernel.scheduleRegion ⟨4⟩ .sm70).toOption.bind
        fun (l, staged) =>
          (Memory.initial staged .standard).toOption.bind fun memory =>
          ((fillBoth ⟨5⟩).repeated staged "k" 2 ⟨memory, .empty⟩).toOption.map
            fun _ => (decide l.BufferEach, l.actions.toOption)) =
      some (true, some (overtaking.filterMap Event.action?)) := by
    decide +kernel
  have hfind : ((twoFills ⟨5⟩).infer .sm70).toOption.bind
      (·.kernel.findOp? ⟨4⟩) = some (.loop twoStages (fillBoth ⟨5⟩)) := by
    rfl
  simp only [Option.bind_eq_some_iff, Option.map_eq_some_iff,
    toOption_eq_some_iff, Prod.mk.injEq] at hcompute
  obtain ⟨inferred, hinfer, ⟨l, staged⟩, hschedule, memory, hmemory, final,
      hfinal, heach, hactions⟩ := hcompute
  rw [hinfer] at hfind
  have hfits : memory.Fits staged := by
    rcases Memory.initial_settles staged .standard with
      hstop | ⟨start, hstart, hfits⟩
    · rw [hstop] at hmemory
      cases hmemory
    · rw [hstart] at hmemory
      cases hmemory
      exact hfits
  have hruns : (fillBoth ⟨5⟩).repeated staged twoStages.var twoStages.tripCount
      ⟨memory, .empty⟩ ≠ .error (.fault .overflow) := by
    rw [show (fillBoth ⟨5⟩).repeated staged twoStages.var twoStages.tripCount
      ⟨memory, .empty⟩ = .ok final from hfinal]
    simp
  obtain ⟨finish, hfinish, hasync⟩ := runAsync_eq_sequential_loop hinfer
    (Or.inr rfl) hschedule hfind (of_decide_eq_true heach) hfits hruns
  obtain ⟨⟨m, hrun, htiles⟩, _⟩ := hasync overtaking hactions
  exact ⟨inferred, l, staged, memory, finish, m, hinfer, hschedule, hmemory,
    hfinish, hactions, hrun, htiles⟩

/-- Of two producers of one buffer the first may land last. -/
theorem runAsync_ne_sequential_loop_twoFills :
    ∃ inferred l staged memory finish m,
      (twoFills ⟨4⟩).infer .sm70 = .ok inferred ∧
      inferred.kernel.scheduleRegion ⟨4⟩ .sm70 = .ok (l, staged) ∧
      Memory.initial staged .standard = .ok memory ∧
      (fillBoth ⟨4⟩).repeated staged "k" 2 ⟨memory, .empty⟩ = .ok finish ∧
      l.actions = .ok (overtaking.filterMap Event.action?) ∧
      l.runAsync staged (fillBoth ⟨4⟩).entries overtaking ⟨memory, .empty⟩ =
        .ok m ∧
      m.memory.tile ⟨2⟩ ≠ finish.memory.tile ⟨2⟩ := by
  have hcompute : (((twoFills ⟨4⟩).infer .sm70).toOption.bind fun inferred =>
      (inferred.kernel.scheduleRegion ⟨4⟩ .sm70).toOption.bind
        fun (l, staged) =>
          (Memory.initial staged .standard).toOption.bind fun memory =>
          ((fillBoth ⟨4⟩).repeated staged "k" 2 ⟨memory, .empty⟩).toOption.bind
            fun finish =>
              (l.runAsync staged (fillBoth ⟨4⟩).entries overtaking
                ⟨memory, .empty⟩).toOption.map fun m =>
                (l.actions.toOption,
                  ((m.memory.tile ⟨2⟩).map fun data =>
                    data.toList.map Float.toBits).toOption,
                  ((finish.memory.tile ⟨2⟩).map fun data =>
                    data.toList.map Float.toBits).toOption)) =
      some (some (overtaking.filterMap Event.action?),
        some ([-2, -1, -1, -2].map Float.toBits),
        some ([-2, 0, 0, 2].map Float.toBits)) := by
    decide +kernel
  simp only [Option.bind_eq_some_iff, Option.map_eq_some_iff, Prod.mk.injEq]
    at hcompute
  obtain ⟨inferred, hinfer, ⟨l, staged⟩, hschedule, memory, hmemory, finish,
      hfinish, m, hm, hactions, hasync, hsequence⟩ := hcompute
  rw [toOption_eq_some_iff] at hinfer hschedule hmemory hfinish hm hactions
  refine ⟨inferred, l, staged, memory, finish, m, hinfer, hschedule, hmemory,
    hfinish, hactions, hm, ?_⟩
  intro heq
  rw [heq] at hasync
  exact absurd (hasync.symm.trans hsequence) (by decide +kernel)

end TileProgram
