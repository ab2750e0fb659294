import TileProgram.Proofs.Execution
import TileProgram.Proofs.LaunchOrder
import TileProgram.Simulation.Verify

/-!
# Runs in sequence

A kernel whose operations name tiles of its table runs in sequence to the end,
unless a word is exhausted.  Clearing the on-chip tiles between blocks and
supplying the inputs keep the memory fitting.
-/

namespace TileProgram

open List

section

variable {α : Type} [Element α] {k : Kernel}

/-! ## Clearing and supplying -/

/-- The contents of a tile once on-chip tiles are cleared. -/
def Kernel.cleared (k : Kernel) (t : TileId) (data : Array α) : Array α :=
  match k.tiles[t.index]? with
  | some tile =>
      if tile.scope.isOnChip then data.map fun _ => Element.zero else data
  | none => data

theorem Memory.tile_resetOnChip (m : Memory α) (t : TileId) :
    (m.resetOnChip k).tile t = (m.tile t).map (k.cleared t) := by
  unfold Memory.resetOnChip Memory.tile Kernel.cleared
  simp only [Array.getElem?_mapIdx]
  cases m.tiles[t.index]? <;> rfl

theorem Kernel.size_cleared (k : Kernel) (t : TileId) (data : Array α) :
    (k.cleared t data).size = data.size := by
  unfold Kernel.cleared
  split
  · split
    · exact Array.size_map
    · rfl
  · rfl

theorem Memory.Fits.resetOnChip {m : Memory α} {k' : Kernel} (h : m.Fits k') :
    (m.resetOnChip k).Fits k' := by
  intro t
  rw [← h t]
  unfold Memory.extent
  rw [Memory.tile_resetOnChip, map_map]
  congr 1
  funext data
  exact k.size_cleared t data

omit [Element α] in
theorem Supply.size_generate
    (s : Supply) (count : Nat) (type : ElementType) (stream : Random.Stream) :
    (s.generate count type stream).1.size = count := by
  have hsamples :
      ∀ (s : Supply) (count : Nat) (stream : Random.Stream) (acc : Array Float),
      (s.samples count stream acc).1.size = acc.size + count := by
    intro s count
    induction count with
    | zero =>
        intro stream acc
        rfl
    | succ count ih =>
        intro stream acc
        simp only [Supply.samples]
        rw [ih, Array.size_push]
        omega
  unfold Supply.generate
  rw [hsamples]
  simp

omit [Element α] in
theorem Memory.supply_settles
    (s : Supply) (tiles : List Tile) (stream : Random.Stream) :
    Settles .overflow
      (fun contents =>
        contents.map Array.size = tiles.map fun tile => tile.shape.prod)
      (Memory.supply s tiles stream) := by
  induction tiles generalizing stream with
  | nil => exact Settles.ok rfl
  | cons tile rest ih =>
      simp only [Memory.supply]
      apply (Shape.numel_settles tile.shape).bind
      rintro _ rfl
      apply (Checked.table_settles Memory.elementBytes tile.shape.prod).bind
      rintro _ rfl
      apply (ih _).bind
      intro contents hcontents
      apply Settles.ok
      rw [map_cons, map_cons, hcontents]
      split
      · rw [Supply.size_generate]
      · rw [Array.size_replicate]

omit [Element α] in
theorem Memory.supply_congr
    (s : Supply) {tiles tiles' : List Tile}
    (h : tiles.map (fun t => (t.shape, t.type, t.scope)) = tiles'.map fun t =>
      (t.shape, t.type, t.scope))
    (stream : Random.Stream) :
    supply s tiles stream = supply s tiles' stream := by
  induction tiles generalizing tiles' stream with
  | nil => rw [map_eq_nil_iff.mp h.symm]
  | cons t rest ih =>
      cases tiles' with
      | nil => cases h
      | cons t' rest' =>
          simp only [map_cons, cons.injEq, Prod.mk.injEq] at h
          obtain ⟨⟨hshape, htype, hscope⟩, hrest⟩ := h
          simp only [supply, hshape, htype, hscope, ih hrest]

omit [Element α] in
theorem Memory.fits_of_sizes
    {contents : List (Array α)}
    (hcontents : contents.map Array.size = k.tiles.toList.map fun tile =>
      tile.shape.prod) :
    (⟨contents.toArray⟩ : Memory α).Fits k := by
  intro t
  have hentry := congrArg (fun l => l[t.index]?) hcontents
  simp only [getElem?_map, Array.getElem?_toList] at hentry
  unfold Memory.extent Memory.tile Kernel.shapeOf Kernel.tile Checked.entry
  simp only [getElem?_toArray]
  cases hdata : contents[t.index]? with
  | none =>
      cases htile : k.tiles[t.index]? with
      | none => rfl
      | some tile => simp [hdata, htile] at hentry
  | some data =>
      cases htile : k.tiles[t.index]? with
      | none => simp [hdata, htile] at hentry
      | some tile =>
          have hsize : data.size = tile.shape.prod := by
            simpa [hdata, htile] using hentry
          exact congrArg Except.ok hsize

omit [Element α] in
theorem Memory.initial_settles (k : Kernel) (opts : RunOptions) :
    Settles .overflow (fun m => m.Fits k) (Memory.initial k opts) := by
  unfold Memory.initial
  apply (Memory.supply_settles opts.supply k.tiles.toList
    (.ofSeed opts.seed)).bind
  intro contents hcontents
  exact Settles.ok (Memory.fits_of_sizes hcontents)

/-! ## Lists of steps -/

def runSteps (k : Kernel) (env : Bindings) (steps : List Step) (m : Memory α) :
    Checked (Memory α) :=
  steps.foldlM (fun m s => s.op.exec k env m) m

@[simp]
theorem runSteps_nil (k : Kernel) (env : Bindings) (m : Memory α) :
    runSteps k env [] m = .ok m := rfl

theorem runSteps_cons
    (k : Kernel) (env : Bindings) (s : Step) (rest : List Step) (m : Memory α) :
    runSteps k env (s :: rest) m =
      (s.op.exec k env m >>= runSteps k env rest) := by
  unfold runSteps
  rw [foldlM_cons]

theorem runSteps_append
    (k : Kernel) (env : Bindings) (first second : List Step) (m : Memory α) :
    runSteps k env (first ++ second) m =
      (runSteps k env first m >>= runSteps k env second) := by
  unfold runSteps
  rw [foldlM_append]

theorem Body.run_step
    (k : Kernel) (mode : RunMode) (head : Step) (rest : Body) (s : Machine α) :
    (Body.step head rest).run k mode s =
      ((liftM (head.op.exec k s.env s.memory) : Pass SimulationError _) >>=
        fun memory =>
        rest.run k mode { s with memory := memory }) := by
  change ((liftM (s.perform k head.op) : Pass SimulationError _) >>=
    rest.run k mode) = _
  rw [TileOp.perform_eq, lift_map, map_bind]

theorem Body.run_eq_runSteps
    {k : Kernel} {mode : RunMode} {body : Body} {steps : List Step}
    (h : body.entries = steps.map Op.step) (s : Machine α) :
    body.run k mode s =
      (liftM (runSteps k s.env steps s.memory) : Pass SimulationError _).map
        fun memory => { s with memory := memory } := by
  induction body generalizing steps s with
  | done =>
      cases steps with
      | nil => rfl
      | cons first rest => cases h
  | step head rest ih =>
      cases steps with
      | nil => cases h
      | cons first others =>
          rw [map_cons] at h
          obtain ⟨hhead, hrest⟩ := cons.inj h
          cases hhead
          rw [Body.run_step, runSteps_cons]
          cases head.op.exec k s.env s.memory with
          | error e => rfl
          | ok memory =>
              exact ih hrest { s with memory := memory }
  | loop head body rest _ _ =>
      cases steps with
      | nil => cases h
      | cons first others => cases h

theorem fits_runSteps
    {k : Kernel} {env : Bindings} {steps : List Step} {m m' : Memory α}
    (hfits : m.Fits k) (h : runSteps k env steps m = .ok m') : m'.Fits k := by
  induction steps generalizing m with
  | nil =>
      cases h
      exact hfits
  | cons s rest ih =>
      rw [runSteps_cons] at h
      obtain ⟨middle, hfirst, hrest⟩ := bind_eq_ok h
      exact ih (TileOp.fits_exec hfits hfirst) hrest

/-! ## Bodies and launches -/

def Body.Closed (k : Kernel) (body : Body) : Prop :=
  ∀ s, Op.step s ∈ body.ops → ∀ t ∈ s.op.tiles, k.Has t

theorem Body.run_loop_sequential
    (k : Kernel) (head : Loop) (body rest : Body) (s : Machine α) :
    (Body.loop head body rest).run k .sequential s =
      (Counted.foldM (fun iter m =>
        body.run k .sequential
          (m.bind head.var (signed64 iter))) 0 head.tripCount s >>= fun s' =>
        rest.run k .sequential (s'.unbind head.var)) := by
  obtain ⟨_, _, _, _, schedule, _⟩ := head
  cases schedule <;> rfl

theorem Body.run_loop_scheduled
    (k : Kernel) {head : Loop} {l : StagedLoop} (h : head.schedule = some l)
    (body rest : Body) (s : Machine α) :
    (Body.loop head body rest).run k .scheduled s =
      (l.run k body.entries s >>= rest.run k .scheduled) := by
  obtain ⟨_, _, _, _, schedule, _⟩ := head
  cases h
  rfl

theorem Body.run_settles
    {body : Body} (hclosed : body.Closed k) {s : Machine α}
    (hfits : s.memory.Fits k) :
    Settles (Stop.fault Fault.overflow) (fun s' => s'.memory.Fits k)
      (body.run k .sequential s) := by
  induction body generalizing s with
  | done => exact Settles.ok hfits
  | step head rest ih =>
      rw [Body.run_step]
      have hexec : Settles .overflow (fun m => m.Fits k)
          (head.op.exec k s.env s.memory) :=
        TileOp.exec_settles hfits (hclosed head mem_cons_self)
      apply hexec.lift.bind
      intro m hm
      exact ih (fun o ho => hclosed o (mem_cons_of_mem _ ho)) hm
  | loop head body rest ihbody ihrest =>
      have hbody : body.Closed k := fun o ho =>
        hclosed o (mem_cons_of_mem _ (mem_append_left _ ho))
      have hrest : rest.Closed k := fun o ho =>
        hclosed o (mem_cons_of_mem _ (mem_append_right _ ho))
      have hloop : Settles (Stop.fault Fault.overflow)
          (fun s' : Machine α => s'.memory.Fits k) (Counted.foldM (fun iter m =>
            body.run k .sequential (m.bind head.var (signed64 iter))) 0
            head.tripCount s) := by
        refine Settles.foldM (I := fun s' : Machine α => s'.memory.Fits k) ?_ _
          _ _ (Nat.le_refl _) hfits
        intro i m _ hm
        exact ihbody hbody hm
      rw [Body.run_loop_sequential]
      apply hloop.bind
      intro s' hs'
      exact ihrest hrest hs'

theorem Kernel.run_settles
    (hclosed : k.body.Closed k) (limit : Option Nat) {m : Memory α}
    (hfits : m.Fits k) :
    Settles (Stop.fault Fault.overflow) (fun m' => m'.Fits k)
      (k.run .sequential limit m) := by
  unfold Kernel.run
  have hcount : Settles .overflow (fun _ => True) (k.blockCount limit) := by
    unfold Kernel.blockCount Kernel.numBlocks
    exact (Checked.product_settles Checked.word64_settles _).bind fun _ _ =>
      Settles.ok trivial
  apply hcount.lift.bind
  intro count _
  refine Settles.foldM (I := fun m' : Memory α => m'.Fits k) ?_ _ _ _
    (Nat.le_refl _) hfits
  intro n m hn hm
  rw [Nat.zero_add] at hn
  have hlaunch : n < LaunchOrder.plane k * k.grid.z := by
    unfold LaunchOrder.upTo at hn
    omega
  apply (LaunchOrder.block_settles hlaunch).lift.bind
  intro block _
  unfold Kernel.runBlock
  apply (Body.run_settles hclosed hm.resetOnChip).bind
  intro s hs
  exact Settles.ok hs

theorem Kernel.run_matches
    {β : Type} [Element β] {k' : Kernel} {mode mode' : RunMode}
    {R : Memory α → Memory β → Prop} (hgrid : k'.grid = k.grid)
    (hraster : k'.rasterization = k.rasterization)
    (hblock : ∀ block m m',
      R m m' → Matches R (k.runBlock mode m block) (k'.runBlock mode' m' block))
    (limit : Option Nat) {m : Memory α} {m' : Memory β} (h : R m m') :
    Matches R (k.run mode limit m) (k'.run mode' limit m') := by
  unfold Kernel.run
  have hcount : k'.blockCount limit = k.blockCount limit := by
    unfold Kernel.blockCount Kernel.numBlocks
    rw [hgrid]
  rw [hcount]
  apply Matches.bind (Matches.refl _)
  rintro count _ rfl
  rw [LaunchOrder.upTo_congr hgrid]
  apply Matches.foldM _ _ _ _ _ h
  intro n m m' hm
  rw [LaunchOrder.block_congr hgrid hraster]
  apply Matches.bind (Matches.refl _)
  rintro block _ rfl
  exact hblock block m m' hm

end

end TileProgram
