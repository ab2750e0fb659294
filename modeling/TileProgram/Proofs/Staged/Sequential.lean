import TileProgram.Proofs.Run
import TileProgram.Proofs.Staged.Region

/-!
# The loop in sequence, producers first

In sequence a loop runs its body once for each iteration.  Since no step writes
what a producer reads, the writes of every producer in every iteration are known
when the loop begins, and since producers are independent of the consumers that
stand before them, an iteration can be read as all of these writes followed by
the consumers alone.
-/

namespace TileProgram

open List

/-! ## Loop variables -/

namespace Bindings

theorem bind_eq_of_unbind_eq
    {env env' : Bindings} {name : String}
    (h : env.unbind name = env'.unbind name) (value : Int) :
    env.bind name value = env'.bind name value := by
  have hblock := congrArg Bindings.block h
  change env.block = env'.block at hblock
  unfold bind
  rw [h, hblock]

theorem unbind_bind (env : Bindings) (name : String) (value : Int) :
    (env.bind name value).unbind name = env.unbind name := by
  simp [bind, unbind]

end Bindings

section

variable {α : Type} [Element α]

/-! ## The writes of producers -/

def producedBy (k : Kernel) (env : Bindings) (m : Memory α) (s : Step) :
    List (Write α) :=
  (s.op.eval k m env).toOption.getD []

def produced
    (base k : Kernel) (env : Bindings) (m : Memory α) (steps : List Step) :
    List (Write α) :=
  (steps.filter (·.isProducer base)).flatMap (producedBy k env m)

/-- The tiles that producers read hold what they held in `m`. -/
structure Sourced (base k : Kernel) (steps : List Step) (m m' : Memory α) :
    Prop where
  fits : m'.Fits k
  same : ∀ s ∈ steps, s.isProducer base → ∀ t ∈ s.op.reads, m'.tile t = m.tile t

section

variable {base k : Kernel} {env : Bindings} {m : Memory α} {steps : List Step}

theorem producedBy_of_eval
    {s : Step} {all : List (Write α)} (h : s.op.eval k m env = .ok all) :
    producedBy k env m s = all := by
  unfold producedBy
  rw [h]
  rfl

theorem tile_mem_of_mem_produced
    {w : Write α} (h : w ∈ produced base k env m steps) :
    ∃ s ∈ steps, s.isProducer base ∧ w.tile ∈ s.op.writes := by
  obtain ⟨s, hs, hw⟩ := mem_flatMap.mp h
  obtain ⟨hin, hside⟩ := mem_filter.mp hs
  refine ⟨s, hin, hside, ?_⟩
  cases heval : s.op.eval k m env with
  | error e =>
      simp [producedBy, heval, Except.toOption] at hw
  | ok all =>
      rw [producedBy_of_eval heval] at hw
      exact TileOp.tile_mem_writes heval hw

theorem Sourced.exec
    {m' m'' : Memory α} (hahead : RunsAhead base steps)
    (h : Sourced base k steps m m') {s : Step} (hs : s ∈ steps)
    (hexec : s.op.exec k env m' = .ok m'') : Sourced base k steps m m'' := by
  refine ⟨TileOp.fits_exec h.fits hexec, ?_⟩
  intro p hp hside t ht
  rw [TileOp.tile_exec_of_not_mem hexec (hahead.sources p hp hside t ht s hs)]
  exact h.same p hp hside t ht

theorem Sourced.runSteps
    {m' m'' : Memory α} (hahead : RunsAhead base steps)
    (h : Sourced base k steps m m') {part : List Step}
    (hpart : ∀ s ∈ part, s ∈ steps) (hrun : runSteps k env part m' = .ok m'') :
    Sourced base k steps m m'' := by
  induction part generalizing m' with
  | nil =>
      cases hrun
      exact h
  | cons s rest ih =>
      rw [runSteps_cons] at hrun
      obtain ⟨middle, hfirst, hrest⟩ := bind_eq_ok hrun
      exact ih (h.exec hahead (hpart s mem_cons_self) hfirst)
        (fun o ho => hpart o (mem_cons_of_mem s ho)) hrest

theorem Sourced.exec_producer
    {m' m'' : Memory α} (hfits : m.Fits k) (h : Sourced base k steps m m')
    {s : Step} (hs : s ∈ steps) (hside : s.isProducer base)
    (hexec : s.op.exec k env m' = .ok m'') :
    s.op.eval k m env = .ok (producedBy k env m s) ∧
      m'' = m'.put (producedBy k env m s) := by
  obtain ⟨all, heval, _, rfl⟩ := TileOp.exec_eq_ok_iff.mp hexec
  have hsame : s.op.eval k m' env = s.op.eval k m env :=
    TileOp.eval_congr (fun _ _ => rfl)
      (fun t _ => hfits.extent_congr h.fits rfl) (h.same s hs hside)
  rw [hsame] at heval
  rw [producedBy_of_eval heval]
  exact ⟨heval, rfl⟩

theorem exec_put_produced
    {m' m'' : Memory α} {s : Step} {rest : List Step}
    (hindep : ∀ p ∈ rest, p.isProducer base → Independent s.op p.op)
    (hexec : s.op.exec k env m' = .ok m'') :
    s.op.exec k env (m'.put (produced base k env m rest)) =
      .ok (m''.put (produced base k env m rest)) := by
  obtain ⟨all, heval, hranges, rfl⟩ := TileOp.exec_eq_ok_iff.mp hexec
  have hread : ∀ t ∈ s.op.reads,
      (m'.put (produced base k env m rest)).tile t = m'.tile t := by
    intro t ht
    apply Memory.tile_put_of_forall_ne
    intro w hw heq
    obtain ⟨p, hp, hside, hwrites⟩ := tile_mem_of_mem_produced hw
    exact (hindep p hp hside).anti t ht (heq ▸ hwrites)
  apply TileOp.exec_eq_ok_iff.mpr
  refine ⟨all, ?_, by simpa using hranges, ?_⟩
  · rw [TileOp.eval_congr (fun _ _ => rfl) (fun t _ =>
      Memory.extent_put m' _ t) hread, heval]
  · apply Memory.put_comm
    intro v hv w hw heq
    obtain ⟨p, hp, hside, hwrites⟩ := tile_mem_of_mem_produced hw
    exact (hindep p hp hside).output v.tile (TileOp.tile_mem_writes heval hv)
      (heq ▸ hwrites)

/-- Steps in order do what their consumers do after the writes of all producers,
those that are still to come included. -/
theorem runSteps_consumers
    (hahead : RunsAhead base steps) (hfits : m.Fits k) {part rest : List Step}
    {m' m'' : Memory α} (hmem : ∀ s ∈ part, s ∈ steps)
    (hpair : (part ++ rest).Pairwise fun a b => ¬ a.isProducer base →
      b.isProducer base → Independent a.op b.op)
    (hsourced : Sourced base k steps m m')
    (hrun : runSteps k env part m' = .ok m'') :
    runSteps k env (part.filter (!·.isProducer base))
        (m'.put (produced base k env m (part ++ rest))) =
      .ok (m''.put (produced base k env m rest)) := by
  induction part generalizing m' with
  | nil =>
      cases hrun
      rfl
  | cons s part ih =>
      rw [runSteps_cons] at hrun
      obtain ⟨middle, hfirst, hrest⟩ := bind_eq_ok hrun
      rw [cons_append, pairwise_cons] at hpair
      have hin : s ∈ steps := hmem s mem_cons_self
      have htail := ih (fun o ho => hmem o (mem_cons_of_mem s ho)) hpair.2
        (hsourced.exec hahead hin hfirst) hrest
      by_cases hside : s.isProducer base
      · obtain ⟨_, rfl⟩ := hsourced.exec_producer hfits hin hside hfirst
        have hsplit : produced base k env m (s :: part ++ rest) =
            producedBy k env m s ++ produced base k env m (part ++ rest) := by
          simp [produced, hside]
        rw [hsplit, Memory.put_append, filter_cons_of_neg (by simp [hside])]
        exact htail
      · have hsplit : produced base k env m (s :: part ++ rest) =
            produced base k env m (part ++ rest) := by
          simp [produced, hside]
        rw [hsplit, filter_cons_of_pos (by simp [hside]), runSteps_cons,
          exec_put_produced (fun p hp hproducer => hpair.1 p hp hside hproducer)
          hfirst, ok_bind]
        exact htail

end

/-! ## Laps -/

/-- The loop in sequence: `laps j` is the memory after `j` iterations. -/
structure Laps
    (k : Kernel) (l : StagedLoop) (steps : List Step) (env : Bindings)
    (laps : Nat → Memory α) : Prop where
  fits : (laps 0).Fits k
  next : ∀ j < l.tripCount,
    runSteps k (env.bind l.var (signed64 j)) steps (laps j) = .ok (laps (j + 1))

def StagedLoop.produce
    (l : StagedLoop) (base k : Kernel) (steps : List Step) (env : Bindings)
    (m : Memory α) (j : Nat) : List (Write α) :=
  produced base k (env.bind l.var (signed64 j)) m steps

namespace Laps

variable {base k : Kernel} {l : StagedLoop} {steps : List Step} {env : Bindings}
  {laps : Nat → Memory α}

theorem sourced
    (h : Laps k l steps env laps) (hahead : RunsAhead base steps) {j : Nat}
    (hj : j ≤ l.tripCount) :
    Sourced base k steps (laps 0) (laps j) := by
  induction j with
  | zero => exact ⟨h.fits, fun _ _ _ _ _ => rfl⟩
  | succ j ih =>
      exact (ih (by omega)).runSteps hahead (fun s hs => hs)
        (h.next j (by omega))

/-- An iteration is the writes of its producers followed by its consumers. -/
theorem consume
    (h : Laps k l steps env laps) (hahead : RunsAhead base steps) {j : Nat}
    (hj : j < l.tripCount) :
    runSteps k (env.bind l.var (signed64 j)) (steps.filter (!·.isProducer base))
        ((laps j).put (l.produce base k steps env (laps 0) j)) =
          .ok (laps (j + 1)) := by
  have hpair := hahead.ahead
  rw [← append_nil steps] at hpair
  have hrun := runSteps_consumers hahead h.fits (fun s hs => hs) hpair
    (h.sourced hahead (Nat.le_of_lt hj)) (h.next j hj)
  rw [append_nil] at hrun
  exact hrun

theorem eval_producer
    (h : Laps k l steps env laps) (hahead : RunsAhead base steps) {j : Nat}
    (hj : j < l.tripCount) {s : Step} (hs : s ∈ steps)
    (hside : s.isProducer base) :
    s.op.eval k (laps 0) (env.bind l.var (signed64 j)) =
      .ok (producedBy k (env.bind l.var (signed64 j)) (laps 0) s) := by
  have hrun := h.next j hj
  obtain ⟨before, after, hsplit⟩ := append_of_mem hs
  rw [hsplit, runSteps_append] at hrun
  obtain ⟨middle, hbefore, hrun⟩ := bind_eq_ok hrun
  rw [runSteps_cons] at hrun
  obtain ⟨middle', hexec, _⟩ := bind_eq_ok hrun
  have hmiddle := (h.sourced hahead (Nat.le_of_lt hj)).runSteps hahead
    (fun o ho => hsplit ▸ mem_append_left _ ho) hbefore
  exact (hmiddle.exec_producer h.fits hs hside hexec).1

theorem produce_covers
    (h : Laps k l steps env laps) (hregion : StagedRegion base k l steps)
    {j : Nat} (hj : j < l.tripCount) {t : TileId}
    (ht : t ∈ rotatedBuffers base steps) {shape : Shape}
    (hshape : k.shapeOf t = .ok shape) :
    Covers (l.produce base k steps env (laps 0) j) t shape.prod := by
  obtain ⟨s, hs, hside, hwrites⟩ := mem_rotatedBuffers.mp ht
  obtain ⟨src, dst, width, shape', hop, hshape', hcovers⟩ :=
    hregion.runsAhead.fills s hs hside
  rw [hop, TileOp.writes, mem_singleton] at hwrites
  subst hwrites
  have hfit := hregion.fitting s hs
  have hgrows := hregion.slots.grows
  have hsame : ∀ u ∈ s.op.tiles, k.shapeOf (id u) = base.shapeOf u :=
    fun u hu =>
    hgrows.shapeOf_eq (hfit.lt_size u hu)
  have hfitK : s.op.Fitting k := hfit.congr hsame
  have hlt := Kernel.lt_of_shapeOf hshape'
  rw [hgrows.shapeOf_eq hlt, hshape'] at hshape
  cases hshape
  have heval := h.eval_producer hregion.runsAhead hj hs hside
  rw [hop] at hfitK heval
  have hall := TileOp.copy_covers hfitK ((hgrows.shapeOf_eq hlt).trans hshape')
    hcovers heval
  intro i hi
  obtain ⟨w, hw, htile, hindex⟩ := hall i hi
  refine ⟨w, ?_, htile, hindex⟩
  exact mem_flatMap.mpr ⟨s, mem_filter.mpr ⟨hs, hside⟩, hw⟩

theorem produce_targets
    {j : Nat} {w : Write α} (hw : w ∈ l.produce base k steps env (laps 0) j) :
    w.tile ∈ rotatedBuffers base steps := by
  obtain ⟨s, hs, hside, hwrites⟩ := tile_mem_of_mem_produced hw
  exact mem_rotatedBuffers.mpr ⟨s, hs, hside, hwrites⟩

end Laps

theorem exists_laps
    {k : Kernel} {l : StagedLoop} {steps : List Step} {body : Body}
    {start finish : Machine α} (hfits : start.memory.Fits k)
    (hentries : body.entries = steps.map Op.step)
    (h : Counted.foldM (fun iter m => body.run k .sequential
      (m.bind l.var (signed64 iter))) 0 l.tripCount start = .ok finish) :
    ∃ laps, Laps k l steps start.env laps ∧ laps 0 = start.memory ∧
      finish.memory = laps l.tripCount ∧
      finish.env.unbind l.var = start.env.unbind l.var := by
  -- count down the iterations that are left, from any iteration on
  suffices hfrom : ∀ (count first : Nat) (m : Machine α), m.memory.Fits k →
      m.env.unbind l.var = start.env.unbind l.var →
      Counted.foldM
        (fun iter m => body.run k .sequential (m.bind l.var (signed64 iter)))
        first count m = .ok finish →
      ∃ laps : Nat → Memory α,
        laps first = m.memory ∧ finish.memory = laps (first + count) ∧
        finish.env.unbind l.var = start.env.unbind l.var ∧
        ∀ j, first ≤ j → j < first + count →
          runSteps k (start.env.bind l.var (signed64 j)) steps (laps j) =
            .ok (laps (j + 1)) by
    obtain ⟨laps, hstart, hfinish, henv, hnext⟩ :=
      hfrom l.tripCount 0 start hfits rfl h
    rw [Nat.zero_add] at hfinish hnext
    exact ⟨laps, ⟨hstart ▸ hfits, fun j hj => hnext j (Nat.zero_le j) hj⟩,
      hstart, hfinish, henv⟩
  intro count
  induction count with
  | zero =>
      intro first m _ henv hdone
      cases hdone
      exact ⟨fun _ => finish.memory, rfl, rfl, henv, fun j hlo hhi => by omega⟩
  | succ count ih =>
      intro first m hfits henv hrun
      simp only [Counted.foldM] at hrun
      rw [Body.run_eq_runSteps hentries] at hrun
      cases hlap : runSteps k (m.bind l.var (signed64 first)).env steps
          (m.bind l.var (signed64 first)).memory with
      | error e =>
          rw [hlap] at hrun
          cases hrun
      | ok memory =>
          rw [hlap] at hrun
          have henv' : ((m.bind l.var (signed64 first)).env).unbind l.var =
              start.env.unbind l.var := (Bindings.unbind_bind _ _ _).trans henv
          obtain ⟨laps, hfirst, hfinish, hdone, hnext⟩ :=
            ih (first + 1) ⟨memory, (m.bind l.var (signed64 first)).env⟩
              (fits_runSteps hfits hlap) henv' hrun
          refine ⟨fun j => if j = first then m.memory else laps j, by simp, ?_,
            hdone, ?_⟩
          · simp only
            rw [if_neg (by omega), hfinish]
            congr 1
            omega
          · intro j hlo hhi
            simp only
            by_cases hj : j = first
            · subst hj
              rw [if_pos rfl, if_neg (by omega), hfirst,
                ← Bindings.bind_eq_of_unbind_eq henv]
              exact hlap
            · rw [if_neg hj, if_neg (by omega)]
              exact hnext j (by omega) (by omega)

theorem Laps.foldM_eq_ok
    {k : Kernel} {l : StagedLoop} {steps : List Step} {body : Body}
    {start : Machine α} {laps : Nat → Memory α}
    (h : Laps k l steps start.env laps)
    (hentries : body.entries = steps.map Op.step)
    (hstart : laps 0 = start.memory) {j : Nat} (hj : j ≤ l.tripCount) :
    ∃ lap, Counted.foldM
      (fun iter m => body.run k .sequential (m.bind l.var (signed64 iter)))
        0 j start = .ok lap ∧
      lap.memory = laps j ∧ lap.env.unbind l.var = start.env.unbind l.var := by
  induction j with
  | zero => exact ⟨start, rfl, hstart.symm, rfl⟩
  | succ j ih =>
      obtain ⟨lap, hlap, hmemory, henv⟩ := ih (by omega)
      refine ⟨⟨laps (j + 1), (lap.bind l.var (signed64 j)).env⟩, ?_, rfl,
        (Bindings.unbind_bind _ _ _).trans henv⟩
      have hnext : runSteps k (lap.bind l.var (signed64 j)).env steps
          (lap.bind l.var (signed64 j)).memory = .ok (laps (j + 1)) := by
        show runSteps k (lap.env.bind l.var (signed64 j)) steps lap.memory = _
        rw [Bindings.bind_eq_of_unbind_eq henv, hmemory]
        exact h.next j (by omega)
      rw [Counted.foldM_eq_foldlM] at hlap ⊢
      rw [range'_1_concat, foldlM_append, hlap, ok_bind, foldlM_cons,
        Nat.zero_add, Body.run_eq_runSteps hentries, hnext]
      rfl

end

end TileProgram
