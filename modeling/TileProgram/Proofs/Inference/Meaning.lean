import TileProgram.Proofs.Inference.Result
import TileProgram.Proofs.Run

/-!
# The meaning of a redirected kernel

A redirected operation works on twins that were loaded before it if it reads
them, and that are stored back whole after it if it writes them.  The tiles of
the original table therefore go through the same contents, provided that an
operation which writes a twin without reading it overwrites it completely: of a
twin that is written in part, the rest is stored back too, whatever it holds.
-/

namespace TileProgram

open Inference Kernel List

variable {t : TileId} {id : OpId} {twins tiles : List Tile}

/-- Whenever the operation is evaluated, it writes every element of the tile. -/
def TileOp.Overwrites (k : Kernel) (op : TileOp) (t : TileId) : Prop :=
  ∀ ⦃α : Type⦄ [Element α] ⦃m : Memory α⦄ ⦃env : Bindings⦄
    ⦃all : List (Write α)⦄ ⦃shape : Shape⦄, m.Fits k →
    k.shapeOf t = .ok shape → op.eval k m env = .ok all →
    Covers all t shape.prod

theorem TileOp.overwrites_of_mem_defines
    {k : Kernel} {s : Step} {defined : List TileId} (hfit : s.op.Fitting k)
    (hdefines : (Op.step s).defines k = .ok defined) (ht : t ∈ defined) :
    s.op.Overwrites k t := by
  intro α _ m env all shape hfits hshape heval
  exact covers_of_mem_defines hfits hfit hdefines ht hshape heval

section

variable {α : Type} [Element α] {k k' : Kernel}

/-! ## Relayouts -/

def relayoutWrites (dst : TileId) (data : Array α) : List (Write α) :=
  data.toList.zipIdx.map fun (value, i) => ⟨dst, i, value⟩

theorem TileOp.exec_relayout
    {m : Memory α} {src dst : TileId} {shape : Shape} (hfits : m.Fits k)
    (hsrc : k.shapeOf src = .ok shape) (hdst : k.shapeOf dst = .ok shape)
    (env : Bindings) :
    ∃ m', (relayout src dst).exec k env m = .ok m' ∧ m'.Fits k ∧
      m'.tile dst = m.tile src ∧ ∀ t, t ≠ dst → m'.tile t = m.tile t := by
  obtain ⟨data, hdata, hsize⟩ := hfits.tile_eq_ok hsrc
  obtain ⟨old, hold, holdSize⟩ := hfits.tile_eq_ok hdst
  have heval : (relayout src dst).eval k m env =
      .ok (relayoutWrites dst data) := by
    simp only [eval]
    rw [hdata]
    rfl
  have hexec : (relayout src dst).exec k env m =
      .ok (m.put (relayoutWrites dst data)) := by
    refine exec_eq_ok_iff.mpr ⟨_, heval, ?_, rfl⟩
    intro w hw
    obtain ⟨⟨value, i⟩, _, rfl⟩ := mem_map.mp hw
    rw [hfits.size_eq]
    exact lt_of_shapeOf hdst
  refine ⟨_, hexec, fits_exec hfits hexec, ?_, ?_⟩
  · rw [Memory.tile_put, hold, hdata]
    apply congrArg Except.ok
    apply Array.ext_getElem?
    intro i
    by_cases hi : i < data.size
    · have hget : data[i]? = some data[i] := Array.getElem?_eq_getElem hi
      rw [hget]
      apply getElem?_overlay_of_mem (by omega)
      · refine ⟨_, mem_map.mpr ⟨(data[i], i), ?_, rfl⟩, rfl, rfl⟩
        rw [mem_zipIdx_iff_getElem?, Array.getElem?_toList]
        exact hget
      · intro w hw _ hindex
        obtain ⟨⟨value, j⟩, hj, rfl⟩ := mem_map.mp hw
        rw [mem_zipIdx_iff_getElem?, Array.getElem?_toList] at hj
        have hindex : j = i := hindex
        rw [hindex, hget] at hj
        exact (Option.some.inj hj).symm
    · rw [Array.getElem?_eq_none (by simpa using by omega),
        Array.getElem?_eq_none (by omega)]
  · intro t ht
    exact tile_exec_of_not_mem hexec (by simpa [writes] using ht)

theorem runSteps_relayouts
    {ι : Type} {moves : List ι} {src dst : ι → TileId} {steps : List Step}
    (hops : steps.map (·.op) = moves.map fun i => .relayout (src i) (dst i))
    (hshapes : ∀ i ∈ moves,
      ∃ shape, k.shapeOf (src i) = .ok shape ∧ k.shapeOf (dst i) = .ok shape)
    (hapart : ∀ i ∈ moves, ∀ j ∈ moves, src i ≠ dst j)
    (hdistinct : (moves.map dst).Nodup) (env : Bindings) {m : Memory α}
    (hfits : m.Fits k) :
    ∃ m', runSteps k env steps m = .ok m' ∧ m'.Fits k ∧
      (∀ i ∈ moves, m'.tile (dst i) = m.tile (src i)) ∧
      ∀ t, (∀ i ∈ moves, dst i ≠ t) → m'.tile t = m.tile t := by
  induction moves generalizing steps m with
  | nil =>
      have hnone : steps = [] := map_eq_nil_iff.mp hops
      subst hnone
      exact ⟨m, rfl, hfits, by simp, fun _ _ => rfl⟩
  | cons move rest ih =>
      cases steps with
      | nil => cases hops
      | cons s steps =>
          rw [map_cons, map_cons] at hops
          obtain ⟨hop, hops⟩ := cons.inj hops
          rw [map_cons, nodup_cons] at hdistinct
          obtain ⟨shape, hsrc, hdst⟩ := hshapes move mem_cons_self
          obtain ⟨m₁, hexec, hfits₁, hmoved, hkept⟩ :=
            TileOp.exec_relayout hfits hsrc hdst env
          obtain ⟨m', hrun, hfits', hmoves, hothers⟩ := ih hops
            (fun other hother => hshapes other (mem_cons_of_mem move hother))
            (fun x hx y hy => hapart x (mem_cons_of_mem move hx) y
              (mem_cons_of_mem move hy)) hdistinct.2 hfits₁
          have hlast : ∀ other ∈ rest, dst other ≠ dst move :=
            fun other hother heq =>
            hdistinct.1 (heq ▸ mem_map_of_mem hother)
          refine ⟨m', ?_, hfits', ?_, ?_⟩
          · rw [runSteps_cons, hop, hexec]
            exact hrun
          · intro other hother
            rcases mem_cons.mp hother with rfl | hin
            · rw [hothers _ hlast, hmoved]
            · rw [hmoves other hin]
              exact hkept _ (hapart other hother move mem_cons_self)
          · intro t ht
            rw [hothers t fun other hother =>
              ht other (mem_cons_of_mem move hother)]
            exact hkept t (ht move mem_cons_self).symm

theorem Body.run_prepend
    (mode : RunMode) (steps : List Step) (body : Body) (s : Machine α) :
    (prepend steps body).run k mode s =
      ((liftM (runSteps k s.env steps s.memory) : Pass SimulationError _) >>=
        fun memory =>
        body.run k mode { s with memory := memory }) := by
  induction steps generalizing s with
  | nil => rfl
  | cons head rest ih =>
      show (Body.step head (prepend rest body)).run k mode s = _
      rw [Body.run_step, runSteps_cons]
      cases head.op.exec k s.env s.memory with
      | error e => rfl
      | ok memory => exact ih { s with memory := memory }

/-! ## One redirected operation -/

/-- Memories of the two kernels that agree on the original tiles. -/
structure Twinned (k k' : Kernel) (m m' : Memory α) : Prop where
  fits : m.Fits k
  fits' : m'.Fits k'
  same : ∀ t, k.Has t → m'.tile t = m.tile t

variable {redirects : List Redirect}

theorem Redirections.nodup_map
    (h : Redirections k k' redirects) (id : OpId) (flag : Redirect → Bool)
    {f : Redirect → TileId}
    (hf : ∀ r ∈ redirects, ∀ r' ∈ redirects, f r = f r' → r.tile = r'.tile) :
    (((redirectsOf redirects id).filter flag).map f).Nodup := by
  rw [Nodup, pairwise_map]
  apply Pairwise.filter
  have hown : (redirectsOf redirects id).Pairwise fun r r' => r.op = r'.op →
      r.tile ≠ r'.tile :=
    h.once.filter _
  apply hown.imp_of_mem
  intro r r' hr hr' hrel heq
  obtain ⟨hin, hop⟩ := mem_redirectsOf.mp hr
  obtain ⟨hin', hop'⟩ := mem_redirectsOf.mp hr'
  exact hrel (hop.trans hop'.symm) (hf r hin r' hin' heq)

theorem Redirections.exists_shape
    (h : Redirections k k' redirects) {r : Redirect} (hr : r ∈ redirects) :
    ∃ shape, k'.shapeOf r.tile = .ok shape ∧ k'.shapeOf r.twin = .ok shape := by
  have hlt := h.tile_lt r hr
  obtain ⟨shape, hshape⟩ := shapeOf_of_lt hlt
  exact ⟨shape, (h.kept _ hlt).trans hshape, (h.shape r hr).trans hshape⟩

theorem Redirections.twin_ne
    (h : Redirections k k' redirects) {r : Redirect} (hr : r ∈ redirects)
    (ht : k.Has t) : r.twin ≠ t := by
  intro heq
  have hlow := h.le_twin r hr
  rw [heq] at hlow
  omega

theorem mem_of_filtered
    {r : Redirect} {flag : Redirect → Bool}
    (hr : r ∈ (redirectsOf redirects id).filter flag) : r ∈ redirects :=
  (mem_redirectsOf.mp (mem_filter.mp hr).1).1

theorem Redirections.run_loads
    (h : Redirections k k' redirects) {before : List Step}
    (hbefore : before.map (·.op) = loadsOf (redirectsOf redirects id))
    (env : Bindings) {m' : Memory α} (hfits : m'.Fits k') :
    ∃ loaded, runSteps k' env before m' = .ok loaded ∧ loaded.Fits k' ∧
      (∀ r ∈ redirectsOf redirects id,
        r.read = true → loaded.tile r.twin = m'.tile r.tile) ∧
      ∀ t, k.Has t → loaded.tile t = m'.tile t := by
  obtain ⟨loaded, hrun, hloaded, hfilled, hkept⟩ := runSteps_relayouts hbefore
    (fun r hr => h.exists_shape (mem_of_filtered hr))
    (fun r hr r' hr' =>
      (h.twin_ne (mem_of_filtered hr') (h.tile_lt r (mem_of_filtered hr))).symm)
    (h.nodup_map id (·.read) h.apart) env hfits
  refine ⟨loaded, hrun, hloaded, ?_, ?_⟩
  · intro r hr hread
    exact hfilled r (mem_filter.mpr ⟨hr, hread⟩)
  · intro t ht
    exact hkept t fun r hr => h.twin_ne (mem_of_filtered hr) ht

theorem Redirections.run_stores
    (h : Redirections k k' redirects) {after : List Step}
    (hafter : after.map (·.op) = storesOf (redirectsOf redirects id))
    (env : Bindings) {m' : Memory α} (hfits : m'.Fits k') :
    ∃ stored, runSteps k' env after m' = .ok stored ∧ stored.Fits k' ∧
      (∀ r ∈ redirectsOf redirects id, r.write = true →
        stored.tile r.tile = m'.tile r.twin) ∧
      ∀ t, (∀ r ∈ redirectsOf redirects id, r.write = true → r.tile ≠ t) →
        stored.tile t = m'.tile t := by
  obtain ⟨stored, hrun, hstored, hfilled, hkept⟩ := runSteps_relayouts hafter
    (fun r hr => (h.exists_shape (mem_of_filtered hr)).imp fun _ => And.symm)
    (fun r hr r' hr' =>
      h.twin_ne (mem_of_filtered hr) (h.tile_lt r' (mem_of_filtered hr')))
    (h.nodup_map id (·.write) fun _ _ _ _ heq => heq) env hfits
  refine ⟨stored, hrun, hstored, ?_, ?_⟩
  · intro r hr hwrite
    exact hfilled r (mem_filter.mpr ⟨hr, hwrite⟩)
  · intro t ht
    exact hkept t fun r hr => ht r (mem_filter.mp hr).1 (mem_filter.mp hr).2

theorem Redirections.rerouted_inj
    (h : Redirections k k' redirects) {u : TileId} (ht : k.Has t) (hu : k.Has u)
    (heq : rerouted (redirectsOf redirects id) t =
      rerouted (redirectsOf redirects id) u) : t = u := by
  rcases h.rerouted_cases id t with ⟨hsame, _⟩ | ⟨r, hr, rfl, htwin⟩
  · rcases h.rerouted_cases id u with ⟨hsame', _⟩ | ⟨r', hr', rfl, htwin'⟩
    · rwa [hsame, hsame'] at heq
    · rw [hsame, htwin'] at heq
      exact absurd heq.symm (h.twin_ne (mem_redirectsOf.mp hr').1 ht)
  · rcases h.rerouted_cases id u with ⟨hsame', _⟩ | ⟨r', hr', rfl, htwin'⟩
    · rw [htwin, hsame'] at heq
      exact absurd heq (h.twin_ne (mem_redirectsOf.mp hr).1 hu)
    · rw [htwin, htwin'] at heq
      exact h.apart r (mem_redirectsOf.mp hr).1 r'
        (mem_redirectsOf.mp hr').1 heq

/-- An operation may be put between relayouts: it reads the tiles whose twins it
writes, or it overwrites them. -/
def Redirections.Safe (k : Kernel) (redirects : List Redirect) (s : Step) :
    Prop :=
  ∀ r ∈ redirectsOf redirects s.id, r.tile ∈ s.op.writes →
    r.tile ∈ s.op.reads ∨ s.op.Overwrites k r.tile

/-- A redirected operation between its relayouts does what the operation
does. -/
theorem Redirections.exec_rerouted
    (h : Redirections k k' redirects) {s : Step} (hs : Op.step s ∈ k.ops)
    (hfit : s.op.Fitting k) (hsafe : Redirections.Safe k redirects s)
    {before after : List Step}
    (hbefore : before.map (·.op) = loadsOf (redirectsOf redirects s.id))
    (hafter : after.map (·.op) = storesOf (redirectsOf redirects s.id))
    (env : Bindings) {m m' : Memory α} (htwinned : Twinned k k' m m') :
    Matches (Twinned k k') (s.op.exec k env m)
      (runSteps k' env before m' >>= fun loaded =>
        (s.op.mapTiles (rerouted (redirectsOf redirects s.id))).exec k' env
          loaded >>= runSteps k' env after) := by
  obtain ⟨loaded, hrun, hloaded, hfilled, hkept⟩ :=
    h.run_loads hbefore env htwinned.fits'
  rw [hrun, ok_bind]
  have hlt := hfit.lt_size
  have hreadTwin : ∀ r ∈ redirectsOf redirects s.id, r.tile ∈ s.op.reads →
      loaded.tile r.twin = m.tile r.tile := by
    intro r hr hread
    rw [hfilled r hr ((h.reads s hs r hr).mpr hread)]
    exact htwinned.same _ (h.tile_lt r (mem_redirectsOf.mp hr).1)
  have hmirrors : Mirrors (rerouted (redirectsOf redirects s.id)) k k' m loaded
      s.op.tiles
      s.op.reads := by
    refine ⟨fun t ht => h.shapeOf_rerouted s.id (hlt t ht), ?_, ?_⟩
    · intro t ht
      exact htwinned.fits.extent_congr hloaded
        (h.shapeOf_rerouted s.id (hlt t ht))
    · intro t ht
      have htlt := hlt t (mem_append_left _ ht)
      rcases h.rerouted_cases s.id t with ⟨hsame, _⟩ | ⟨r, hr, rfl, htwin⟩
      · rw [hsame, hkept t htlt, htwinned.same t htlt]
      · rw [htwin]
        exact hreadTwin r hr ht
  have hmatches : Matches _ (s.op.exec k env m)
      ((s.op.mapTiles (rerouted (redirectsOf redirects s.id))).exec
        k' env loaded) :=
    TileOp.exec_mapTiles hmirrors
  rw [← bind_pure (s.op.exec k env m)]
  apply hmatches.attach.bind
  rintro done done' ⟨hexec, hexec', heffect⟩
  have hdone := TileOp.fits_exec htwinned.fits hexec
  have hdone' := TileOp.fits_exec hloaded hexec'
  obtain ⟨stored, hstores, hstored, hback, hrest⟩ :=
    h.run_stores hafter env hdone'
  rw [hstores]
  refine ⟨hdone, hstored, ?_⟩
  intro t ht
  have hapart : ∀ w ∈ s.op.writes, rerouted (redirectsOf redirects s.id) w =
      rerouted (redirectsOf redirects s.id) t → w = t := fun w hw heq =>
    h.rerouted_inj (hlt w (mem_append_right _ hw)) ht heq
  rcases h.rerouted_cases s.id t with ⟨hsame, hnone⟩ | ⟨r, hr, rfl, htwin⟩
  · -- the operation sees the tile itself
    rw [hrest t fun r hr _ => hnone r hr]
    have halike := heffect.alike t hapart
    rw [hsame] at halike
    exact halike ((hkept t ht).trans (htwinned.same t ht))
  · by_cases hwrite : r.tile ∈ s.op.writes
    · -- the operation writes the twin, which is stored back
      rw [hback r hr ((h.writes s hs r hr).mpr hwrite)]
      rcases hsafe r hr hwrite with hread | hover
      · have halike := heffect.alike r.tile hapart
        rw [htwin] at halike
        exact halike (hreadTwin r hr hread)
      · obtain ⟨shape, data, hshape, hdata, hsize⟩ :=
          htwinned.fits.tile_of_lt ht
        obtain ⟨data', hdata', hsize'⟩ :=
          hloaded.tile_eq_ok ((h.shapeOf_rerouted s.id ht).trans hshape)
        have hsame := TileOp.tile_exec_mapTiles_of_covers hmirrors hexec hexec'
          hapart hdata hdata' (hsize'.trans hsize.symm)
          (fun all heval => hsize ▸ hover htwinned.fits hshape heval)
        rwa [htwin] at hsame
    · -- the operation only reads the twin, and the tile stays as it is
      have hstays : ∀ r' ∈ redirectsOf redirects s.id, r'.write = true →
          r'.tile ≠ r.tile := by
        intro r' hr' hwrite' heq
        exact hwrite (heq ▸ (h.writes s hs r' hr').mp hwrite')
      have huntouched : ∀ w ∈ s.op.writes,
          rerouted (redirectsOf redirects s.id) w ≠ r.tile := by
        intro w hw heq
        rcases h.rerouted_cases s.id w with ⟨hsame, _⟩ | ⟨r', hr', _, htwin'⟩
        · rw [hsame] at heq
          exact hwrite (heq ▸ hw)
        · rw [htwin'] at heq
          exact h.twin_ne (mem_redirectsOf.mp hr').1 ht heq
      rw [hrest r.tile hstays, heffect.untouched r.tile huntouched,
        hkept r.tile ht, htwinned.same r.tile ht]
      exact (TileOp.tile_exec_of_not_mem hexec hwrite).symm

/-! ## Bodies and launches -/

theorem Body.run_around
    (mode : RunMode) (before after : List Step) (head : Step) (rest : Body)
    (s : Machine α) :
    (prepend before (Body.step head (prepend after rest))).run k mode s =
      ((liftM (runSteps k s.env before s.memory >>= fun loaded =>
        head.op.exec k s.env loaded >>=
        runSteps k s.env after) : Pass SimulationError _) >>=
          fun memory => rest.run k mode { s with memory := memory }) := by
  have hsteps : prepend before (Body.step head (prepend after rest)) =
      prepend (before ++ head :: after) rest := by
    simp [prepend]
  rw [hsteps, Body.run_prepend, runSteps_append]
  congr 2

theorem Rerouted.run_matches
    (h : Redirections k k' redirects) (hwf : k.WellFormed)
    (hsafe : ∀ s, Op.step s ∈ k.ops → Redirections.Safe k redirects s)
    {body body' : Body} (hrerouted : Rerouted redirects body body')
    (hsteps : ∀ s, Op.step s ∈ body.ops → Op.step s ∈ k.ops) {s s' : Machine α}
    (henv : s'.env = s.env) (htwinned : Twinned k k' s.memory s'.memory) :
    Matches (fun a a' => a'.env = a.env ∧ Twinned k k' a.memory a'.memory)
      (body.run k .sequential s) (body'.run k' .sequential s') := by
  induction hrerouted generalizing s s' with
  | done => exact ⟨henv, htwinned⟩
  | @step head rest rest' before after hbefore hafter hrest ih =>
      have hhead : Op.step head ∈ k.ops := hsteps head mem_cons_self
      rw [Body.run_step, Body.run_around]
      have hstep : Matches (Twinned k k') (head.op.exec k s.env s.memory) _ :=
        h.exec_rerouted hhead (hwf.fitting head hhead) (hsafe head hhead)
          hbefore hafter s.env htwinned
      rw [henv]
      apply Matches.bind hstep.lift
      intro memory memory' hmemory
      exact ih (fun o ho => hsteps o (mem_cons_of_mem _ ho)) rfl hmemory
  | @loop head body body' rest rest' hbody hrest ihbody ihrest =>
      have hinner : ∀ o, Op.step o ∈ body.ops → Op.step o ∈ k.ops := fun o ho =>
        hsteps o (mem_cons_of_mem _ (mem_append_left _ ho))
      have houter : ∀ o, Op.step o ∈ rest.ops → Op.step o ∈ k.ops := fun o ho =>
        hsteps o (mem_cons_of_mem _ (mem_append_right _ ho))
      rw [Body.run_loop_sequential, Body.run_loop_sequential]
      have hloop : Matches
          (fun a a' : Machine α =>
            a'.env = a.env ∧ Twinned k k' a.memory a'.memory)
          (Counted.foldM (fun iter m =>
            body.run k .sequential (m.bind head.var (signed64 iter)))
            0 head.tripCount s)
          (Counted.foldM (fun iter m =>
            body'.run k' .sequential (m.bind head.var (signed64 iter)))
            0 head.tripCount s') := by
        apply Matches.foldM _ _ _ _ _ ⟨henv, htwinned⟩
        rintro i a a' ⟨haenv, ha⟩
        exact ihbody hinner (congrArg (fun env : Bindings =>
          env.bind head.var (signed64 i)) haenv) ha
      apply Matches.bind hloop
      rintro a a' ⟨haenv, ha⟩
      exact ihrest houter
        (congrArg (fun env : Bindings => env.unbind head.var) haenv) ha

theorem Retiled.cleared_eq
    (h : Retiled k k' twins) (ht : k.Has t) (data : Array α) :
    k'.cleared t data = k.cleared t data := by
  have hform := h.form_eq ht
  unfold Kernel.cleared
  cases hold : k.tiles[t.index]? with
  | none =>
      cases hnew : k'.tiles[t.index]? with
      | none => rfl
      | some tile' => simp [hold, hnew] at hform
  | some tile =>
      cases hnew : k'.tiles[t.index]? with
      | none => simp [hold, hnew] at hform
      | some tile' =>
          have hscope : tile'.scope = tile.scope := by
            rw [hold, hnew] at hform
            exact congrArg (fun form : Shape × ElementType × Scope => form.2.2)
              (Option.some.inj hform)
          simp only [hscope]

theorem Twinned.resetOnChip
    {m m' : Memory α} (h : Twinned k k' m m')
    (hcleared : ∀ t,
      k.Has t → ∀ data : Array α, k'.cleared t data = k.cleared t data) :
    Twinned k k' (m.resetOnChip k) (m'.resetOnChip k') := by
  refine ⟨h.fits.resetOnChip, h.fits'.resetOnChip, ?_⟩
  intro t ht
  rw [Memory.tile_resetOnChip, Memory.tile_resetOnChip, h.same t ht]
  congr 1
  funext data
  exact hcleared t ht data

theorem Redirections.run_matches
    (h : Redirections k k' redirects) (hwf : k.WellFormed)
    (hsafe : ∀ s, Op.step s ∈ k.ops → Redirections.Safe k redirects s)
    (hrerouted : Rerouted redirects k.body k'.body)
    (hretiled : Retiled k k' twins) (hgrid : k'.grid = k.grid)
    (hraster : k'.rasterization = k.rasterization) (limit : Option Nat)
    {m m' : Memory α} (htwinned : Twinned k k' m m') :
    Matches (Twinned k k') (k.run .sequential limit m)
      (k'.run .sequential limit m') := by
  refine Kernel.run_matches hgrid hraster ?_ limit htwinned
  intro block m m' hm
  unfold Kernel.runBlock
  have hreset := hm.resetOnChip fun t ht data => hretiled.cleared_eq ht data
  have hbody :
      Matches _ (k.body.run k .sequential ⟨m.resetOnChip k, .ofBlock block⟩)
      (k'.body.run k' .sequential ⟨m'.resetOnChip k', .ofBlock block⟩) :=
    Rerouted.run_matches h hwf hsafe hrerouted (fun _ hin => hin) rfl hreset
  apply Matches.bind hbody
  rintro a a' ⟨_, ha⟩
  exact ha

end

/-! ## The start of a run -/

namespace Memory

theorem supply_onChip
    (s : Supply) (honChip : ∀ t ∈ twins, t.scope ≠ .global)
    (hsizes : ∀ t ∈ twins, ∃ count, (t.shape.numel >>=
      Checked.table elementBytes : Checked Nat) = .ok count) :
    ∃ zeros, ∀ stream, supply s twins stream = .ok zeros := by
  induction twins with
  | nil => exact ⟨[], fun _ => rfl⟩
  | cons t rest ih =>
      obtain ⟨zeros, hzeros⟩ :=
        ih (fun u hu => honChip u (mem_cons_of_mem t hu))
          (fun u hu => hsizes u (mem_cons_of_mem t hu))
      obtain ⟨count, hcount⟩ := hsizes t mem_cons_self
      obtain ⟨elements, helements, hcount⟩ := bind_eq_ok hcount
      refine ⟨Array.replicate count 0 :: zeros, ?_⟩
      intro stream
      simp only [supply, helements, ok_bind, hcount,
        if_neg (honChip t mem_cons_self), hzeros]
      rfl

theorem supply_append
    (s : Supply) (tiles : List Tile) {zeros : List (Array Float)}
    (hzeros : ∀ stream, supply s twins stream = .ok zeros)
    (stream : Random.Stream) :
    supply s (tiles ++ twins) stream =
      (supply s tiles stream).map (· ++ zeros) := by
  induction tiles generalizing stream with
  | nil => exact hzeros stream
  | cons t rest ih =>
      simp only [cons_append, supply, ih]
      cases t.shape.numel with
      | error e => rfl
      | ok elements =>
          simp only [ok_bind]
          cases Checked.table elementBytes elements with
          | error e => rfl
          | ok count =>
              simp only [ok_bind]
              generalize supply s rest _ = tail
              cases tail <;> rfl

theorem exists_size_of_supply
    {s : Supply} {stream : Random.Stream} {contents : List (Array Float)}
    (h : supply s tiles stream = .ok contents) :
    ∀ t ∈ tiles,
      ∃ count, (t.shape.numel >>= Checked.table elementBytes : Checked Nat) =
      .ok count := by
  induction tiles generalizing stream contents with
  | nil => simp
  | cons t rest ih =>
      simp only [supply] at h
      obtain ⟨elements, helements, h⟩ := bind_eq_ok h
      obtain ⟨count, hcount, h⟩ := bind_eq_ok h
      obtain ⟨tail, htail, _⟩ := bind_eq_ok h
      intro u hu
      rcases mem_cons.mp hu with rfl | hin
      · exact ⟨count, bind_eq_ok_iff.mpr ⟨elements, helements, hcount⟩⟩
      · exact ih htail u hin

theorem supply_append_error
    {s : Supply} {stream : Random.Stream} {fault : Fault}
    (h : supply s tiles stream = .error fault) (twins : List Tile) :
    supply s (tiles ++ twins) stream = .error fault := by
  induction tiles generalizing stream with
  | nil => cases h
  | cons t rest ih =>
      simp only [cons_append, supply] at h ⊢
      cases helements : t.shape.numel with
      | error e =>
          rw [helements] at h
          exact h
      | ok elements =>
          rw [helements] at h
          simp only [ok_bind] at h ⊢
          cases hcount : Checked.table elementBytes elements with
          | error e =>
              rw [hcount] at h
              exact h
          | ok count =>
              rw [hcount] at h
              simp only [ok_bind] at h ⊢
              generalize hnext :
                (if t.scope = .global then s.generate count t.type stream
                else (Array.replicate count 0, stream)) = next at h ⊢
              cases htail : supply s rest next.2 with
              | error e =>
                  rw [htail] at h
                  cases h
                  rw [ih htail]
                  rfl
              | ok tail =>
                  rw [htail] at h
                  cases h

end Memory

theorem Retiled.initial_matches
    {k k' : Kernel} (h : Retiled k k' twins) (opts : RunOptions) :
    Matches (Twinned k k') (Memory.initial k opts)
      (Memory.initial k' opts) := by
  have hforms : Memory.supply opts.supply k'.tiles.toList (.ofSeed opts.seed) =
      Memory.supply opts.supply (k.tiles.toList ++ twins) (.ofSeed opts.seed) :=
    Memory.supply_congr _ h.forms _
  have hsettles := Memory.initial_settles k opts
  have hsettles' := Memory.initial_settles k' opts
  unfold Memory.initial at hsettles hsettles' ⊢
  rw [hforms] at hsettles' ⊢
  cases hsupply : Memory.supply opts.supply k.tiles.toList
    (.ofSeed opts.seed) with
  | error fault =>
      rw [Memory.supply_append_error hsupply]
      rfl
  | ok contents =>
      have hsizes := Memory.exists_size_of_supply hsupply
      obtain ⟨zeros, hzeros⟩ := Memory.supply_onChip opts.supply h.onChip (by
        intro twin htwin
        obtain ⟨t, ht, hshape⟩ := h.shapes twin htwin
        rw [← hshape]
        exact hsizes t ht)
      rw [hsupply] at hsettles
      rw [Memory.supply_append _ _ hzeros, hsupply] at hsettles' ⊢
      have hfits : (⟨contents.toArray⟩ : Memory Float).Fits k :=
        hsettles.of_eq_ok rfl
      have hfits' : (⟨(contents ++ zeros).toArray⟩ : Memory Float).Fits k' :=
        hsettles'.of_eq_ok rfl
      refine ⟨hfits, hfits', ?_⟩
      intro t ht
      have hlength : contents.length = k.tiles.size := by
        simpa using hfits.size_eq
      unfold Memory.tile
      simp only [getElem?_toArray]
      rw [getElem?_append_left (by omega)]

/-! ## Inference -/

/-- Every operation whose twin is stored back reads the tile or overwrites
it. -/
def Inferred.StoresWhole (k : Kernel) (inferred : Inferred) : Prop :=
  ∀ record ∈ inferred.relayouts, ∀ s, Op.step s ∈ k.ops → s.id = record.serves →
    record.dst ∈ s.op.writes → record.dst ∈ s.op.reads ∨
    s.op.Overwrites k record.dst

/-- Inference preserves the meaning of a kernel whose twins are stored whole. -/
theorem inferred_run_eq_run
    {k : Kernel} {target : Target} {inferred : Inferred}
    (hinfer : k.infer target = .ok inferred) (hwhole : inferred.StoresWhole k) :
    (∀ {α : Type} [Element α] (limit : Option Nat) {m m' : Memory α},
      Twinned k inferred.kernel m m' →
      Matches (Twinned k inferred.kernel) (k.run .sequential limit m)
        (inferred.kernel.run .sequential limit m')) ∧
    ∀ opts : RunOptions,
      Matches (Twinned k inferred.kernel) (k.simulate .sequential opts)
        (inferred.kernel.simulate .sequential opts) := by
  have hinfers := infers_of_infer hinfer
  obtain ⟨redirects, next, hredirects, _, hspliced⟩ := hinfers.spliced
  obtain ⟨twins, hretiled⟩ := hinfers.retiled
  have hsafe : ∀ s, Op.step s ∈ k.ops → Redirections.Safe k redirects s := by
    intro s hs r hr hwrite
    obtain ⟨id, hrecord⟩ :=
      (hspliced.recorded s hs r hr).2 ((hredirects.writes s hs r hr).mpr hwrite)
    exact hwhole _ hrecord s hs (mem_redirectsOf.mp hr).2.symm hwrite
  have hruns : ∀ {α : Type} [Element α] (limit : Option Nat) {m m' : Memory α},
      Twinned k inferred.kernel m m' →
      Matches (Twinned k inferred.kernel) (k.run .sequential limit m)
        (inferred.kernel.run .sequential limit m') := by
    intro α _ limit m m' htwinned
    exact hredirects.run_matches hinfers.wellFormed hsafe hspliced.rerouted
      hretiled hinfers.grid hinfers.rasterization limit htwinned
  refine ⟨hruns, ?_⟩
  intro opts
  unfold Kernel.simulate
  apply Matches.bind (hretiled.initial_matches opts).lift
  intro m m' htwinned
  exact hruns opts.maxBlocks htwinned

/-- Brings six elements on chip in runs of three, the first `count` of them
again in runs of two, and takes all of them away. -/
def copyAgain (count : Nat) : Kernel :=
  { Kernel.empty "copy_again" with
    threads := ⟨2, 1, 1⟩
    tiles := #[.plain "g" [6] .f32 .global, .plain "h" [6] .f32 .global,
      .plain "x" [6] .f32 .fragment]
    body := .step ⟨⟨0⟩, .copy (.full ⟨0⟩ [6]) (.full ⟨2⟩ [6]) (some 3), none⟩
      (.step ⟨⟨1⟩, .copy (.full ⟨0⟩ [count]) (.full ⟨2⟩ [count]) (some 2), none⟩
        (.step ⟨⟨2⟩, .copy (.full ⟨2⟩ [6]) (.full ⟨1⟩ [6]) (some 3),
          none⟩ .done))
    nextOp := 3 }

theorem inferred_run_eq_run_copyAgain :
    ∃ inferred, (copyAgain 6).infer .sm70 = .ok inferred ∧
      inferred.relayouts = [⟨⟨3⟩, ⟨1⟩, ⟨3⟩, ⟨2⟩⟩] ∧
      Matches (Twinned (copyAgain 6) inferred.kernel)
        ((copyAgain 6).simulate .sequential .standard)
        (inferred.kernel.simulate .sequential .standard) := by
  have hcompute : ((copyAgain 6).infer .sm70).toOption.map (·.relayouts) =
      some [⟨⟨3⟩, ⟨1⟩, ⟨3⟩, ⟨2⟩⟩] := by
    decide +kernel
  obtain ⟨inferred, hinfer, hrecords⟩ := Option.map_eq_some_iff.mp hcompute
  rw [toOption_eq_some_iff] at hinfer
  refine ⟨inferred, hinfer, hrecords,
    (inferred_run_eq_run hinfer ?_).2 .standard⟩
  intro record hrecord s hs hserves _
  rw [hrecords, mem_singleton] at hrecord
  subst hrecord
  right
  have hfit := (infers_of_infer hinfer).wellFormed.fitting s hs
  have hsecond : s =
      ⟨⟨1⟩, .copy (.full ⟨0⟩ [6]) (.full ⟨2⟩ [6]) (some 2), none⟩ := by
    have hcases : s.id = ⟨0⟩ ∨
        s = ⟨⟨1⟩, .copy (.full ⟨0⟩ [6]) (.full ⟨2⟩ [6]) (some 2), none⟩ ∨
        s.id = ⟨2⟩ := by
      simp only [Kernel.ops, copyAgain, Body.ops, mem_cons, Op.step.injEq,
        not_mem_nil, or_false] at hs
      rcases hs with rfl | rfl | rfl
      · exact Or.inl rfl
      · exact Or.inr (Or.inl rfl)
      · exact Or.inr (Or.inr rfl)
    rcases hcases with hid | heq | hid
    · rw [hserves] at hid
      cases hid
    · exact heq
    · rw [hserves] at hid
      cases hid
  subst hsecond
  have hdefines : (Op.step ⟨⟨1⟩, .copy (.full ⟨0⟩ [6]) (.full ⟨2⟩ [6]) (some 2),
      none⟩).defines (copyAgain 6) = .ok [⟨2⟩] := rfl
  exact TileOp.overwrites_of_mem_defines hfit hdefines (mem_singleton.mpr rfl)

/-- Of the twin that is written in part, the rest is stored back as well. -/
theorem inferred_run_ne_run_copyAgain :
    ∃ inferred m m', (copyAgain 2).infer .sm70 = .ok inferred ∧
      (copyAgain 2).simulate .sequential ⟨.one, 0, none⟩ = .ok m ∧
      inferred.kernel.simulate .sequential ⟨.one, 0, none⟩ = .ok m' ∧
      m'.tile ⟨1⟩ ≠ m.tile ⟨1⟩ := by
  have hcompute : (((copyAgain 2).infer .sm70).toOption.bind fun inferred =>
      ((copyAgain 2).simulate .sequential ⟨.one, 0, none⟩).toOption.bind fun m =>
      (inferred.kernel.simulate .sequential ⟨.one, 0, none⟩).toOption.map
        fun m' =>
          (((m.tile ⟨1⟩).map fun data => data.toList.map Float.toBits).toOption,
            ((m'.tile ⟨1⟩).map fun data =>
              data.toList.map Float.toBits).toOption)) =
      some (some ([1, 1, 1, 1, 1, 1].map Float.toBits),
        some ([1, 1, 0, 0, 0, 0].map Float.toBits)) := by
    decide +kernel
  simp only [Option.bind_eq_some_iff, Option.map_eq_some_iff,
    toOption_eq_some_iff] at hcompute
  obtain ⟨inferred, hinfer, m, hm, m', hm', hcontents⟩ := hcompute
  refine ⟨inferred, m, m', hinfer, hm, hm', ?_⟩
  intro heq
  rw [heq] at hcontents
  have hfirst := congrArg Prod.fst hcontents
  have hsecond := congrArg Prod.snd hcontents
  exact absurd (hfirst.symm.trans hsecond) (by decide +kernel)

end TileProgram
