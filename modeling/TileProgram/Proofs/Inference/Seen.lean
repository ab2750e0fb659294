import TileProgram.Proofs.Inference.Choice
import TileProgram.Proofs.Inference.Result

/-!
# What the operations of an inferred kernel see

A step of an inferred kernel is a step of the kernel it was given, redirected to
twins, or a relayout.  A redirected step finds tiles of the same forms under the
layouts that the plans give its operation to see, so it binds the same matrix
instruction and makes the same demands.
-/

namespace TileProgram

open Inference Kernel List

variable {t a b c : TileId} {p : PlannedTile} {tile : Tile} {l : Layout}
  {transposeA transposeB : Bool} {bound : Option GemmBinding}

/-! ## Entries of the table -/

section

variable {k : Kernel} {target : Target} {all : List TileUse}
  {planned : List PlannedTile}

theorem PlansOf.exists_planned
    (h : PlansOf k all target planned) (ht : k.Has t) :
    ∃ p, planned[t.index]? = some p ∧ p.id = t := by
  have hlt : t.index < planned.length := by
    rw [h.length_eq]
    exact ht
  have hid := congrArg (fun l => l[t.index]?) h.ids
  simp only [getElem?_map, getElem?_eq_getElem hlt, Option.map_some,
    getElem?_range ht, Option.some.injEq] at hid
  exact ⟨planned[t.index], getElem?_eq_getElem hlt, congrArg TileId.mk hid⟩

theorem exists_redirect_of_mem
    {size : Nat} (hp : p ∈ planned) {twin : Twin} (htwin : twin ∈ p.plan.twins)
    {op : OpId} (hop : op ∈ twin.ops) :
    ∃ r ∈ allRedirects size planned, r.op = op ∧ r.tile = p.id := by
  induction planned generalizing size with
  | nil => cases hp
  | cons first rest ih =>
      rcases mem_cons.mp hp with rfl | hin
      · have hops : op ∈ (p.redirects size).map (·.op) := by
          rw [map_op_redirects]
          exact mem_flatMap.mpr ⟨twin, htwin, hop⟩
        obtain ⟨r, hr, hrop⟩ := mem_map.mp hops
        exact ⟨r, mem_append_left _ hr, hrop, (mem_redirects hr).1⟩
      · obtain ⟨r, hr, hspec⟩ := @ih (size + first.plan.twins.length) hin
        exact ⟨r, mem_append_right _ hr, hspec⟩

/-- An entry of the inferred table, with the plan that it comes from. -/
structure Entry (p : PlannedTile) (tile : Tile) (l : Layout) : Prop where
  form : tile.form = p.tile.form
  layout : tile.layout = some l
  has : p.plan.Has l
  declared : p.tile.scope = .shared → tile.declared = none →
    p.tile.declared = none

theorem Entry.shape_eq (h : Entry p tile l) : tile.shape = p.tile.shape :=
  congrArg (·.1) h.form

theorem Entry.type_eq (h : Entry p tile l) : tile.type = p.tile.type :=
  congrArg (·.2.1) h.form

theorem Entry.scope_eq (h : Entry p tile l) : tile.scope = p.tile.scope :=
  congrArg (·.2.2) h.form

theorem entry_resolved (p : PlannedTile) : Entry p p.resolved p.plan.layout :=
  ⟨rfl, rfl, Or.inl rfl, fun _ hnone => hnone⟩

theorem entry_twinTile
    (hplan : planTile k p.tile p.uses target = .ok p.plan) {twin : Twin}
    (htwin : twin ∈ p.plan.twins) (name : String) :
    Entry p (p.twinTile name twin) twin.layout := by
  refine ⟨rfl, rfl, Or.inr ⟨twin, htwin, rfl⟩, fun hshared _ => ?_⟩
  by_contra hdeclared
  rw [(planned_of_planTile hplan).declared hshared hdeclared] at htwin
  cases htwin

variable {inferred : Inferred}

theorem InfersBy.planned_of_mem
    (h : InfersBy k target all planned inferred) (hp : p ∈ planned) :
    Planned p.tile p.uses target p.plan :=
  planned_of_planTile (h.plans.plan p hp).2

theorem InfersBy.mem_uses
    (h : InfersBy k target all planned inferred) (hp : p ∈ planned)
    {u : TileUse} :
    u ∈ p.uses ↔ u ∈ all ∧ u.tile = p.id := by
  rw [(h.plans.plan p hp).1]
  simp

theorem InfersBy.exists_entry
    (h : InfersBy k target all planned inferred) {i : Nat}
    (htile : inferred.kernel.tiles[i]? = some tile) :
    ∃ p ∈ planned, ∃ l, Entry p tile l := by
  rw [h.tiles, getElem?_toArray] at htile
  rcases mem_append.mp (mem_of_getElem? htile) with hin | hin
  · obtain ⟨p, hp, rfl⟩ := mem_map.mp hin
    exact ⟨p, hp, _, entry_resolved p⟩
  · obtain ⟨p, hp, hin⟩ := mem_flatMap.mp hin
    obtain ⟨⟨twin, n⟩, hn, rfl⟩ := mem_map.mp hin
    have htwin := mem_of_getElem? (mem_zipIdx_iff_getElem?.mp hn)
    exact ⟨p, hp, _, entry_twinTile (h.plans.plan p hp).2 htwin _⟩

theorem InfersBy.rerouted_entry
    (h : InfersBy k target all planned inferred) (id : OpId) (ht : k.Has t) :
    ∃ p ∈ planned, p.id = t ∧ ∃ tile l,
      inferred.kernel.tiles[(rerouted
        (redirectsOf (allRedirects k.tiles.size planned) id) t).index]? =
          some tile ∧
      Entry p tile l ∧ p.plan.Sees id l := by
  rcases h.redirections.rerouted_cases id t with
    ⟨hsame, hnone⟩ | ⟨r, hr, rfl, htwin⟩
  · obtain ⟨p, hentry, hid⟩ := h.plans.exists_planned ht
    have hp := mem_of_getElem? hentry
    refine ⟨p, hp, hid, p.resolved, p.plan.layout, ?_, entry_resolved p,
      Or.inr ⟨?_, rfl⟩⟩
    · have hlt : t.index < (planned.map PlannedTile.resolved).length := by
        rw [length_map, h.plans.length_eq]
        exact ht
      rw [hsame, h.tiles, getElem?_toArray, getElem?_append_left hlt,
        getElem?_map, hentry]
      rfl
    · intro twin htwin hop
      obtain ⟨r, hr, hrop, hrtile⟩ :
          ∃ r ∈ allRedirects k.tiles.size planned, r.op = id ∧ r.tile = p.id :=
        exists_redirect_of_mem hp htwin hop
      exact hnone r (mem_redirectsOf.mpr ⟨hr, hrop⟩) (hrtile.trans hid)
  · obtain ⟨hr, hop⟩ := mem_redirectsOf.mp hr
    obtain ⟨p, hp, htile, _, _, twin, hin, hunder, name, hentry⟩ :=
      h.plans.exists_twin h.tiles hr
    refine ⟨p, hp, htile.symm, _, twin.layout, by rw [htwin]; exact hentry,
      entry_twinTile (h.plans.plan p hp).2 hin name,
      Or.inl ⟨twin, hin, hop ▸ hunder, rfl⟩⟩

end

/-! ## Forms -/

def Kernel.formOf (k : Kernel) (t : TileId) :
    Option (Shape × ElementType × Scope) :=
  k.tiles[t.index]?.map Tile.form

theorem InfersBy.formOf_rerouted
    {k : Kernel} {target : Target} {all : List TileUse}
    {planned : List PlannedTile} {inferred : Inferred}
    (h : InfersBy k target all planned inferred) (id : OpId) (ht : k.Has t) :
    inferred.kernel.formOf
      (rerouted (redirectsOf (allRedirects k.tiles.size planned) id) t) =
      k.formOf t := by
  obtain ⟨p, hp, rfl, tile, l, htile, hentry, _⟩ := h.rerouted_entry id ht
  unfold Kernel.formOf
  rw [htile, h.plans.getElem?_id hp, Option.map_some, Option.map_some,
    hentry.form]

section

variable {k k' : Kernel} {target : Target}

theorem Kernel.exists_tile_of_formOf
    {t' : TileId} (h : k'.formOf t' = k.formOf t)
    (htile : k.tile t = .ok tile) :
    ∃ name declared layout,
      k'.tile t' =
        .ok ⟨name, tile.shape, tile.type, tile.scope, declared, layout⟩ := by
  have hentry : k.tiles[t.index]? = some tile := tile_eq_ok_iff.mp htile
  unfold Kernel.formOf at h
  rw [hentry, Option.map_some, Option.map_eq_some_iff] at h
  obtain ⟨⟨name, shape, type, scope, declared, layout⟩, htile', hform⟩ := h
  cases hform
  refine ⟨name, declared, layout, ?_⟩
  unfold Kernel.tile Checked.entry
  rw [htile']

/-- How tiles are bound: not at all, or with every check passed. -/
inductive Binds
    (k : Kernel) (target : Target) (transposeA transposeB : Bool)
    (a b c : Tile) : Option GemmBinding → Prop where
  | offChip (h : Kernel.gemmOnChip a b c = false) :
      Binds k target transposeA transposeB a b c none
  | noInstruction (h : target.instruction? a.type b.type c.type = none) :
      Binds k target transposeA transposeB a b c none
  | bound {i : MatrixInstruction} {dims : GemmShape} {threads : Nat}
      {warps : WarpGrid} (hchip : Kernel.gemmOnChip a b c = true)
      (hinstruction : target.instruction? a.type b.type c.type = some i)
      (hdims : GemmShape.ofShapes? a.shape b.shape c.shape transposeA transposeB
        = some dims)
      (hthreads : k.numThreads = .ok threads)
      (hlanes : threads % max 1 i.lanes = 0) (hwarps : i.warpPartition dims.m
        dims.n (threads / max 1 i.lanes) = .ok (some warps))
      (hdepth : Checked.mod dims.k i.shape.k = .ok 0) :
      Binds k target transposeA transposeB a b c (some ⟨i, dims, warps⟩)

theorem Kernel.binds_of_bindGemm
    (h : k.bindGemm a b c transposeA transposeB target = .ok bound) :
    ∃ ta tb tc, k.tile a = .ok ta ∧ k.tile b = .ok tb ∧ k.tile c = .ok tc ∧
      Binds k target transposeA transposeB ta tb tc bound := by
  unfold bindGemm at h
  obtain ⟨ta, hta, h⟩ := bind_eq_ok h
  obtain ⟨tb, htb, h⟩ := bind_eq_ok h
  obtain ⟨tc, htc, h⟩ := bind_eq_ok h
  refine ⟨ta, tb, tc, lift_eq_ok_iff.mp hta, lift_eq_ok_iff.mp htb,
    lift_eq_ok_iff.mp htc, ?_⟩
  cases hchip : gemmOnChip ta tb tc with
  | false =>
      rw [hchip] at h
      cases h
      exact .offChip hchip
  | true =>
      rw [hchip] at h
      cases hinstruction : target.instruction? ta.type tb.type tc.type with
      | none =>
          rw [hinstruction] at h
          cases h
          exact .noInstruction hinstruction
      | some i =>
          rw [hinstruction] at h
          cases hdims : GemmShape.ofShapes? ta.shape tb.shape tc.shape
            transposeA transposeB with
          | none =>
              rw [hdims] at h
              cases h
          | some dims =>
              rw [hdims] at h
              obtain ⟨threads, hthreads, h⟩ := bind_eq_ok h
              obtain ⟨warps, hwarps, h⟩ := exists_of_ite_bind h
              obtain ⟨left, hleft, h⟩ := bind_eq_ok h
              rw [lift_eq_ok_iff] at hthreads hleft
              cases warps with
              | none => cases h
              | some grid =>
                  split at hwarps
                  · next hlanes =>
                      dsimp only at h
                      split at h
                      · next hzero =>
                          cases h
                          rw [hzero] at hleft
                          exact .bound hchip hinstruction hdims hthreads hlanes
                            (lift_eq_ok_iff.mp hwarps) hleft
                      · cases h
                  · cases hwarps

theorem Kernel.bindGemm_of_binds
    {ta tb tc : Tile} (hta : k.tile a = .ok ta) (htb : k.tile b = .ok tb)
    (htc : k.tile c = .ok tc)
    (h : Binds k target transposeA transposeB ta tb tc bound) :
    k.bindGemm a b c transposeA transposeB target = .ok bound := by
  unfold bindGemm
  simp only [hta, htb, htc, lift_ok, ok_bind]
  cases h with
  | offChip h =>
      rw [h]
      rfl
  | noInstruction h =>
      cases gemmOnChip ta tb tc with
      | false => rfl
      | true =>
          rw [h]
          rfl
  | bound hchip hinstruction hdims hthreads hlanes hwarps hdepth =>
      simp only [hchip, hinstruction, hdims, hthreads, hlanes, hwarps, hdepth,
        lift_ok, ok_bind]
      rfl

theorem Kernel.bindGemm_of_forms
    (hthreads : k'.threads = k.threads) {a' b' c' : TileId}
    (ha : k'.formOf a' = k.formOf a) (hb : k'.formOf b' = k.formOf b)
    (hc : k'.formOf c' = k.formOf c)
    (h : k.bindGemm a b c transposeA transposeB target = .ok bound) :
    k'.bindGemm a' b' c' transposeA transposeB target = .ok bound := by
  obtain ⟨ta, tb, tc, hta, htb, htc, hbinds⟩ := binds_of_bindGemm h
  obtain ⟨_, _, _, hta'⟩ := exists_tile_of_formOf ha hta
  obtain ⟨_, _, _, htb'⟩ := exists_tile_of_formOf hb htb
  obtain ⟨_, _, _, htc'⟩ := exists_tile_of_formOf hc htc
  apply bindGemm_of_binds hta' htb' htc'
  cases hbinds with
  | offChip hchip => exact .offChip hchip
  | noInstruction hnone => exact .noInstruction hnone
  | bound hchip hinstruction hdims hnum hlanes hwarps hdepth =>
      refine .bound hchip hinstruction hdims ?_ hlanes hwarps hdepth
      unfold numThreads at hnum ⊢
      rw [hthreads]
      exact hnum

/-! ## Demands -/

def TileUse.moved (f : TileId → TileId) (id : OpId) (u : TileUse) : TileUse :=
  { u with op := id, tile := f u.tile }

section

variable {f : TileId → TileId} {id id' : OpId}

theorem accessUse_moved
    {a : Access} (hform : k'.formOf (f a.tile) = k.formOf a.tile)
    (inner : String) (read : Bool) :
    accessUse k' id' inner read { a with tile := f a.tile } =
      (accessUse k id inner read a).map (TileUse.moved f id') := by
  unfold accessUse
  cases elementwisePattern a.indices inner with
  | error e => rfl
  | ok p =>
      simp only [ok_bind]
      cases htile : k.tile a.tile with
      | ok tile =>
          obtain ⟨_, _, _, htile'⟩ := exists_tile_of_formOf hform htile
          rw [htile']
          rfl
      | error e =>
          have hnone : k.tiles[a.tile.index]? = none := by
            unfold Kernel.tile Checked.entry at htile
            split at htile
            · cases htile
            · next hnone => exact hnone
          have hnone' : k'.tiles[(f a.tile).index]? = none := by
            unfold Kernel.formOf at hform
            simpa [hnone] using hform
          unfold Kernel.tile Checked.entry at htile ⊢
          rw [hnone] at htile
          rw [hnone']
          cases htile
          rfl

theorem assignUses_moved
    {assign : Assign}
    (hloads : ∀ a ∈ assign.value.loads, k'.formOf (f a.tile) = k.formOf a.tile)
    (hdst : k'.formOf (f assign.dst.tile) = k.formOf assign.dst.tile)
    (inner : String) :
    assignUses k' id' inner
        ⟨{ assign.dst with tile := f assign.dst.tile },
          assign.value.mapTiles f⟩ =
      (assignUses k id inner assign).map (map (TileUse.moved f id')) := by
  unfold assignUses
  rw [Expr.loads_mapTiles, mapM_map_eq_map fun a ha =>
    accessUse_moved (hloads a ha) inner true, accessUse_moved hdst]
  cases assign.value.loads.mapM (accessUse k id inner true) with
  | error e => rfl
  | ok loads =>
      cases accessUse k id inner false assign.dst with
      | error e => rfl
      | ok dst => simp [Except.map, ok_bind, pure, Except.pure]

theorem tileDemand_of_forms
    {t' : TileId} (hform : k'.formOf t' = k.formOf t) {p : AccessPattern}
    {d : Demand} (h : tileDemand k t p = .ok d) :
    tileDemand k' t' p = .ok d := by
  unfold tileDemand at h ⊢
  obtain ⟨tile, htile, h⟩ := bind_eq_ok h
  obtain ⟨_, _, _, htile'⟩ := exists_tile_of_formOf hform htile
  rw [htile']
  exact h

theorem opUses_moved
    (hthreads : k'.threads = k.threads) {op : TileOp}
    (hforms : ∀ t ∈ op.tiles, k'.formOf (f t) = k.formOf t)
    {uses : List TileUse} (h : opUses k target id op = .ok uses) :
    opUses k' target id' (op.mapTiles f) =
      .ok (uses.map (TileUse.moved f id')) := by
  apply OpDemands.opUses_eq_ok
  cases opDemands_of_opUses h with
  | alloc tile => exact .alloc (f tile)
  | @copy src dst ts td width hsrc hdst =>
      obtain ⟨_, _, _, hsrc'⟩ := exists_tile_of_formOf (hforms _ (by simp)) hsrc
      obtain ⟨_, _, _, hdst'⟩ := exists_tile_of_formOf (hforms _ (by simp)) hdst
      -- stated apart: the demand of a tile is that of its form
      have hcopy := @OpDemands.copy k' target id'
        { src with tile := f src.tile } { dst with tile := f dst.tile }
        _ _ width hsrc' hdst'
      exact hcopy
  | fill value htile =>
      obtain ⟨_, _, _, htile'⟩ :=
        exists_tile_of_formOf (hforms _ (by simp)) htile
      have hfill := @OpDemands.fill k' target id' _ _ value htile'
      exact hfill
  | @parallel vars body perAssign extents hassign =>
      have hmoved : ∀ assign ∈ body, assignUses k' id' (vars.getLast?.getD "")
          ⟨{ assign.dst with tile := f assign.dst.tile },
            assign.value.mapTiles f⟩ =
          (assignUses k id (vars.getLast?.getD "") assign).map
            (map (TileUse.moved f id')) := by
        intro assign hin
        apply assignUses_moved
        · exact fun a ha =>
            hforms _ (TileOp.mem_tiles_of_access hin (mem_cons_of_mem _ ha))
        · exact hforms _ (TileOp.mem_tiles_of_access hin mem_cons_self)
      have hassign' := mapM_map_eq_map hmoved
      rw [hassign] at hassign'
      rw [map_flatten]
      exact .parallel extents hassign'
  | @bound a b c transposeA transposeB binding clear hbind =>
      have ha := hforms a (by simp)
      have hb := hforms b (by simp)
      have hc := hforms c (by simp)
      exact .bound clear (bindGemm_of_forms hthreads ha hb hc hbind)
  | @unbound a b c transposeA transposeB da db dc clear hbind hda hdb hdc =>
      have ha := hforms a (by simp)
      have hb := hforms b (by simp)
      have hc := hforms c (by simp)
      exact .unbound clear (bindGemm_of_forms hthreads ha hb hc hbind)
        (tileDemand_of_forms ha hda) (tileDemand_of_forms hb hdb)
        (tileDemand_of_forms hc hdc)
  | @reduce src dst axis next t ds dd kind clear hsrc hnext hds hdd =>
      have hformSrc := hforms src (by simp)
      have hformDst := hforms dst (by simp)
      obtain ⟨_, _, _, hsrc'⟩ := exists_tile_of_formOf hformSrc hsrc
      exact .reduce kind clear hsrc' hnext (tileDemand_of_forms hformSrc hds)
        (tileDemand_of_forms hformDst hdd)
  | relayout src dst => exact .relayout (f src) (f dst)

end

end

end TileProgram
