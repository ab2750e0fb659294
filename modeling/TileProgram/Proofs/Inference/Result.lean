import TileProgram.Proofs.Inference.Redirects
import TileProgram.Proofs.Inference.Splice
import TileProgram.Simulation.Verify

/-!
# What inference returns

A kernel that inference accepts is well formed, and so is the kernel it returns:
the tiles keep their forms, twins are appended, and the body is the body it was
given with operations redirected to twins.
-/

namespace TileProgram

open Inference Kernel List

variable {target : Target} {all : List TileUse} {planned : List PlannedTile}
  {inferred : Inferred} {t : TileId} {body' : Body}

def Tile.form (t : Tile) : Shape × ElementType × Scope :=
  (t.shape, t.type, t.scope)

/-- What the redirections of a kernel satisfy, with the table that has the
twins. -/
structure Redirections (k k' : Kernel) (redirects : List Redirect) : Prop where
  tile_lt : ∀ r ∈ redirects, k.Has r.tile
  le_twin : ∀ r ∈ redirects, k.tiles.size ≤ r.twin.index
  shape : ∀ r ∈ redirects, k'.shapeOf r.twin = k.shapeOf r.tile
  kept : ∀ t, k.Has t → k'.shapeOf t = k.shapeOf t
  once : redirects.Pairwise fun r r' => r.op = r'.op → r.tile ≠ r'.tile
  apart : ∀ r ∈ redirects, ∀ r' ∈ redirects, r.twin = r'.twin → r.tile = r'.tile
  reads : ∀ s, Op.step s ∈ k.ops → ∀ r ∈ redirectsOf redirects s.id,
    (r.read = true ↔ r.tile ∈ s.op.reads)
  writes : ∀ s, Op.step s ∈ k.ops → ∀ r ∈ redirectsOf redirects s.id,
    (r.write = true ↔ r.tile ∈ s.op.writes)

/-- The table of `k` under other layouts, and twins appended to it. -/
structure Retiled (k k' : Kernel) (twins : List Tile) : Prop where
  forms : k'.tiles.toList.map Tile.form =
    (k.tiles.toList ++ twins).map Tile.form
  onChip : ∀ twin ∈ twins, twin.scope ≠ .global
  shapes : ∀ twin ∈ twins, ∃ t ∈ k.tiles.toList, t.shape = twin.shape

structure Infers (k : Kernel) (inferred : Inferred) : Prop where
  wellFormed : k.WellFormed
  grid : inferred.kernel.grid = k.grid
  rasterization : inferred.kernel.rasterization = k.rasterization
  retiled : ∃ twins, Retiled k inferred.kernel twins
  spliced : ∃ redirects next, Redirections k inferred.kernel redirects ∧
    (∀ op ∈ k.ops, op.id.number < next) ∧
    SpliceResult redirects k.body next inferred.kernel.body inferred.relayouts
      inferred.kernel.nextOp

/-- The uses and the plans that inference goes by. -/
structure InfersBy
    (k : Kernel) (target : Target) (all : List TileUse)
    (planned : List PlannedTile) (inferred : Inferred) : Prop where
  wellFormed : k.WellFormed
  references : ∀ op ∈ k.ops, ∀ t ∈ op.mentions, k.Has t
  uses : uses k target = .ok all
  plans : PlansOf k all target planned
  tiles : inferred.kernel.tiles =
    (planned.map (·.resolved) ++ planned.flatMap (·.twinTiles)).toArray
  grid : inferred.kernel.grid = k.grid
  threads : inferred.kernel.threads = k.threads
  rasterization : inferred.kernel.rasterization = k.rasterization
  splice_eq : ∃ next, (∀ op ∈ k.ops, op.id.number < next) ∧
    splice (allRedirects k.tiles.size planned) k.body next =
      .ok (inferred.kernel.body, inferred.relayouts, inferred.kernel.nextOp)

theorem InfersBy.spliced
    {k : Kernel} (h : InfersBy k target all planned inferred) :
    ∃ next, (∀ op ∈ k.ops, op.id.number < next) ∧
      SpliceResult (allRedirects k.tiles.size planned) k.body
        next inferred.kernel.body inferred.relayouts
          inferred.kernel.nextOp := by
  obtain ⟨next, hbelow, hsplice⟩ := h.splice_eq
  exact ⟨next, hbelow, spliceResult_of_splice hsplice⟩

/-! ## Tables under other layouts -/

section

variable {k k' : Kernel} {twins : List Tile}

theorem Retiled.form_eq
    (h : Retiled k k' twins) {i : Nat} (hi : i < k.tiles.size) :
    k'.tiles[i]?.map Tile.form = k.tiles[i]?.map Tile.form := by
  have hentry := congrArg (fun l => l[i]?) h.forms
  simp only [getElem?_map, Array.getElem?_toList] at hentry
  rw [hentry, getElem?_append_left (by simpa using hi), Array.getElem?_toList]

theorem Kernel.shapeOf_eq_map_form (k : Kernel) (t : TileId) :
    k.shapeOf t = match k.tiles[t.index]?.map Tile.form with
      | some form => .ok form.1
      | none => .error .outOfRange := by
  unfold Kernel.shapeOf Kernel.tile Checked.entry
  cases k.tiles[t.index]? <;> rfl

theorem Retiled.shapeOf_eq (h : Retiled k k' twins) (ht : k.Has t) :
    k'.shapeOf t = k.shapeOf t := by
  rw [shapeOf_eq_map_form, shapeOf_eq_map_form, h.form_eq ht]

theorem Retiled.size_eq (h : Retiled k k' twins) :
    k'.tiles.size = k.tiles.size + twins.length := by
  have hlength := congrArg length h.forms
  simpa using hlength

end

/-! ## Checks -/

theorem reserveOpIds_eq_ok {k k' : Kernel} (h : reserveOpIds k = .ok k') :
    (k.ops.map Op.id).Nodup ∧
      ∃ next, k' = { k with nextOp := next } ∧ ∀ op ∈ k.ops,
        op.id.number < next := by
  simp only [reserveOpIds] at h
  obtain ⟨_, hdistinct, h⟩ := bind_eq_ok h
  refine ⟨(nodup_of_checkDistinct hdistinct).1, ?_⟩
  have hnumbers : ∀ op ∈ k.ops,
      op.id.number ∈ (k.ops.map Op.id).map OpId.number :=
    fun op hop => mem_map_of_mem (mem_map_of_mem hop)
  cases hids : (k.ops.map Op.id).map OpId.number with
  | nil =>
      rw [hids] at h hnumbers
      cases h
      refine ⟨k.nextOp, rfl, ?_⟩
      intro op hop
      cases hnumbers op hop
  | cons n rest =>
      rw [hids] at h hnumbers
      obtain ⟨next, hnext, h⟩ := bind_eq_ok h
      have hnext :=
        (Checked.word32_settles _).of_eq_ok (lift_eq_ok_iff.mp hnext)
      cases h
      refine ⟨_, rfl, ?_⟩
      have hmax : ∀ (rest : List Nat) (n : Nat),
          ∀ x ∈ n :: rest, x ≤ rest.foldl max n := by
        intro rest
        induction rest with
        | nil =>
            intro n x hx
            exact Nat.le_of_eq (mem_singleton.mp hx)
        | cons y rest ih =>
            intro n x hx
            rw [foldl_cons]
            have htop := ih (max n y) (max n y) mem_cons_self
            rcases mem_cons.mp hx with rfl | hin
            · omega
            · rcases mem_cons.mp hin with rfl | hin
              · omega
              · exact ih (max n y) x (mem_cons_of_mem _ hin)
      intro op hop
      have hle := hmax rest n op.id.number (hnumbers op hop)
      omega

/-! ## Inference -/

theorem PlansOf.retiled
    {k k' : Kernel} {uses : List TileUse} (h : PlansOf k uses target planned)
    (htiles : k'.tiles =
      (planned.map (·.resolved) ++ planned.flatMap (·.twinTiles)).toArray) :
    Retiled k k' (planned.flatMap (·.twinTiles)) := by
  refine ⟨?_, ?_, ?_⟩
  · have hforms : (planned.map (·.resolved)).map Tile.form =
        k.tiles.toList.map Tile.form := by
      rw [← h.tiles, List.map_map, List.map_map]
      rfl
    rw [htiles, map_append, hforms, map_append]
  · intro twin htwin hglobal
    obtain ⟨p, hp, hin⟩ := mem_flatMap.mp htwin
    obtain ⟨⟨planned, n⟩, hn, rfl⟩ := mem_map.mp hin
    rw [(planTile_eq_ok (h.plan p hp).2).2 hglobal] at hn
    cases hn
  · intro twin htwin
    obtain ⟨p, hp, hin⟩ := mem_flatMap.mp htwin
    obtain ⟨⟨planned, n⟩, _, rfl⟩ := mem_map.mp hin
    exact ⟨p.tile, h.tiles ▸ mem_map_of_mem hp, rfl⟩

theorem PlansOf.getElem?_id
    {k : Kernel} {uses : List TileUse} (h : PlansOf k uses target planned)
    {p : PlannedTile} (hp : p ∈ planned) :
    k.tiles[p.id.index]? = some p.tile := by
  obtain ⟨i, hi⟩ := getElem?_of_mem hp
  have hid := congrArg (fun l => l[i]?) h.ids
  have htile := congrArg (fun l => l[i]?) h.tiles
  simp only [getElem?_map, hi, Option.map_some, Array.getElem?_toList]
    at hid htile
  obtain ⟨hlt, hrange⟩ := List.getElem?_eq_some_iff.mp hid.symm
  rw [getElem_range] at hrange
  rw [← hrange]
  exact htile.symm

theorem PlansOf.length_eq
    {k : Kernel} {uses : List TileUse} (h : PlansOf k uses target planned) :
    planned.length = k.tiles.size := by
  have hlength := congrArg length h.ids
  simpa using hlength

theorem PlansOf.exists_twin
    {k k' : Kernel} {uses : List TileUse} (h : PlansOf k uses target planned)
    (htiles : k'.tiles =
      (planned.map (·.resolved) ++ planned.flatMap (·.twinTiles)).toArray)
    {r : Redirect} (hr : r ∈ allRedirects k.tiles.size planned) :
    ∃ p ∈ planned, r.tile = p.id ∧
      r.read = (p.uses.filter (·.op == r.op)).any (·.read) ∧
      r.write = (p.uses.filter (·.op == r.op)).any (·.write) ∧
      ∃ twin ∈ p.plan.twins, r.op ∈ twin.ops ∧ ∃ name,
        k'.tiles[r.twin.index]? = some (p.twinTile name twin) := by
  obtain ⟨p, hp, htile, hread, hwrite, twin, htwin, hop, name, hentry⟩ :=
    exists_of_mem_allRedirects hr
  have hlow := le_twin_of_mem_allRedirects hr
  refine ⟨p, hp, htile, hread, hwrite, twin, htwin, hop, name, ?_⟩
  rw [htiles, getElem?_toArray,
    getElem?_append_right (by simpa [h.length_eq] using hlow)]
  simpa [h.length_eq] using hentry

theorem redirections_of_plans
    {k k' : Kernel} (hdistinct : (k.ops.map Op.id).Nodup)
    (huses : uses k target = .ok all) (h : PlansOf k all target planned)
    (htiles : k'.tiles =
      (planned.map (·.resolved) ++ planned.flatMap (·.twinTiles)).toArray) :
    Redirections k k' (allRedirects k.tiles.size planned) := by
  have hretiled := h.retiled htiles
  have hids : (planned.map (·.id)).Nodup := by
    have hnodup : (planned.map (·.id.index)).Nodup := h.ids ▸ nodup_range
    rw [← Function.comp_def, ← List.map_map] at hnodup
    exact hnodup.of_map _
  -- the flags of a redirection are those of the uses that its operation makes
  -- of its tile
  have hflags : ∀ (flag : TileUse → Bool),
      ∀ s, Op.step s ∈ k.ops → ∀ p ∈ planned,
        ∀ own : List TileUse, (∀ u, u ∈ own ↔ u ∈ all ∧ u.op = s.id) →
      ((p.uses.filter (·.op == s.id)).any flag = true ↔
        ∃ u ∈ own, p.id = u.tile ∧ flag u = true) := by
    intro flag s hs p hp own hown
    rw [(h.plan p hp).1, any_eq_true]
    constructor
    · rintro ⟨u, hu, hflag⟩
      simp only [mem_filter, beq_iff_eq] at hu
      exact ⟨u, (hown u).mpr ⟨hu.1.1, hu.2⟩, hu.1.2.symm, hflag⟩
    · rintro ⟨u, hu, htile, hflag⟩
      obtain ⟨hin, hop⟩ := (hown u).mp hu
      refine ⟨u, ?_, hflag⟩
      simp only [mem_filter, beq_iff_eq]
      exact ⟨⟨hin, htile.symm⟩, hop⟩
  constructor
  · intro r hr
    obtain ⟨p, hp, htile, _⟩ := exists_of_mem_allRedirects hr
    rw [htile]
    exact (Array.getElem?_eq_some_iff.mp (h.getElem?_id hp)).1
  · exact fun r hr => le_twin_of_mem_allRedirects hr
  · intro r hr
    obtain ⟨p, hp, htile, _, _, twin, _, _, name, hentry⟩ :=
      h.exists_twin htiles hr
    rw [shapeOf_eq_map_form, shapeOf_eq_map_form, hentry, htile,
      h.getElem?_id hp]
    rfl
  · exact fun t ht => hretiled.shapeOf_eq ht
  · exact allRedirects_pairwise hids fun p hp =>
      (planTile_eq_ok (h.plan p hp).2).1
  · exact fun r hr r' hr' => tile_eq_of_twin_eq hr hr'
  · intro s hs r hr
    obtain ⟨hr, hop⟩ := mem_redirectsOf.mp hr
    obtain ⟨p, hp, htile, hread, _⟩ := exists_of_mem_allRedirects hr
    obtain ⟨own, hopUses, hown⟩ := exists_uses_of_step hdistinct huses hs
    have hspec := usesOf_of_opUses hopUses
    rw [hread, hop, hflags _ s hs p hp own hown, htile]
    exact hspec.reads p.id
  · intro s hs r hr
    obtain ⟨hr, hop⟩ := mem_redirectsOf.mp hr
    obtain ⟨p, hp, htile, _, hwrite, _⟩ := exists_of_mem_allRedirects hr
    obtain ⟨own, hopUses, hown⟩ := exists_uses_of_step hdistinct huses hs
    have hspec := usesOf_of_opUses hopUses
    rw [hwrite, hop, hflags _ s hs p hp own hown, htile]
    exact hspec.writes p.id

theorem InfersBy.redirections
    {k : Kernel} (h : InfersBy k target all planned inferred) :
    Redirections k inferred.kernel (allRedirects k.tiles.size planned) :=
  redirections_of_plans h.wellFormed.distinct h.uses h.plans h.tiles

theorem InfersBy.scope_ne_global
    {k : Kernel} (h : InfersBy k target all planned inferred) {r : Redirect}
    (hr : r ∈ allRedirects k.tiles.size planned) {tile : Tile}
    (htile : k.tiles[r.tile.index]? = some tile) : tile.scope ≠ .global := by
  obtain ⟨p, hp, heq, _, _, twin, htwin, _⟩ := h.plans.exists_twin h.tiles hr
  rw [heq, h.plans.getElem?_id hp] at htile
  cases htile
  intro hglobal
  rw [(planTile_eq_ok (h.plans.plan p hp).2).2 hglobal] at htwin
  cases htwin

theorem infersBy_of_infer {k : Kernel} (h : k.infer target = .ok inferred) :
    ∃ all planned, InfersBy k target all planned inferred := by
  unfold Kernel.infer at h
  obtain ⟨_, hreferences, h⟩ := bind_eq_ok h
  obtain ⟨k₁, hreserve, h⟩ := bind_eq_ok h
  obtain ⟨hdistinct, next, rfl, hbelow⟩ := reserveOpIds_eq_ok hreserve
  obtain ⟨_, hshapes, h⟩ := bind_eq_ok h
  obtain ⟨all, huses, h⟩ := bind_eq_ok h
  obtain ⟨planned, hplanned, h⟩ := bind_eq_ok h
  obtain ⟨⟨body, records, last⟩, hsplice, h⟩ := bind_eq_ok h
  obtain ⟨warnings, _, h⟩ := bind_eq_ok h
  cases h
  have hplans := plansOf_of_planTiles hplanned
  have hfitting : ∀ s, Op.step s ∈ k.ops → s.op.Fitting k := by
    intro s hs
    have hchecked := fitting_of_checkShapes (k := { k with nextOp := next })
      (fun _ hop _ ht => checkReferences_eq_ok hreferences hop ht) hshapes hs
    exact hchecked.congr fun _ _ => rfl
  -- the number reserved for the next operation is no part of the table or the
  -- body
  exact ⟨all, planned, ⟨hdistinct, hfitting⟩,
    fun _ hop _ ht => checkReferences_eq_ok hreferences hop ht, huses,
    ⟨hplans.tiles, hplans.ids, hplans.plan⟩, rfl, rfl, rfl, rfl, next, hbelow,
    lift_eq_ok_iff.mp hsplice⟩

theorem InfersBy.infers
    {k : Kernel} (h : InfersBy k target all planned inferred) :
    Infers k inferred := by
  obtain ⟨next, hbelow, hspliced⟩ := h.spliced
  exact ⟨h.wellFormed, h.grid, h.rasterization, ⟨_, h.plans.retiled h.tiles⟩,
    _, next, h.redirections, hbelow, hspliced⟩

theorem infers_of_infer {k : Kernel} (h : k.infer target = .ok inferred) :
    Infers k inferred := by
  obtain ⟨all, planned, hby⟩ := infersBy_of_infer h
  exact hby.infers

/-! ## The inferred kernel -/

theorem Rerouted.step_cases
    {redirects : List Redirect} {body : Body}
    (h : Rerouted redirects body body') {s' : Step}
    (hs' : Op.step s' ∈ body'.ops) :
    (∃ s, Op.step s ∈ body.ops ∧
      s'.op = s.op.mapTiles (rerouted (redirectsOf redirects s.id))) ∨
      ∃ r ∈ redirects, s'.op = r.load ∨ s'.op = r.store := by
  induction h with
  | done => cases hs'
  | @step s rest rest' before after hbefore hafter hrest ih =>
      simp only [ops_prepend, Body.ops, mem_append, mem_cons] at hs'
      rcases hs' with hin | heq | hin | hin
      · right
        obtain ⟨other, hother, heq⟩ := mem_map.mp hin
        cases heq
        have hload : s'.op ∈ before.map (·.op) := mem_map_of_mem hother
        rw [hbefore] at hload
        obtain ⟨r, hr, heq⟩ := mem_map.mp hload
        exact ⟨r, (mem_redirectsOf.mp (mem_filter.mp hr).1).1, Or.inl heq.symm⟩
      · left
        cases heq
        exact ⟨s, mem_cons_self, rfl⟩
      · right
        obtain ⟨other, hother, heq⟩ := mem_map.mp hin
        cases heq
        have hstore : s'.op ∈ after.map (·.op) := mem_map_of_mem hother
        rw [hafter] at hstore
        obtain ⟨r, hr, heq⟩ := mem_map.mp hstore
        exact ⟨r, (mem_redirectsOf.mp (mem_filter.mp hr).1).1, Or.inr heq.symm⟩
      · rcases ih hin with ⟨o, ho, heq⟩ | hinserted
        · exact Or.inl ⟨o, mem_cons_of_mem _ ho, heq⟩
        · exact Or.inr hinserted
  | @loop head body body' rest rest' hbody hrest ihbody ihrest =>
      have hin : Op.step s' ∈ body'.ops ∨ Op.step s' ∈ rest'.ops := by
        simpa [Body.ops] using hs'
      rcases hin with hin | hin
      · rcases ihbody hin with ⟨o, ho, heq⟩ | hinserted
        · exact Or.inl ⟨o, mem_cons_of_mem _ (mem_append_left _ ho), heq⟩
        · exact Or.inr hinserted
      · rcases ihrest hin with ⟨o, ho, heq⟩ | hinserted
        · exact Or.inl ⟨o, mem_cons_of_mem _ (mem_append_right _ ho), heq⟩
        · exact Or.inr hinserted

theorem Rerouted.loop_mem
    {redirects : List Redirect} {body : Body}
    (h : Rerouted redirects body body') {head : Loop} {inner' : Body}
    (hloop : Op.loop head inner' ∈ body'.ops) :
    ∃ inner, Op.loop head inner ∈ body.ops ∧
      Rerouted redirects inner inner' := by
  induction h with
  | done => cases hloop
  | @step s rest rest' before after _ _ hrest ih =>
      have hin : Op.loop head inner' ∈ rest'.ops := by
        simpa [ops_prepend, Body.ops] using hloop
      obtain ⟨inner, hinner, hrerouted⟩ := ih hin
      exact ⟨inner, mem_cons_of_mem _ hinner, hrerouted⟩
  | @loop head' body body' rest rest' hbody hrest ihbody ihrest =>
      simp only [Body.ops, mem_cons, mem_append] at hloop
      rcases hloop with heq | hin | hin
      · cases heq
        exact ⟨body, mem_cons_self, hbody⟩
      · obtain ⟨inner, hinner, hrerouted⟩ := ihbody hin
        exact ⟨inner, mem_cons_of_mem _ (mem_append_left _ hinner), hrerouted⟩
      · obtain ⟨inner, hinner, hrerouted⟩ := ihrest hin
        exact ⟨inner, mem_cons_of_mem _ (mem_append_right _ hinner), hrerouted⟩

section

variable {k k' : Kernel} {redirects : List Redirect}

theorem Redirections.rerouted_cases
    (h : Redirections k k' redirects) (id : OpId) (t : TileId) :
    (rerouted (redirectsOf redirects id) t = t ∧ ∀ r ∈ redirectsOf redirects id,
      r.tile ≠ t) ∨ ∃ r ∈ redirectsOf redirects id, r.tile = t ∧
        rerouted (redirectsOf redirects id) t = r.twin := by
  apply TileProgram.rerouted_cases
  intro r hr r' hr' heq
  have hlow := h.le_twin r (mem_redirectsOf.mp hr).1
  have hhigh := h.tile_lt r' (mem_redirectsOf.mp hr').1
  rw [heq] at hlow
  omega

theorem Redirections.shapeOf_rerouted
    (h : Redirections k k' redirects) (id : OpId) (ht : k.Has t) :
    k'.shapeOf (rerouted (redirectsOf redirects id) t) = k.shapeOf t := by
  rcases h.rerouted_cases id t with ⟨hsame, _⟩ | ⟨r, hr, rfl, htwin⟩
  · rw [hsame]
    exact h.kept t ht
  · rw [htwin]
    exact h.shape r (mem_redirectsOf.mp hr).1

theorem Redirections.fitting
    (h : Redirections k k' redirects) (hwf : k.WellFormed)
    (hrerouted : Rerouted redirects k.body body') {s' : Step}
    (hs' : Op.step s' ∈ body'.ops) : s'.op.Fitting k' := by
  rcases hrerouted.step_cases hs' with ⟨s, hs, heq⟩ | ⟨r, hr, hinserted⟩
  · rw [heq]
    have hfit := hwf.fitting s hs
    exact hfit.mapTiles fun t ht => h.shapeOf_rerouted s.id (hfit.lt_size t ht)
  · obtain ⟨shape, hshape⟩ := shapeOf_of_lt (h.tile_lt r hr)
    have htile : k'.shapeOf r.tile = .ok shape :=
      (h.kept _ (h.tile_lt r hr)).trans hshape
    have htwin : k'.shapeOf r.twin = .ok shape := (h.shape r hr).trans hshape
    rcases hinserted with heq | heq
    · rw [heq]
      exact ⟨shape, htile, htwin⟩
    · rw [heq]
      exact ⟨shape, htwin, htile⟩

end

theorem InfersBy.tile_kept
    {k : Kernel} (h : InfersBy k target all planned inferred) {i : Nat}
    {tile : Tile} (htile : k.tiles[i]? = some tile) :
    ∃ l, inferred.kernel.tiles[i]? = some { tile with layout := some l } := by
  have hlt : i < planned.length := by
    rw [h.plans.length_eq]
    exact (Array.getElem?_eq_some_iff.mp htile).1
  have hentry := congrArg (fun l => l[i]?) h.plans.tiles
  simp only [getElem?_map, getElem?_eq_getElem hlt, Option.map_some,
    Array.getElem?_toList, htile, Option.some.injEq] at hentry
  refine ⟨planned[i].plan.layout, ?_⟩
  rw [h.tiles, getElem?_toArray, getElem?_append_left (by simpa using hlt),
    getElem?_map, getElem?_eq_getElem hlt, Option.map_some, ← hentry]
  rfl

theorem Infers.wellFormed_kernel {k : Kernel} (h : Infers k inferred) :
    inferred.kernel.WellFormed := by
  obtain ⟨redirects, next, hredirects, hbelow, hspliced⟩ := h.spliced
  refine ⟨?_, fun s hs => hredirects.fitting h.wellFormed hspliced.rerouted hs⟩
  apply hspliced.ids.nodup h.wellFormed.distinct
  intro id hid
  obtain ⟨op, hop, rfl⟩ := mem_map.mp hid
  exact hbelow op hop

theorem Infers.scheduledRegions_eq_nil
    {k : Kernel} (h : Infers k inferred) (hplain : k.scheduledRegions = []) :
    inferred.kernel.scheduledRegions = [] := by
  obtain ⟨redirects, next, _, _, hspliced⟩ := h.spliced
  unfold Kernel.scheduledRegions at hplain ⊢
  rw [filter_eq_nil_iff] at hplain ⊢
  intro op hop
  cases op with
  | step s => simp
  | loop head inner' =>
      obtain ⟨inner, hinner, _⟩ := hspliced.rerouted.loop_mem hop
      exact hplain _ hinner

end TileProgram
