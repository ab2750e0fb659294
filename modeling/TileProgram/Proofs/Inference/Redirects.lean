import TileProgram.Inference.Basic
import TileProgram.Proofs.Operands

/-!
# Redirections that inference plans

The uses of an operation name the tiles it reads and the tiles it writes.  A
plan puts an operation under at most one twin of a tile, twins of different
tiles are different, and a twin has the shape of its tile.  `Redirections`
collects what the redirections of a kernel satisfy.
-/

namespace TileProgram

open Inference List

variable {k : Kernel} {id : OpId} {target : Target} {op : TileOp}
  {req : LayoutRequest} {twins : List Twin} {plan : TilePlan}
  {planned : List PlannedTile} {r : Redirect} {size : Nat}

/-! ## Uses -/

/-- The uses of one operation say what it reads and writes. -/
structure UsesOf (id : OpId) (op : TileOp) (uses : List TileUse) : Prop where
  op_eq : ∀ u ∈ uses, u.op = id
  touches : ∀ u ∈ uses, u.read = true ∨ u.write = true
  reads : ∀ t, (∃ u ∈ uses, t = u.tile ∧ u.read = true) ↔ t ∈ op.reads
  writes : ∀ t, (∃ u ∈ uses, t = u.tile ∧ u.write = true) ↔ t ∈ op.writes

theorem accessUse_eq_ok
    {inner : String} {read : Bool} {a : Access} {u : TileUse}
    (h : accessUse k id inner read a = .ok u) :
    u.op = id ∧ u.tile = a.tile ∧ u.read = read ∧ u.write = !read := by
  unfold accessUse at h
  obtain ⟨_, _, h⟩ := bind_eq_ok h
  obtain ⟨_, _, h⟩ := bind_eq_ok h
  cases h
  exact ⟨rfl, rfl, rfl, rfl⟩

theorem assignUses_eq_ok
    {inner : String} {assign : Assign} {uses : List TileUse}
    (h : assignUses k id inner assign = .ok uses) :
    (∀ u ∈ uses, u.op = id ∧ (u.read = true ∨ u.write = true)) ∧
      (∀ t, (∃ u ∈ uses, t = u.tile ∧ u.read = true) ↔
        ∃ a ∈ assign.value.loads, a.tile = t) ∧
      ∀ t, (∃ u ∈ uses, t = u.tile ∧ u.write = true) ↔ assign.dst.tile = t := by
  unfold assignUses at h
  obtain ⟨loads, hloads, h⟩ := bind_eq_ok h
  obtain ⟨dst, hdst, h⟩ := bind_eq_ok h
  cases h
  obtain ⟨hop, htile, hread, hwrite⟩ := accessUse_eq_ok hdst
  refine ⟨?_, ?_, ?_⟩
  · intro u hu
    rcases mem_append.mp hu with hload | hlast
    · obtain ⟨a, _, ha⟩ := exists_of_mem_mapM hloads hload
      obtain ⟨haop, _, haread, _⟩ := accessUse_eq_ok ha
      exact ⟨haop, Or.inl haread⟩
    · rw [mem_singleton.mp hlast]
      exact ⟨hop, Or.inr hwrite⟩
  · intro t
    constructor
    · rintro ⟨u, hu, rfl, huread⟩
      rcases mem_append.mp hu with hload | hlast
      · obtain ⟨a, ha, hau⟩ := exists_of_mem_mapM hloads hload
        exact ⟨a, ha, (accessUse_eq_ok hau).2.1.symm⟩
      · rw [mem_singleton.mp hlast, hread] at huread
        cases huread
    · rintro ⟨a, ha, rfl⟩
      obtain ⟨u, hu, hau⟩ := exists_of_mapM_eq_ok hloads ha
      obtain ⟨_, hutile, huread, _⟩ := accessUse_eq_ok hau
      exact ⟨u, mem_append_left _ hu, hutile.symm, huread⟩
  · intro t
    constructor
    · rintro ⟨u, hu, rfl, huwrite⟩
      rcases mem_append.mp hu with hload | hlast
      · obtain ⟨a, _, hau⟩ := exists_of_mem_mapM hloads hload
        rw [(accessUse_eq_ok hau).2.2.2] at huwrite
        cases huwrite
      · rw [mem_singleton.mp hlast, htile]
    · rintro rfl
      exact ⟨dst, by simp, htile.symm, by simp [hwrite]⟩

/-- The uses that an operation makes of its tiles, with the outcomes they are
read off. -/
inductive OpDemands (k : Kernel) (target : Target) (id : OpId) :
    TileOp → List TileUse → Prop where
  | alloc (tile : TileId) : OpDemands k target id (.alloc tile) []
  | copy {src dst : Region} {ts td : Tile} (width : Option Nat)
      (hsrc : k.tile src.tile = .ok ts) (hdst : k.tile dst.tile = .ok td) :
      OpDemands k target id (.copy src dst width)
        [⟨id, src.tile, true, false,
          copyDemand target ts width (dst.extents.getLast?.getD 1)⟩,
          ⟨id, dst.tile, false, true,
            copyDemand target td width (dst.extents.getLast?.getD 1)⟩]
  | fill {tile : TileId} {t : Tile} (value : Float) (h : k.tile tile = .ok t) :
      OpDemands k target id (.fill tile value)
        [⟨id, tile, false, true, copyDemand target t none t.shape.cols⟩]
  | parallel {vars : List String} {body : List Assign}
      {perAssign : List (List TileUse)} (extents : Shape)
      (h : body.mapM (assignUses k id (vars.getLast?.getD "")) =
        .ok perAssign) :
      OpDemands k target id (.parallel vars extents body) perAssign.flatten
  | bound {a b c : TileId} {transposeA transposeB : Bool}
      {binding : GemmBinding} (clear : Bool)
      (h : k.bindGemm a b c transposeA transposeB target = .ok (some binding)) :
      OpDemands k target id (.gemm a b c transposeA transposeB clear)
        [⟨id, a, true, false,
          .pattern (.operand (binding.operandLayout .a transposeA))⟩,
          ⟨id, b, true, false,
            .pattern (.operand (binding.operandLayout .b transposeB))⟩,
          ⟨id, c, !clear, true,
            .pattern (.operand (binding.operandLayout .c false))⟩]
  | unbound {a b c : TileId} {transposeA transposeB : Bool} {da db dc : Demand}
      (clear : Bool)
      (h : k.bindGemm a b c transposeA transposeB target = .ok none)
      (ha : tileDemand k a (.rowMajor 1) = .ok da)
      (hb : tileDemand k b (.rowMajor 1) = .ok db)
      (hc : tileDemand k c (.rowMajor 1) = .ok dc) :
      OpDemands k target id (.gemm a b c transposeA transposeB clear)
        [⟨id, a, true, false, da⟩, ⟨id, b, true, false, db⟩,
          ⟨id, c, !clear, true, dc⟩]
  | reduce {src dst : TileId} {axis next : Nat} {t : Tile} {ds dd : Demand}
      (kind : ReduceKind) (clear : Bool) (hsrc : k.tile src = .ok t)
      (hnext : Checked.word64 (axis + 1) = .ok next) (hds : tileDemand k src
        (if next = t.shape.length then .columnMajor else .rowMajor 1) = .ok ds)
      (hdd : tileDemand k dst (.rowMajor 1) = .ok dd) :
      OpDemands k target id (.reduce src dst axis kind clear)
        [⟨id, src, true, false, ds⟩, ⟨id, dst, !clear, true, dd⟩]
  | relayout (src dst : TileId) :
      OpDemands k target id (.relayout src dst)
        [⟨id, src, true, false, .free⟩, ⟨id, dst, false, true, .free⟩]

theorem opDemands_of_opUses
    {uses : List TileUse} (h : opUses k target id op = .ok uses) :
    OpDemands k target id op uses := by
  cases op with
  | alloc tile =>
      cases h
      exact .alloc tile
  | copy src dst width =>
      dsimp only [opUses] at h
      obtain ⟨ts, hts, h⟩ := bind_eq_ok h
      obtain ⟨td, htd, h⟩ := bind_eq_ok h
      cases h
      exact .copy width (lift_eq_ok_iff.mp hts) (lift_eq_ok_iff.mp htd)
  | fill tile value =>
      dsimp only [opUses] at h
      obtain ⟨t, ht, h⟩ := bind_eq_ok h
      cases h
      exact .fill value (lift_eq_ok_iff.mp ht)
  | parallel vars extents body =>
      dsimp only [opUses] at h
      obtain ⟨perAssign, hassign, h⟩ := bind_eq_ok h
      cases h
      exact .parallel extents (lift_eq_ok_iff.mp hassign)
  | gemm a b c transposeA transposeB clear =>
      dsimp only [opUses] at h
      obtain ⟨bound, hbound, h⟩ := bind_eq_ok h
      rw [within_eq_ok_iff] at hbound
      cases bound with
      | some binding =>
          cases h
          exact .bound clear hbound
      | none =>
          obtain ⟨da, hda, h⟩ := bind_eq_ok h
          obtain ⟨db, hdb, h⟩ := bind_eq_ok h
          obtain ⟨dc, hdc, h⟩ := bind_eq_ok h
          cases h
          exact .unbound clear hbound (lift_eq_ok_iff.mp hda)
            (lift_eq_ok_iff.mp hdb) (lift_eq_ok_iff.mp hdc)
  | reduce src dst axis kind clear =>
      dsimp only [opUses] at h
      obtain ⟨t, ht, h⟩ := bind_eq_ok h
      obtain ⟨next, hnext, h⟩ := bind_eq_ok h
      obtain ⟨ds, hds, h⟩ := bind_eq_ok h
      obtain ⟨dd, hdd, h⟩ := bind_eq_ok h
      cases h
      exact .reduce kind clear (lift_eq_ok_iff.mp ht) (lift_eq_ok_iff.mp hnext)
        (lift_eq_ok_iff.mp hds) (lift_eq_ok_iff.mp hdd)
  | relayout src dst =>
      cases h
      exact .relayout src dst

theorem OpDemands.opUses_eq_ok
    {uses : List TileUse} (h : OpDemands k target id op uses) :
    opUses k target id op = .ok uses := by
  cases h with
  | alloc tile => rfl
  | copy width hsrc hdst =>
      simp only [opUses, hsrc, hdst, lift_ok, ok_bind]
      rfl
  | fill value h =>
      simp only [opUses, h, lift_ok, ok_bind]
      rfl
  | parallel extents h =>
      simp only [opUses, h, lift_ok, ok_bind]
      rfl
  | bound clear h =>
      simp only [opUses, within_eq_ok_iff.mpr h, ok_bind]
      rfl
  | unbound clear h ha hb hc =>
      simp only [opUses, within_eq_ok_iff.mpr h, ha, hb, hc, lift_ok, ok_bind]
      rfl
  | reduce kind clear hsrc hnext hds hdd =>
      simp only [opUses, hsrc, hnext, hds, hdd, lift_ok, ok_bind]
      rfl
  | relayout src dst => rfl

theorem usesOf_of_opUses
    {uses : List TileUse} (h : opUses k target id op = .ok uses) :
    UsesOf id op uses := by
  cases opDemands_of_opUses h with
  | alloc tile | copy width hsrc hdst | fill value h | relayout src dst =>
      exact ⟨by simp, by simp, by simp [TileOp.reads], by simp [TileOp.writes]⟩
  | bound clear h | unbound clear h ha hb hc
  | reduce kind clear hsrc hnext hds hdd =>
      refine ⟨by simp, by simp, ?_, by simp [TileOp.writes]⟩
      cases clear <;> simp [TileOp.reads]
  | @parallel vars body perAssign extents hassign =>
      have hparts : ∀ u ∈ perAssign.flatten,
          u.op = id ∧ (u.read = true ∨ u.write = true) := by
        intro u hu
        obtain ⟨part, hpart, hin⟩ := mem_flatten.mp hu
        obtain ⟨assign, _, huses⟩ := exists_of_mem_mapM hassign hpart
        exact (assignUses_eq_ok huses).1 u hin
      refine ⟨fun u hu => (hparts u hu).1, fun u hu => (hparts u hu).2, ?_, ?_⟩
      · intro t
        simp only [TileOp.reads, mem_flatMap, mem_map]
        exact exists_mem_flatten_iff hassign fun _ _ huses =>
          (assignUses_eq_ok huses).2.1 t
      · intro t
        simp only [TileOp.writes, mem_map]
        exact exists_mem_flatten_iff hassign fun _ _ huses =>
          (assignUses_eq_ok huses).2.2 t

theorem UsesOf.tile_mem
    {id : OpId} {op : TileOp} {uses : List TileUse} (h : UsesOf id op uses)
    {u : TileUse} (hu : u ∈ uses) : u.tile ∈ op.tiles := by
  rcases h.touches u hu with hread | hwrite
  · exact mem_append_left _ ((h.reads u.tile).mp ⟨u, hu, rfl, hread⟩)
  · exact mem_append_right _ ((h.writes u.tile).mp ⟨u, hu, rfl, hwrite⟩)

theorem exists_uses_of_step
    {all : List TileUse} (hdistinct : (k.ops.map Op.id).Nodup)
    (h : uses k target = .ok all) {s : Step} (hs : Op.step s ∈ k.ops) :
    ∃ own, opUses k target s.id s.op = .ok own ∧ ∀ u, u ∈ own ↔
      u ∈ all ∧ u.op = s.id := by
  unfold uses at h
  obtain ⟨perOp, hperOp, h⟩ := bind_eq_ok h
  cases h
  obtain ⟨own, hown, huses⟩ := exists_of_mapM_eq_ok hperOp hs
  have hspec := usesOf_of_opUses huses
  refine ⟨own, huses, ?_⟩
  intro u
  constructor
  · intro hu
    exact ⟨mem_flatten.mpr ⟨own, hown, hu⟩, hspec.op_eq u hu⟩
  · rintro ⟨hu, hop⟩
    obtain ⟨part, hpart, hin⟩ := mem_flatten.mp hu
    obtain ⟨op, hmem, hpartOf⟩ := exists_of_mem_mapM hperOp hpart
    cases op with
    | step other =>
        have hother := (usesOf_of_opUses hpartOf).op_eq u hin
        have heq : Op.step other = Op.step s :=
          inj_on_of_nodup_map hdistinct hmem hs (hother.symm.trans hop)
        cases heq
        rw [huses] at hpartOf
        cases hpartOf
        exact hin
    | loop head body =>
        cases hpartOf
        cases hin

/-! ## Plans -/

def twinOps (twins : List Twin) : List OpId := twins.flatMap (·.ops)

theorem extend_eq_ok
    {g g' : Grouping} {op : OpId × List AccessPattern}
    (h : g.extend req target op = .ok g') :
    (g'.members ++ g'.left.map (·.1)).Perm
      (g.members ++ g.left.map (·.1) ++ [op.1]) := by
  simp only [Grouping.extend] at h
  split at h
  · cases h
    rw [append_assoc, append_assoc]
    exact Perm.append_left _ perm_append_comm
  · split at h
    · cases h
    · cases h
      simp
  · cases h

theorem groupOps_eq_ok
    {fuel : Nat} {ops : List (OpId × List AccessPattern)}
    (h : groupOps req target fuel ops = .ok twins) :
    (twinOps twins).Subperm (ops.map (·.1)) := by
  induction fuel generalizing ops twins with
  | zero =>
      cases ops with
      | nil =>
          cases h
          exact nil_subperm
      | cons op rest =>
          cases h
          exact nil_subperm
  | succ fuel ih =>
      cases ops with
      | nil =>
          cases h
          exact nil_subperm
      | cons first others =>
          simp only [groupOps] at h
          obtain ⟨g, hg, h⟩ := bind_eq_ok h
          obtain ⟨rest, hrest, h⟩ := bind_eq_ok h
          have hfold :
              ∀ (ops : List (OpId × List AccessPattern)) (g g' : Grouping),
                ops.foldlM (Grouping.extend req target) g = .ok g' →
              (g'.members ++ g'.left.map (·.1)).Perm
                (g.members ++ g.left.map (·.1) ++ ops.map (·.1)) := by
            intro ops
            induction ops with
            | nil =>
                intro g g' hfold
                cases hfold
                simp
            | cons op ops ihops =>
                intro g g' hfold
                rw [foldlM_cons] at hfold
                obtain ⟨mid, hmid, hfold⟩ := bind_eq_ok hfold
                have hstep := (extend_eq_ok hmid).append_right (ops.map (·.1))
                refine (ihops mid g' hfold).trans (hstep.trans ?_)
                simp
          have hperm := hfold _ _ _ hg
          simp only [map_nil, nil_append] at hperm
          have hsub : (g.members ++ twinOps rest).Subperm
              (g.members ++ g.left.map (·.1)) :=
            (Subperm.refl _).append (ih hrest)
          have hall := hsub.trans hperm.subperm
          cases hlayout : g.layout with
          | some layout =>
              simp only [hlayout] at h
              cases h
              exact hall
          | none =>
              simp only [hlayout] at h
              cases h
              exact (sublist_append_right _ _).subperm.trans hall

theorem planShared_eq_ok
    {uses : List TileUse} (h : planShared req uses target = .ok plan) :
    (twinOps plan.twins).Nodup := by
  simp only [planShared] at h
  split at h
  · cases h
    exact nodup_nil
  · obtain ⟨twins, htwins, h⟩ := bind_eq_ok h
    have hops : ((patternsByOp uses).map (·.1)).Nodup := by
      unfold patternsByOp
      simp only [List.map_map, Function.comp_def, map_id']
      exact nodup_eraseDups _
    have hnodup := nodup_of_subperm (groupOps_eq_ok htwins) hops
    cases twins with
    | nil =>
        cases h
        exact nodup_nil
    | cons first twins =>
        cases h
        exact (nodup_append.mp hnodup).2.1
  · cases h

theorem nodup_addTwin
    {layout : Layout} {op : OpId} (h : ∀ t ∈ twins, t.ops.Nodup) :
    ∀ t ∈ addTwin layout op twins, t.ops.Nodup := by
  induction twins with
  | nil =>
      intro t ht
      rw [mem_singleton.mp ht]
      exact nodup_singleton op
  | cons first rest ih =>
      have hfirst := h first mem_cons_self
      have hrest : ∀ t ∈ rest, t.ops.Nodup :=
        fun t ht => h t (mem_cons_of_mem first ht)
      intro t ht
      unfold addTwin at ht
      split at ht
      · rcases mem_cons.mp ht with rfl | hin
        · split
          · exact hfirst
          · rename_i hnew
            have hnew : op ∉ first.ops := by simpa using hnew
            apply Nodup.append hfirst (nodup_singleton op)
            intro other hother hsingle
            rw [mem_singleton.mp hsingle] at hother
            exact hnew hother
        · exact hrest t hin
      · rcases mem_cons.mp ht with rfl | hin
        · exact hfirst
        · exact ih hrest t hin

theorem nodup_firstGroups {seen : List OpId} (h : ∀ t ∈ twins, t.ops.Nodup) :
    (twinOps (firstGroups seen twins)).Nodup ∧
      ∀ op ∈ twinOps (firstGroups seen twins), op ∉ seen := by
  induction twins generalizing seen with
  | nil => exact ⟨nodup_nil, by simp [twinOps, firstGroups]⟩
  | cons first rest ih =>
      obtain ⟨hnodup, hfresh⟩ :=
        @ih (seen ++ first.ops.filter (!seen.contains ·)) fun t ht =>
          h t (mem_cons_of_mem first ht)
      have hkept : ∀ op ∈ first.ops.filter (!seen.contains ·), op ∉ seen := by
        intro op hop
        simpa using (mem_filter.mp hop).2
      have hrest : ∀ op ∈ twinOps
          (firstGroups (seen ++ first.ops.filter (!seen.contains ·)) rest),
          op ∉ seen :=
        fun op hop hin => hfresh op hop (mem_append_left _ hin)
      simp only [firstGroups]
      split
      · exact ⟨hnodup, hrest⟩
      · simp only [twinOps, flatMap_cons] at hnodup hfresh hrest ⊢
        refine ⟨?_, ?_⟩
        · apply Nodup.append ((h first mem_cons_self).filter _) hnodup
          intro op hop hin
          exact hfresh op hin (mem_append_right _ hop)
        · intro op hop
          rcases mem_append.mp hop with hin | hin
          · exact hkept op hin
          · exact hrest op hin

theorem planFragment_eq_ok
    {layout : Layout} {uses : List TileUse}
    (h : planFragment req layout uses target = .ok plan) :
    (twinOps plan.twins).Nodup := by
  unfold planFragment at h
  obtain ⟨run, _, h⟩ := bind_eq_ok h
  obtain ⟨twins, htwins, h⟩ := bind_eq_ok h
  cases h
  have hgroups : ∀ t ∈ twins, t.ops.Nodup := by
    apply foldlM_induct (I := fun _ twins => ∀ t ∈ twins, t.ops.Nodup) _
      (by simp) htwins
    intro _ u groups groups' hgroups hstep
    obtain ⟨wanted, _, hstep⟩ := bind_eq_ok hstep
    cases wanted with
    | none =>
        cases hstep
        exact hgroups
    | some wanted =>
        cases hstep
        exact nodup_addTwin hgroups
  exact (nodup_firstGroups hgroups).1

theorem planTile_eq_ok
    {t : Tile} {uses : List TileUse} (h : planTile k t uses target = .ok plan) :
    (twinOps plan.twins).Nodup ∧ (t.scope = .global → plan.twins = []) := by
  unfold planTile at h
  split at h
  · split at h
    · cases h
      exact ⟨nodup_nil, fun _ => rfl⟩
    · cases h
  · have h := within_eq_ok_iff.mp h
    unfold planUsed at h
    obtain ⟨threads, _, h⟩ := bind_eq_ok h
    cases hscope : t.scope with
    | global =>
        cases hdeclared : t.declared with
        | some declared =>
            simp only [hscope, hdeclared] at h
            split at h
            · cases h
            · cases h
              exact ⟨nodup_nil, fun _ => rfl⟩
        | none =>
            simp only [hscope, hdeclared] at h
            cases h
            exact ⟨nodup_nil, fun _ => rfl⟩
    | shared =>
        refine ⟨?_, fun hglobal => by cases hglobal⟩
        cases hdeclared : t.declared with
        | some declared =>
            simp only [hscope, hdeclared] at h
            obtain ⟨_, _, h⟩ := bind_eq_ok h
            obtain ⟨_, _, h⟩ := bind_eq_ok h
            cases h
            exact nodup_nil
        | none =>
            simp only [hscope, hdeclared] at h
            exact planShared_eq_ok h
    | fragment =>
        refine ⟨?_, fun hglobal => by cases hglobal⟩
        cases hdeclared : t.declared with
        | some declared =>
            simp only [hscope, hdeclared] at h
            obtain ⟨_, _, h⟩ := bind_eq_ok h
            exact planFragment_eq_ok h
        | none =>
            simp only [hscope, hdeclared] at h
            obtain ⟨_, _, h⟩ := bind_eq_ok h
            exact planFragment_eq_ok h

/-! ## The table of redirections -/

structure PlansOf
    (k : Kernel) (uses : List TileUse) (target : Target)
    (planned : List PlannedTile) : Prop where
  tiles : planned.map (·.tile) = k.tiles.toList
  ids : planned.map (·.id.index) = range k.tiles.size
  plan : ∀ p ∈ planned, p.uses = uses.filter (·.tile == p.id) ∧
    planTile k p.tile p.uses target = .ok p.plan

section

variable {uses : List TileUse} {entries : List (Tile × Nat)}

/-- Apart from the size of the table, tiles are planned independently. -/
theorem planFrom_eq_ok (h : planFrom k uses target size entries = .ok planned) :
    entries.mapM (planEntry k uses target) = .ok planned := by
  induction entries generalizing size planned with
  | nil => exact h
  | cons entry rest ih =>
      obtain ⟨p, hp, h⟩ := bind_eq_ok h
      obtain ⟨grown, _, h⟩ := bind_eq_ok h
      obtain ⟨others, hothers, h⟩ := bind_eq_ok h
      rw [mapM_cons, hp, ok_bind, ih hothers]
      exact h

theorem planFrom_meets
    {E : Stop InferenceError → Prop} {P : PlannedTile → Prop}
    (hfull : E (.fault .overflow))
    (h : ∀ entry ∈ entries, Meets E P (planEntry k uses target entry)) :
    Meets E (fun planned => ∀ p ∈ planned, P p)
      (planFrom k uses target size entries) := by
  induction entries generalizing size with
  | nil => exact forall_mem_nil P
  | cons entry rest ih =>
      apply (h entry mem_cons_self).bind
      intro p _ hp
      rcases Kernel.grownTable_settles size p.plan.twins.length with
        hgrown | ⟨grown, hgrown, _⟩
      · rw [hgrown, lift_error]
        exact hfull
      · rw [hgrown, lift_ok, ok_bind]
        apply (ih fun entry he => h entry (mem_cons_of_mem _ he)).bind
        intro others _ hothers
        exact forall_mem_cons.mpr ⟨hp, hothers⟩

theorem plansOf_of_planTiles (h : planTiles k uses target = .ok planned) :
    PlansOf k uses target planned := by
  replace h := planFrom_eq_ok h
  have hkeeps : planned.map (fun p => (p.tile, p.id.index)) =
      k.tiles.toList.zipIdx := by
    apply map_eq_of_mapM_eq_ok _ h
    rintro ⟨t, i⟩ _ p hp
    obtain ⟨plan, _, hp⟩ := bind_eq_ok hp
    cases hp
    rfl
  refine ⟨?_, ?_, ?_⟩
  · have htiles := congrArg (List.map Prod.fst) hkeeps
    rw [List.map_map, zipIdx_map_fst] at htiles
    exact htiles
  · have hids := congrArg (List.map Prod.snd) hkeeps
    rw [List.map_map, zipIdx_map_snd] at hids
    rw [range_eq_range', ← Array.length_toList]
    exact hids
  · intro p hp
    obtain ⟨⟨t, i⟩, _, hplanned⟩ := exists_of_mem_mapM h hp
    obtain ⟨plan, hplan, hplanned⟩ := bind_eq_ok hplanned
    cases hplanned
    exact ⟨rfl, hplan⟩

end

theorem mem_redirects
    {p : PlannedTile} {first : Nat} (h : r ∈ p.redirects first) :
    r.tile = p.id ∧ first ≤ r.twin.index ∧
      r.twin.index < first + p.plan.twins.length ∧
      r.read = (p.uses.filter (·.op == r.op)).any (·.read) ∧
      r.write = (p.uses.filter (·.op == r.op)).any (·.write) := by
  unfold PlannedTile.redirects at h
  obtain ⟨⟨twin, n⟩, hn, h⟩ := mem_flatMap.mp h
  obtain ⟨op, _, rfl⟩ := mem_map.mp h
  have hlt : n < p.plan.twins.length := by
    have hrange := (mem_zipIdx hn).2.1
    omega
  exact ⟨rfl, Nat.le_add_right _ _, Nat.add_lt_add_left hlt _, rfl, rfl⟩

def Inference.PlannedTile.twinTile
    (p : PlannedTile) (name : String) (twin : Twin) : Tile :=
  { Tile.plain name p.tile.shape p.tile.type p.tile.scope with
    layout := some twin.layout }

theorem exists_twin_of_mem_redirects
    {p : PlannedTile} {first : Nat} (h : r ∈ p.redirects first) :
    ∃ twin ∈ p.plan.twins, r.op ∈ twin.ops ∧
      ∃ name, p.twinTiles[r.twin.index - first]? =
        some (p.twinTile name twin) := by
  unfold PlannedTile.redirects at h
  obtain ⟨⟨twin, n⟩, hn, h⟩ := mem_flatMap.mp h
  obtain ⟨op, hop, rfl⟩ := mem_map.mp h
  have hentry : p.plan.twins[n]? = some twin := mem_zipIdx_iff_getElem?.mp hn
  refine ⟨twin, mem_of_getElem? hentry, hop, s!"{p.tile.name}_relayout{n}", ?_⟩
  unfold PlannedTile.twinTiles
  simp [getElem?_zipIdx, hentry, PlannedTile.twinTile]

theorem map_op_redirects (p : PlannedTile) (first : Nat) :
    (p.redirects first).map (·.op) = twinOps p.plan.twins := by
  unfold PlannedTile.redirects twinOps
  rw [map_flatMap]
  simp only [List.map_map, Function.comp_def, map_id']
  have hfst : (p.plan.twins.zipIdx.map Prod.fst).flatMap (·.ops) =
      p.plan.twins.flatMap (·.ops) := by rw [zipIdx_map_fst]
  rw [← hfst, flatMap_map]

theorem le_twin_of_mem_allRedirects (h : r ∈ allRedirects size planned) :
    size ≤ r.twin.index := by
  induction planned generalizing size with
  | nil => cases h
  | cons p rest ih =>
      rcases mem_append.mp h with hin | hin
      · exact (mem_redirects hin).2.1
      · have hle := ih hin
        omega

theorem exists_of_mem_allRedirects (h : r ∈ allRedirects size planned) :
    ∃ p ∈ planned, r.tile = p.id ∧
      r.read = (p.uses.filter (·.op == r.op)).any (·.read) ∧
      r.write = (p.uses.filter (·.op == r.op)).any (·.write) ∧
      ∃ twin ∈ p.plan.twins, r.op ∈ twin.ops ∧ ∃ name,
        (planned.flatMap (·.twinTiles))[r.twin.index - size]? =
          some (p.twinTile name twin) := by
  induction planned generalizing size with
  | nil => cases h
  | cons p rest ih =>
      have hlength : p.twinTiles.length = p.plan.twins.length := by
        simp [PlannedTile.twinTiles]
      rcases mem_append.mp h with hin | hin
      · obtain ⟨htile, hlow, hhigh, hread, hwrite⟩ := mem_redirects hin
        obtain ⟨twin, htwin, hop, name, hentry⟩ :=
          exists_twin_of_mem_redirects hin
        refine ⟨p, mem_cons_self, htile, hread, hwrite, twin, htwin, hop,
          name, ?_⟩
        rw [flatMap_cons, getElem?_append_left (by omega), hentry]
      · obtain ⟨p', hp', htile, hread, hwrite, twin, htwin, hop, name,
            hentry⟩ := ih hin
        have hlow := le_twin_of_mem_allRedirects hin
        refine ⟨p', mem_cons_of_mem p hp', htile, hread, hwrite, twin, htwin,
          hop, name, ?_⟩
        rw [flatMap_cons, getElem?_append_right (by omega), hlength,
          Nat.sub_sub]
        exact hentry

/-- The tiles that the twins of a table stand for, in the order of the twins. -/
def originals (planned : List PlannedTile) : List TileId :=
  planned.flatMap fun p => replicate p.plan.twins.length p.id

theorem originals_twin (h : r ∈ allRedirects size planned) :
    (originals planned)[r.twin.index - size]? = some r.tile := by
  induction planned generalizing size with
  | nil => cases h
  | cons p rest ih =>
      unfold originals
      rw [flatMap_cons]
      rcases mem_append.mp h with hin | hin
      · have hspec := mem_redirects hin
        have hlt : r.twin.index - size < p.plan.twins.length := by omega
        rw [getElem?_append_left (by simpa using hlt),
          getElem?_replicate_of_lt hlt, hspec.1]
      · have hlow := le_twin_of_mem_allRedirects hin
        rw [getElem?_append_right (by simp; omega), length_replicate,
          Nat.sub_sub]
        exact ih hin

theorem tile_eq_of_twin_eq
    {r' : Redirect} (h : r ∈ allRedirects size planned)
    (h' : r' ∈ allRedirects size planned) (htwin : r.twin = r'.twin) :
    r.tile = r'.tile := by
  have hfirst := originals_twin h
  rw [htwin, originals_twin h'] at hfirst
  exact (Option.some.inj hfirst).symm

/-- Redirections of one operation are related as the tiles of the table are. -/
theorem allRedirects_pairwise
    {R : TileId → TileId → Prop} (hids : (planned.map (·.id)).Pairwise R)
    (htwins : ∀ p ∈ planned, (twinOps p.plan.twins).Nodup) :
    (allRedirects size planned).Pairwise fun r r' => r.op = r'.op →
      R r.tile r'.tile := by
  induction planned generalizing size with
  | nil => exact Pairwise.nil
  | cons p rest ih =>
      rw [map_cons, pairwise_cons] at hids
      apply pairwise_append.mpr
      refine ⟨?_, ih hids.2 fun q hq => htwins q (mem_cons_of_mem p hq), ?_⟩
      · have hnodup := htwins p mem_cons_self
        rw [← map_op_redirects p size, Nodup, pairwise_map] at hnodup
        exact hnodup.imp fun hne heq => (hne heq).elim
      · intro r hr r' hr' _
        obtain ⟨q, hq, hq', _⟩ := exists_of_mem_allRedirects hr'
        rw [(mem_redirects hr).1, hq']
        exact hids.1 _ (mem_map_of_mem hq)

end TileProgram
