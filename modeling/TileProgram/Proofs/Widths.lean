import TileProgram.Proofs.Affine
import TileProgram.Proofs.Inference.Seen
import TileProgram.Proofs.Layout.Widths
import TileProgram.Proofs.Selection

/-!
# Widths of accesses

A vector access moves a group of consecutive columns at once, and a bulk copy
moves whole chunks.  Selection compares the width with the shortest run of the
layout, but not with the column at which a window or a loop starts.  So groups
are in consecutive slots under the layouts that admit the width from this column
on, and they may straddle two runs under others.
-/

namespace TileProgram

open Checked Inference Kernel List

variable {walk : Walk} {l : Layout} {env : Bindings} {start z : Int}
  {inner w bytes : Nat} {layouts : List Layout} {engine : BulkEngine}
  {leading : TileId} {strategy : Strategy} {src dst : Region}
  {width : Option Nat}

/-! ## Walks -/

/-- Columns of a tile that an operation passes in its innermost dimension. -/
structure Walk where
  tile : TileId
  /-- Column of a position under a binding of the variables. -/
  column : Bindings → Nat → Checked Int

def Region.walk? (r : Region) : Option Walk :=
  r.offsets.getLast?.map fun last =>
    ⟨r.tile, fun env j => do Checked.int64 (j + (← last.eval env))⟩

def Access.walk? (inner : String) (a : Access) : Option Walk :=
  a.indices.getLast?.map fun last =>
    ⟨a.tile, fun env j => last.eval (env.bind inner j)⟩

def Walk.whole (tile : TileId) : Walk := ⟨tile, fun _ j => .ok j⟩

/-- The walks of an operation; matrix products have none. -/
def TileOp.walks : TileOp → List Walk
  | .copy src dst _ => [src, dst].filterMap Region.walk?
  | .fill tile _ => [Walk.whole tile]
  | .parallel vars _ body =>
      (body.flatMap fun assign => assign.dst :: assign.value.loads).filterMap
        (Access.walk? (vars.getLast?.getD ""))
  | .reduce src _ _ _ _ => [Walk.whole src]
  | .relayout src dst => [Walk.whole src, Walk.whole dst]
  | .alloc _ | .gemm .. => []

namespace Walk

/-- Every position is one column after the position before. -/
def Steps (walk : Walk) : Prop :=
  ∀ env j x y, walk.column env 0 = .ok x → walk.column env j = .ok y → y = x + j

/-- Whole groups of positions, counted from the first one, occupy consecutive
slots in every row when they are inside the tile. -/
def Grouped (walk : Walk) (l : Layout) (env : Bindings) (width : Nat) : Prop :=
  ∀ r < l.shape.dropLast.prod, ∀ (g : Nat) (c : Nat → Nat),
    (∀ i < width,
      walk.column env (g * width + i) = .ok (c i) ∧ c i < l.shape.cols) →
    ∃ first : Slot, ∀ i < width, l.slotAt r (c i) = .ok (first.advance i)

theorem Steps.grouped
    (h : walk.Steps) {width : Nat} (hwidth : 0 < width)
    (hstart : walk.column env 0 = .ok start)
    (hgroups : ∀ r < l.shape.dropLast.prod, ∀ c : Nat, (width : Int) ∣
      c - start → c + width ≤ l.shape.cols → l.Consecutive r c width) :
    walk.Grouped l env width := by
  intro r hr g c hc
  have hcolumn : ∀ i < width, (c i : Int) = start + (g * width + i : Nat) :=
    fun i hi =>
    h env (g * width + i) start (c i) hstart (hc i hi).1
  have hfirst := hcolumn 0 hwidth
  have hnext : ∀ i < width, c i = c 0 + i := by
    intro i hi
    have hi := hcolumn i hi
    omega
  have hdvd : (width : Int) ∣ c 0 - start := by
    refine ⟨g, ?_⟩
    rw [hfirst]
    push_cast
    ring
  have hend : c 0 + width ≤ l.shape.cols := by
    have hlast := (hc (width - 1) (by omega)).2
    rw [hnext (width - 1) (by omega)] at hlast
    omega
  rcases hgroups r hr (c 0) hdvd hend with ⟨first, hslots⟩
  refine ⟨first, ?_⟩
  intro i hi
  rw [hnext i hi]
  exact hslots i hi

theorem steps_whole (tile : TileId) : (whole tile).Steps := by
  intro env j x y hx hy
  cases hx
  cases hy
  simp

end Walk

theorem Region.steps_of_walk? {r : Region} (h : r.walk? = some walk) :
    walk.tile = r.tile ∧ walk.Steps := by
  rcases Option.map_eq_some_iff.mp h with ⟨last, _, rfl⟩
  refine ⟨rfl, ?_⟩
  intro env j x y hx hy
  rcases bind_eq_ok hx with ⟨b, hb, hx⟩
  rcases bind_eq_ok hy with ⟨b', hb', hy⟩
  rw [hb] at hb'
  cases hb'
  have hx := (int64_settles _).of_eq_ok hx
  have hy := (int64_settles _).of_eq_ok hy
  omega

/-! ## Unit stride -/

namespace Affine

theorem eval_bind_eq_ok
    {a : Affine} {name : String} {j x y : Int}
    (hunit : a.coefficient name = .ok 1) (hx : a.eval (env.bind name 0) = .ok x)
    (hy : a.eval (env.bind name j) = .ok y) : y = x + j := by
  have hone := (a.coefficient_settles name).of_eq_ok hunit
  rw [(a.eval_settles_exactValue _).of_eq_ok hx,
    (a.eval_settles_exactValue _).of_eq_ok hy, exactValue_bind, exactValue_bind,
    ← hone]
  ring

end Affine

theorem Access.steps_of_walk?
    {inner : String} {a : Access}
    (hunit : Selection.unitStride inner a.indices = .ok true)
    (h : a.walk? inner = some walk) :
    walk.tile = a.tile ∧ walk.Steps := by
  rcases Option.map_eq_some_iff.mp h with ⟨last, hlast, rfl⟩
  refine ⟨rfl, ?_⟩
  have hone : last.coefficient inner = .ok 1 := by
    unfold Selection.unitStride at hunit
    rw [hlast] at hunit
    rcases bind_eq_ok hunit with ⟨c, hc, hunit⟩
    split at hunit
    · cases hunit
    · next hone => rw [hc, not_not.mp hone]
  intro env j x y hx hy
  exact Affine.eval_bind_eq_ok hone hx hy

/-! ## Selected widths -/

namespace Selection

def Divides (w : Nat) (l : Layout) : Prop :=
  ∃ m, l.contiguousRun = .ok m ∧ w ∣ m

theorem divides_of_fits
    (h : fits inner layouts w = .ok true) (hl : l ∈ layouts) : Divides w l := by
  unfold fits at h
  split at h
  · cases h
  · rcases bind_eq_ok (all_eq_ok h l hl) with ⟨m, hm, hdvd⟩
    simp only [pure, Except.pure, Except.ok.injEq, beq_iff_eq] at hdvd
    exact ⟨m, hm, Nat.dvd_of_mod_eq_zero hdvd⟩

theorem fits_of_halveToFit
    {w' : Nat} (h : halveToFit inner layouts w = .ok w') (hw' : 1 < w') :
    fits inner layouts w' = .ok true := by
  induction w using Nat.strongRecOn with
  | ind w ih =>
      rw [halveToFit] at h
      split at h
      · next hsmall =>
          cases h
          omega
      · next hlarge =>
          rcases bind_eq_ok h with ⟨good, hgood, h⟩
          cases good with
          | true =>
              cases h
              exact hgood
          | false => exact ih (w / 2) (by omega) h

theorem divides_of_vector
    {target : Target} {leading : ElementType}
    (h : vector target leading inner layouts = .ok (.vector w)) :
    2 ≤ w ∧ ∀ l ∈ layouts, Divides w l := by
  rcases bind_eq_ok h with ⟨width, hwidth, h⟩
  simp only [pure, Except.pure, Except.ok.injEq] at h
  split at h
  · next hlarge =>
      cases h
      exact ⟨hlarge,
        fun l hl => divides_of_fits (fits_of_halveToFit hwidth hlarge) hl⟩
  · cases h

theorem vector_ne_bulk {target : Target} {leading : ElementType} :
    vector target leading inner layouts ≠ .ok (.bulk engine bytes) := by
  intro h
  rcases bind_eq_ok h with ⟨width, _, h⟩
  simp only [pure, Except.pure, Except.ok.injEq] at h
  split at h <;> cases h

section

variable {k : Kernel} {target : Target} {op : OpId}

theorem vector_of_vectorFor
    (h : vectorFor k target leading inner layouts = .ok strategy) :
    ∃ type, vector target type inner layouts = .ok strategy := by
  rcases bind_eq_ok h with ⟨t, _, h⟩
  exact ⟨t.type, lift_eq_ok_iff.mp h⟩

theorem pinned_eq_ok
    {width : Nat} {src dst : TileId} {srcLayout dstLayout : Layout}
    (h : pinned k op width inner src dst srcLayout dstLayout = .ok strategy) :
    (strategy = .scalar ∨ (strategy = .vector width ∧ 2 ≤ width)) ∧
      Divides width srcLayout ∧ Divides width dstLayout := by
  unfold pinned at h
  simp only at h
  split at h
  · rcases bind_eq_ok h with ⟨_, hfail, _⟩
    exact (mismatch_ne_ok _ _ _ hfail).elim
  · next hzero =>
      split at h
      · rcases bind_eq_ok h with ⟨_, hfail, _⟩
        exact (mismatch_ne_ok _ _ _ hfail).elim
      · rcases bind_eq_ok h with ⟨found, hfound, h⟩
        cases found with
        | some side =>
            rcases bind_eq_ok h with ⟨run, _, h⟩
            rcases bind_eq_ok h with ⟨_, hfail, _⟩
            exact (mismatch_ne_ok _ _ _ hfail).elim
        | none =>
            have hside : ∀ side ∈ [(src, srcLayout), (dst, dstLayout)],
                Divides width side.2 := by
              intro side hin
              have hnarrow :=
                Checked.find?_eq_none (lift_eq_ok_iff.mp hfound) _ hin
              rcases bind_eq_ok hnarrow with ⟨m, hm, hdvd⟩
              simp only [pure, Except.pure, Except.ok.injEq,
                bne_eq_false_iff_eq] at hdvd
              exact ⟨m, hm, Nat.dvd_of_mod_eq_zero hdvd⟩
            refine ⟨?_, hside (src, srcLayout) (by simp),
              hside (dst, dstLayout) (by simp)⟩
            simp only [pure, Except.pure, Except.ok.injEq] at h
            split at h
            · exact Or.inl h.symm
            · exact Or.inr ⟨h.symm, by omega⟩

/-- What a bulk copy asks of its side in shared memory. -/
structure BulkSide (bytes : Nat) (t : Tile) (l : Layout) : Prop where
  scope : t.scope = .shared
  rows : t.shape.cols * bytes % Swizzle.chunkBytes = 0
  engine : bulkReady l bytes = .ok true ∨
    ∃ m, l.contiguousRun = .ok m ∧ Swizzle.chunkBytes ≤ m * bytes

theorem bulkEngine?_eq_ok
    {bulk : BulkCopy} {loading : Bool}
    (h : bulkEngine? bulk l loading bytes = .ok (some engine)) :
    bulkReady l bytes = .ok true ∨
      ∃ m, l.contiguousRun = .ok m ∧ Swizzle.chunkBytes ≤ m * bytes := by
  rcases bind_eq_ok h with ⟨ready, hready, h⟩
  split at h
  · next htma =>
      left
      rw [hready, htma.2]
  · split at h
    · cases h
    · rcases bind_eq_ok h with ⟨m, hm, h⟩
      rcases bind_eq_ok h with ⟨run, hrun, h⟩
      have hrun := (word32_settles _).of_eq_ok hrun
      simp only [pure, Except.pure, Except.ok.injEq] at h
      split at h
      · next hle => exact Or.inr ⟨m, hm, hrun ▸ hle⟩
      · cases h

theorem bulk?_eq_ok
    {s d : Layout} (h : bulk? k target src dst s d = .ok (some strategy)) :
    (∃ engine bytes, strategy = .bulk engine bytes) ∧
      ∃ ts td, k.tile src.tile = .ok ts ∧ k.tile dst.tile = .ok td ∧
        ((ts.scope = .global ∧ BulkSide td.type.bytes td d) ∨
          (td.scope = .global ∧ BulkSide td.type.bytes ts s)) := by
  unfold bulk? at h
  split at h
  · rcases bind_eq_ok h with ⟨ts, hts, h⟩
    rcases bind_eq_ok h with ⟨td, htd, h⟩
    simp only at h
    split at h
    · next shared layout loading hside =>
        rcases bind_eq_ok h with ⟨elements, _, h⟩
        rcases bind_eq_ok h with ⟨bytes, _, h⟩
        rcases bind_eq_ok h with ⟨srcRow, _, h⟩
        rcases bind_eq_ok h with ⟨dstRow, _, h⟩
        rcases bind_eq_ok h with ⟨sharedRow, hrow, h⟩
        have hrow := (word32_settles _).of_eq_ok hrow
        split at h
        · cases h
        · next hrows =>
            rcases bind_eq_ok h with ⟨engine, hengine, h⟩
            cases engine with
            | none => cases h
            | some engine =>
                cases h
                have hwhole : shared.shape.cols *
                    td.type.bytes % Swizzle.chunkBytes = 0 := by
                  simp only [all_cons, all_nil, Bool.and_true, Bool.or_eq_true,
                    Bool.not_eq_true', Bool.and_eq_false_iff,
                    beq_eq_false_iff_ne, not_or, not_not] at hrows
                  rw [← hrow]
                  exact hrows.1.2.2
                have hready := bulkEngine?_eq_ok hengine
                refine ⟨⟨_, _, rfl⟩, ts, td, hts, htd, ?_⟩
                split at hside
                · next hsrc hdst =>
                    cases hside
                    exact Or.inl ⟨hsrc, hdst, hwhole, hready⟩
                · next hsrc hdst =>
                    cases hside
                    exact Or.inr ⟨hdst, hsrc, hwhole, hready⟩
                · cases hside
    · cases h
  · cases h

/-- What a vector strategy says of the walks of its operation. -/
def Serves (k : Kernel) (op : OpId) (w : Nat) (walk : Walk) : Prop :=
  walk.Steps ∧ ∃ l, layoutOf k op walk.tile = .ok l ∧ Divides w l

theorem mem_copy_walks (h : walk ∈ (TileOp.copy src dst width).walks) :
    walk.Steps ∧ (walk.tile = src.tile ∨ walk.tile = dst.tile) := by
  rcases mem_filterMap.mp h with ⟨r, hr, hwalk⟩
  rcases Region.steps_of_walk? hwalk with ⟨htile, hsteps⟩
  refine ⟨hsteps, ?_⟩
  rcases mem_pair.mp hr with rfl | rfl
  · exact Or.inl htile
  · exact Or.inr htile

theorem serves_of_copy (h : copy k target op src dst width = .ok (.vector w)) :
    2 ≤ w ∧ ∀ walk ∈ (TileOp.copy src dst width).walks, Serves k op w walk := by
  rcases bind_eq_ok h with ⟨s, hs, h⟩
  rcases bind_eq_ok h with ⟨d, hd, h⟩
  have hboth : 2 ≤ w ∧ Divides w s ∧ Divides w d := by
    cases width with
    | some width =>
        rcases pinned_eq_ok h with ⟨hscalar | ⟨hvector, htwo⟩, hsrc, hdst⟩
        · cases hscalar
        · cases hvector
          exact ⟨htwo, hsrc, hdst⟩
    | none =>
        rcases bind_eq_ok h with ⟨found, hfound, h⟩
        cases found with
        | some strategy =>
            rcases (bulk?_eq_ok (lift_eq_ok_iff.mp hfound)).1 with
              ⟨engine, bytes, rfl⟩
            cases h
        | none =>
            rcases vector_of_vectorFor h with ⟨type, hvector⟩
            rcases divides_of_vector hvector with ⟨htwo, hlayouts⟩
            exact ⟨htwo, hlayouts s (by simp), hlayouts d (by simp)⟩
  rcases hboth with ⟨htwo, hsrc, hdst⟩
  refine ⟨htwo, ?_⟩
  intro walk hwalk
  rcases mem_copy_walks hwalk with ⟨hsteps, htile | htile⟩
  · exact ⟨hsteps, s, htile ▸ hs, hsrc⟩
  · exact ⟨hsteps, d, htile ▸ hd, hdst⟩

theorem serves_of_parallel
    {vars : List String} {extents : Shape} {body : List Assign}
    (h : parallel k target op vars extents body = .ok (.vector w)) :
    2 ≤ w ∧ ∀ walk ∈ (TileOp.parallel vars extents body).walks,
      Serves k op w walk := by
  rcases bind_eq_ok h with ⟨unit, hunit, h⟩
  have hunit := lift_eq_ok_iff.mp hunit
  simp only [TileOp.walks]
  generalize body.flatMap (fun assign => assign.dst :: assign.value.loads) =
    accesses at h hunit ⊢
  cases accesses with
  | nil => cases h
  | cons leading rest =>
      simp only at h
      split at h
      · cases h
      · next hunit' =>
          have hall : unit = true := by simpa using hunit'
          rcases bind_eq_ok h with ⟨layouts, hlayouts, h⟩
          rcases vector_of_vectorFor h with ⟨type, hvector⟩
          rcases divides_of_vector hvector with ⟨htwo, hdivides⟩
          refine ⟨htwo, ?_⟩
          intro walk hwalk
          rcases mem_filterMap.mp hwalk with ⟨a, ha, hwalk⟩
          rw [hall] at hunit
          rcases Access.steps_of_walk? (all_eq_ok hunit _ ha) hwalk with
            ⟨htile, hsteps⟩
          rcases exists_of_mapM_eq_ok hlayouts ha with ⟨l, hl, hlayout⟩
          exact ⟨hsteps, l, htile ▸ hlayout, hdivides l hl⟩

theorem serves_whole
    {tile : TileId} (hl : layoutOf k op tile = .ok l) (hin : l ∈ layouts)
    (h : vectorFor k target leading inner layouts = .ok (.vector w)) :
    2 ≤ w ∧ Serves k op w (Walk.whole tile) := by
  rcases vector_of_vectorFor h with ⟨type, hvector⟩
  rcases divides_of_vector hvector with ⟨htwo, hdivides⟩
  exact ⟨htwo, Walk.steps_whole tile, l, hl, hdivides l hin⟩

/-- The width of a vector strategy divides the runs of all tiles that the
operation walks. -/
theorem serves_of_strategy?
    {what : TileOp} (h : strategy? k target op what = .ok (some (.vector w)))
    (hwalk : walk ∈ what.walks) : 2 ≤ w ∧ Serves k op w walk := by
  cases what with
  | alloc tile => cases hwalk
  | copy src dst width =>
      rcases map_eq_ok_iff.mp h with ⟨strategy, hstrategy, heq⟩
      cases heq
      rcases serves_of_copy hstrategy with ⟨htwo, hserves⟩
      exact ⟨htwo, hserves walk hwalk⟩
  | fill tile value =>
      rcases bind_eq_ok h with ⟨l, hl, h⟩
      rcases bind_eq_ok h with ⟨t, _, h⟩
      rcases map_eq_ok_iff.mp h with ⟨strategy, hstrategy, heq⟩
      cases heq
      rw [mem_singleton.mp hwalk]
      exact serves_whole hl (mem_singleton_self l) hstrategy
  | parallel vars extents body =>
      rcases map_eq_ok_iff.mp h with ⟨strategy, hstrategy, heq⟩
      cases heq
      rcases serves_of_parallel hstrategy with ⟨htwo, hserves⟩
      exact ⟨htwo, hserves walk hwalk⟩
  | gemm a b c transposeA transposeB clear => cases hwalk
  | reduce src dst axis kind clear =>
      rcases bind_eq_ok h with ⟨l, hl, h⟩
      rcases bind_eq_ok h with ⟨t, _, h⟩
      rcases bind_eq_ok h with ⟨last, _, h⟩
      split at h
      · rcases map_eq_ok_iff.mp h with ⟨strategy, hstrategy, heq⟩
        cases heq
        rw [mem_singleton.mp hwalk]
        exact serves_whole hl (mem_singleton_self l) hstrategy
      · cases h
  | relayout src dst =>
      rcases bind_eq_ok h with ⟨s, hs, h⟩
      rcases bind_eq_ok h with ⟨d, hd, h⟩
      rcases bind_eq_ok h with ⟨t, _, h⟩
      rcases map_eq_ok_iff.mp h with ⟨strategy, hstrategy, heq⟩
      cases heq
      rcases mem_pair.mp hwalk with rfl | rfl
      · exact serves_whole hs (by simp) hstrategy
      · exact serves_whole hd (by simp) hstrategy

theorem vectorFor_ne_bulk :
    vectorFor k target leading inner layouts ≠ .ok (.bulk engine bytes) := by
  intro h
  rcases vector_of_vectorFor h with ⟨type, hvector⟩
  exact vector_ne_bulk hvector

theorem gemm_ne_bulk {a b c : TileId} {transposeA transposeB : Bool} :
    gemm k target op a b c transposeA transposeB ≠
      .ok (.bulk engine bytes) := by
  intro h
  rcases bind_eq_ok h with ⟨bound, _, h⟩
  cases bound with
  | none => cases h
  | some binding =>
      rcases bind_eq_ok h with ⟨_, _, h⟩
      rcases bind_eq_ok h with ⟨_, _, h⟩
      rcases bind_eq_ok h with ⟨_, _, h⟩
      rcases bind_eq_ok h with ⟨repeats, _, h⟩
      cases h

theorem parallel_ne_bulk
    {vars : List String} {extents : Shape} {body : List Assign} :
    parallel k target op vars extents body ≠ .ok (.bulk engine bytes) := by
  intro h
  rcases bind_eq_ok h with ⟨unit, _, h⟩
  generalize body.flatMap (fun assign => assign.dst :: assign.value.loads) =
    accesses at h
  cases accesses with
  | nil => cases h
  | cons leading rest =>
      simp only at h
      split at h
      · cases h
      · rcases bind_eq_ok h with ⟨layouts, _, h⟩
        exact vectorFor_ne_bulk h

theorem bulkSide_of_strategy?
    {what : TileOp}
    (h : strategy? k target op what = .ok (some (.bulk engine bytes))) :
    ∃ src dst width s d ts td, what = .copy src dst width ∧
      layoutOf k op src.tile = .ok s ∧ layoutOf k op dst.tile = .ok d ∧
      k.tile src.tile = .ok ts ∧ k.tile dst.tile = .ok td ∧
      ((ts.scope = .global ∧ BulkSide td.type.bytes td d) ∨
        (td.scope = .global ∧ BulkSide td.type.bytes ts s)) := by
  cases what with
  | alloc tile => cases h
  | copy src dst width =>
      rcases map_eq_ok_iff.mp h with ⟨strategy, h, heq⟩
      cases heq
      rcases bind_eq_ok h with ⟨s, hs, h⟩
      rcases bind_eq_ok h with ⟨d, hd, h⟩
      cases width with
      | some width =>
          rcases (pinned_eq_ok h).1 with hscalar | ⟨hvector, _⟩
          · cases hscalar
          · cases hvector
      | none =>
          rcases bind_eq_ok h with ⟨found, hfound, h⟩
          cases found with
          | none => exact (vectorFor_ne_bulk h).elim
          | some strategy =>
              rcases (bulk?_eq_ok (lift_eq_ok_iff.mp hfound)).2 with
                ⟨ts, td, hts, htd, hside⟩
              exact ⟨src, dst, none, s, d, ts, td, rfl, hs, hd, hts, htd, hside⟩
  | fill tile value =>
      rcases bind_eq_ok h with ⟨l, _, h⟩
      rcases bind_eq_ok h with ⟨t, _, h⟩
      rcases map_eq_ok_iff.mp h with ⟨strategy, h, heq⟩
      cases heq
      exact (vectorFor_ne_bulk h).elim
  | parallel vars extents body =>
      rcases map_eq_ok_iff.mp h with ⟨strategy, h, heq⟩
      cases heq
      exact (parallel_ne_bulk h).elim
  | gemm a b c transposeA transposeB clear =>
      rcases map_eq_ok_iff.mp h with ⟨strategy, h, heq⟩
      cases heq
      exact (gemm_ne_bulk h).elim
  | reduce src dst axis kind clear =>
      rcases bind_eq_ok h with ⟨l, _, h⟩
      rcases bind_eq_ok h with ⟨t, _, h⟩
      rcases bind_eq_ok h with ⟨last, _, h⟩
      split at h
      · rcases map_eq_ok_iff.mp h with ⟨strategy, h, heq⟩
        cases heq
        exact (vectorFor_ne_bulk h).elim
      · cases h
  | relayout src dst =>
      rcases bind_eq_ok h with ⟨s, _, h⟩
      rcases bind_eq_ok h with ⟨d, _, h⟩
      rcases bind_eq_ok h with ⟨t, _, h⟩
      rcases map_eq_ok_iff.mp h with ⟨strategy, h, heq⟩
      cases heq
      exact (vectorFor_ne_bulk h).elim

end

end Selection

/-! ## Compiled kernels -/

/-- The tile has a layout of its own shape, in registers if the tile is, that
suits it. -/
def Tile.LaidBy (t : Tile) (l : Layout) : Prop :=
  t.layout = some l ∧ l.shape = t.shape ∧
    l.isFragment = (t.scope == .fragment) ∧ l.Suited

theorem InfersBy.laidBy
    {k : Kernel} {target : Target} {all : List TileUse}
    {planned : List PlannedTile} {inferred : Inferred}
    (h : InfersBy k target all planned inferred) {t : Tile}
    (ht : t ∈ inferred.kernel.tiles) : ∃ l, t.LaidBy l := by
  rcases Array.getElem?_of_mem ht with ⟨i, hi⟩
  rcases h.exists_entry hi with ⟨p, hp, l, hentry⟩
  have hplanned := h.planned_of_mem hp
  refine ⟨l, hentry.layout, ?_, ?_, (hplanned.chosen l hentry.has).suited⟩
  · rw [hentry.shape_eq, hplanned.shape l hentry.has]
  · rw [hentry.scope_eq, hplanned.kind l hentry.has]

theorem compiled_step
    {k : Kernel} {target : Target} {compiled : Compiled}
    (hcompile : k.compile target = .ok compiled) {s : Step}
    (hs : Op.step s ∈ compiled.kernel.ops) :
    ∃ scheduled : Kernel, compiled.kernel.tiles = scheduled.tiles ∧
      Selection.strategy? scheduled target s.id s.op = .ok s.strategy ∧
      ∀ t ∈ scheduled.tiles, ∃ l, t.LaidBy l := by
  rcases compile_eq_ok hcompile with
    ⟨inferred, scheduled, hinfer, hschedule, hselect⟩
  have hcopies := copies_of_schedule hschedule
  have hdistinct : (scheduled.ops.map Op.id).Nodup := by
    rw [hcopies.ids]
    exact (infers_of_infer hinfer).wellFormed_kernel.distinct
  refine ⟨scheduled, (reselected_of_selectAll hselect).tiles,
    select_of_selectAll hdistinct hselect _ hs, ?_⟩
  intro t ht
  rcases infersBy_of_infer hinfer with ⟨all, planned, hinfers⟩
  rcases hcopies.tiles t ht with ⟨t₀, ht₀, name, rfl⟩
  rcases hinfers.laidBy ht₀ with ⟨l, hlaid⟩
  exact ⟨l, hlaid⟩

theorem Selection.laidBy_of_layoutOf
    {k : Kernel} {op : OpId} {id : TileId}
    (hlaid : ∀ t ∈ k.tiles, ∃ l, t.LaidBy l)
    (h : Selection.layoutOf k op id = .ok l) :
    ∃ t, k.tile id = .ok t ∧ t.LaidBy l := by
  rcases bind_eq_ok h with ⟨t, ht, h⟩
  have ht := lift_eq_ok_iff.mp ht
  rcases hlaid t (Array.mem_of_getElem? (tile_eq_ok_iff.mp ht)) with ⟨l', hl'⟩
  simp only [hl'.1] at h
  cases h
  exact ⟨t, ht, hl'⟩

theorem ElementType.chunk (type : ElementType) :
    2 ≤ Swizzle.chunkBytes / type.bytes ∧
      Swizzle.chunkBytes / type.bytes * type.bytes = Swizzle.chunkBytes := by
  cases type <;> decide

theorem Selection.BulkSide.consecutive
    {t : Tile} {r c : Nat} (h : Selection.BulkSide t.type.bytes t l)
    (hlaid : t.LaidBy l)
    (hadmits : l.Admits (Swizzle.chunkBytes / t.type.bytes) start)
    (hr : r < l.shape.dropLast.prod)
    (hc : ((Swizzle.chunkBytes / t.type.bytes : Nat) : Int) ∣ c - start)
    (hend : c + Swizzle.chunkBytes / t.type.bytes ≤ l.shape.cols) :
    l.Consecutive r c (Swizzle.chunkBytes / t.type.bytes) := by
  rcases hlaid with ⟨_, hshape, hkind, hsuited⟩
  rcases t.type.chunk with ⟨htwo, hchunk⟩
  rcases h.engine with hready | ⟨m, hrun, hle⟩
  · have hrows := h.rows
    rw [← hshape] at hrows
    exact Layout.consecutive_of_bulkReady hsuited hready hrows hchunk htwo
      hadmits hr hc hend
  · have hmemory : l.isFragment = false := by
      rw [hkind, h.scope]
      rfl
    have hwidth : Swizzle.chunkBytes / t.type.bytes ≤ m := by
      by_contra hlt
      have hpos : 0 < t.type.bytes := by cases t.type <;> decide
      have hless := Nat.mul_lt_mul_of_pos_right (Nat.lt_of_not_le hlt) hpos
      omega
    exact Layout.consecutive_of_le hsuited hmemory hrun hwidth htwo hadmits hr
      hc hend

def TileOp.OneSize (k : Kernel) (op : TileOp) : Prop :=
  ∀ id ∈ op.tiles,
    ∀ id' ∈ op.tiles, ∀ t t', k.tile id = .ok t → k.tile id' = .ok t' →
    t.type.bytes = t'.type.bytes

/-- In a compiled kernel, groups of the width of a vector strategy are in
consecutive slots of every tile that the operation walks, and chunks of a bulk
copy in consecutive slots of the shared tile, if the layout admits the width
from where the walk starts. -/
theorem compiled_groups_consecutive
    {k : Kernel} {target : Target} {compiled : Compiled}
    (hcompile : k.compile target = .ok compiled) {s : Step}
    (hs : Op.step s ∈ compiled.kernel.ops) {walk : Walk}
    (hwalk : walk ∈ s.op.walks) :
    (∀ w, s.strategy = some (.vector w) →
      ∃ t l, compiled.kernel.tile walk.tile = .ok t ∧ t.layout = some l ∧
        l.shape = t.shape ∧
        ∀ env start, walk.column env 0 = .ok start → l.Admits w start →
          walk.Grouped l env w) ∧
    (∀ engine bytes, s.strategy = some (.bulk engine bytes) →
      ∃ t l, compiled.kernel.tile walk.tile = .ok t ∧ t.layout = some l ∧
        l.shape = t.shape ∧
        (t.scope = .shared →
          (walk.tile ∈ s.op.reads → s.op.OneSize compiled.kernel) →
          ∀ env start, walk.column env 0 = .ok start →
          l.Admits (Swizzle.chunkBytes / t.type.bytes) start →
          walk.Grouped l env (Swizzle.chunkBytes / t.type.bytes))) := by
  rcases compiled_step hcompile hs with ⟨scheduled, htiles, hstrategy, hlaid⟩
  have htile : ∀ id, compiled.kernel.tile id = scheduled.tile id := by
    intro id
    unfold Kernel.tile
    rw [htiles]
  simp only [htile]
  constructor
  · intro w hw
    rw [hw] at hstrategy
    rcases Selection.serves_of_strategy? hstrategy hwalk with
      ⟨htwo, hsteps, l, hlayout, m, hrun, hdvd⟩
    rcases Selection.laidBy_of_layoutOf hlaid hlayout with ⟨t, ht, hl⟩
    refine ⟨t, l, ht, hl.1, hl.2.1, ?_⟩
    intro env start hstart hadmits
    apply hsteps.grouped (by omega) hstart
    intro r hr c hc hend
    exact Layout.consecutive_of_dvd hl.2.2.2 hrun hdvd htwo hadmits hr hc hend
  · intro engine bytes hbulk
    rw [hbulk] at hstrategy
    rcases Selection.bulkSide_of_strategy? hstrategy with
      ⟨src, dst, width, ls, ld, ts, td, hop, hls, hld, hts, htd, hside⟩
    rw [hop] at hwalk
    rcases Selection.mem_copy_walks hwalk with ⟨hsteps, hid⟩
    -- the side in shared memory, measured by the elements of the destination
    have hgrouped : ∀ {t l}, t.LaidBy l → Selection.BulkSide t.type.bytes t l →
        ∀ env start, walk.column env 0 = .ok start →
          l.Admits (Swizzle.chunkBytes / t.type.bytes) start →
        walk.Grouped l env (Swizzle.chunkBytes / t.type.bytes) := by
      intro t l hl hbulkSide env start hstart hadmits
      have hwidth := t.type.chunk.1
      apply hsteps.grouped (by omega) hstart
      intro r hr c hc hend
      exact hbulkSide.consecutive hl hadmits hr hc hend
    rcases hid with hid | hid
    · rcases Selection.laidBy_of_layoutOf hlaid hls with ⟨t, ht, hl⟩
      rw [hts] at ht
      cases ht
      refine ⟨ts, ls, hid ▸ hts, hl.1, hl.2.1, ?_⟩
      intro hshared hsize
      rcases hside with ⟨hglobal, _⟩ | ⟨_, hbulkSide⟩
      · rw [hshared] at hglobal
        cases hglobal
      · have hbytes : ts.type.bytes = td.type.bytes := by
          rw [hop] at hsize
          exact hsize (by simp [hid, TileOp.reads]) src.tile (by simp) dst.tile
            (by simp) ts td ((htile _).trans hts) ((htile _).trans htd)
        rw [← hbytes] at hbulkSide
        exact hgrouped hl hbulkSide
    · rcases Selection.laidBy_of_layoutOf hlaid hld with ⟨t, ht, hl⟩
      rw [htd] at ht
      cases ht
      refine ⟨td, ld, hid ▸ htd, hl.1, hl.2.1, ?_⟩
      intro hshared _
      rcases hside with ⟨_, hbulkSide⟩ | ⟨hglobal, _⟩
      · exact hgrouped hl hbulkSide
      · rw [hshared] at hglobal
        cases hglobal

/-- The regions, pinned width and strategy of a step that copies. -/
def Op.copied? :
    Op → Option (OpId × Region × Region × Option Nat × Option Strategy)
  | .step ⟨id, .copy src dst width, strategy⟩ =>
      some (id, src, dst, width, strategy)
  | _ => none

theorem Op.eq_of_copied?
    {op : Op} {id : OpId} {strategy : Option Strategy}
    (h : op.copied? = some (id, src, dst, width, strategy)) :
    op = .step ⟨id, .copy src dst width, strategy⟩ := by
  unfold Op.copied? at h
  split at h
  · cases h
    rfl
  · cases h

/-- Eight elements spread over two threads, four of which are then copied again,
to the columns from `start` on. -/
def overlaidCopy (start : Int) : Kernel :=
  { Kernel.empty "overlaid_copy" with
    threads := ⟨2, 1, 1⟩
    tiles := #[Tile.plain "g" [8] .f32 .global,
      Tile.plain "x" [8] .f32 .fragment]
    body := .step ⟨⟨0⟩, .copy (.full ⟨0⟩ [8]) (.full ⟨1⟩ [8]) (some 4), none⟩
      (.step ⟨⟨1⟩, .copy ⟨⟨0⟩, [.ofInt 0], [4]⟩ ⟨⟨1⟩, [.ofInt start],
        [4]⟩ (some 4), none⟩ .done)
    nextOp := 2 }

/-- The walk over the columns that are copied again. -/
def overlaidWalk (start : Int) : Walk :=
  ⟨⟨1⟩, fun env j => do Checked.int64 (j + (← (Affine.ofInt start).eval env))⟩

def overlaidStep (start : Int) : Step :=
  ⟨⟨1⟩, .copy ⟨⟨0⟩, [.ofInt 0], [4]⟩ ⟨⟨1⟩, [.ofInt start], [4]⟩ (some 4),
    some (.vector 4)⟩

def stripesOfFour : Layout := ⟨[8], .fragment (.striped 2 4)⟩

/-- The kernel compiles to the step and the layout above. -/
def overlaidCompiles (start : Int) : Bool :=
  ((overlaidCopy start).compile .sm80).toOption.any fun compiled =>
    compiled.kernel.ops[1]?.bind Op.copied? =
        some (⟨1⟩, ⟨⟨0⟩, [.ofInt 0], [4]⟩, ⟨⟨1⟩, [.ofInt start], [4]⟩, some 4,
          some (.vector 4)) &&
      compiled.kernel.tiles[1]?.map Tile.layout = some (some stripesOfFour)

theorem exists_overlaid (h : overlaidCompiles start = true) :
    ∃ compiled t, (overlaidCopy start).compile .sm80 = .ok compiled ∧
      Op.step (overlaidStep start) ∈ compiled.kernel.ops ∧
      overlaidWalk start ∈ (overlaidStep start).op.walks ∧
      compiled.kernel.tile (overlaidWalk start).tile = .ok t ∧
      t.layout = some stripesOfFour := by
  rcases (Option.any_eq_true _ _).mp h with ⟨compiled, hcompile, hresult⟩
  rw [toOption_eq_some_iff] at hcompile
  rw [Bool.and_eq_true, decide_eq_true_eq, decide_eq_true_eq] at hresult
  rcases hresult with ⟨hcopied, hlayout⟩
  rcases Option.bind_eq_some_iff.mp hcopied with ⟨op, hop, hcopied⟩
  rcases Option.map_eq_some_iff.mp hlayout with ⟨t, ht, hlayout⟩
  rw [Op.eq_of_copied? hcopied] at hop
  exact ⟨compiled, t, hcompile, mem_of_getElem? hop,
    mem_of_getElem? (i := 1) rfl, tile_eq_ok_iff.mpr ht, hlayout⟩

theorem compiled_groups_consecutive_overlaid :
    ∃ compiled, (overlaidCopy 4).compile .sm80 = .ok compiled ∧
      Op.step (overlaidStep 4) ∈ compiled.kernel.ops ∧
      overlaidWalk 4 ∈ (overlaidStep 4).op.walks ∧
      stripesOfFour.Admits 4 4 ∧
      (overlaidWalk 4).Grouped stripesOfFour .empty 4 := by
  have hcompiles : overlaidCompiles 4 = true := by decide +kernel
  rcases exists_overlaid hcompiles with
    ⟨compiled, t, hcompile, hstep, hwalk, ht, hlayout⟩
  have hadmits : stripesOfFour.Admits 4 4 := Or.inr (Int.dvd_refl 4)
  rcases (compiled_groups_consecutive hcompile hstep hwalk).1 4 rfl with
    ⟨t', l, ht', hl, _, hgroups⟩
  rw [ht] at ht'
  cases ht'
  rw [hlayout] at hl
  cases hl
  exact ⟨compiled, hcompile, hstep, hwalk, hadmits,
    hgroups .empty 4 rfl hadmits⟩

/-- From the second column on, a group of four straddles the stripes of both
threads. -/
theorem compiled_groups_straddle_overlaid :
    ∃ compiled t, (overlaidCopy 2).compile .sm80 = .ok compiled ∧
      Op.step (overlaidStep 2) ∈ compiled.kernel.ops ∧
      overlaidWalk 2 ∈ (overlaidStep 2).op.walks ∧
      compiled.kernel.tile (overlaidWalk 2).tile = .ok t ∧
      t.layout = some stripesOfFour ∧
      ¬(overlaidWalk 2).Grouped stripesOfFour .empty 4 := by
  have hcompiles : overlaidCompiles 2 = true := by decide +kernel
  rcases exists_overlaid hcompiles with
    ⟨compiled, t, hcompile, hstep, hwalk, ht, hlayout⟩
  refine ⟨compiled, t, hcompile, hstep, hwalk, ht, hlayout, ?_⟩
  intro hgrouped
  have hcolumns : ∀ i < 4,
      (overlaidWalk 2).column .empty (0 * 4 + i) = .ok ((2 + i : Nat) : Int) ∧
      2 + i < stripesOfFour.shape.cols := by
    decide
  rcases hgrouped 0 (by decide) 0 (fun i => 2 + i) hcolumns with ⟨first, hslots⟩
  have hfirst : stripesOfFour.slotAt 0 2 = .ok (.register 0 2) := rfl
  have hthird : stripesOfFour.slotAt 0 4 = .ok (.register 1 0) := rfl
  have hstart := hslots 0 (by decide)
  have hthere := hslots 2 (by decide)
  rw [hfirst, Slot.advance_zero] at hstart
  rw [hthird, ← Except.ok.inj hstart] at hthere
  cases hthere

end TileProgram
