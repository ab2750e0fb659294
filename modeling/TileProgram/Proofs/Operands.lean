import TileProgram.Inference.Check
import TileProgram.Proofs.Execution

/-!
# Operations that fit their tiles

`TileOp.Fitting` says what the checks before inference establish of one
operation: its tiles are in the table and its shapes go together.  A kernel all
of whose operations fit, under distinct numbers, is `Kernel.WellFormed`;
inference accepts no other.  An operation that fits and is said to define a tile
writes every element of it.
-/

namespace TileProgram

open Kernel List

variable {t : TileId} {shape : Shape} {op : TileOp}

/-- The tiles of an operation are in the table and have shapes that go
together. -/
def TileOp.Fitting (k : Kernel) : TileOp → Prop
  | .alloc _ => True
  | .fill tile _ => ∃ shape, k.shapeOf tile = .ok shape
  | .copy src dst _ => ∃ srcShape dstShape,
      k.shapeOf src.tile = .ok srcShape ∧ k.shapeOf dst.tile = .ok dstShape ∧
      src.extents.length = srcShape.length ∧
      src.offsets.length = srcShape.length ∧
      dst.extents.length = dstShape.length ∧
      dst.offsets.length = dstShape.length ∧
      src.extents.squeeze = dst.extents.squeeze
  | .parallel _ _ body =>
      ∀ assign ∈ body, ∀ a ∈ assign.dst :: assign.value.loads,
        ∃ shape, k.shapeOf a.tile = .ok shape ∧ a.indices.length = shape.length
  | .gemm a b c transposeA transposeB _ => ∃ shapeA shapeB shapeC,
      k.shapeOf a = .ok shapeA ∧ k.shapeOf b = .ok shapeB ∧
      k.shapeOf c = .ok shapeC ∧
      (GemmShape.ofShapes? shapeA shapeB shapeC transposeA transposeB).isSome
  | .reduce src dst axis _ _ => ∃ shape,
      k.shapeOf src = .ok shape ∧ shape.length = 2 ∧ axis < shape.length ∧
      k.shapeOf dst = .ok (shape.eraseIdx axis)
  | .relayout src dst =>
      ∃ shape, k.shapeOf src = .ok shape ∧ k.shapeOf dst = .ok shape

/-- Operations have distinct numbers and fit their tiles. -/
structure Kernel.WellFormed (k : Kernel) : Prop where
  distinct : (k.ops.map Op.id).Nodup
  fitting : ∀ s, Op.step s ∈ k.ops → s.op.Fitting k

/-! ## Shapes of products -/

def GemmShape.extents (s : GemmShape) : Role → Nat × Nat
  | .a => (s.m, s.k)
  | .b => (s.k, s.n)
  | .c => (s.m, s.n)

def GemmShape.tileShape (s : GemmShape) (role : Role) (transposed : Bool) :
    Shape :=
  if transposed then [(s.extents role).2, (s.extents role).1]
  else [(s.extents role).1, (s.extents role).2]

theorem GemmShape.matrix?_eq_some
    {transposed : Bool} {rows cols : Nat}
    (h : matrix? shape transposed = some (rows, cols)) :
    shape = if transposed then [cols, rows] else [rows, cols] := by
  unfold matrix? at h
  split at h
  · cases transposed <;> cases h <;> rfl
  · cases h

theorem GemmShape.ofShapes?_eq_some
    {a b c : Shape} {transposeA transposeB : Bool} {dims : GemmShape}
    (h : ofShapes? a b c transposeA transposeB = some dims) :
    a = dims.tileShape .a transposeA ∧ b = dims.tileShape .b transposeB ∧
      c = dims.tileShape .c false := by
  obtain ⟨⟨m, depth⟩, ha, hleft⟩ := Option.bind_eq_some_iff.mp h
  obtain ⟨⟨depth', n⟩, hb, hright⟩ := Option.bind_eq_some_iff.mp hleft
  obtain ⟨⟨rows, cols⟩, hc, hdims⟩ := Option.bind_eq_some_iff.mp hright
  dsimp only at hdims
  split at hdims
  · next hsame =>
      obtain ⟨rfl, rfl, rfl⟩ := hsame
      cases hdims
      exact ⟨matrix?_eq_some ha, matrix?_eq_some hb, matrix?_eq_some hc⟩
  · cases hdims

/-! ## Tables of tiles -/

theorem Kernel.tile_eq_ok_iff {k : Kernel} {tile : Tile} :
    k.tile t = .ok tile ↔ k.tile? t = some tile := by
  unfold Kernel.tile Kernel.tile? Checked.entry
  cases k.tiles[t.index]? <;> simp

theorem Kernel.grownTable_settles (size count : Nat) :
    Settles .overflow (fun grown => grown = size + count)
      (grownTable size count) := by
  unfold grownTable
  split
  · next hzero => exact Settles.ok (by omega)
  · exact Checked.word32_settles _

theorem Kernel.grownTable_succ (size count : Nat) :
    grownTable size (count + 1) = grownTable size 1 >>= fun size =>
      grownTable size count := by
  unfold grownTable Checked.word32
  by_cases hroom : size + 1 < limit32
  · simp only [hroom, if_true, Nat.add_one_ne_zero, one_ne_zero, if_false,
      ok_bind]
    grind
  · rw [if_neg (Nat.add_one_ne_zero _), if_neg (by omega), if_neg one_ne_zero,
      if_neg hroom, error_bind]

/-- A tile is appended while there is an identifier for it. -/
theorem Kernel.addTile_eq_ok_iff
    {k : Kernel} {tile : Tile} {result : TileId × Kernel} :
    k.addTile tile = .ok result ↔ k.tiles.size + 1 < limit32 ∧
      result = (⟨k.tiles.size⟩, { k with tiles := k.tiles.push tile }) := by
  simp only [addTile, grownTable, bind_eq_ok_iff, one_ne_zero, if_false,
    Checked.word32_eq_ok_iff]
  constructor
  · rintro ⟨_, ⟨hlt, _⟩, hresult⟩
    exact ⟨hlt, (Except.ok.inj hresult).symm⟩
  · rintro ⟨hlt, rfl⟩
    exact ⟨_, ⟨hlt, rfl⟩, rfl⟩

theorem Kernel.shapeOf_eq_ok {k : Kernel} :
    k.shapeOf t = .ok shape ↔
      ∃ tile, k.tile t = .ok tile ∧ tile.shape = shape :=
  map_eq_ok_iff

theorem Kernel.lt_of_shapeOf {k : Kernel} (h : k.shapeOf t = .ok shape) :
    k.Has t := by
  by_contra hge
  unfold Kernel.shapeOf Kernel.tile Checked.entry at h
  rw [Array.getElem?_eq_none (by omega)] at h
  cases h

theorem TileOp.Fitting.lt_size {k : Kernel} (h : op.Fitting k) :
    ∀ t ∈ op.tiles, k.Has t := by
  intro t ht
  cases op with
  | alloc tile => simp [tiles, reads, writes] at ht
  | fill tile value =>
      obtain ⟨shape, hshape⟩ := h
      exact mem_tiles_fill.mp ht ▸ lt_of_shapeOf hshape
  | copy src dst width =>
      obtain ⟨srcShape, dstShape, hsrc, hdst, _⟩ := h
      rcases mem_tiles_copy.mp ht with rfl | rfl
      · exact lt_of_shapeOf hsrc
      · exact lt_of_shapeOf hdst
  | parallel vars extents body =>
      obtain ⟨assign, hassign, a, ha, rfl⟩ := mem_tiles_parallel.mp ht
      obtain ⟨shape, hshape, _⟩ := h assign hassign a ha
      exact lt_of_shapeOf hshape
  | gemm a b c transposeA transposeB clear =>
      obtain ⟨shapeA, shapeB, shapeC, ha, hb, hc, _⟩ := h
      rcases mem_tiles_gemm.mp ht with rfl | rfl | rfl
      · exact lt_of_shapeOf ha
      · exact lt_of_shapeOf hb
      · exact lt_of_shapeOf hc
  | reduce src dst axis kind clear =>
      obtain ⟨shape, hsrc, _, _, hdst⟩ := h
      rcases mem_tiles_reduce.mp ht with rfl | rfl
      · exact lt_of_shapeOf hsrc
      · exact lt_of_shapeOf hdst
  | relayout src dst =>
      obtain ⟨shape, hsrc, hdst⟩ := h
      rcases mem_tiles_relayout.mp ht with rfl | rfl
      · exact lt_of_shapeOf hsrc
      · exact lt_of_shapeOf hdst

theorem TileOp.Fitting.mapTiles
    {k k' : Kernel} {f : TileId → TileId} (h : op.Fitting k)
    (hshape : ∀ t ∈ op.tiles, k'.shapeOf (f t) = k.shapeOf t) :
    (op.mapTiles f).Fitting k' := by
  cases op with
  | alloc tile => trivial
  | fill tile value =>
      obtain ⟨shape, htile⟩ := h
      exact ⟨shape, by rw [hshape tile (by simp), htile]⟩
  | copy src dst width =>
      obtain ⟨srcShape, dstShape, hsrc, hdst, hranks⟩ := h
      refine ⟨srcShape, dstShape, ?_, ?_, hranks⟩
      · exact (hshape src.tile (by simp)).trans hsrc
      · exact (hshape dst.tile (by simp)).trans hdst
  | parallel vars extents body =>
      intro assign' hassign'
      obtain ⟨assign, hassign, rfl⟩ := mem_map.mp hassign'
      intro a' ha'
      rcases mem_cons.mp ha' with rfl | hload
      · obtain ⟨shape, htile, hrank⟩ :=
          h assign hassign assign.dst mem_cons_self
        have hkept := hshape _ (mem_tiles_of_access hassign mem_cons_self)
        exact ⟨shape, hkept.trans htile, hrank⟩
      · rw [Expr.loads_mapTiles] at hload
        obtain ⟨a, ha, rfl⟩ := mem_map.mp hload
        obtain ⟨shape, htile, hrank⟩ :=
          h assign hassign a (mem_cons_of_mem _ ha)
        have hkept :=
          hshape _ (mem_tiles_of_access hassign (mem_cons_of_mem _ ha))
        exact ⟨shape, hkept.trans htile, hrank⟩
  | gemm a b c transposeA transposeB clear =>
      obtain ⟨shapeA, shapeB, shapeC, ha, hb, hc, hproduct⟩ := h
      refine ⟨shapeA, shapeB, shapeC, ?_, ?_, ?_, hproduct⟩
      · exact (hshape a (by simp)).trans ha
      · exact (hshape b (by simp)).trans hb
      · exact (hshape c (by simp)).trans hc
  | reduce src dst axis kind clear =>
      obtain ⟨shape, hsrc, hrank, haxis, hdst⟩ := h
      refine ⟨shape, ?_, hrank, haxis, ?_⟩
      · exact (hshape src (by simp)).trans hsrc
      · exact (hshape dst (by simp)).trans hdst
  | relayout src dst =>
      obtain ⟨shape, hsrc, hdst⟩ := h
      refine ⟨shape, ?_, ?_⟩
      · exact (hshape src (by simp)).trans hsrc
      · exact (hshape dst (by simp)).trans hdst

theorem TileOp.Fitting.congr
    {k k' : Kernel} (h : op.Fitting k)
    (hshape : ∀ t ∈ op.tiles, k'.shapeOf t = k.shapeOf t) : op.Fitting k' := by
  have hrenamed := h.mapTiles (f := id) hshape
  rwa [TileOp.mapTiles_id] at hrenamed

/-! ## What the checks establish -/

namespace Inference

variable {k : Kernel} {id : OpId}

theorem mismatch_ne_ok {α : Type} (tile : TileId) (reason : String) (a : α) :
    mismatch k id tile reason ≠ .ok a := by
  unfold mismatch
  intro h
  obtain ⟨t, _, h⟩ := bind_eq_ok h
  cases h

theorem checkRegion_eq_ok {r : Region} (h : checkRegion k id r = .ok ()) :
    ∃ shape, k.shapeOf r.tile = .ok shape ∧
      r.extents.length = shape.length ∧ r.offsets.length = shape.length := by
  unfold checkRegion at h
  obtain ⟨tile, htile, h⟩ := bind_eq_ok h
  have htile := lift_eq_ok_iff.mp htile
  refine ⟨tile.shape, shapeOf_eq_ok.mpr ⟨tile, htile, rfl⟩, ?_⟩
  by_contra hranks
  rw [if_pos (by tauto)] at h
  exact mismatch_ne_ok _ _ _ h

theorem checkAccess_eq_ok {a : Access} (h : checkAccess k id a = .ok ()) :
    ∃ shape, k.shapeOf a.tile = .ok shape ∧
      a.indices.length = shape.length := by
  unfold checkAccess at h
  obtain ⟨tile, htile, h⟩ := bind_eq_ok h
  have htile := lift_eq_ok_iff.mp htile
  refine ⟨tile.shape, shapeOf_eq_ok.mpr ⟨tile, htile, rfl⟩, ?_⟩
  by_contra hrank
  rw [if_pos hrank] at h
  exact mismatch_ne_ok _ _ _ h

theorem fitting_of_checkOperands
    (htiles : ∀ t ∈ op.tiles, k.Has t) (h : checkOperands k id op = .ok ()) :
    op.Fitting k := by
  cases op with
  | alloc tile => trivial
  | fill tile value => exact shapeOf_of_lt (htiles tile (by simp))
  | copy src dst width =>
      simp only [checkOperands] at h
      obtain ⟨_, hsrc, h⟩ := bind_eq_ok h
      obtain ⟨_, hdst, h⟩ := bind_eq_ok h
      obtain ⟨srcShape, hsrcShape, hsrcExtents, hsrcOffsets⟩ :=
        checkRegion_eq_ok hsrc
      obtain ⟨dstShape, hdstShape, hdstExtents, hdstOffsets⟩ :=
        checkRegion_eq_ok hdst
      refine ⟨srcShape, dstShape, hsrcShape, hdstShape, hsrcExtents,
        hsrcOffsets, hdstExtents, hdstOffsets, ?_⟩
      by_contra hsqueeze
      rw [if_pos hsqueeze] at h
      exact mismatch_ne_ok _ _ _ h
  | parallel vars extents body =>
      simp only [checkOperands] at h
      intro assign hassign a ha
      obtain ⟨_, hdst, hloads⟩ := bind_eq_ok (forM_eq_ok h hassign)
      rcases mem_cons.mp ha with rfl | hload
      · exact checkAccess_eq_ok hdst
      · exact checkAccess_eq_ok (forM_eq_ok hloads hload)
  | gemm a b c transposeA transposeB clear =>
      simp only [checkOperands] at h
      obtain ⟨ta, hta, h⟩ := bind_eq_ok h
      obtain ⟨tb, htb, h⟩ := bind_eq_ok h
      obtain ⟨tc, htc, h⟩ := bind_eq_ok h
      refine ⟨ta.shape, tb.shape, tc.shape,
        shapeOf_eq_ok.mpr ⟨ta, lift_eq_ok_iff.mp hta, rfl⟩,
        shapeOf_eq_ok.mpr ⟨tb, lift_eq_ok_iff.mp htb, rfl⟩,
        shapeOf_eq_ok.mpr ⟨tc, lift_eq_ok_iff.mp htc, rfl⟩, ?_⟩
      by_contra hproduct
      rw [if_pos (by simpa using hproduct)] at h
      exact mismatch_ne_ok _ _ _ h
  | reduce src dst axis kind clear =>
      simp only [checkOperands] at h
      obtain ⟨ts, hts, h⟩ := bind_eq_ok h
      by_cases haxis : ts.shape.length ≠ 2 ∨ ts.shape.length ≤ axis
      · rw [if_pos haxis] at h
        obtain ⟨_, hfail, _⟩ := bind_eq_ok h
        exact (mismatch_ne_ok _ _ _ hfail).elim
      rw [if_neg haxis] at h
      obtain ⟨td, htd, h⟩ := bind_eq_ok h
      refine ⟨ts.shape, shapeOf_eq_ok.mpr ⟨ts, lift_eq_ok_iff.mp hts, rfl⟩,
        by omega, by omega, shapeOf_eq_ok.mpr ⟨td, lift_eq_ok_iff.mp htd, ?_⟩⟩
      by_contra hreduced
      rw [if_pos hreduced] at h
      exact mismatch_ne_ok _ _ _ h
  | relayout src dst =>
      simp only [checkOperands] at h
      obtain ⟨ts, hts, h⟩ := bind_eq_ok h
      obtain ⟨td, htd, h⟩ := bind_eq_ok h
      refine ⟨ts.shape, shapeOf_eq_ok.mpr ⟨ts, lift_eq_ok_iff.mp hts, rfl⟩,
        shapeOf_eq_ok.mpr ⟨td, lift_eq_ok_iff.mp htd, ?_⟩⟩
      by_contra hshape
      rw [if_pos (fun heq => hshape heq.symm)] at h
      exact mismatch_ne_ok _ _ _ h

theorem Step.mem_mentions {s : Step} (ht : t ∈ s.op.tiles) :
    t ∈ (Op.step s).mentions := by
  unfold Op.mentions
  apply mem_eraseDups.mpr
  apply mem_append_left
  rcases mem_append.mp ht with hread | hwrite
  · exact mem_append_left _ (mem_eraseDups.mpr hread)
  · exact mem_append_right _ (mem_eraseDups.mpr hwrite)

theorem fitting_of_checkShapes
    {k : Kernel} (hreferences : ∀ op ∈ k.ops, ∀ t ∈ op.mentions, k.Has t)
    (h : checkShapes k = .ok ()) {s : Step} (hs : Op.step s ∈ k.ops) :
    s.op.Fitting k := by
  have hcheck : checkOperands k s.id s.op = .ok () := forM_eq_ok h hs
  refine fitting_of_checkOperands ?_ hcheck
  intro t ht
  exact hreferences _ hs t (Step.mem_mentions ht)

theorem checkReferences_eq_ok
    {ops : List Op} (h : checkReferences k ops = .ok ()) {op : Op}
    (hop : op ∈ ops) {t : TileId} (ht : t ∈ op.mentions) : k.Has t := by
  induction ops with
  | nil => cases hop
  | cons first rest ih =>
      cases hmissing : missingTile? k first with
      | some missing =>
          simp only [checkReferences, hmissing] at h
          cases h
      | none =>
          simp only [checkReferences, hmissing] at h
          rcases mem_cons.mp hop with rfl | hin
          · have hpresent := find?_eq_none.mp hmissing t ht
            by_contra hge
            exact hpresent (by simp [Kernel.tile?, hge])
          · exact ih h hin

theorem nodup_of_checkDistinct
    {seen ids : List OpId} (h : checkDistinct seen ids = .ok ()) :
    ids.Nodup ∧ ∀ id ∈ ids, id ∉ seen := by
  induction ids generalizing seen with
  | nil => exact ⟨nodup_nil, by simp⟩
  | cons id rest ih =>
      simp only [checkDistinct] at h
      by_cases hseen : seen.contains id
      · rw [if_pos hseen] at h
        cases h
      · rw [if_neg hseen] at h
        obtain ⟨hnodup, hfresh⟩ := ih h
        have hid : id ∉ seen := by simpa using hseen
        refine ⟨nodup_cons.mpr ⟨fun hin => hfresh id hin mem_cons_self,
          hnodup⟩, ?_⟩
        intro other hother
        rcases mem_cons.mp hother with rfl | hin
        · exact hid
        · exact fun hin' => hfresh other hin (mem_cons_of_mem id hin')

end Inference

/-! ## Operations that define a tile -/

theorem Op.exists_defines
    {k : Kernel} {s : Step} (h : ∀ t ∈ s.op.tiles, k.Has t) :
    ∃ defined, (Op.step s).defines k = .ok defined ∧ ∀ t ∈ defined,
      t ∈ s.op.writes := by
  obtain ⟨id, op, strategy⟩ := s
  cases op with
  | alloc tile => exact ⟨[], rfl, by simp⟩
  | copy src dst width =>
      obtain ⟨shape, hshape⟩ := shapeOf_of_lt
        (h dst.tile (by simp))
      obtain ⟨tile, htile, -⟩ := shapeOf_eq_ok.mp hshape
      refine ⟨if dst.covers tile.shape then [dst.tile] else [], ?_, ?_⟩
      · simp only [defines, htile, ok_bind]
        rfl
      · intro t ht
        split at ht
        · exact ht
        · cases ht
  | fill tile value => exact ⟨[tile], rfl, fun _ ht => ht⟩
  | parallel vars extents body => exact ⟨[], rfl, by simp⟩
  | gemm a b c transposeA transposeB clear =>
      cases clear with
      | false => exact ⟨[], rfl, by simp⟩
      | true => exact ⟨[c], rfl, fun _ ht => ht⟩
  | reduce src dst axis kind clear =>
      cases clear with
      | false => exact ⟨[], rfl, by simp⟩
      | true => exact ⟨[dst], rfl, fun _ ht => ht⟩
  | relayout src dst => exact ⟨[dst], rfl, fun _ ht => ht⟩

theorem Shape.prod_squeeze (shape : Shape) :
    shape.squeeze.prod = shape.prod := by
  unfold Shape.squeeze
  induction shape with
  | nil => rfl
  | cons extent rest ih =>
      by_cases hone : extent = 1
      · simp [hone, ih]
      · simp [hone, ih]

theorem Shape.prod_eq_dropLast_mul_cols :
    shape.prod = shape.dropLast.prod * shape.cols := by
  unfold Shape.cols
  rcases eq_nil_or_concat shape with rfl | ⟨front, last, rfl⟩
  · rfl
  · simp

theorem Affine.eval_zero (env : Bindings) :
    (Affine.ofInt 0).eval env = .ok 0 := rfl

section

variable {α : Type} [Element α] {k : Kernel} {m : Memory α} {env : Bindings}

namespace TileOp

theorem windowPosition_eq_ok
    {base : List Int} {extents : Shape} {linear : Nat} {position : List Int}
    (h : windowPosition base extents linear = .ok position) :
    position = ((extents.unravel linear).zip base).map fun (i, b) =>
      (i : Int) + b := by
  apply eq_map_of_mapM_eq_ok _ h
  rintro ⟨i, b⟩ _ z hz
  exact (Checked.int64_settles _).of_eq_ok hz

theorem windowPosition_origin
    {base : List Int} {extents : Shape} {linear : Nat} {position : List Int}
    (hbase : ∀ b ∈ base, b = 0) (hlength : base.length = extents.length)
    (h : windowPosition base extents linear = .ok position) :
    position = (extents.unravel linear).map Int.ofNat := by
  rw [windowPosition_eq_ok h]
  have hzero : ∀ (positions : List Nat) (base : List Int), (∀ b ∈ base, b = 0) →
      base.length = positions.length →
      (positions.zip base).map (fun (i, b) => (i : Int) + b) =
        positions.map Int.ofNat := by
    intro positions
    induction positions with
    | nil =>
        intro base _ _
        rfl
    | cons i rest ih =>
        intro base hbase hlength
        cases base with
        | nil => cases hlength
        | cons b others =>
            have hb : b = 0 := hbase b mem_cons_self
            have hrest := ih others (fun c hc => hbase c (mem_cons_of_mem b hc))
              (by simpa using hlength)
            rw [zip_cons_cons, map_cons, map_cons, hrest, hb]
            simp
  exact hzero _ _ hbase (by simpa using hlength)

theorem copy_covers
    {src dst : Region} {width : Option Nat} {dstShape : Shape}
    {all : List (Write α)} (hfit : (copy src dst width).Fitting k)
    (hshape : k.shapeOf dst.tile = .ok dstShape) (hcovers : dst.covers dstShape)
    (h : (copy src dst width).eval k m env = .ok all) :
    Covers all dst.tile dstShape.prod := by
  obtain ⟨srcShape, dstShape', _, hdstShape', _, _, hextents, hoffsets,
      hsqueeze⟩ := hfit
  obtain ⟨srcShape, dstShape'', srcBase, dstBase, srcCount, dstCount, data, _,
      hdstShape'', _, hdstBase, hsrcCount, hdstCount, _, hall⟩ :=
    evalCopy_eq_ok h
  rw [hshape] at hdstShape' hdstShape''
  cases hdstShape'
  cases hdstShape''
  simp only [Region.covers, Bool.and_eq_true, beq_iff_eq, all_eq_true]
    at hcovers
  obtain ⟨hwhole, horigin⟩ := hcovers
  have hcount : min srcCount dstCount = dstShape.prod := by
    have hsrc : srcCount = src.extents.prod :=
      (Shape.numel_settles _).of_eq_ok hsrcCount
    have hdst : dstCount = dst.extents.prod :=
      (Shape.numel_settles _).of_eq_ok hdstCount
    have hsame : src.extents.prod = dst.extents.prod := by
      rw [← Shape.prod_squeeze src.extents, hsqueeze, Shape.prod_squeeze]
    rw [hsrc, hdst, hsame, Nat.min_self, hwhole]
  have hbase : dstBase = dst.offsets.map fun _ => 0 := by
    apply eq_map_of_mapM_eq_ok _ hdstBase
    intro form hform z hz
    rw [horigin form hform, Affine.eval_zero] at hz
    exact (Except.ok.inj hz).symm
  intro i hi
  obtain ⟨part, hpart, hsubset⟩ :=
    Counted.subset_of_flatMapM_eq_ok hall (Nat.zero_le i) (by omega)
  obtain ⟨write, hwrite, rfl⟩ := map_eq_ok_iff.mp hpart
  obtain ⟨_, sink, value, _, hsink, _, _, hplace⟩ := copyElement_eq_ok hwrite
  have hsink := windowPosition_origin (by simp [hbase])
    (by simp [hbase, hoffsets, hextents]) hsink
  rw [hsink, hwhole, Shape.linearIndex?_unravel hi] at hplace
  exact ⟨⟨dst.tile, i, value⟩, hsubset (by simp [hplace]), rfl, rfl⟩

theorem gemm_covers
    {a b c : TileId} {transposeA transposeB clear : Bool} {shapeC : Shape}
    {all : List (Write α)} (hshape : k.shapeOf c = .ok shapeC)
    (h : (gemm a b c transposeA transposeB clear).eval k m env = .ok all) :
    Covers all c shapeC.prod := by
  obtain ⟨_, _, shapeC', rows, _, _, _, _, _, _, hshape', hrows, _, _, _, _,
      rfl⟩ :=
    evalGemm_eq_ok h
  rw [hshape] at hshape'
  cases hshape'
  have hrows : rows = shapeC.dropLast.prod :=
    (Shape.rows_settles shapeC).of_eq_ok hrows
  intro i hi
  rw [Shape.prod_eq_dropLast_mul_cols, ← hrows] at hi
  have hcols : 0 < shapeC.cols := by
    rcases Nat.eq_zero_or_pos shapeC.cols with hzero | hpos
    · simp [hzero] at hi
    · exact hpos
  refine ⟨_, mem_flatMap.mpr ⟨i / shapeC.cols, ?_,
    mem_map.mpr ⟨i % shapeC.cols, ?_, rfl⟩⟩, rfl, ?_⟩
  · exact mem_range.mpr (Nat.div_lt_of_lt_mul (by rwa [Nat.mul_comm]))
  · exact mem_range.mpr (Nat.mod_lt i hcols)
  · exact Nat.div_add_mod' i shapeC.cols

theorem reduce_covers
    {src dst : TileId} {axis : Nat} {kind : ReduceKind} {clear : Bool}
    {dstShape : Shape} {all : List (Write α)}
    (hfit : (reduce src dst axis kind clear).Fitting k)
    (hshape : k.shapeOf dst = .ok dstShape)
    (h : (reduce src dst axis kind clear).eval k m env = .ok all) :
    Covers all dst dstShape.prod := by
  obtain ⟨shape, hsrc, hrank, haxis, hdst⟩ := hfit
  rw [hshape] at hdst
  cases hdst
  have h : evalReduce k m src dst axis kind clear = .ok all := h
  rw [evalReduce_eq, hsrc, ok_bind] at h
  obtain ⟨rows, hrows, h⟩ := bind_eq_ok h
  obtain ⟨_, _, h⟩ := bind_eq_ok h
  obtain ⟨_, _, h⟩ := bind_eq_ok h
  cases h
  have hrows : rows = shape.dropLast.prod :=
    (Shape.rows_settles shape).of_eq_ok hrows
  intro o ho
  refine ⟨_, mem_map.mpr ⟨o, mem_range.mpr ?_, rfl⟩, rfl, rfl⟩
  -- what remains of two extents is the one along the other axis
  obtain ⟨r, c, rfl⟩ := length_eq_two.mp hrank
  have hcases : axis = 0 ∨ axis = 1 := by
    simp only [length_cons, length_nil] at haxis
    omega
  rcases hcases with rfl | rfl
  · simpa [Shape.cols] using ho
  · simpa [hrows] using ho

theorem fill_covers
    {tile : TileId} {value : Float} {all : List (Write α)} (hfits : m.Fits k)
    (hshape : k.shapeOf tile = .ok shape)
    (h : (fill tile value).eval k m env = .ok all) :
    Covers all tile shape.prod := by
  obtain ⟨data, hdata, hsize⟩ := hfits.tile_eq_ok hshape
  obtain ⟨data', hdata', h⟩ := bind_eq_ok h
  rw [hdata] at hdata'
  cases hdata'
  cases h
  intro i hi
  exact ⟨_, mem_map.mpr ⟨i, mem_range.mpr (by omega), rfl⟩, rfl, rfl⟩

theorem relayout_covers
    {src dst : TileId} {all : List (Write α)} (hfits : m.Fits k)
    (hfit : (relayout src dst).Fitting k) (hshape : k.shapeOf dst = .ok shape)
    (h : (relayout src dst).eval k m env = .ok all) :
    Covers all dst shape.prod := by
  obtain ⟨shape', hsrc, hdst⟩ := hfit
  rw [hshape] at hdst
  cases hdst
  obtain ⟨data, hdata, hsize⟩ := hfits.tile_eq_ok hsrc
  obtain ⟨data', hdata', h⟩ := bind_eq_ok h
  rw [hdata] at hdata'
  cases hdata'
  cases h
  intro i hi
  have hi : i < data.toList.length := by simpa [hsize] using hi
  have hmem : (data.toList[i], i) ∈ data.toList.zipIdx := by
    rw [mem_zipIdx_iff_getElem?]
    exact getElem?_eq_getElem hi
  exact ⟨_, mem_map.mpr ⟨_, hmem, rfl⟩, rfl, rfl⟩

theorem covers_of_mem_defines
    {s : Step} {defined : List TileId} {all : List (Write α)} (hfits : m.Fits k)
    (hfit : s.op.Fitting k) (hdefines : (Op.step s).defines k = .ok defined)
    (ht : t ∈ defined) (hshape : k.shapeOf t = .ok shape)
    (h : s.op.eval k m env = .ok all) : Covers all t shape.prod := by
  obtain ⟨id, op, strategy⟩ := s
  cases op with
  | alloc tile =>
      cases hdefines
      cases ht
  | copy src dst width =>
      obtain ⟨tile, htile, hdefines⟩ := bind_eq_ok hdefines
      have hshapeOf : k.shapeOf dst.tile = .ok tile.shape :=
        shapeOf_eq_ok.mpr ⟨tile, htile, rfl⟩
      have hdefined := Except.ok.inj hdefines
      by_cases hcovers : dst.covers tile.shape
      · rw [if_pos hcovers] at hdefined
        rw [← hdefined, mem_singleton] at ht
        subst ht
        rw [hshape] at hshapeOf
        cases hshapeOf
        exact copy_covers hfit hshape hcovers h
      · rw [if_neg hcovers] at hdefined
        rw [← hdefined] at ht
        cases ht
  | fill tile value =>
      cases hdefines
      rw [mem_singleton] at ht
      subst ht
      exact fill_covers hfits hshape h
  | parallel vars extents body =>
      cases hdefines
      cases ht
  | gemm a b c transposeA transposeB clear =>
      cases clear with
      | false =>
          cases hdefines
          cases ht
      | true =>
          cases hdefines
          rw [mem_singleton] at ht
          subst ht
          exact gemm_covers hshape h
  | reduce src dst axis kind clear =>
      cases clear with
      | false =>
          cases hdefines
          cases ht
      | true =>
          cases hdefines
          rw [mem_singleton] at ht
          subst ht
          exact reduce_covers hfit hshape h
  | relayout src dst =>
      cases hdefines
      rw [mem_singleton] at ht
      subst ht
      exact relayout_covers hfits hfit hshape h

end TileOp

end

end TileProgram
