import TileProgram.Proofs.Lists
import TileProgram.Proofs.Memory
import TileProgram.Simulation.Eval

/-!
# Footprints of operations

What an operation writes depends on the tiles it reads and on the shapes of its
tiles, and it writes only the tiles it is said to write.  Both facts are stated
for an operation whose tiles are renamed, since a staged loop and a redirected
operation run on other tiles than those they name: if the renamed tiles have the
same shapes and hold what is read, the renamed operation makes the same writes,
renamed.
-/

namespace TileProgram

open Kernel List

def TileOp.tiles (op : TileOp) : List TileId := op.reads ++ op.writes

section

variable {t : TileId}

@[simp] theorem TileOp.mem_tiles_copy {src dst : Region} {width : Option Nat} :
    t ∈ (copy src dst width).tiles ↔ t = src.tile ∨ t = dst.tile := by
  simp [tiles, reads, writes]

@[simp] theorem TileOp.mem_tiles_fill {tile : TileId} {value : Float} :
    t ∈ (fill tile value).tiles ↔ t = tile := by
  simp [tiles, reads, writes]

@[simp] theorem TileOp.mem_tiles_parallel
    {vars : List String} {extents : Shape} {body : List Assign} :
    t ∈ (parallel vars extents body).tiles ↔
      ∃ assign ∈ body, ∃ a ∈ assign.dst :: assign.value.loads, a.tile = t := by
  simp only [tiles, reads, writes, mem_append, mem_flatMap, mem_map, mem_cons,
    exists_eq_or_imp, and_or_left, exists_or]
  exact or_comm

theorem TileOp.mem_tiles_of_access
    {vars : List String} {extents : Shape} {body : List Assign}
    {assign : Assign} {a : Access} (hassign : assign ∈ body)
    (ha : a ∈ assign.dst :: assign.value.loads) :
    a.tile ∈ (parallel vars extents body).tiles :=
  mem_tiles_parallel.mpr ⟨assign, hassign, a, ha, rfl⟩

@[simp] theorem TileOp.mem_tiles_gemm
    {a b c : TileId} {transposeA transposeB clear : Bool} :
    t ∈ (gemm a b c transposeA transposeB clear).tiles ↔
      t = a ∨ t = b ∨ t = c := by
  cases clear <;> simp [tiles, reads, writes]

@[simp] theorem TileOp.mem_tiles_reduce
    {src dst : TileId} {axis : Nat} {kind : ReduceKind} {clear : Bool} :
    t ∈ (reduce src dst axis kind clear).tiles ↔ t = src ∨ t = dst := by
  cases clear <;> simp [tiles, reads, writes]

@[simp] theorem TileOp.mem_tiles_relayout {src dst : TileId} :
    t ∈ (relayout src dst).tiles ↔ t = src ∨ t = dst := by
  simp [tiles, reads, writes]

end

/-- After renaming, the tiles of one memory look like those of another: `tiles`
have the same shapes and sizes, `reads` also the same contents. -/
structure Mirrors
    {α : Type} (f : TileId → TileId) (k k' : Kernel) (m m' : Memory α)
    (tiles reads : List TileId) : Prop where
  shape : ∀ t ∈ tiles, k'.shapeOf (f t) = k.shapeOf t
  extent : ∀ t ∈ tiles, m'.extent (f t) = m.extent t
  contents : ∀ t ∈ reads, m'.tile (f t) = m.tile t

section

variable {α : Type} [Element α] {k k' : Kernel} {m m' : Memory α}
  {env : Bindings} {f : TileId → TileId}

/-! ## Expressions -/

theorem Access.locate_eq (k : Kernel) (env : Bindings) (a : Access) :
    a.locate k env = (a.indices.mapM (·.eval env) >>= fun index =>
      (k.shapeOf a.tile).map fun shape => shape.linearIndex? index) := by
  unfold Access.locate Kernel.shapeOf
  apply bind_congr
  intro index
  rw [map_map, ← bind_pure_eq_map]

theorem Access.locate_rename
    {a : Access} (hshape : k'.shapeOf (f a.tile) = k.shapeOf a.tile) :
    ({ a with tile := f a.tile } : Access).locate k' env = a.locate k env := by
  rw [Access.locate_eq, Access.locate_eq, hshape]

omit [Element α] in
theorem Memory.read_congr
    {t t' : TileId} (h : m'.tile t' = m.tile t) (i : Nat) :
    m'.read t' i = m.read t i := by
  unfold Memory.read
  rw [h]

theorem Expr.eval_mapTiles
    {e : Expr}
    (hshape : ∀ a ∈ e.loads, k'.shapeOf (f a.tile) = k.shapeOf a.tile)
    (hread : ∀ a ∈ e.loads, m'.tile (f a.tile) = m.tile a.tile) :
    (e.mapTiles f).eval k' m' env = e.eval k m env := by
  induction e with
  | load a =>
      have ha : a ∈ (Expr.load a).loads := mem_singleton.mpr rfl
      simp only [Expr.mapTiles, Expr.eval]
      rw [Access.locate_rename (hshape a ha)]
      apply bind_congr
      intro place
      cases place with
      | none => rfl
      | some i => exact Memory.read_congr (hread a ha) i
  | const c => rfl
  | unary op x ih =>
      simp only [Expr.mapTiles, Expr.eval]
      rw [ih hshape hread]
  | binary op l r ihl ihr =>
      simp only [Expr.mapTiles, Expr.eval]
      rw [ihl (fun a ha => hshape a (mem_append_left _ ha))
          (fun a ha => hread a (mem_append_left _ ha)),
        ihr (fun a ha => hshape a (mem_append_right _ ha))
          (fun a ha => hread a (mem_append_right _ ha))]
  | cast type x ih =>
      simp only [Expr.mapTiles, Expr.eval]
      rw [ih hshape hread]

omit [Element α] in
theorem Expr.loads_mapTiles (f : TileId → TileId) (e : Expr) :
    (e.mapTiles f).loads = e.loads.map fun a =>
      { a with tile := f a.tile } := by
  induction e with
  | load a => rfl
  | const c => rfl
  | unary op x ih => exact ih
  | binary op l r ihl ihr =>
      simp only [Expr.mapTiles, Expr.loads]
      rw [ihl, ihr, map_append]
  | cast type x ih => exact ih

def Assign.mapTiles (f : TileId → TileId) (assign : Assign) : Assign :=
  ⟨{ assign.dst with tile := f assign.dst.tile }, assign.value.mapTiles f⟩

theorem Assign.eval_mapTiles
    {assign : Assign}
    (hshape : ∀ t ∈ assign.dst.tile :: assign.value.loads.map (·.tile),
      k'.shapeOf (f t) = k.shapeOf t)
    (hread : ∀ t ∈ assign.value.loads.map (·.tile), m'.tile (f t) = m.tile t) :
    (assign.mapTiles f).eval k' m' env =
      (assign.eval k m env).map (Option.map (Write.rename f)) := by
  unfold Assign.eval Assign.mapTiles
  rw [Expr.eval_mapTiles
      (fun a ha => hshape a.tile (mem_cons_of_mem _ (mem_map_of_mem ha)))
      (fun a ha => hread a.tile (mem_map_of_mem ha)),
    Access.locate_rename (hshape assign.dst.tile mem_cons_self), bind_map]
  apply bind_congr
  intro value
  rw [bind_map]
  apply bind_congr
  intro place
  cases place <;> rfl

theorem Assign.eval_tile
    {assign : Assign} {w : Write α} (h : assign.eval k m env = .ok (some w)) :
    w.tile = assign.dst.tile := by
  unfold Assign.eval at h
  obtain ⟨value, _, h⟩ := bind_eq_ok h
  obtain ⟨place, _, h⟩ := bind_eq_ok h
  obtain ⟨i, _, hw⟩ := Option.map_eq_some_iff.mp (Except.ok.inj h)
  rw [← hw]

/-! ## Operations -/

omit [Element α] in
theorem Memory.bind_extent
    {β : Type} (m : Memory α) (t : TileId) (g : Nat → Checked β) :
    (m.tile t >>= fun data => g data.size) = (m.extent t >>= g) := by
  unfold Memory.extent
  rw [map_bind]

namespace TileOp

theorem copyElement_rename
    (src dst : Region) (srcBase dstBase : List Int) (srcShape dstShape : Shape)
    (data : Array α) (linear : Nat) :
    copyElement { src with tile := f src.tile } { dst with tile := f dst.tile }
      srcBase dstBase
        srcShape dstShape data linear =
      (copyElement src dst srcBase dstBase srcShape dstShape data linear).map
        (Option.map (Write.rename f)) := by
  unfold copyElement
  rw [bind_map]
  apply bind_congr
  intro source
  rw [bind_map]
  apply bind_congr
  intro sink
  cases srcShape.linearIndex? source with
  | none => cases dstShape.linearIndex? sink <;> rfl
  | some i =>
      cases hvalue : data[i]? with
      | none => simp only [hvalue, error_bind, Except.map]
      | some value =>
          simp only [hvalue]
          cases dstShape.linearIndex? sink <;> rfl

theorem evalCopy_eq
    (k : Kernel) (m : Memory α) (env : Bindings) (src dst : Region) :
    evalCopy k m env src dst =
      (k.shapeOf src.tile >>= fun srcShape =>
        k.shapeOf dst.tile >>= fun dstShape =>
        src.offsets.mapM (·.eval env) >>= fun srcBase =>
        dst.offsets.mapM (·.eval env) >>= fun dstBase =>
        src.numel >>= fun srcCount => dst.numel >>= fun dstCount =>
        Checked.table Write.bytes (min srcCount dstCount) >>= fun count =>
        m.tile src.tile >>= fun data =>
        Counted.flatMapM (fun linear =>
          (copyElement src dst srcBase dstBase srcShape dstShape data
            linear).map Option.toList) 0 count) := by
  unfold evalCopy
  simp only [← bind_shapeOf, bind_pure_eq_map]

theorem evalCopy_eq_ok
    {src dst : Region} {all : List (Write α)}
    (h : evalCopy k m env src dst = .ok all) :
    ∃ srcShape dstShape srcBase dstBase srcCount dstCount data,
      k.shapeOf src.tile = .ok srcShape ∧ k.shapeOf dst.tile = .ok dstShape ∧
      src.offsets.mapM (·.eval env) = .ok srcBase ∧
      dst.offsets.mapM (·.eval env) = .ok dstBase ∧
      src.numel = .ok srcCount ∧ dst.numel = .ok dstCount ∧
      m.tile src.tile = .ok data ∧
      Counted.flatMapM (fun linear =>
        (copyElement src dst srcBase dstBase srcShape dstShape data linear).map
          Option.toList) 0 (min srcCount dstCount) = .ok all := by
  rw [evalCopy_eq] at h
  obtain ⟨srcShape, hsrcShape, h⟩ := bind_eq_ok h
  obtain ⟨dstShape, hdstShape, h⟩ := bind_eq_ok h
  obtain ⟨srcBase, hsrcBase, h⟩ := bind_eq_ok h
  obtain ⟨dstBase, hdstBase, h⟩ := bind_eq_ok h
  obtain ⟨srcCount, hsrcCount, h⟩ := bind_eq_ok h
  obtain ⟨dstCount, hdstCount, h⟩ := bind_eq_ok h
  obtain ⟨count, hcount, h⟩ := bind_eq_ok h
  obtain ⟨data, hdata, h⟩ := bind_eq_ok h
  have hmin : count = min srcCount dstCount := by
    unfold Checked.table at hcount
    split at hcount
    · exact (Except.ok.inj hcount).symm
    · cases hcount
  subst hmin
  exact ⟨srcShape, dstShape, srcBase, dstBase, srcCount, dstCount, data,
    hsrcShape, hdstShape, hsrcBase, hdstBase, hsrcCount, hdstCount, hdata, h⟩

theorem evalCopy_rename
    {src dst : Region} (hsrc : k'.shapeOf (f src.tile) = k.shapeOf src.tile)
    (hdst : k'.shapeOf (f dst.tile) = k.shapeOf dst.tile)
    (hread : m'.tile (f src.tile) = m.tile src.tile) :
    evalCopy k' m' env { src with tile := f src.tile }
      { dst with tile := f dst.tile } =
      (evalCopy k m env src dst).map (map (Write.rename f)) := by
  rw [evalCopy_eq, evalCopy_eq, hsrc, hdst, hread]
  simp only [bind_map]
  apply bind_congr
  intro srcShape
  apply bind_congr
  intro dstShape
  apply bind_congr
  intro srcBase
  apply bind_congr
  intro dstBase
  apply bind_congr
  intro srcCount
  apply bind_congr
  intro dstCount
  apply bind_congr
  intro count
  apply bind_congr
  intro data
  apply Counted.flatMapM_map
  intro linear
  rw [copyElement_rename, map_map, map_map]
  congr 1
  funext write
  cases write <;> rfl

theorem evalFill_rename
    {tile : TileId} (value : Float)
    (hextent : m'.extent (f tile) = m.extent tile) :
    (fill (f tile) value).eval k' m' env =
      ((fill tile value).eval k m env).map (map (Write.rename f)) := by
  have hfill : ∀ (k : Kernel) (m : Memory α) (tile : TileId),
      (fill tile value).eval k m env = (m.extent tile >>= fun size =>
        pure ((range size).map fun i => ⟨tile, i, Element.const value⟩)) := by
    intro k m tile
    rw [← Memory.bind_extent]
    rfl
  rw [hfill, hfill, hextent, bind_map]
  apply bind_congr
  intro size
  simp only [pure, Except.pure, Except.map, List.map_map]
  rfl

theorem evalGemm_eq
    (k : Kernel) (m : Memory α) (a b c : TileId)
    (transposeA transposeB clear : Bool) :
    evalGemm k m a b c transposeA transposeB clear =
      (k.shapeOf a >>= fun shapeA =>
        k.shapeOf b >>= fun shapeB => k.shapeOf c >>= fun shapeC =>
        shapeC.rows >>= fun rows =>
        (if transposeA then shapeA.rows else pure shapeA.cols) >>= fun depth =>
        m.tile a >>= fun dataA =>
        m.tile b >>= fun dataB => m.tile c >>= fun sums =>
        pure ((range rows).flatMap fun i => (range shapeC.cols).map fun j =>
          ⟨c, i * shapeC.cols + j,
            dot depth (matrixEntry dataA shapeA.cols transposeA i)
              (fun p => matrixEntry dataB shapeB.cols transposeB p j)
              (if clear then Element.zero
                else sums.getD (i * shapeC.cols + j) Element.zero)⟩)) := by
  unfold evalGemm
  simp only [← bind_shapeOf]
  cases transposeA <;> rfl

theorem evalGemm_eq_ok
    {a b c : TileId} {transposeA transposeB clear : Bool} {all : List (Write α)}
    (h : evalGemm k m a b c transposeA transposeB clear = .ok all) :
    ∃ shapeA shapeB shapeC rows depth dataA dataB sums,
      k.shapeOf a = .ok shapeA ∧ k.shapeOf b = .ok shapeB ∧
      k.shapeOf c = .ok shapeC ∧ shapeC.rows = .ok rows ∧
      (if transposeA then shapeA.rows else pure shapeA.cols) = .ok depth ∧
      m.tile a = .ok dataA ∧ m.tile b = .ok dataB ∧ m.tile c = .ok sums ∧
      all = (range rows).flatMap fun i => (range shapeC.cols).map fun j =>
        ⟨c, i * shapeC.cols + j,
          dot depth (matrixEntry dataA shapeA.cols transposeA i)
            (fun p => matrixEntry dataB shapeB.cols transposeB p j)
            (if clear then Element.zero
              else sums.getD (i * shapeC.cols + j) Element.zero)⟩ := by
  rw [evalGemm_eq] at h
  obtain ⟨shapeA, hshapeA, h⟩ := bind_eq_ok h
  obtain ⟨shapeB, hshapeB, h⟩ := bind_eq_ok h
  obtain ⟨shapeC, hshapeC, h⟩ := bind_eq_ok h
  obtain ⟨rows, hrows, h⟩ := bind_eq_ok h
  obtain ⟨depth, hdepth, h⟩ := bind_eq_ok h
  obtain ⟨dataA, hdataA, h⟩ := bind_eq_ok h
  obtain ⟨dataB, hdataB, h⟩ := bind_eq_ok h
  obtain ⟨sums, hsums, h⟩ := bind_eq_ok h
  exact ⟨shapeA, shapeB, shapeC, rows, depth, dataA, dataB, sums, hshapeA,
    hshapeB, hshapeC, hrows, hdepth, hdataA, hdataB, hsums,
    (Except.ok.inj h).symm⟩

theorem evalGemm_rename
    {a b c : TileId} (transposeA transposeB clear : Bool)
    (hshape : ∀ t ∈ [a, b, c], k'.shapeOf (f t) = k.shapeOf t)
    (hextent : m'.extent (f c) = m.extent c)
    (hread : ∀ t ∈ (if clear then [a, b] else [a, b, c]),
      m'.tile (f t) = m.tile t) :
    evalGemm k' m' (f a) (f b) (f c) transposeA transposeB clear =
      (evalGemm k m a b c transposeA transposeB clear).map
        (map (Write.rename f)) := by
  have ha : m'.tile (f a) = m.tile a := hread a (by cases clear <;> simp)
  have hb : m'.tile (f b) = m.tile b := hread b (by cases clear <;> simp)
  rw [evalGemm_eq, evalGemm_eq, hshape a (by simp), hshape b (by simp),
    hshape c (by simp), ha, hb]
  simp only [bind_map]
  apply bind_congr
  intro shapeA
  apply bind_congr
  intro shapeB
  apply bind_congr
  intro shapeC
  apply bind_congr
  intro rows
  apply bind_congr
  intro depth
  apply bind_congr
  intro dataA
  apply bind_congr
  intro dataB
  cases clear with
  | false =>
      rw [hread c (by simp)]
      apply bind_congr
      intro sums
      simp [pure, Except.pure, Except.map, map_flatMap, Function.comp_def,
        Write.rename]
  | true =>
      -- the accumulator is only looked up
      simp only [if_true]
      rw [Memory.bind_extent m' (f c) fun _ => _,
        Memory.bind_extent m c fun _ => _, hextent]
      apply bind_congr
      intro size
      simp [pure, Except.pure, Except.map, map_flatMap, Function.comp_def,
        Write.rename]

theorem evalReduce_eq
    (k : Kernel) (m : Memory α) (src dst : TileId) (axis : Nat)
    (kind : ReduceKind) (clear : Bool) :
    evalReduce k m src dst axis kind clear =
      (k.shapeOf src >>= fun shape => shape.rows >>= fun rows =>
        m.tile src >>= fun data => m.tile dst >>= fun sums =>
        pure ((range (if axis = 0 then shape.cols else rows)).map fun o =>
          ⟨dst, o, Counted.fold (fun i acc => Element.combine kind acc
              (data.getD (if axis = 0 then i * shape.cols + o
                else o * shape.cols + i) Element.zero))
            0 (if axis = 0 then rows else shape.cols)
            (if clear then Element.const kind.identity
              else sums.getD o Element.zero)⟩)) := by
  unfold evalReduce
  simp only [← bind_shapeOf]

theorem evalReduce_rename
    {src dst : TileId} (axis : Nat) (kind : ReduceKind) (clear : Bool)
    (hshape : k'.shapeOf (f src) = k.shapeOf src)
    (hextent : m'.extent (f dst) = m.extent dst)
    (hread : ∀ t ∈ (if clear then [src] else [src, dst]),
      m'.tile (f t) = m.tile t) :
    evalReduce k' m' (f src) (f dst) axis kind clear =
      (evalReduce k m src dst axis kind clear).map (map (Write.rename f)) := by
  have hsrc : m'.tile (f src) = m.tile src :=
    hread src (by cases clear <;> simp)
  rw [evalReduce_eq, evalReduce_eq, hshape, hsrc]
  simp only [bind_map]
  apply bind_congr
  intro shape
  apply bind_congr
  intro rows
  apply bind_congr
  intro data
  cases clear with
  | false =>
      rw [hread dst (by simp)]
      apply bind_congr
      intro sums
      simp [pure, Except.pure, Except.map, Function.comp_def, Write.rename]
  | true =>
      simp only [if_true]
      rw [Memory.bind_extent m' (f dst) fun _ => _,
        Memory.bind_extent m dst fun _ => _, hextent]
      apply bind_congr
      intro size
      simp [pure, Except.pure, Except.map, Function.comp_def, Write.rename]

theorem evalRelayout_rename
    {src : TileId} (dst : TileId) (hread : m'.tile (f src) = m.tile src) :
    (relayout (f src) (f dst)).eval k' m' env =
      ((relayout src dst).eval k m env).map (map (Write.rename f)) := by
  simp only [eval]
  rw [hread, bind_map]
  apply bind_congr
  intro data
  simp [pure, Except.pure, Except.map, Function.comp_def, Write.rename]

theorem evalParallel_eq
    (k : Kernel) (m : Memory α) (env : Bindings) (vars : List String)
    (extents : Shape) (body : List Assign) :
    evalParallel k m env vars extents body =
      (extents.numel >>= fun count => Counted.flatMapM (fun linear =>
        (body.mapM
          (Assign.eval k m (env.bindAll vars (extents.unravel linear)))).map
          reduceOption) 0 count) := by
  unfold evalParallel
  simp only [bind_pure_eq_map]

theorem evalParallel_rename
    (vars : List String) (extents : Shape) {body : List Assign}
    (hshape : ∀ assign ∈ body,
      ∀ t ∈ assign.dst.tile :: assign.value.loads.map (·.tile),
        k'.shapeOf (f t) = k.shapeOf t)
    (hread : ∀ assign ∈ body,
      ∀ t ∈ assign.value.loads.map (·.tile), m'.tile (f t) = m.tile t) :
    evalParallel k' m' env vars extents (body.map (Assign.mapTiles f)) =
      (evalParallel k m env vars extents body).map (map (Write.rename f)) := by
  rw [evalParallel_eq, evalParallel_eq, bind_map]
  apply bind_congr
  intro count
  apply Counted.flatMapM_map
  intro linear
  rw [mapM_map_eq_map fun assign hassign =>
    Assign.eval_mapTiles (hshape assign hassign) (hread assign hassign),
      map_map, map_map]
  congr 1
  funext results
  simp only [reduceOption_eq_filterMap, filterMap_map, map_filterMap]
  rfl

theorem eval_mapTiles
    {op : TileOp} (h : Mirrors f k k' m m' op.tiles op.reads) :
    (op.mapTiles f).eval k' m' env =
      (op.eval k m env).map (map (Write.rename f)) := by
  cases op with
  | alloc tile => rfl
  | copy src dst width =>
      exact evalCopy_rename (h.shape src.tile (by simp))
        (h.shape dst.tile (by simp)) (h.contents src.tile (by simp [reads]))
  | fill tile value => exact evalFill_rename value (h.extent tile (by simp))
  | parallel vars extents body =>
      apply evalParallel_rename
      · intro assign hassign t ht
        apply h.shape
        rcases mem_cons.mp ht with heq | hload
        · exact mem_append_right _ (mem_map.mpr ⟨assign, hassign, heq.symm⟩)
        · exact mem_append_left _ (mem_flatMap.mpr ⟨assign, hassign, hload⟩)
      · intro assign hassign t ht
        exact h.contents t (mem_flatMap.mpr ⟨assign, hassign, ht⟩)
  | gemm a b c transposeA transposeB clear =>
      apply evalGemm_rename
      · intro t ht
        apply h.shape
        simpa using ht
      · exact h.extent c (by simp)
      · exact h.contents
  | reduce src dst axis kind clear =>
      apply evalReduce_rename
      · exact h.shape src (by simp)
      · exact h.extent dst (by simp)
      · exact h.contents
  | relayout src dst =>
      exact evalRelayout_rename dst (h.contents src (by simp [reads]))

theorem mapTiles_id (op : TileOp) : op.mapTiles id = op := by
  have hexpr : ∀ e : Expr, e.mapTiles id = e := by
    intro e
    induction e with
    | load a => rfl
    | const c => rfl
    | unary op x ih => exact congrArg (Expr.unary op) ih
    | binary op l r ihl ihr => exact congrArg₂ (Expr.binary op) ihl ihr
    | cast type x ih => exact congrArg (Expr.cast type) ih
  cases op with
  | parallel vars extents body =>
      simp only [mapTiles, hexpr, id_eq]
      rw [map_id']
  | _ => rfl

/-- What an operation writes depends on the shapes of its tiles and on what it
reads. -/
theorem eval_congr
    {op : TileOp} (hshape : ∀ t ∈ op.tiles, k'.shapeOf t = k.shapeOf t)
    (hextent : ∀ t ∈ op.tiles, m'.extent t = m.extent t)
    (hread : ∀ t ∈ op.reads, m'.tile t = m.tile t) :
    op.eval k' m' env = op.eval k m env := by
  have hmirrors : Mirrors id k k' m m' op.tiles op.reads :=
    ⟨hshape, hextent, hread⟩
  have hsame : (op.mapTiles id).eval k' m' env =
      (op.eval k m env).map (map (Write.rename id)) := eval_mapTiles hmirrors
  rw [mapTiles_id] at hsame
  rw [hsame]
  have hrename : map (Write.rename id) =
      (id : List (Write α) → List (Write α)) := by
    funext all
    exact map_id all
  rw [hrename]
  cases op.eval k m env <;> rfl

theorem copyElement_eq_ok
    {src dst : Region} {srcBase dstBase : List Int} {srcShape dstShape : Shape}
    {data : Array α} {linear : Nat} {write : Option (Write α)}
    (h : copyElement src dst srcBase dstBase srcShape dstShape data linear =
      .ok write) :
    ∃ source sink value,
      windowPosition srcBase src.extents linear = .ok source ∧
      windowPosition dstBase dst.extents linear = .ok sink ∧
      (∀ i, srcShape.linearIndex? source = some i → data[i]? = some value) ∧
      (srcShape.linearIndex? source = none → value = Element.zero) ∧
      write = (dstShape.linearIndex? sink).map fun i =>
        ⟨dst.tile, i, value⟩ := by
  unfold copyElement at h
  obtain ⟨source, hsource, h⟩ := bind_eq_ok h
  obtain ⟨sink, hsink, h⟩ := bind_eq_ok h
  cases hplace : srcShape.linearIndex? source with
  | none =>
      rw [hplace] at h
      exact ⟨source, sink, Element.zero, hsource, hsink, by simp [hplace],
        by simp, (Except.ok.inj h).symm⟩
  | some i =>
      cases hvalue : data[i]? with
      | none =>
          simp only [hplace, hvalue, error_bind] at h
          cases h
      | some value =>
          simp only [hplace, hvalue] at h
          exact ⟨source, sink, value, hsource, hsink, by simp [hplace, hvalue],
            by simp [hplace], (Except.ok.inj h).symm⟩

theorem tile_mem_writes
    {op : TileOp} {all : List (Write α)} (h : op.eval k m env = .ok all)
    {w : Write α} (hw : w ∈ all) : w.tile ∈ op.writes := by
  cases op with
  | alloc tile =>
      cases h
      cases hw
  | copy src dst width =>
      obtain ⟨_, _, _, _, _, _, _, _, _, _, _, _, _, _, h⟩ := evalCopy_eq_ok h
      obtain ⟨linear, part, hpart, hin⟩ := Counted.exists_of_mem_flatMapM h hw
      obtain ⟨write, hwrite, rfl⟩ := map_eq_ok_iff.mp hpart
      cases write with
      | none => cases hin
      | some v =>
          obtain ⟨_, _, _, _, _, _, _, hplace⟩ := copyElement_eq_ok hwrite
          obtain ⟨i, _, hv⟩ := Option.map_eq_some_iff.mp hplace.symm
          rw [mem_singleton.mp hin, ← hv]
          exact mem_singleton.mpr rfl
  | fill tile value =>
      obtain ⟨_, _, h⟩ := bind_eq_ok h
      cases h
      obtain ⟨i, _, rfl⟩ := mem_map.mp hw
      exact mem_singleton.mpr rfl
  | parallel vars extents body =>
      have h : evalParallel k m env vars extents body = .ok all := h
      rw [evalParallel_eq] at h
      obtain ⟨_, _, h⟩ := bind_eq_ok h
      obtain ⟨linear, part, hpart, hin⟩ := Counted.exists_of_mem_flatMapM h hw
      obtain ⟨results, hresults, rfl⟩ := map_eq_ok_iff.mp hpart
      have hsome : some w ∈ results := by
        simpa [reduceOption_eq_filterMap] using hin
      obtain ⟨assign, hassign, heval⟩ := exists_of_mem_mapM hresults hsome
      exact mem_map.mpr ⟨assign, hassign, (Assign.eval_tile heval).symm⟩
  | gemm a b c transposeA transposeB clear =>
      obtain ⟨_, _, _, _, _, _, _, _, _, _, _, _, _, _, _, _, rfl⟩ :=
        evalGemm_eq_ok h
      obtain ⟨i, _, hrow⟩ := mem_flatMap.mp hw
      obtain ⟨j, _, rfl⟩ := mem_map.mp hrow
      exact mem_singleton.mpr rfl
  | reduce src dst axis kind clear =>
      have h : evalReduce k m src dst axis kind clear = .ok all := h
      rw [evalReduce_eq] at h
      obtain ⟨_, _, h⟩ := bind_eq_ok h
      obtain ⟨_, _, h⟩ := bind_eq_ok h
      obtain ⟨_, _, h⟩ := bind_eq_ok h
      obtain ⟨_, _, h⟩ := bind_eq_ok h
      cases h
      obtain ⟨o, _, rfl⟩ := mem_map.mp hw
      exact mem_singleton.mpr rfl
  | relayout src dst =>
      obtain ⟨data, _, h⟩ := bind_eq_ok h
      cases h
      obtain ⟨place, _, rfl⟩ := mem_map.mp hw
      exact mem_singleton.mpr rfl

end TileOp

end

end TileProgram
