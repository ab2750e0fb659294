import TileProgram.Proofs.Checked
import TileProgram.Proofs.Footprint
import TileProgram.Proofs.Index
import TileProgram.Simulation.Run

/-!
# Execution of operations

An operation whose tiles are in the table is stopped by nothing but an exhausted
word.  Executing it changes the tiles it writes and no others; operations that
touch nothing the other writes can be exchanged.
-/

namespace TileProgram

open Checked Kernel List

variable {t : TileId} {op : TileOp} {f : TileId → TileId} {k' : Kernel}

/-! ## Arithmetic stops only when a word is exhausted -/

theorem Shape.numel_settles (shape : Shape) :
    Settles .overflow (fun result => result = shape.prod) shape.numel :=
  product_settles word64_settles shape

theorem Shape.rows_settles (shape : Shape) :
    Settles .overflow (fun result => result = shape.dropLast.prod) shape.rows :=
  product_settles word32_settles shape.dropLast

theorem Affine.eval_settles (a : Affine) (env : Bindings) :
    Settles .overflow (fun _ => True) (a.eval env) := by
  unfold Affine.eval
  apply Settles.bind (P := fun _ => True)
  · apply Settles.foldlM _ trivial
    rintro ⟨v, c⟩ _ acc _
    apply (int64_settles _).bind
    intro product _
    exact (int64_settles _).mono fun _ _ => trivial
  · intro total _
    exact (int64_settles _).mono fun _ _ => trivial

theorem Affine.mapM_eval_settles (forms : List Affine) (env : Bindings) :
    Settles .overflow (fun _ => True) (forms.mapM (·.eval env)) :=
  (Settles.mapM fun a _ => a.eval_settles env).mono fun _ _ => trivial

/-! ## Operations on tiles of the table -/

theorem Kernel.shapeOf_of_lt {k : Kernel} (h : k.Has t) :
    ∃ shape, k.shapeOf t = .ok shape := by
  unfold Kernel.shapeOf Kernel.tile Checked.entry
  rw [Array.getElem?_eq_getElem h]
  exact ⟨_, rfl⟩

section

variable {α : Type} [Element α] {k : Kernel} {m : Memory α} {env : Bindings}

omit [Element α] in
theorem Memory.Fits.tile_of_lt (hfits : m.Fits k) (h : k.Has t) :
    ∃ shape data, k.shapeOf t = .ok shape ∧ m.tile t = .ok data ∧
      data.size = shape.prod := by
  obtain ⟨shape, hshape⟩ := shapeOf_of_lt h
  obtain ⟨data, hdata, hsize⟩ := hfits.tile_eq_ok hshape
  exact ⟨shape, data, hshape, hdata, hsize⟩

/-- A word is exhausted, and `W` does not hold. -/
def Short (W : Prop) (fault : Fault) : Prop := fault = .overflow ∧ ¬W

omit [Element α] in
theorem Settles.short
    {β : Type} {P : β → Prop} {x : Checked β} {W : Prop}
    (h : Settles .overflow P x) (hw : W → Returns x) : Meets (Short W) P x := by
  rcases h with rfl | ⟨a, rfl, ha⟩
  · exact ⟨rfl, fun hW => nomatch hw hW⟩
  · exact ha

variable {W : Prop}

theorem Access.locate_meets
    {a : Access} (h : k.Has a.tile)
    (hw : W → ∀ index ∈ a.indices, Returns (index.eval env)) :
    Meets (Short W)
      (fun place => ∀ i, place = some i →
        ∃ shape, k.shapeOf a.tile = .ok shape ∧ i < shape.prod)
      (a.locate k env) := by
  obtain ⟨shape, hshape⟩ := shapeOf_of_lt h
  rw [Access.locate_eq]
  apply ((Affine.mapM_eval_settles a.indices env).short fun hW =>
    Returns.mapM (hw hW)).bind
  intro index _ _
  rw [hshape]
  intro i hi
  exact ⟨shape, rfl, Shape.linearIndex?_lt hi⟩

theorem Expr.eval_meets
    (hfits : m.Fits k) {e : Expr} (h : ∀ a ∈ e.loads, k.Has a.tile)
    (hw : W → ∀ a ∈ e.loads, ∀ index ∈ a.indices, Returns (index.eval env)) :
    Meets (Short W) (fun _ => True) (e.eval k m env) := by
  induction e with
  | load a =>
      have ha : a ∈ (Expr.load a).loads := mem_singleton.mpr rfl
      apply (Access.locate_meets (h a ha) fun hW => hw hW a ha).bind
      intro place _ hplace
      cases place with
      | none => trivial
      | some i =>
          obtain ⟨shape, hshape, hi⟩ := hplace i rfl
          obtain ⟨data, hdata, hsize⟩ := hfits.tile_eq_ok hshape
          have hread : m.read a.tile i = .ok (data[i]) := by
            unfold Memory.read
            rw [hdata, ok_bind, Array.getElem?_eq_getElem (by omega)]
          simp only [hread]
          trivial
  | const c => trivial
  | unary op x ih => exact (ih h hw).bind fun _ _ _ => trivial
  | binary op l r ihl ihr =>
      apply (ihl (fun a ha => h a (mem_append_left _ ha))
        fun hW a ha => hw hW a (mem_append_left _ ha)).bind
      intro left _ _
      exact (ihr (fun a ha => h a (mem_append_right _ ha)) fun hW a ha =>
        hw hW a (mem_append_right _ ha)).bind fun _ _ _ => trivial
  | cast type x ih => exact (ih h hw).bind fun _ _ _ => trivial

theorem Assign.eval_meets
    (hfits : m.Fits k) {assign : Assign}
    (h : ∀ a ∈ assign.dst :: assign.value.loads, k.Has a.tile)
    (hw : W → ∀ a ∈ assign.dst :: assign.value.loads,
      ∀ index ∈ a.indices, Returns (index.eval env)) :
    Meets (Short W) (fun _ => True) (assign.eval k m env) := by
  unfold Assign.eval
  apply (Expr.eval_meets hfits (fun a ha => h a (mem_cons_of_mem _ ha))
    fun hW a ha => hw hW a (mem_cons_of_mem _ ha)).bind
  intro value _ _
  exact (Access.locate_meets (h assign.dst mem_cons_self)
    fun hW => hw hW assign.dst mem_cons_self).bind fun _ _ _ => trivial

omit [Element α] in
theorem Counted.flatMapM_meets
    {β : Type} {E : Fault → Prop} {f : Nat → Checked (List β)} {count : Nat}
    (h : ∀ i < count, Meets E (fun _ => True) (f i)) :
    Meets E (fun _ => True) (Counted.flatMapM f 0 count) := by
  rw [Counted.flatMapM_eq_flatten_mapM, ← bind_pure_eq_map]
  apply (Meets.mapM fun i hi => h i (by simpa using mem_range'_1.mp hi)).bind
  exact fun _ _ _ => trivial

namespace TileOp

/-- The words that an evaluation needs: offsets and indices, counts of elements
and rows, and the positions that a copy reads and writes. -/
def InWords (k : Kernel) (env : Bindings) : TileOp → Prop
  | copy src dst _ => (∀ a ∈ src.offsets ++ dst.offsets, Returns (a.eval env)) ∧
      Returns src.extents.numel ∧ Returns dst.extents.numel ∧
      Write.bytes * min src.extents.prod dst.extents.prod < 0x8000000000000000 ∧
      ∀ srcBase dstBase, src.offsets.mapM (·.eval env) = .ok srcBase →
        dst.offsets.mapM (·.eval env) = .ok dstBase →
        ∀ i < min src.extents.prod dst.extents.prod,
          Returns (windowPosition srcBase src.extents i) ∧
            Returns (windowPosition dstBase dst.extents i)
  | parallel vars extents body => Returns extents.numel ∧ ∀ i < extents.prod,
      ∀ assign ∈ body,
        ∀ a ∈ assign.dst :: assign.value.loads, ∀ index ∈ a.indices,
          Returns (index.eval (env.bindAll vars (extents.unravel i)))
  | gemm a _ c transposeA _ _ =>
    (∀ shape, k.shapeOf c = .ok shape → Returns shape.rows) ∧
      (transposeA = true →
        ∀ shape, k.shapeOf a = .ok shape → Returns shape.rows)
  | reduce src .. => ∀ shape, k.shapeOf src = .ok shape → Returns shape.rows
  | alloc _ | fill .. | relayout .. => True

theorem windowPosition_settles
    (base : List Int) (extents : Shape) (linear : Nat) :
    Settles .overflow (fun _ => True) (windowPosition base extents linear) := by
  unfold windowPosition
  apply (Settles.mapM (P := fun _ => True) _).mono fun _ _ => trivial
  rintro ⟨i, b⟩ _
  exact (int64_settles _).mono fun _ _ => trivial

theorem copyElement_meets
    {src dst : Region} {srcBase dstBase : List Int} {srcShape dstShape : Shape}
    {data : Array α} (hsize : data.size = srcShape.prod) {linear : Nat}
    (hw : W → Returns (windowPosition srcBase src.extents linear) ∧
      Returns (windowPosition dstBase dst.extents linear)) :
    Meets (Short W) (fun _ => True)
      (copyElement src dst srcBase dstBase srcShape dstShape data linear) := by
  unfold copyElement
  apply ((windowPosition_settles srcBase src.extents linear).short fun hW =>
    (hw hW).1).bind
  intro source _ _
  apply ((windowPosition_settles dstBase dst.extents linear).short fun hW =>
    (hw hW).2).bind
  intro sink _ _
  cases hsource : srcShape.linearIndex? source with
  | none => trivial
  | some i =>
      have hi : i < data.size := by
        rw [hsize]
        exact Shape.linearIndex?_lt hsource
      simp only [Array.getElem?_eq_getElem hi]
      trivial

theorem evalCopy_meets
    (hfits : m.Fits k) {src dst : Region} {width : Option Nat}
    (hsrc : k.Has src.tile) (hdst : k.Has dst.tile)
    (hw : W → (copy src dst width).InWords k env) :
    Meets (Short W) (fun _ => True) (evalCopy k m env src dst) := by
  obtain ⟨srcShape, data, hsrcShape, hdata, hsize⟩ := hfits.tile_of_lt hsrc
  obtain ⟨dstShape, hdstShape⟩ := shapeOf_of_lt hdst
  rw [evalCopy_eq, hsrcShape, hdstShape, ok_bind, ok_bind]
  apply ((Affine.mapM_eval_settles src.offsets env).short fun hW =>
    Returns.mapM fun a ha => (hw hW).1 a (mem_append_left _ ha)).bind
  intro srcBase hsrcBase _
  apply ((Affine.mapM_eval_settles dst.offsets env).short fun hW =>
    Returns.mapM fun a ha => (hw hW).1 a (mem_append_right _ ha)).bind
  intro dstBase hdstBase _
  apply (src.extents.numel_settles.short fun hW => (hw hW).2.1).bind
  rintro _ _ rfl
  apply (dst.extents.numel_settles.short fun hW => (hw hW).2.2.1).bind
  rintro _ _ rfl
  apply ((table_settles _ _).short fun hW => ⟨_, if_pos (hw hW).2.2.2.1⟩).bind
  rintro _ _ rfl
  rw [hdata, ok_bind]
  apply Counted.flatMapM_meets
  intro linear hlinear
  rw [← bind_pure_eq_map]
  apply (copyElement_meets hsize fun hW =>
    (hw hW).2.2.2.2 srcBase dstBase hsrcBase hdstBase linear hlinear).bind
  exact fun _ _ _ => trivial

/-- An operation on tiles of the table is stopped by nothing but an exhausted
word, and not where its words suffice. -/
theorem eval_meets
    (hfits : m.Fits k) (h : ∀ t ∈ op.tiles, k.Has t)
    (hw : W → op.InWords k env) :
    Meets (Short W) (fun _ => True) (op.eval k m env) := by
  cases op with
  | alloc tile => trivial
  | copy src dst width =>
      exact evalCopy_meets hfits (h src.tile (by simp))
        (h dst.tile (by simp)) hw
  | fill tile value =>
      obtain ⟨shape, data, _, hdata, _⟩ := hfits.tile_of_lt (h tile (by simp))
      simp only [eval]
      rw [hdata]
      trivial
  | parallel vars extents body =>
      simp only [eval]
      rw [evalParallel_eq]
      apply (extents.numel_settles.short fun hW => (hw hW).1).bind
      rintro _ _ rfl
      apply Counted.flatMapM_meets
      intro linear hlinear
      rw [← bind_pure_eq_map]
      refine (Meets.mapM (P := fun _ => True) fun assign hassign => ?_).bind
        fun _ _ _ => trivial
      exact Assign.eval_meets hfits
        (fun a ha => h _ (mem_tiles_of_access hassign ha)) fun hW =>
        (hw hW).2 linear hlinear assign hassign
  | gemm a b c transposeA transposeB clear =>
      obtain ⟨shapeA, dataA, hshapeA, hdataA, _⟩ :=
        hfits.tile_of_lt (h a (by simp))
      obtain ⟨shapeB, dataB, hshapeB, hdataB, _⟩ :=
        hfits.tile_of_lt (h b (by simp))
      obtain ⟨shapeC, sums, hshapeC, hsums, _⟩ :=
        hfits.tile_of_lt (h c (by simp))
      simp only [eval]
      rw [evalGemm_eq, hshapeA, hshapeB, hshapeC, ok_bind, ok_bind, ok_bind]
      apply (shapeC.rows_settles.short fun hW => (hw hW).1 shapeC hshapeC).bind
      intro rows _ _
      have hdepth : Meets (Short W) (fun _ => True)
          (if transposeA then shapeA.rows else pure shapeA.cols) := by
        cases transposeA with
        | false => trivial
        | true =>
            exact (shapeA.rows_settles.short fun hW =>
              (hw hW).2 rfl shapeA hshapeA).mono fun _ _ => trivial
      apply hdepth.bind
      intro depth _ _
      rw [hdataA, hdataB, hsums]
      trivial
  | reduce src dst axis kind clear =>
      obtain ⟨shape, data, hshape, hdata, _⟩ :=
        hfits.tile_of_lt (h src (by simp))
      obtain ⟨_, sums, _, hsums, _⟩ := hfits.tile_of_lt (h dst (by simp))
      simp only [eval]
      rw [evalReduce_eq, hshape, ok_bind]
      apply (shape.rows_settles.short fun hW => hw hW shape hshape).bind
      intro rows _ _
      rw [hdata, hsums]
      trivial
  | relayout src dst =>
      obtain ⟨shape, data, _, hdata, _⟩ := hfits.tile_of_lt (h src (by simp))
      simp only [eval]
      rw [hdata]
      trivial

theorem eval_settles (hfits : m.Fits k) (h : ∀ t ∈ op.tiles, k.Has t) :
    Settles .overflow (fun _ => True) (op.eval k m env) := by
  have hmeets : Meets (Short False) (fun _ => True) (op.eval k m env) :=
    eval_meets hfits h False.elim
  cases hop : op.eval k m env with
  | error e =>
      rw [hop] at hmeets
      exact Or.inl (congrArg _ hmeets.1)
  | ok all => exact Settles.ok trivial

theorem returns_eval
    (hfits : m.Fits k) (h : ∀ t ∈ op.tiles, k.Has t)
    (hwords : op.InWords k env) : Returns (op.eval k m env) := by
  have hmeets : Meets (Short (op.InWords k env)) (fun _ => True)
      (op.eval k m env) :=
    eval_meets hfits h id
  cases hop : op.eval k m env with
  | error e =>
      rw [hop] at hmeets
      exact absurd hwords hmeets.2
  | ok all => exact Returns.ok all

/-! ## Execution -/

def exec (k : Kernel) (env : Bindings) (op : TileOp) (m : Memory α) :
    Checked (Memory α) :=
  op.eval k m env >>= m.commit

theorem perform_eq (s : Machine α) (k : Kernel) (op : TileOp) :
    s.perform k op = (op.exec k s.env s.memory).map fun memory =>
      { s with memory := memory } := by
  unfold Machine.perform Machine.commit exec
  rw [bind_map]
  congr 1

theorem exec_eq_ok_iff {m' : Memory α} :
    op.exec k env m = .ok m' ↔
      ∃ all, op.eval k m env = .ok all ∧
        (∀ w ∈ all, w.tile.index < m.tiles.size) ∧ m' = m.put all := by
  unfold exec
  rw [bind_eq_ok_iff]
  constructor
  · rintro ⟨all, heval, hcommit⟩
    exact ⟨all, heval, Memory.commit_eq_ok_iff.mp hcommit⟩
  · rintro ⟨all, heval, hcommit⟩
    exact ⟨all, heval, Memory.commit_eq_ok_iff.mpr hcommit⟩

theorem tile_exec_of_not_mem
    {m' : Memory α} (h : op.exec k env m = .ok m') (ht : t ∉ op.writes) :
    m'.tile t = m.tile t := by
  obtain ⟨all, heval, _, rfl⟩ := exec_eq_ok_iff.mp h
  apply Memory.tile_put_of_forall_ne
  intro w hw heq
  exact ht (heq ▸ tile_mem_writes heval hw)

theorem fits_exec
    {m' : Memory α} (hfits : m.Fits k) (h : op.exec k env m = .ok m') :
    m'.Fits k := by
  obtain ⟨all, _, _, rfl⟩ := exec_eq_ok_iff.mp h
  exact hfits.put all

theorem exec_settles (hfits : m.Fits k) (h : ∀ t ∈ op.tiles, k.Has t) :
    Settles .overflow (fun m' => m'.Fits k) (op.exec k env m) := by
  rcases eval_settles hfits h with hstop | ⟨all, heval, _⟩
  · left
    unfold exec
    rw [hstop, error_bind]
  · right
    refine ⟨m.put all, exec_eq_ok_iff.mpr ⟨all, heval, ?_, rfl⟩, hfits.put all⟩
    intro w hw
    rw [hfits.size_eq]
    exact h w.tile (mem_append_right _ (tile_mem_writes heval hw))

/-- The effect of an operation on renamed tiles that look the same: tiles that
the renaming keeps apart from what is written stay alike, and what is not the
image of a written tile stays as it was. -/
structure SameEffect
    (f : TileId → TileId) (op : TileOp) (m m' after after' : Memory α) :
    Prop where
  alike : ∀ t, (∀ w ∈ op.writes, f w = f t → w = t) → m'.tile (f t) = m.tile t →
    after'.tile (f t) = after.tile t
  untouched : ∀ u, (∀ w ∈ op.writes, f w ≠ u) → after'.tile u = m'.tile u

omit [Element α] in
theorem sameEffect_put
    {m' : Memory α} {all : List (Write α)}
    (htargets : ∀ w ∈ all, w.tile ∈ op.writes) :
    SameEffect f op m m' (m.put all) (m'.put (all.map (Write.rename f))) := by
  constructor
  · intro t hapart hsame
    have hoverlay : ∀ data,
        overlay (f t) (all.map (Write.rename f)) data = overlay t all data :=
      overlay_map_rename fun w hw => hapart w.tile (htargets w hw)
    rw [Memory.tile_put, Memory.tile_put, hsame]
    cases m.tile t with
    | error e => rfl
    | ok data => exact congrArg Except.ok (hoverlay data)
  · intro u hu
    apply Memory.tile_put_of_forall_ne
    intro v hv
    obtain ⟨w, hw, rfl⟩ := mem_map.mp hv
    exact hu w.tile (htargets w hw)

omit [Element α] in
theorem lt_size_iff_of_extent_eq
    {m' : Memory α} {t' : TileId} (h : m'.extent t' = m.extent t) :
    t'.index < m'.tiles.size ↔ t.index < m.tiles.size := by
  rw [← Memory.exists_tile_iff, ← Memory.exists_tile_iff]
  have hiff : ∀ (m : Memory α) (t : TileId),
      (∃ data, m.tile t = .ok data) ↔ ∃ size, m.extent t = .ok size := by
    intro m t
    unfold Memory.extent
    cases m.tile t <;> simp [Except.map]
  rw [hiff, hiff, h]

theorem exec_mapTiles
    {m' : Memory α} (h : Mirrors f k k' m m' op.tiles op.reads) :
    Matches (SameEffect f op m m') (op.exec k env m)
      ((op.mapTiles f).exec k' env m') := by
  unfold exec
  rw [eval_mapTiles h]
  cases heval : op.eval k m env with
  | error e => exact rfl
  | ok all =>
      have htargets : ∀ w ∈ all, w.tile ∈ op.writes :=
        fun w hw => tile_mem_writes heval hw
      have hranges : (∀ w ∈ all, w.tile.index < m.tiles.size) ↔
          ∀ w ∈ all.map (Write.rename f), w.tile.index < m'.tiles.size := by
        rw [forall_mem_map]
        constructor
        · intro hall w hw
          have hextent := h.extent w.tile (mem_append_right _ (htargets w hw))
          exact (lt_size_iff_of_extent_eq hextent).mpr (hall w hw)
        · intro hall w hw
          have hextent := h.extent w.tile (mem_append_right _ (htargets w hw))
          exact (lt_size_iff_of_extent_eq hextent).mp (hall w hw)
      show Matches _ (m.commit all) (m'.commit (all.map (Write.rename f)))
      by_cases hall : ∀ w ∈ all, w.tile.index < m.tiles.size
      · rw [Memory.commit_of_forall hall,
          Memory.commit_of_forall (hranges.mp hall)]
        exact sameEffect_put htargets
      · rw [Memory.commit_of_not_forall hall,
          Memory.commit_of_not_forall fun hcommit => hall (hranges.mpr hcommit)]
        exact rfl

theorem tile_exec_mapTiles_of_covers
    {m' after after' : Memory α} (h : Mirrors f k k' m m' op.tiles op.reads)
    (hexec : op.exec k env m = .ok after)
    (hexec' : (op.mapTiles f).exec k' env m' = .ok after')
    {data data' : Array α} (hapart : ∀ w ∈ op.writes, f w = f t → w = t)
    (hdata : m.tile t = .ok data) (hdata' : m'.tile (f t) = .ok data')
    (hsize : data'.size = data.size)
    (hcovers : ∀ all, op.eval k m env = .ok all → Covers all t data.size) :
    after'.tile (f t) = after.tile t := by
  obtain ⟨all, heval, _, rfl⟩ := exec_eq_ok_iff.mp hexec
  obtain ⟨all', heval', _, rfl⟩ := exec_eq_ok_iff.mp hexec'
  rw [eval_mapTiles h, heval] at heval'
  cases heval'
  have hoverlay : overlay (f t) (all.map (Write.rename f)) data' =
      overlay t all data' :=
    overlay_map_rename (fun w hw => hapart w.tile (tile_mem_writes heval hw))
      data'
  rw [Memory.tile_put, Memory.tile_put, hdata, hdata']
  apply congrArg Except.ok
  rw [hoverlay]
  exact overlay_eq_of_covers hsize (hsize ▸ hcovers all heval)

theorem exec_congr
    {m' : Memory α} (hshape : ∀ t ∈ op.tiles, k'.shapeOf t = k.shapeOf t)
    (hfits : m.Fits k) (hfits' : m'.Fits k')
    (hread : ∀ t ∈ op.reads, m'.tile t = m.tile t) :
    Matches (fun after after' =>
      ∀ t, m'.tile t = m.tile t → after'.tile t = after.tile t)
      (op.exec k env m) (op.exec k' env m') := by
  have hmirrors : Mirrors id k k' m m' op.tiles op.reads :=
    ⟨hshape, fun t ht => hfits.extent_congr hfits' (hshape t ht), hread⟩
  have hmatches : Matches (SameEffect id op m m') (op.exec k env m)
      ((op.mapTiles id).exec k' env m') := exec_mapTiles hmirrors
  rw [mapTiles_id] at hmatches
  exact hmatches.mono fun after after' heffect t hsame =>
    heffect.alike t (fun _ _ heq => heq) hsame

end TileOp

end

end TileProgram
