import TileProgram.Proofs.Execution

/-!
# Tiles as matrices

A tile of two dimensions holds a matrix, row by row.  Copies between windows,
fills and matrix products are described on the matrices: a copy pastes a window
of a matrix that is continued by zeros, and drops what falls outside.
-/

namespace TileProgram

open List

variable {h w n i j r c rows' cols' r' c' : Nat} {src dst : Region}

/-! ## Positions in two dimensions -/

theorem Shape.unravel_pair (hh : 0 < h) (hw : 0 < w) (hn : n < h * w) :
    Shape.unravel n [h, w] = [n / w, n % w] := by
  have hrow : n / w < h := Nat.div_lt_of_lt_mul (by rwa [Nat.mul_comm])
  simp only [Shape.unravel, Shape.unravelFrom]
  rw [Nat.max_eq_right hh, Nat.max_eq_right hw, Nat.mod_eq_of_lt hrow]

theorem Shape.linearIndex?_pair (rows cols i j : Nat) :
    Shape.linearIndex? [rows, cols] [(i : Int), (j : Int)] =
      if i < rows ∧ j < cols then some (i * cols + j) else none := by
  simp only [Shape.linearIndex?, Shape.linearFrom]
  by_cases hi : i < rows
  · by_cases hj : j < cols
    · rw [if_pos (by omega), if_pos (by omega), if_pos ⟨hi, hj⟩]
      simp
    · rw [if_pos (by omega), if_neg (by omega), if_neg (by omega)]
  · rw [if_neg (by omega), if_neg (by omega)]

section

variable {α : Type}

def Memory.HoldsMatrix
    (m : Memory α) (t : TileId) (rows cols : Nat) (entry : Nat → Nat → α) :
    Prop :=
  ∃ data, m.tile t = .ok data ∧ data.size = rows * cols ∧
    ∀ i < rows, ∀ j < cols, data[i * cols + j]? = some (entry i j)

namespace Memory

variable {m : Memory α} {t : TileId} {rows cols : Nat}
  {entry entry' : Nat → Nat → α}

theorem HoldsMatrix.congr_tile
    {m' : Memory α} (h : m.HoldsMatrix t rows cols entry)
    (htile : m'.tile t = m.tile t) :
    m'.HoldsMatrix t rows cols entry := by
  obtain ⟨data, hdata, hsize, hentries⟩ := h
  exact ⟨data, htile.trans hdata, hsize, hentries⟩

theorem HoldsMatrix.congr_entry
    (h : m.HoldsMatrix t rows cols entry)
    (hentry : ∀ i < rows, ∀ j < cols, entry' i j = entry i j) :
    m.HoldsMatrix t rows cols entry' := by
  obtain ⟨data, hdata, hsize, hentries⟩ := h
  refine ⟨data, hdata, hsize, ?_⟩
  intro i hi j hj
  rw [hentry i hi j hj]
  exact hentries i hi j hj

theorem exists_holdsMatrix
    {k : Kernel} (hfits : m.Fits k) (hshape : k.shapeOf t = .ok [rows, cols])
    (default : α) :
    ∃ data, m.tile t = .ok data ∧
      m.HoldsMatrix t rows cols fun i j =>
        data.getD (i * cols + j) default := by
  obtain ⟨data, hdata, hsize⟩ := hfits.tile_eq_ok hshape
  have hsize : data.size = rows * cols := by simpa using hsize
  refine ⟨data, hdata, data, hdata, hsize, ?_⟩
  intro i hi j hj
  have hlt : i * cols + j < data.size := hsize ▸ rowMajor_lt hi hj
  simp only [Array.getD_eq_getD_getElem?, Array.getElem?_eq_getElem hlt,
    Option.getD_some]

theorem HoldsMatrix.put
    {all : List (Write α)} (h : m.HoldsMatrix t rows cols entry)
    (hset : ∀ w ∈ all, w.tile = t →
      ∀ i < rows, ∀ j < cols, w.index = i * cols + j → w.value = entry' i j)
    (hkept : ∀ i < rows, ∀ j < cols, (∃ w ∈ all,
      w.tile = t ∧ w.index = i * cols + j) ∨ entry' i j = entry i j) :
    (m.put all).HoldsMatrix t rows cols entry' := by
  obtain ⟨data, hdata, hsize, hentries⟩ := h
  refine ⟨overlay t all data, ?_, ?_, ?_⟩
  · rw [Memory.tile_put, hdata]
    rfl
  · rw [size_overlay, hsize]
  · intro i hi j hj
    by_cases hwritten : ∃ w ∈ all, w.tile = t ∧ w.index = i * cols + j
    · exact getElem?_overlay_of_mem (hsize ▸ rowMajor_lt hi hj) hwritten
        fun w hw htile hindex => hset w hw htile i hi j hj hindex
    · rw [getElem?_overlay_of_forall_ne (fun w hw htile hindex =>
        hwritten ⟨w, hw, htile, hindex⟩), hentries i hi j hj]
      rcases hkept i hi j hj with hfound | hsame
      · exact (hwritten hfound).elim
      · rw [hsame]

end Memory

end

/-! ## Operations on matrices -/

section

variable {α : Type} [Element α] {k : Kernel} {m : Memory α} {env : Bindings}

def padded (rows cols : Nat) (entry : Nat → Nat → α) (i j : Nat) : α :=
  if i < rows ∧ j < cols then entry i j else Element.zero

/-- A matrix with a patch of `h` rows and `w` columns pasted in. -/
def pasted (r c h w : Nat) (patch entry : Nat → Nat → α) (i j : Nat) : α :=
  if (r ≤ i ∧ i < r + h) ∧ c ≤ j ∧ j < c + w then patch (i - r) (j - c)
    else entry i j

/-- The entry of a stored matrix, which is transposed if asked. -/
def oriented (transposed : Bool) (entry : Nat → Nat → α) (i j : Nat) : α :=
  if transposed then entry j i else entry i j

theorem padded_oriented
    (transposed : Bool) (rows cols r c : Nat) (entry : Nat → Nat → α)
    (i j : Nat) :
    padded (if transposed then cols else rows)
        (if transposed then rows else cols) (oriented transposed entry)
        ((if transposed then c else r) + i)
        ((if transposed then r else c) + j) =
      oriented transposed
        (fun i j => padded rows cols entry (r + i) (c + j)) i j := by
  cases transposed with
  | false => rfl
  | true =>
      unfold padded oriented
      simp only [if_true, and_comm]

omit [Element α] in
theorem oriented_oriented
    (transposed : Bool) (entry : Nat → Nat → α) (i j : Nat) :
    oriented transposed (oriented transposed entry) i j = entry i j := by
  cases transposed <;> rfl

/-- A window of `h` rows and `w` columns that begins at row `r` and column
`c`. -/
structure Region.At (region : Region) (env : Bindings) (r c h w : Nat) :
    Prop where
  extents : region.extents = [h, w]
  offsets : region.offsets.mapM (·.eval env) = .ok [(r : Int), (c : Int)]
  bottom : r + h < 0x8000000000000000
  right : c + w < 0x8000000000000000

theorem Region.At.position
    {region : Region} (hat : region.At env r c h w) (hh : 0 < h) (hw : 0 < w)
    (hn : n < h * w) :
    TileOp.windowPosition [(r : Int), (c : Int)] region.extents n =
      .ok [((r + n / w : Nat) : Int), ((c + n % w : Nat) : Int)] := by
  have hrow : n / w < h := Nat.div_lt_of_lt_mul (by rwa [Nat.mul_comm])
  have hcol : n % w < w := Nat.mod_lt n hw
  have hbottom := hat.bottom
  have hright := hat.right
  have hword : ∀ i b : Nat, i + b < 0x8000000000000000 →
      Checked.int64 ((i : Int) + (b : Int)) = .ok ((b + i : Nat) : Int) := by
    intro i b hlt
    unfold Checked.int64
    rw [if_pos ⟨by omega, by omega⟩, Nat.cast_add, Int.add_comm]
  unfold TileOp.windowPosition
  rw [hat.extents, Shape.unravel_pair hh hw hn]
  simp only [zip_cons_cons, zip_nil_right, mapM_cons, mapM_nil]
  rw [hword (n / w) r (by omega), ok_bind, hword (n % w) c (by omega)]
  rfl

namespace TileOp

/-- An operation that writes one matrix leaves the entries it writes there, and
every other tile as it was. -/
theorem exec_matrix_of_eval
    {op : TileOp} {t : TileId} {rows cols : Nat} {entry entry' : Nat → Nat → α}
    {all : List (Write α)} (heval : op.eval k m env = .ok all)
    (hfits : m.Fits k) (hentries : m.HoldsMatrix t rows cols entry)
    (htile : ∀ v ∈ all, v.tile = t)
    (hset : ∀ v ∈ all,
      ∀ i < rows, ∀ j < cols, v.index = i * cols + j → v.value = entry' i j)
    (hkept : ∀ i < rows, ∀ j < cols, (∃ v ∈ all, v.index = i * cols + j) ∨
      entry' i j = entry i j) :
    ∃ m', op.exec k env m = .ok m' ∧ m'.Fits k ∧
      m'.HoldsMatrix t rows cols entry' ∧
      ∀ u, u ≠ t → m'.tile u = m.tile u := by
  have hpresent : t.index < m.tiles.size := by
    obtain ⟨data, hdata, _⟩ := hentries
    exact Memory.exists_tile_iff.mp ⟨data, hdata⟩
  have hranges : ∀ v ∈ all, v.tile.index < m.tiles.size :=
    fun v hv => htile v hv ▸ hpresent
  refine ⟨m.put all, exec_eq_ok_iff.mpr ⟨all, heval, hranges, rfl⟩,
    hfits.put all, ?_, ?_⟩
  · apply hentries.put fun v hv _ => hset v hv
    intro i hi j hj
    rcases hkept i hi j hj with ⟨v, hv, hindex⟩ | hsame
    · exact Or.inl ⟨v, hv, htile v hv, hindex⟩
    · exact Or.inr hsame
  · intro u hu
    apply Memory.tile_put_of_forall_ne
    intro v hv heq
    exact hu (heq.symm.trans (htile v hv))

theorem copyElement_window
    {rows cols : Nat} {data : Array α} {entry : Nat → Nat → α}
    (hentries : ∀ i < rows, ∀ j < cols, data[i * cols + j]? = some (entry i j))
    (hsrc : src.At env r c h w) (hdst : dst.At env r' c' h w) (hh : 0 < h)
    (hw : 0 < w) (hn : n < h * w) :
    copyElement src dst [(r : Int), (c : Int)] [(r' : Int), (c' : Int)]
      [rows, cols]
        [rows', cols'] data n =
      .ok (if r' + n / w < rows' ∧ c' + n % w < cols' then
        some ⟨dst.tile, (r' + n / w) * cols' + (c' + n % w),
          padded rows cols entry (r + n / w) (c + n % w)⟩ else none) := by
  unfold copyElement
  rw [hsrc.position hh hw hn, ok_bind, hdst.position hh hw hn, ok_bind,
    Shape.linearIndex?_pair, Shape.linearIndex?_pair]
  unfold padded
  by_cases hinside : r + n / w < rows ∧ c + n % w < cols
  · simp only [if_pos hinside, hentries _ hinside.1 _ hinside.2]
    split <;> rfl
  · simp only [if_neg hinside]
    split <;> rfl

theorem evalCopy_window
    {rows cols : Nat} {entry : Nat → Nat → α}
    (hsrcShape : k.shapeOf src.tile = .ok [rows, cols])
    (hdstShape : k.shapeOf dst.tile = .ok [rows', cols'])
    (hentries : m.HoldsMatrix src.tile rows cols entry)
    (hsrc : src.At env r c h w) (hdst : dst.At env r' c' h w) (hh : 0 < h)
    (hw : 0 < w) (hcount : Write.bytes * (h * w) < 0x8000000000000000) :
    evalCopy k m env src dst =
      .ok ((range (h * w)).flatMap fun n =>
        if r' + n / w < rows' ∧ c' + n % w < cols' then
          [⟨dst.tile, (r' + n / w) * cols' + (c' + n % w),
            padded rows cols entry (r + n / w) (c + n % w)⟩] else []) := by
  obtain ⟨data, hdata, _, hentries⟩ := hentries
  have hnumel : ∀ region : Region, region.extents = [h, w] →
      region.numel = .ok (h * w) := by
    intro region hextents
    have hword : h * w < limit64 := by
      have hbytes : Write.bytes = 24 := rfl
      rw [hbytes] at hcount
      show h * w < 0x10000000000000000
      omega
    have hrow : h < limit64 :=
      Nat.lt_of_le_of_lt (Nat.le_mul_of_pos_right h hw) hword
    unfold Region.numel Shape.numel Checked.product Checked.word64
    rw [hextents]
    simp only [foldlM_cons, foldlM_nil, Nat.one_mul, if_pos hrow, ok_bind,
      if_pos hword]
    rfl
  rw [evalCopy_eq, hsrcShape, ok_bind, hdstShape, ok_bind, hsrc.offsets,
    ok_bind, hdst.offsets, ok_bind, hnumel src hsrc.extents, ok_bind,
    hnumel dst hdst.extents, ok_bind, Nat.min_self]
  unfold Checked.table
  rw [if_pos hcount, ok_bind, hdata, ok_bind, Counted.flatMapM_eq_flatten_mapM,
    ← range_eq_range']
  rw [mapM_eq_ok_map (g := fun n =>
    if r' + n / w < rows' ∧ c' + n % w < cols' then
    [⟨dst.tile, (r' + n / w) * cols' + (c' + n % w),
      padded rows cols entry (r + n / w) (c + n % w)⟩] else [])]
  · rfl
  · intro n hn
    rw [copyElement_window hentries hsrc hdst hh hw (mem_range.mp hn)]
    simp only [Except.map]
    split <;> rfl

theorem matrixEntry_eq
    {data : Array α} {rows cols : Nat} {entry : Nat → Nat → α}
    (hentries : ∀ i < rows, ∀ j < cols, data[i * cols + j]? = some (entry i j))
    {transposed : Bool} (hi : (if transposed then j else i) < rows)
    (hj : (if transposed then i else j) < cols) :
    matrixEntry data cols transposed i j = oriented transposed entry i j := by
  unfold matrixEntry oriented
  cases transposed with
  | true =>
      simp only [if_true] at hi hj ⊢
      rw [Array.getD_eq_getD_getElem?, hentries j hi i hj]
      rfl
  | false =>
      simp only [Bool.false_eq_true, if_false] at hi hj ⊢
      rw [Array.getD_eq_getD_getElem?, hentries i hi j hj]
      rfl

theorem exec_copy_window
    {rows cols : Nat} {entry entry' : Nat → Nat → α}
    (hsrcShape : k.shapeOf src.tile = .ok [rows, cols])
    (hdstShape : k.shapeOf dst.tile = .ok [rows', cols']) (hfits : m.Fits k)
    (hentries : m.HoldsMatrix src.tile rows cols entry)
    (hentries' : m.HoldsMatrix dst.tile rows' cols' entry')
    (hsrc : src.At env r c h w) (hdst : dst.At env r' c' h w) (hh : 0 < h)
    (hw : 0 < w) (hcount : Write.bytes * (h * w) < 0x8000000000000000)
    (width : Option Nat) :
    ∃ m', (copy src dst width).exec k env m = .ok m' ∧ m'.Fits k ∧
      m'.HoldsMatrix dst.tile rows' cols'
        (pasted r' c' h w (fun i j =>
          padded rows cols entry (r + i) (c + j)) entry') ∧
      ∀ t, t ≠ dst.tile → m'.tile t = m.tile t := by
  have heval : (copy src dst width).eval k m env = _ :=
    evalCopy_window hsrcShape hdstShape hentries hsrc hdst hh hw hcount
  generalize hall : ((range (h * w)).flatMap fun n =>
    if r' + n / w < rows' ∧ c' + n % w < cols' then
      [(⟨dst.tile, (r' + n / w) * cols' + (c' + n % w),
        padded rows cols entry (r + n / w) (c + n % w)⟩ : Write α)] else []) =
        all at heval
  have hmem : ∀ v, v ∈ all ↔
      ∃ n < h * w, (r' + n / w < rows' ∧ c' + n % w < cols') ∧
      v = ⟨dst.tile, (r' + n / w) * cols' + (c' + n % w),
        padded rows cols entry (r + n / w) (c + n % w)⟩ := by
    intro v
    rw [← hall, mem_flatMap]
    constructor
    · rintro ⟨n, hn, hv⟩
      by_cases hinside : r' + n / w < rows' ∧ c' + n % w < cols'
      · rw [if_pos hinside, mem_singleton] at hv
        exact ⟨n, mem_range.mp hn, hinside, hv⟩
      · rw [if_neg hinside] at hv
        cases hv
    · rintro ⟨n, hn, hinside, hv⟩
      refine ⟨n, mem_range.mpr hn, ?_⟩
      rw [if_pos hinside, hv]
      exact mem_singleton.mpr rfl
  have htile : ∀ v ∈ all, v.tile = dst.tile := by
    intro v hv
    obtain ⟨n, _, _, rfl⟩ := (hmem v).mp hv
    rfl
  apply exec_matrix_of_eval heval hfits hentries' htile
  · intro v hv i hi j hj hindex
    obtain ⟨n, hn, hinside, rfl⟩ := (hmem v).mp hv
    obtain ⟨rfl, rfl⟩ := eq_of_rowMajor_eq hinside.2 hj hindex
    have hrow : n / w < h := Nat.div_lt_of_lt_mul (by rwa [Nat.mul_comm])
    have hcol : n % w < w := Nat.mod_lt n hw
    unfold pasted
    rw [if_pos ⟨⟨Nat.le_add_right _ _, Nat.add_lt_add_left hrow r'⟩,
      Nat.le_add_right _ _, Nat.add_lt_add_left hcol c'⟩,
      Nat.add_sub_cancel_left, Nat.add_sub_cancel_left]
  · intro i hi j hj
    by_cases hinside : (r' ≤ i ∧ i < r' + h) ∧ c' ≤ j ∧ j < c' + w
    · left
      have hn : (i - r') * w + (j - c') < h * w :=
        rowMajor_lt (by omega) (by omega)
      have hdiv : ((i - r') * w + (j - c')) / w = i - r' := by
        rw [Nat.mul_comm, Nat.mul_add_div hw, Nat.div_eq_of_lt (by omega),
          Nat.add_zero]
      have hmod : ((i - r') * w + (j - c')) % w = j - c' := by
        rw [Nat.mul_comm, Nat.mul_add_mod, Nat.mod_eq_of_lt (by omega)]
      have hback : r' + (i - r') = i ∧ c' + (j - c') = j := by omega
      refine ⟨_, (hmem _).mpr ⟨_, hn, ?_, rfl⟩, ?_⟩
      · rw [hdiv, hmod, hback.1, hback.2]
        exact ⟨hi, hj⟩
      · simp only [hdiv, hmod, hback.1, hback.2]
    · right
      unfold pasted
      rw [if_neg hinside]

theorem exec_load_window
    {dst : TileId} {rows cols : Nat} {entry : Nat → Nat → α}
    (hsrcShape : k.shapeOf src.tile = .ok [rows, cols])
    (hdstShape : k.shapeOf dst = .ok [h, w]) (hfits : m.Fits k)
    (hentries : m.HoldsMatrix src.tile rows cols entry)
    (hsrc : src.At env r c h w) (hh : 0 < h) (hw : 0 < w)
    (hcount : Write.bytes * (h * w) < 0x8000000000000000) (width : Option Nat) :
    ∃ m', (copy src (.full dst [h, w]) width).exec k env m = .ok m' ∧
      m'.Fits k ∧
      m'.HoldsMatrix dst h w
        (fun i j => padded rows cols entry (r + i) (c + j)) ∧
      ∀ t, t ≠ dst → m'.tile t = m.tile t := by
  have hdst : (Region.full dst [h, w]).At env 0 0 h w := by
    have hbottom := hsrc.bottom
    have hright := hsrc.right
    exact ⟨rfl, rfl, by omega, by omega⟩
  obtain ⟨data, _, hdata⟩ :=
    Memory.exists_holdsMatrix hfits hdstShape Element.zero
  have hshape : k.shapeOf (Region.full dst [h, w]).tile = .ok [h, w] :=
    hdstShape
  obtain ⟨m', hexec, hfits', hpasted, hkept⟩ :=
    exec_copy_window hsrcShape hshape hfits hentries hdata hsrc hdst hh hw
      hcount width
  refine ⟨m', hexec, hfits', hpasted.congr_entry ?_, hkept⟩
  intro i hi j hj
  unfold pasted
  rw [if_pos ⟨⟨Nat.zero_le i, by omega⟩, Nat.zero_le j, by omega⟩, Nat.sub_zero,
    Nat.sub_zero]

theorem exec_fill_matrix
    {t : TileId} {rows cols : Nat} {entry : Nat → Nat → α} (hfits : m.Fits k)
    (hentries : m.HoldsMatrix t rows cols entry) (value : Float) :
    ∃ m', (fill t value).exec k env m = .ok m' ∧ m'.Fits k ∧
      m'.HoldsMatrix t rows cols (fun _ _ => Element.const value) ∧
      ∀ u, u ≠ t → m'.tile u = m.tile u := by
  obtain ⟨data, hdata, hsize, hdataEntries⟩ := id hentries
  have heval : (fill t value).eval k m env =
      .ok ((range data.size).map fun i => ⟨t, i, Element.const value⟩) := by
    simp only [eval]
    rw [hdata]
    rfl
  have htile : ∀ v ∈ (range data.size).map fun i =>
      (⟨t, i, Element.const value⟩ : Write α), v.tile = t := by
    intro v hv
    obtain ⟨i, _, rfl⟩ := mem_map.mp hv
    rfl
  apply exec_matrix_of_eval heval hfits hentries htile
  · intro v hv i _ j _ _
    obtain ⟨i, _, rfl⟩ := mem_map.mp hv
    rfl
  · intro i hi j hj
    exact Or.inl ⟨_, mem_map.mpr ⟨i * cols + j,
      mem_range.mpr (hsize ▸ rowMajor_lt hi hj), rfl⟩, rfl⟩

end TileOp

end

/-! ## Exact arithmetic -/

/-- The arithmetic of the elements is that of a semiring. -/
structure ExactArithmetic (R : Type) [Semiring R] [Element R] : Prop where
  zero : (Element.zero : R) = 0
  add : ∀ x y : R, Element.binary .add x y = x + y
  mul : ∀ x y : R, Element.binary .mul x y = x * y

section

variable {R : Type} [Semiring R] [Element R] {k : Kernel} {m : Memory R}
  {env : Bindings}

theorem TileOp.dot_eq
    (hexact : ExactArithmetic R) (depth : Nat) (a b : Nat → R) (init : R) :
    TileOp.dot depth a b init = init + ∑ p ∈ Finset.range depth, a p * b p := by
  unfold TileOp.dot
  rw [Counted.fold_eq_foldl, ← range_eq_range']
  induction depth with
  | zero => simp
  | succ depth ih =>
      rw [range_succ, foldl_append, ih, Finset.sum_range_succ]
      simp only [foldl_cons, foldl_nil, hexact.add, hexact.mul]
      rw [add_assoc]

variable {a b c : TileId} {rows cols depth : Nat} {transposed : Bool}
  {entryA entryB entryC : Nat → Nat → R} (hexact : ExactArithmetic R)
  (hshapeA : k.shapeOf a = .ok [rows, depth])
  (hshapeB : k.shapeOf b =
    .ok (if transposed then [cols, depth] else [depth, cols]))
  (hshapeC : k.shapeOf c = .ok [rows, cols]) (hrows : rows < limit32)
  (hA : m.HoldsMatrix a rows depth entryA)
  (hB : m.HoldsMatrix b (if transposed then cols else depth)
    (if transposed then depth else cols) entryB)
  (hC : m.HoldsMatrix c rows cols entryC)

include hexact hshapeA hshapeB hshapeC hrows hA hB hC

theorem TileOp.eval_gemm_matrix :
    (gemm a b c false transposed false).eval k m env =
      .ok ((range rows).flatMap fun i => (range cols).map fun j =>
        ⟨c, i * cols + j, entryC i j +
          ∑ p ∈ Finset.range depth,
          entryA i p * oriented transposed entryB p j⟩) := by
  obtain ⟨dataA, hdataA, _, hentriesA⟩ := hA
  obtain ⟨dataB, hdataB, _, hentriesB⟩ := hB
  obtain ⟨sums, hsums, _, hentriesC⟩ := hC
  have hrowsOf : Shape.rows [rows, cols] = .ok rows := by
    simp only [Shape.rows, Checked.product, Checked.word32, dropLast_cons_cons,
      dropLast_singleton, foldlM_cons, foldlM_nil, Nat.one_mul, if_pos hrows]
    rfl
  have hcolsB :
      Shape.cols (if transposed then [cols, depth] else [depth, cols]) =
      if transposed then depth else cols := by
    cases transposed <;> rfl
  have hdot : ∀ i < rows,
      ∀ j < cols, dot depth (matrixEntry dataA depth false i) (fun p =>
        matrixEntry dataB (if transposed then depth else cols) transposed p j)
      (sums.getD (i * cols + j) Element.zero) =
        entryC i j + ∑ p ∈ Finset.range depth,
        entryA i p * oriented transposed entryB p j := by
    intro i hi j hj
    rw [dot_eq hexact, Array.getD_eq_getD_getElem?, hentriesC i hi j hj]
    congr 1
    apply Finset.sum_congr rfl
    intro p hp
    rw [Finset.mem_range] at hp
    have hleft : matrixEntry dataA depth false i p =
        oriented false entryA i p :=
      matrixEntry_eq hentriesA hi hp
    have hright : matrixEntry dataB (if transposed then depth else cols)
        transposed p j = oriented transposed entryB p j := by
      apply matrixEntry_eq hentriesB
      · cases transposed
        · exact hp
        · exact hj
      · cases transposed
        · exact hj
        · exact hp
    rw [hleft, hright]
    rfl
  show evalGemm k m a b c false transposed false = _
  rw [evalGemm_eq, hshapeA, ok_bind, hshapeB, ok_bind, hshapeC, ok_bind,
    hrowsOf, ok_bind, hdataA, hdataB, hsums, hcolsB]
  refine congrArg Except.ok
    (flatMap_congr fun i hi => map_congr_left fun j hj => ?_)
  rw [mem_range] at hi hj
  exact congrArg (Write.mk c (i * cols + j)) (hdot i hi j hj)

theorem TileOp.exec_gemm_matrix (hfits : m.Fits k) :
    ∃ m', (gemm a b c false transposed false).exec k env m = .ok m' ∧
      m'.Fits k ∧ m'.HoldsMatrix c rows cols (fun i j => entryC i j +
        ∑ p ∈ Finset.range depth, entryA i p * oriented transposed entryB p j) ∧
      ∀ t, t ≠ c → m'.tile t = m.tile t := by
  have heval : (gemm a b c false transposed false).eval k m env = _ :=
    eval_gemm_matrix hexact hshapeA hshapeB hshapeC hrows hA hB hC
  apply exec_matrix_of_eval heval hfits hC
  · intro v hv
    obtain ⟨i, _, hv⟩ := mem_flatMap.mp hv
    obtain ⟨j, _, rfl⟩ := mem_map.mp hv
    rfl
  · intro v hv i hi j hj hindex
    obtain ⟨i', _, hv⟩ := mem_flatMap.mp hv
    obtain ⟨j', hj', rfl⟩ := mem_map.mp hv
    obtain ⟨rfl, rfl⟩ := eq_of_rowMajor_eq (mem_range.mp hj') hj hindex
    rfl
  · intro i hi j hj
    left
    exact ⟨_, mem_flatMap.mpr ⟨i, mem_range.mpr hi,
      mem_map.mpr ⟨j, mem_range.mpr hj, rfl⟩⟩, rfl⟩

end

end TileProgram
