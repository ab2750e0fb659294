import TileProgram.Proofs.Stops.Layouts
import TileProgram.Proofs.Layout.WellFormed
import TileProgram.Proofs.Layout.Runs

/-!
# Row-major accesses

The lanes of a warp that walk a tile in row-major order touch consecutive
elements, so on a row-major layout each phase asks for consecutive bytes.  A
phase is not longer than one line of all banks, and it never reaches the line
after next: where it starts inside a bank word, it is shorter by at least as
much.  Every bank then serves a single word, and there is nothing that another
layout could improve.
-/

namespace TileProgram

open Checked List

/-! ## Words in a window -/

namespace BankLoad

/-- All words asked for are among `banks` consecutive ones, and no bank serves
two of them. -/
structure Flat (load : BankLoad) (banks first : Nat) : Prop where
  window : ∀ w ∈ load.words, first ≤ w ∧ w < first + banks
  held : ∀ bank, load.held.getD bank 0 ≠ 0 → ∃ w ∈ load.words, w % banks = bank
  worst : load.worst ≤ 1

theorem Flat.none (banks first : Nat) : BankLoad.none.Flat banks first where
  window _ hw := absurd hw Std.TreeSet.not_mem_emptyc
  held _ hbank := absurd Std.TreeMap.getD_emptyc hbank
  worst := Nat.zero_le 1

theorem Flat.ask
    {load : BankLoad} {banks first word : Nat} (h : load.Flat banks first)
    (hword : first ≤ word ∧ word < first + banks) :
    (load.ask banks word).Flat banks first := by
  unfold BankLoad.ask
  split
  · exact h
  · next hnew =>
      have hidle : load.held.getD (word % banks) 0 = 0 := by
        by_contra hbusy
        obtain ⟨w, hw, hbank⟩ := h.held _ hbusy
        have hwindow := h.window w hw
        have hsame := eq_of_mod_eq (by omega) (by omega) hbank
        exact hnew (Std.TreeSet.contains_iff_mem.mpr (hsame ▸ hw))
      rw [hidle]
      refine ⟨?_, ?_, max_le h.worst le_rfl⟩
      · intro w hw
        rcases Std.TreeSet.mem_insert.mp hw with heq | hold
        · exact Nat.compare_eq_eq.mp heq ▸ hword
        · exact h.window w hold
      · intro bank hbank
        rw [Std.TreeMap.getD_insert] at hbank
        split at hbank
        · next heq =>
            exact ⟨word, Std.TreeSet.mem_insert_self, Nat.compare_eq_eq.mp heq⟩
        · obtain ⟨w, hw, hheld⟩ := h.held bank hbank
          exact ⟨w, Std.TreeSet.mem_insert.mpr (Or.inr hw), hheld⟩

theorem Flat.fold_ask
    {banks first : Nat} {start count : Nat} (hstart : first ≤ start)
    (hend : start + count ≤ first + banks) {load : BankLoad}
    (h : load.Flat banks first) :
    (Counted.fold (fun word load => load.ask banks word) start count load).Flat
      banks first := by
  induction count generalizing start load with
  | zero => exact h
  | succ count ih => exact ih (by omega) (by omega) (h.ask ⟨hstart, by omega⟩)

end BankLoad

/-! ## Phases of consecutive bytes -/

namespace Layout

variable {shape : Shape} {elementBytes wordBytes banks first : Nat}

/-- The bytes of `width` elements from number `e` on lie in `banks` bank words
from `first` on. -/
def InLine (elementBytes wordBytes banks first e width : Nat) : Prop :=
  first * wordBytes ≤ e * elementBytes ∧
    (e + width) * elementBytes ≤ (first + banks) * wordBytes

theorem flat_askElement
    (hbytes : 0 < elementBytes) (hword : 0 < wordBytes) {r c : Nat}
    (hline : InLine elementBytes wordBytes banks first (r * shape.cols + c) 1)
    {load : BankLoad} (h : load.Flat banks first) :
    Settles .overflow (·.Flat banks first)
      ((rowMajor shape).askElement elementBytes wordBytes banks r c load) := by
  obtain ⟨hlow, hhigh⟩ := hline
  apply (word64_settles ((r * shape.cols + c) * elementBytes)).bind
  rintro start rfl
  apply (word64_settles _).bind
  rintro stop rfl
  apply (sub_settles _ 1).bind
  rintro last rfl
  apply Settles.ok
  rw [Nat.add_mul, Nat.one_mul] at hhigh
  generalize (r * shape.cols + c) * elementBytes = start at hlow hhigh ⊢
  have hstart : first ≤ start / wordBytes :=
    (Nat.le_div_iff_mul_le hword).mpr hlow
  have hlast : (start + elementBytes - 1) / wordBytes < first + banks :=
    (Nat.div_lt_iff_lt_mul hword).mpr (by omega)
  have horder : start / wordBytes ≤ (start + elementBytes - 1) / wordBytes :=
    Nat.div_le_div_right (by omega)
  exact h.fold_ask hstart (by omega)

theorem flat_askRun
    (hbytes : 0 < elementBytes) (hword : 0 < wordBytes) {r c width : Nat}
    (hline : InLine elementBytes wordBytes banks first (r * shape.cols +
      c) width)
    {load : BankLoad} (h : load.Flat banks first) :
    Settles .overflow (·.Flat banks first)
      (Counted.foldM
        ((rowMajor shape).askElement elementBytes wordBytes banks r) c width
          load) := by
  induction width generalizing c load with
  | zero => exact Settles.ok h
  | succ width ih =>
      obtain ⟨hlow, hhigh⟩ := hline
      have hone : (r * shape.cols + c + 1) * elementBytes ≤
          (first + banks) * wordBytes :=
        le_trans (Nat.mul_le_mul_right _ (by omega)) hhigh
      have hnext : first * wordBytes ≤
          (r * shape.cols + (c + 1)) * elementBytes :=
        le_trans hlow (Nat.mul_le_mul_right _ (by omega))
      simp only [Counted.foldM]
      rcases flat_askElement hbytes hword ⟨hlow, hone⟩ h with
        hstop | ⟨load', hask, hflat⟩
      · rw [hstop]
        exact Or.inl rfl
      · rw [hask]
        exact ih ⟨hnext, by rwa [show r * shape.cols + (c + 1) + width =
          r * shape.cols + c + (width + 1) by omega]⟩ hflat

theorem flat_phaseLoad
    (hbytes : 0 < elementBytes) (hword : 0 < wordBytes)
    {phase : List LaneAccess}
    (hline : ∀ a ∈ phase, InLine elementBytes wordBytes banks first (a.row *
      shape.cols + a.col) a.width) :
    Settles .overflow (·.Flat banks first)
      ((rowMajor shape).phaseLoad elementBytes wordBytes banks phase) :=
  Settles.foldlM (fun a ha _ h => flat_askRun hbytes hword (hline a ha) h)
    (BankLoad.Flat.none banks first)

end Layout

/-! ## Row-major chunks -/

theorem fitVector_dvd (vector : Nat) (cols : Nat) :
    fitVector vector cols ∣ cols := by
  have hdescend : ∀ v, fitVector.descend cols v ∣ cols := by
    intro v
    fun_induction fitVector.descend cols v with
    | case1 => exact one_dvd cols
    | case2 => exact one_dvd cols
    | case3 v hdvd => exact Nat.dvd_of_mod_eq_zero hdvd
    | case4 v _ ih => exact ih
  exact hdescend _

theorem fitVector_le (vector cols : Nat) :
    fitVector vector cols ≤ max 1 vector := by
  have hdescend : ∀ v, fitVector.descend cols v ≤ max 1 v := by
    intro v
    fun_induction fitVector.descend cols v with
    | case1 => decide
    | case2 => decide
    | case3 v _ => exact Nat.le_max_right _ _
    | case4 v _ ih => omega
  have hle := hdescend (max 1 (min vector (max cols 1)))
  unfold fitVector
  omega

/-- What the lanes of one phase take fits one line even where it starts inside a
bank word. -/
theorem misaligned_line_le
    {warp bytes : Nat} (hwarp : warp = 32 ∨ warp = 64) (hpos : 0 < bytes)
    (hle : bytes ≤ 16) (n : Nat) :
    n * (min warp (max 1 (128 / bytes)) * bytes) % 4 +
      min warp (max 1 (128 / bytes)) * bytes ≤ 128 := by
  rcases hwarp with rfl | rfl <;> interval_cases bytes <;> simp <;> omega

namespace AccessPattern

theorem rowMajorAccess_start
    {rows cols v chunk : Nat} (hrows : rows < limit32) (hcols : cols < limit32)
    (hpos : 0 < cols) (hin : chunk * v < rows * cols) :
    (rowMajorAccess cols v chunk).row * cols +
      (rowMajorAccess cols v chunk).col = chunk * v := by
  have hrow : chunk * v / cols < limit32 :=
    lt_trans ((Nat.div_lt_iff_lt_mul hpos).mpr hin) hrows
  have hcol : chunk * v % cols < limit32 := lt_trans (Nat.mod_lt _ hpos) hcols
  simp only [rowMajorAccess, low32, Nat.mod_eq_of_lt hrow,
    Nat.mod_eq_of_lt hcol]
  exact Nat.div_add_mod' _ _

theorem chunk_mul_lt
    {rows cols v chunk : Nat} (hv : 0 < v) (hdvd : v ∣ cols)
    (hin : chunk < rows * (cols / v)) : chunk * v < rows * cols := by
  calc chunk * v < rows * (cols / v) * v := Nat.mul_lt_mul_of_pos_right hin hv
    _ = rows * cols := by rw [Nat.mul_assoc, Nat.div_mul_cancel hdvd]

theorem mem_groups
    {size total : Nat} {group : List Nat} (h : group ∈ groups size total) :
    ∃ n, ∀ i ∈ group, n * size ≤ i ∧ i < (n + 1) * size ∧ i < total := by
  obtain ⟨n, _, rfl⟩ := mem_map.mp h
  refine ⟨n, fun i hi => ?_⟩
  rw [mem_range'_1] at hi
  rw [Nat.add_mul, Nat.one_mul]
  omega

theorem exists_inLine
    {rows cols v bytes warp : Nat} (hrows : rows < limit32)
    (hcols : cols < limit32) (hpos : 0 < cols) (hv : 0 < v) (hdvd : v ∣ cols)
    (hbytes : 0 < bytes) (hle : v * bytes ≤ 16) (hwarp : warp = 32 ∨ warp = 64)
    {group : List Nat}
    (hgroup : group ∈
      groups (min warp (max 1 (128 / (v * bytes)))) (rows * (cols / v))) :
    ∃ first, ∀ a ∈ group.map (rowMajorAccess cols v),
      Layout.InLine bytes 4 32 first (a.row * cols + a.col) a.width := by
  obtain ⟨n, hchunks⟩ := mem_groups hgroup
  have hline := misaligned_line_le hwarp (Nat.mul_pos hv hbytes) hle n
  generalize min warp (max 1 (128 / (v * bytes))) = lanes at hchunks hline
  -- the line starts with the bank word that holds the first byte of the phase
  refine ⟨n * (lanes * (v * bytes)) / 4, fun a ha => ?_⟩
  obtain ⟨chunk, hchunk, rfl⟩ := mem_map.mp ha
  obtain ⟨hfrom, hto, hin⟩ := hchunks chunk hchunk
  rw [rowMajorAccess_start hrows hcols hpos (chunk_mul_lt hv hdvd hin)]
  have hlow : n * (lanes * (v * bytes)) ≤ chunk * v * bytes := by
    calc n * (lanes * (v * bytes)) = n * lanes * (v * bytes) :=
      (Nat.mul_assoc ..).symm
      _ ≤ chunk * (v * bytes) := Nat.mul_le_mul_right _ hfrom
      _ = chunk * v * bytes := (Nat.mul_assoc ..).symm
  have hhigh : (chunk * v + v) * bytes ≤
      n * (lanes * (v * bytes)) + lanes * (v * bytes) := by
    calc (chunk * v + v) * bytes = (chunk + 1) * (v * bytes) := by ring
      _ ≤ (n + 1) * lanes * (v * bytes) := Nat.mul_le_mul_right _ hto
      _ = n * (lanes * (v * bytes)) + lanes * (v * bytes) := by ring
  show _ ∧ (chunk * v + v) * bytes ≤ _
  omega

end AccessPattern

/-! ## No conflicts -/

theorem Target.line_of_preset {target : Target} (h : target ∈ Target.presets) :
    target.shared.banks = 32 ∧ target.shared.bankBytes = 4 ∧
      (target.warpSize = 32 ∨ target.warpSize = 64) := by
  revert target
  decide

theorem ElementType.bytes_bounds (type : ElementType) :
    0 < type.bytes ∧ type.bytes ≤ 8 := by
  cases type <;> decide

namespace Shape

theorem rows_lt {shape : Shape} {rows : Nat} (h : shape.rows = .ok rows) :
    rows < limit32 := by
  have hword : Settles .overflow (· < limit32) shape.rows := by
    apply Settles.foldlM _ (by decide)
    intro factor _ acc _
    apply Runs.settles (Runs.of_word32 _)
    intro result hresult
    obtain ⟨hlt, rfl⟩ := word32_eq_ok hresult
    exact hlt
  exact hword.of_eq_ok h

theorem cols_mem {shape : Shape} (h : shape.isDegenerate = false) :
    shape.cols ∈ shape := by
  have hne : shape ≠ [] := by
    rintro rfl
    cases h
  rw [cols, getLast?_eq_getLast_of_ne_nil hne]
  exact getLast_mem hne

end Shape

theorem fitVector_mul_le
    (type : ElementType) {vector : Nat}
    (hvector : vector * type.bytes ≤ Swizzle.chunkBytes) (cols : Nat) :
    fitVector vector cols * type.bytes ≤ Swizzle.chunkBytes := by
  have hmul := Nat.mul_le_mul_right type.bytes (fitVector_le vector cols)
  have hone : type.bytes ≤ Swizzle.chunkBytes :=
    le_trans type.bytes_bounds.2 (by decide)
  rcases Nat.le_total 1 vector with hle | hle
  · rw [Nat.max_eq_right hle] at hmul
    exact le_trans hmul hvector
  · rw [Nat.max_eq_left hle, Nat.one_mul] at hmul
    exact le_trans hmul hone

theorem AccessPattern.phases_rowMajor
    {type : ElementType} {target : Target} {vector : Nat}
    (htarget : target ∈ Target.presets)
    (hvector : vector * type.bytes ≤ Swizzle.chunkBytes) (rows cols : Nat) :
    (rowMajor vector).phases rows cols type.bytes target =
      .ok ((groups (min target.warpSize
        (max 1 (128 / (fitVector vector cols * type.bytes)))) (rows *
          (cols / fitVector vector cols))).map fun group =>
          group.map (rowMajorAccess cols (fitVector vector cols))) := by
  obtain ⟨hbanks, hbankBytes, hwarp⟩ := Target.line_of_preset htarget
  have hline : target.shared.lineBytes = .ok 128 := by
    rw [SharedMemory.lineBytes, hbanks, hbankBytes]
    rfl
  have hlanes : max 1 target.warpSize = target.warpSize := by omega
  have hwidth : fitVector vector cols * type.bytes < limit32 :=
    lt_of_le_of_lt (fitVector_mul_le type hvector cols) (by decide)
  have hpos := Nat.mul_pos (fitVector_pos vector cols) type.bytes_bounds.1
  simp only [phases, hline, ok_bind, hlanes]
  rw [word32_of_lt hwidth, ok_bind, Nat.max_eq_right hpos]
  rfl

/-- A pattern of row-major accesses of at most sixteen bytes. -/
def AccessPattern.IsRowMajor (bytes : Nat) (p : AccessPattern) : Prop :=
  ∃ vector, p = .rowMajor vector ∧ vector * bytes ≤ Swizzle.chunkBytes

namespace Layout

variable {shape : Shape} {type : ElementType} {target : Target}
  {patterns : List AccessPattern}

theorem shape_rowMajor : (rowMajor shape).shape = shape := rfl

theorem conflictDegree_rowMajor_settles
    (hshape : shape.isDegenerate = false) (hwords : ∀ n ∈ shape, n < limit32)
    (htarget : target ∈ Target.presets) {p : AccessPattern}
    (hp : p.IsRowMajor type.bytes) :
    Settles .overflow (· ≤ 1)
      ((rowMajor shape).conflictDegree p type.bytes target) := by
  obtain ⟨vector, rfl, hvector⟩ := hp
  obtain ⟨hbytes, -⟩ := type.bytes_bounds
  obtain ⟨hbanks, hbankBytes, hwarp⟩ := Target.line_of_preset htarget
  have hcols := hwords _ (Shape.cols_mem hshape)
  have hpos := Shape.pos_of_not_degenerate hshape _ (Shape.cols_mem hshape)
  have hwidth := fitVector_mul_le type hvector shape.cols
  have hmemory : ¬(rowMajor shape).isFragment = true := Bool.false_ne_true
  unfold conflictDegree
  rw [if_neg hmemory, hbanks, hbankBytes]
  apply (shape.rows_runs.settles fun rows => Shape.rows_lt).bind
  intro rows hrows
  rw [shape_rowMajor, AccessPattern.phases_rowMajor htarget hvector, ok_bind]
  refine Settles.foldlM (I := (· ≤ 1)) ?_ (Nat.zero_le 1)
  intro phase hphase worst hworst
  obtain ⟨group, hgroup, rfl⟩ := mem_map.mp hphase
  obtain ⟨first, hline⟩ := AccessPattern.exists_inLine hrows hcols hpos
    (fitVector_pos vector shape.cols) (fitVector_dvd vector shape.cols) hbytes
    hwidth hwarp hgroup
  apply (flat_phaseLoad hbytes (by decide) hline).bind
  intro load hload
  exact Settles.ok (max_le hworst hload.worst)

theorem worstDegree_rowMajor_settles
    (hshape : shape.isDegenerate = false) (hwords : ∀ n ∈ shape, n < limit32)
    (htarget : target ∈ Target.presets)
    (hpatterns : ∀ p ∈ patterns, p.IsRowMajor type.bytes) :
    Settles .overflow (· ≤ 1)
      ((rowMajor shape).worstDegree patterns type.bytes target) := by
  apply (Settles.mapM fun p hp =>
    conflictDegree_rowMajor_settles hshape hwords htarget (hpatterns p hp)).bind
  intro degrees hdegrees
  exact Settles.ok (foldlRecOn (motive := (· ≤ 1)) degrees max (Nat.zero_le 1)
    fun worst hworst degree hdegree => max_le hworst (hdegrees degree hdegree))

/-! ## No better candidate -/

theorem contiguousRun_rowMajor_eq_ok
    {m : Nat} (h : (rowMajor shape).contiguousRun = .ok m) :
    m = shape.cols := by
  by_cases hcols : shape.cols = 0
  · rw [contiguousRun, shape_rowMajor, if_pos hcols] at h
    cases h
    exact hcols.symm
  · obtain ⟨hpos, _, _, ⟨_, hall⟩ | ⟨r, _, _, hattained⟩⟩ :=
      contiguousRun_eq_ok (Nat.pos_of_ne_zero hcols) h
    · exact hall
    · exact hattained.eq_cols hpos fun c _ => not_breaks_rowMajor shape r c

theorem contiguousRun_le {l : Layout} {m : Nat} (h : l.contiguousRun = .ok m) :
    m ≤ l.shape.cols := by
  by_cases hcols : l.shape.cols = 0
  · rw [contiguousRun, if_pos hcols] at h
    cases h
    exact Nat.zero_le _
  · exact (contiguousRun_eq_ok (Nat.pos_of_ne_zero hcols) h).2.1

theorem isBulkCompatible_rowMajor
    {l : Layout} {bytes : Nat} (hl : Candidate shape l)
    (h : l.isBulkCompatible bytes target = .ok true) {good : Bool}
    (hgood : (rowMajor shape).isBulkCompatible bytes target = .ok good) :
    good = true := by
  unfold isBulkCompatible at h hgood
  split at h
  · cases h
  · next bulk hbulk =>
      simp only [hbulk] at hgood
      cases hengine : bulk.engine with
      | tma =>
          simp only [hengine] at hgood
          cases hgood
          rfl
      | cpAsync =>
          simp only [hengine, hl.isFragment_eq] at h
          obtain ⟨run, hrun, h⟩ := bind_eq_ok h
          obtain ⟨size, hsize, h⟩ := bind_eq_ok h
          simp only [hengine] at hgood
          obtain ⟨row, hrow, hgood⟩ := bind_eq_ok hgood
          obtain ⟨rowSize, hrowSize, hgood⟩ := bind_eq_ok hgood
          obtain ⟨-, rfl⟩ := word32_eq_ok hsize
          obtain ⟨-, rfl⟩ := word32_eq_ok hrowSize
          have hle := contiguousRun_le hrun
          rw [hl.shape_eq, ← contiguousRun_rowMajor_eq_ok hrow] at hle
          have hchunk : Swizzle.chunkBytes ≤ run * bytes :=
            of_decide_eq_true (Except.ok.inj h)
          have hrowChunk := le_trans hchunk (Nat.mul_le_mul_right bytes hle)
          cases hgood
          exact decide_eq_true hrowChunk

theorem find?_rowMajor_settles
    {bytes : Nat} {others : List Layout}
    (hothers : ∀ l ∈ others, Candidate shape l) :
    Settles .overflow (fun found => ∀ l, found = some l → l = rowMajor shape)
      (Checked.find? (·.isBulkCompatible bytes target) (rowMajor shape ::
        others)) := by
  apply (((usable_rowMajor shape).isBulkCompatible_runs bytes target).settles
    fun good hgood => hgood).bind
  intro good hgood
  cases good with
  | true =>
      apply Settles.ok
      rintro l ⟨⟩
      rfl
  | false =>
      have hrefused : ∀ l ∈ others,
          Settles .overflow (fun passes => passes = true → l = rowMajor shape)
            (l.isBulkCompatible bytes target) := by
        intro l hl
        have husable := usable_of_isFragment (hothers l hl).isFragment_eq
        apply (husable.isBulkCompatible_runs bytes target).settles
        rintro passes hpasses rfl
        cases isBulkCompatible_rowMajor (hothers l hl) hpasses hgood
      exact (Checked.find?_settles hrefused).mono fun found hfound l hl =>
        (hfound l hl).2

theorem sharedCandidates_settles_cons (shape : Shape) (type : ElementType) :
    Settles .overflow
      (fun candidates => ∃ others, candidates = rowMajor shape :: others ∧
        ∀ l ∈ others, Candidate shape l) (sharedCandidates shape type) := by
  apply (sharedCandidates_settles shape type).runs.settles
  intro candidates hcandidates
  have hmem := fun l => candidate_of_mem hcandidates (l := l)
  obtain ⟨swizzled, _, heq⟩ := bind_eq_ok hcandidates
  cases heq
  exact ⟨_, rfl, fun l hl => hmem l (mem_cons_of_mem _ hl)⟩

end Layout

namespace LayoutRequest

open Layout

theorem resolveShared_rowMajor_settles
    {req : LayoutRequest} {patterns : List AccessPattern} {target : Target}
    (hshape : req.shape.isDegenerate = false)
    (hwords : ∀ n ∈ req.shape, n < limit32) (htarget : target ∈ Target.presets)
    (hpatterns : ∀ p ∈ patterns, p.IsRowMajor req.type.bytes) :
    Settles (Stop.fault Fault.overflow) (· = rowMajor req.shape)
      (req.resolveShared patterns target) := by
  apply (sharedCandidates_settles_cons req.shape req.type).lift.bind
  rintro _ ⟨others, rfl, hothers⟩
  rw [mapM_cons, bind_assoc, bind_assoc]
  apply (worstDegree_rowMajor_settles hshape hwords htarget hpatterns).lift.bind
  intro degree hdegree
  rw [pure_bind, bind_assoc]
  have hgrade : ∀ l ∈ others, Settles (Stop.fault Fault.overflow)
      (fun graded => Candidate req.shape graded.1)
      (do return (l, ← l.worstDegree patterns req.type.bytes target) :
        Pass LayoutError (Layout × Nat)) := by
    intro l hl
    have husable := usable_of_isFragment (hothers l hl).isFragment_eq
    apply (Settles.lift
      (husable.worstDegree_runs patterns req.type.bytes target)).bind
    intro degree _
    exact Settles.ok (hothers l hl)
  apply (Settles.mapM hgrade).bind
  intro graded hgraded
  have hkept : (((rowMajor req.shape, degree) :: graded).filter (·.2 ≤ 1)).map
      (·.1) = rowMajor req.shape :: (graded.filter (·.2 ≤ 1)).map (·.1) := by
    rw [filter_cons_of_pos (by exact decide_eq_true hdegree), map_cons]
  simp only [pure_bind, hkept]
  have hfree : ∀ l ∈ (graded.filter (·.2 ≤ 1)).map (·.1),
      Candidate req.shape l := by
    intro l hl
    obtain ⟨g, hg, rfl⟩ := mem_map.mp hl
    exact hgraded g (mem_filter.mp hg).1
  apply (find?_rowMajor_settles hfree).lift.bind
  intro found hfound
  cases found with
  | some l => exact Settles.ok (hfound l rfl)
  | none => exact Settles.ok rfl

end LayoutRequest

end TileProgram
