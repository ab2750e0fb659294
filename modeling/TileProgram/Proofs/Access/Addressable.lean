import TileProgram.Proofs.Access.RowMajor

/-!
# Tiles that can be addressed

Where the rows of a tile, the bytes of one row and the bytes of the tile with a
chunk of padding after each row fit their words, no step of the choice of a
layout stops.  Together with the absence of conflicts this decides the choice
for tiles that are only walked in row-major order: it is the row-major layout.
-/

namespace TileProgram

open Checked List

/-! ## Addresses -/

/-- The rows are counted in 32 bits, the bytes of a row in 32 bits and the bytes
of all rows, each followed by a chunk, in 64. -/
structure Shape.Addressable (shape : Shape) (bytes : Nat) : Prop where
  rows_lt : shape.dropLast.prod < limit32
  row_lt : shape.cols * bytes < limit32
  padded_lt : shape.dropLast.prod * (shape.cols * bytes + Swizzle.chunkBytes) <
    limit64

namespace Shape.Addressable

variable {shape : Shape} {type : ElementType}

theorem rows_eq
    {bytes : Nat} (h : shape.Addressable bytes)
    (hshape : shape.isDegenerate = false) :
    shape.rows = .ok shape.dropLast.prod := by
  apply product_of_lt (fun _ => word32_of_lt) _ h.rows_lt
  intro n hn
  exact Shape.pos_of_not_degenerate hshape n (mem_of_mem_dropLast hn)

theorem cols_lt (h : shape.Addressable type.bytes) : shape.cols < limit32 :=
  lt_of_le_of_lt (Nat.le_mul_of_pos_right _ type.bytes_bounds.1) h.row_lt

theorem numel_eq
    (h : shape.Addressable type.bytes) (hshape : shape.isDegenerate = false) :
    shape.numel = .ok shape.prod := by
  apply product_of_lt (fun _ => word64_of_lt)
    (Shape.pos_of_not_degenerate hshape)
  rw [Shape.prod_eq_dropLast_mul_cols]
  refine lt_of_le_of_lt (Nat.mul_le_mul_left _ ?_) h.padded_lt
  exact le_trans (Nat.le_mul_of_pos_right _ type.bytes_bounds.1)
    (Nat.le_add_right _ _)

end Shape.Addressable

theorem AccessPattern.rowMajorAccess_inside
    {rows cols v chunk : Nat} (hrows : rows < limit32) (hcols : cols < limit32)
    (hpos : 0 < cols) (hv : 0 < v) (hdvd : v ∣ cols)
    (hin : chunk < rows * (cols / v)) :
    (rowMajorAccess cols v chunk).row < rows ∧
      (rowMajorAccess cols v chunk).col + (rowMajorAccess cols v chunk).width ≤
        cols := by
  have hrow : chunk * v / cols < rows :=
    (Nat.div_lt_iff_lt_mul hpos).mpr (chunk_mul_lt hv hdvd hin)
  have hcol : chunk * v % cols < cols := Nat.mod_lt _ hpos
  have hmultiple : v ∣ chunk * v % cols :=
    (Nat.dvd_mod_iff hdvd).mpr (Nat.dvd_mul_left v chunk)
  simp only [rowMajorAccess, low32, Nat.mod_eq_of_lt (hrow.trans hrows),
    Nat.mod_eq_of_lt (hcol.trans hcols)]
  refine ⟨hrow, ?_⟩
  generalize chunk * v % cols = col at hcol hmultiple
  obtain ⟨i, rfl⟩ := hmultiple
  obtain ⟨n, rfl⟩ := hdvd
  have hstep : i + 1 ≤ n := Nat.lt_of_mul_lt_mul_left hcol
  calc v * i + v = v * (i + 1) := by ring
    _ ≤ v * n := Nat.mul_le_mul_left v hstep

namespace Layout

/-- Every element has an address, and so has the byte after it. -/
def Reaches (l : Layout) (bytes : Nat) : Prop :=
  ∀ r < l.shape.dropLast.prod, ∀ c < l.shape.cols,
    ∃ o, l.slotAt r c = .ok (.offset o) ∧ (o + 1) * bytes < limit64

/-- Swizzles are hardware modes, and padding is at most a chunk. -/
structure Narrow (l : Layout) (bytes : Nat) : Prop where
  swizzle : ∀ s, l.kind = .swizzled s → s.isHardwareMode bytes = .ok true
  pad : ∀ pad, l.kind = .padded pad → pad * bytes ≤ Swizzle.chunkBytes

variable {shape : Shape} {bytes : Nat} {l : Layout} {type : ElementType}
  {target : Target}

theorem address_lt
    (h : shape.Addressable bytes) {pitch r o : Nat}
    (hpitch : pitch * bytes ≤ shape.cols * bytes + Swizzle.chunkBytes)
    (hr : r < shape.dropLast.prod) (ho : o < (r + 1) * pitch) :
    (o + 1) * bytes < limit64 := by
  calc (o + 1) * bytes ≤ (r + 1) * pitch * bytes :=
    Nat.mul_le_mul_right bytes ho
    _ = (r + 1) * (pitch * bytes) := Nat.mul_assoc ..
    _ ≤ shape.dropLast.prod * (shape.cols * bytes + Swizzle.chunkBytes) :=
      Nat.mul_le_mul hr hpitch
    _ < limit64 := h.padded_lt

theorem reaches_of_candidate
    (h : shape.Addressable bytes) (hbytes : 0 < bytes) (hl : Candidate shape l)
    (hnarrow : l.Narrow bytes) : l.Reaches bytes := by
  intro r hr c hc
  rw [hl.shape_eq] at hr hc
  cases hl with
  | rowMajor =>
      refine ⟨_, rfl, address_lt h (Nat.le_add_right _ _) hr ?_⟩
      rw [Nat.add_mul, Nat.one_mul]
      exact Nat.add_lt_add_left hc _
  | padded pad =>
      have hend : r * (shape.cols + pad) + c <
          (r + 1) * (shape.cols + pad) := by
        rw [Nat.add_mul r 1, Nat.one_mul]
        omega
      have hpitch : (shape.cols + pad) * bytes ≤
          shape.cols * bytes + Swizzle.chunkBytes := by
        rw [Nat.add_mul]
        exact Nat.add_le_add_left (hnarrow.pad pad rfl) _
      have haddress := address_lt h hpitch hr hend
      have hword : r * (shape.cols + pad) + c < limit64 :=
        lt_of_lt_of_le (Nat.lt_succ_self _)
          (le_trans (Nat.le_mul_of_pos_right _ hbytes) haddress.le)
      refine ⟨_, ?_, haddress⟩
      simp only [slotAt]
      rw [word64_of_lt hword]
      rfl
  | swizzled s hwf =>
      obtain ⟨hproper, haligned⟩ := swizzle_of_isWellFormed hwf
      refine ⟨s.permute (r * shape.cols + c), ?_, ?_⟩
      · simp only [slotAt]
        rw [hproper.apply_eq]
        rfl
      · have hin : r * shape.cols + c < shape.prod := by
          rw [Shape.prod_eq_dropLast_mul_cols]
          exact rowMajor_lt hr hc
        have hstays := Swizzle.permute_lt haligned hin
        rw [Shape.prod_eq_dropLast_mul_cols] at hstays
        have hrows : shape.dropLast.prod - 1 < shape.dropLast.prod := by omega
        apply address_lt h (Nat.le_add_right _ _) hrows
        rwa [Nat.sub_add_cancel (by omega)]

/-! ## Steps of the choice -/

theorem Reaches.askElement_returns
    (h : l.Reaches bytes) (hbytes : 0 < bytes) {r c : Nat}
    (hr : r < l.shape.dropLast.prod) (hc : c < l.shape.cols)
    (wordBytes banks : Nat) (load : BankLoad) :
    Returns (l.askElement bytes wordBytes banks r c load) := by
  obtain ⟨o, hslot, hend⟩ := h r hr c hc
  rw [Nat.add_mul, Nat.one_mul] at hend
  unfold askElement
  rw [hslot, ok_bind]
  simp only
  rw [word64_of_lt (lt_of_le_of_lt (Nat.le_add_right _ _) hend), ok_bind,
    word64_of_lt hend, ok_bind, Checked.sub, if_pos (by omega), ok_bind]
  exact Returns.ok _

theorem Reaches.conflictDegree_returns
    (h : l.Reaches type.bytes) (haddress : l.shape.Addressable type.bytes)
    (hshape : l.shape.isDegenerate = false) (htarget : target ∈ Target.presets)
    {p : AccessPattern} (hp : p.IsRowMajor type.bytes) :
    Returns (l.conflictDegree p type.bytes target) := by
  obtain ⟨vector, rfl, hvector⟩ := hp
  have hpos := Shape.pos_of_not_degenerate hshape _ (Shape.cols_mem hshape)
  unfold conflictDegree
  split
  · exact Returns.ok 0
  · rw [haddress.rows_eq hshape, ok_bind,
      AccessPattern.phases_rowMajor htarget hvector, ok_bind]
    apply Returns.foldlM
    intro phase hphase worst
    obtain ⟨group, hgroup, rfl⟩ := mem_map.mp hphase
    refine Returns.bind ?_ fun load _ => Returns.ok _
    apply Returns.foldlM
    intro access haccess load
    obtain ⟨chunk, hchunk, rfl⟩ := mem_map.mp haccess
    obtain ⟨n, hchunks⟩ := AccessPattern.mem_groups hgroup
    obtain ⟨hrow, hcol⟩ := AccessPattern.rowMajorAccess_inside haddress.rows_lt
      haddress.cols_lt hpos (fitVector_pos vector l.shape.cols)
      (fitVector_dvd vector l.shape.cols) (hchunks chunk hchunk).2.2
    apply Returns.foldM
    intro c load _ hc
    exact h.askElement_returns type.bytes_bounds.1 hrow (by omega) _ _ load

theorem Reaches.worstDegree_returns
    (h : l.Reaches type.bytes) (haddress : l.shape.Addressable type.bytes)
    (hshape : l.shape.isDegenerate = false) (htarget : target ∈ Target.presets)
    {patterns : List AccessPattern}
    (hpatterns : ∀ p ∈ patterns, p.IsRowMajor type.bytes) :
    Returns (l.worstDegree patterns type.bytes target) := by
  apply (Returns.mapM fun p hp =>
    h.conflictDegree_returns haddress hshape htarget (hpatterns p hp)).bind
  intro degrees _
  exact Returns.ok _

theorem Reaches.contiguousRun_returns
    (h : l.Reaches bytes) (haddress : l.shape.Addressable bytes)
    (hshape : l.shape.isDegenerate = false) : Returns l.contiguousRun := by
  apply l.contiguousRun_returns (haddress.rows_eq hshape)
  intro r hr c hc
  obtain ⟨o, hslot, _⟩ := h r hr c hc
  exact ⟨_, hslot⟩

theorem Reaches.isBulkCompatible_returns
    (h : l.Reaches bytes) (hnarrow : l.Narrow bytes)
    (haddress : l.shape.Addressable bytes)
    (hshape : l.shape.isDegenerate = false) (target : Target) :
    Returns (l.isBulkCompatible bytes target) := by
  unfold isBulkCompatible
  split
  · exact Returns.ok false
  · split
    · split
      · exact Returns.ok true
      · next s hkind => exact ⟨true, hnarrow.swizzle s hkind⟩
      · exact Returns.ok false
    · split
      · exact Returns.ok false
      · apply (h.contiguousRun_returns haddress hshape).bind
        intro run hrun
        have hbytes : run * bytes < limit32 :=
          lt_of_le_of_lt (Nat.mul_le_mul_right bytes (contiguousRun_le hrun))
            haddress.row_lt
        rw [word32_of_lt hbytes]
        exact Returns.ok _

/-! ## Candidates -/

/-- The swizzles of a width are hardware modes of their element size. -/
theorem isHardwareMode_of_ofBytes?
    {width : Nat} (hwidth : width ∈ [32, 64, 128]) {s : Swizzle}
    (h : Swizzle.ofBytes? width type.bytes = some s) :
    s.isWellFormed = .ok true ∧ s.isHardwareMode type.bytes = .ok true := by
  revert s
  revert width
  cases type <;> decide

theorem sharedCandidates_returns
    (h : shape.Addressable type.bytes) (hshape : shape.isDegenerate = false) :
    Returns (sharedCandidates shape type) := by
  refine Returns.bind ?_ fun swizzled _ => Returns.ok _
  apply Returns.filterM
  intro l hl
  obtain ⟨s, hs, rfl⟩ := mem_map.mp hl
  obtain ⟨width, hwidth, hofBytes⟩ := mem_filterMap.mp hs
  obtain ⟨hwf, -⟩ := isHardwareMode_of_ofBytes? hwidth hofBytes
  unfold isWellFormed
  rw [if_neg (Bool.eq_false_iff.mp hshape)]
  simp only [hwf, ok_bind, h.numel_eq hshape,
    (Swizzle.proper_of_isWellFormed hwf).period_eq]
  exact Returns.ok _

theorem padding_le (type : ElementType) :
    ∀ pad ∈ [max 1 (4 / type.bytes),
      max 1 (Swizzle.chunkBytes / type.bytes)].eraseDups, pad * type.bytes ≤
      Swizzle.chunkBytes := by
  cases type <;> decide

theorem narrow_of_mem
    {candidates : List Layout}
    (h : sharedCandidates shape type = .ok candidates) (hl : l ∈ candidates) :
    l.Narrow type.bytes := by
  obtain ⟨swizzled, hswizzled, h⟩ := bind_eq_ok h
  cases h
  rcases mem_append.mp hl with hl | hl
  · rcases mem_cons.mp hl with rfl | hl
    · exact ⟨nofun, nofun⟩
    · obtain ⟨hin, _⟩ := mem_of_filterM hswizzled hl
      obtain ⟨s, hs, rfl⟩ := mem_map.mp hin
      obtain ⟨width, hwidth, hofBytes⟩ := mem_filterMap.mp hs
      refine ⟨?_, nofun⟩
      rintro _ ⟨⟩
      exact (isHardwareMode_of_ofBytes? hwidth hofBytes).2
  · obtain ⟨pad, hpad, rfl⟩ := mem_map.mp hl
    refine ⟨nofun, ?_⟩
    rintro _ ⟨⟩
    exact padding_le type pad hpad

end Layout

/-! ## Row-major traffic -/

namespace LayoutRequest

open Layout

variable {req : LayoutRequest} {patterns : List AccessPattern} {target : Target}

theorem resolveShared_ne_fault
    (haddress : req.shape.Addressable req.type.bytes)
    (hshape : req.shape.isDegenerate = false)
    (htarget : target ∈ Target.presets)
    (hpatterns : ∀ p ∈ patterns, p.IsRowMajor req.type.bytes) (fault : Fault) :
    req.resolveShared patterns target ≠ .error (.fault fault) := by
  obtain ⟨candidates, hcandidates⟩ := sharedCandidates_returns haddress hshape
  have hreaches : ∀ l ∈ candidates,
      l.shape = req.shape ∧ l.Narrow req.type.bytes ∧
      l.Reaches req.type.bytes := by
    intro l hl
    have hcandidate := candidate_of_mem hcandidates hl
    have hnarrow := narrow_of_mem hcandidates hl
    exact ⟨hcandidate.shape_eq, hnarrow,
      reaches_of_candidate haddress req.type.bytes_bounds.1 hcandidate hnarrow⟩
  have hgrades : Returns (candidates.mapM fun l =>
      (do return (l, ← l.worstDegree patterns req.type.bytes target) :
        Pass LayoutError (Layout × Nat))) := by
    apply Returns.mapM
    intro l hl
    obtain ⟨heq, _, hreach⟩ := hreaches l hl
    refine Returns.bind (Returns.lift ?_) fun degree _ => Returns.ok _
    exact hreach.worstDegree_returns (heq ▸ haddress) (heq ▸ hshape) htarget
      hpatterns
  obtain ⟨graded, hgraded⟩ := hgrades
  have hfind : Returns (Checked.find? (·.isBulkCompatible req.type.bytes target)
      ((graded.filter (·.2 ≤ 1)).map (·.1))) := by
    apply Returns.find?
    intro l hl
    obtain ⟨⟨l', degree⟩, hin, rfl⟩ := mem_map.mp hl
    obtain ⟨candidate, hcandidate, hgrade⟩ :=
      exists_of_mem_mapM hgraded (mem_filter.mp hin).1
    obtain ⟨_, _, hgrade⟩ := bind_eq_ok hgrade
    cases hgrade
    obtain ⟨heq, hnarrow, hreach⟩ := hreaches _ hcandidate
    exact hreach.isBulkCompatible_returns hnarrow (heq ▸ haddress)
      (heq ▸ hshape) target
  obtain ⟨found, hfound⟩ := hfind
  unfold resolveShared
  simp only [hcandidates, lift_ok, ok_bind, hgraded, hfound]
  cases found with
  | some l => exact nofun
  | none =>
      simp only
      split
      · exact nofun
      · exact nofun

/-- A shared tile that is only walked in row-major order, sixteen bytes a lane
at most, keeps the row-major layout on every built-in target, however long its
rows are. -/
theorem resolve_rowMajor_traffic
    (req : LayoutRequest) (patterns : List AccessPattern) (target : Target)
    (hscope : req.scope = .shared) (hshape : req.shape.isDegenerate = false)
    (hwords : ∀ n ∈ req.shape, n < limit32)
    (hpatterns : ∀ p ∈ patterns, p.IsRowMajor req.type.bytes)
    (htarget : target ∈ Target.presets) :
    Settles (Stop.fault Fault.overflow) (· = Layout.rowMajor req.shape)
        (req.resolve patterns target) ∧
      (∀ p ∈ patterns, Settles .overflow (· ≤ 1)
        ((Layout.rowMajor req.shape).conflictDegree p req.type.bytes target)) ∧
      (req.shape.Addressable req.type.bytes →
        req.resolve patterns target = .ok (Layout.rowMajor req.shape) ∧
          ∀ p ∈ patterns, (Layout.rowMajor req.shape).ConflictFree p
            req.type.bytes target) := by
  have hresolve : req.resolve patterns target =
      req.resolveShared patterns target := by
    simp [resolve, hshape, hscope]
  have hchoice := resolveShared_rowMajor_settles hshape hwords htarget hpatterns
  have hdegrees := fun p hp =>
    conflictDegree_rowMajor_settles hshape hwords htarget (hpatterns p hp)
  rw [hresolve]
  refine ⟨hchoice, hdegrees, fun haddress => ?_⟩
  have hreturn : req.resolveShared patterns target =
      .ok (Layout.rowMajor req.shape) := by
    rcases hchoice with hstop | ⟨l, hreturn, rfl⟩
    · cases resolveShared_ne_fault haddress hshape htarget hpatterns _ hstop
    · exact hreturn
  exact ⟨hreturn, (resolveShared_eq_ok hreturn).2⟩

/-- Rows of 21 bytes: accesses are cut to seven and to three bytes, and phases
start inside bank words. -/
theorem resolve_rowMajor_traffic_ragged :
    let req : LayoutRequest := ⟨"ragged", [3, 5, 21], .i8, .shared, 128⟩
    let patterns : List AccessPattern := [.rowMajor 16, .rowMajor 5]
    req.resolve patterns .sm80 = .ok (.rowMajor req.shape) ∧
      req.resolve patterns .gfx90a = .ok (.rowMajor req.shape) ∧
        ∀ p ∈ patterns, (Layout.rowMajor req.shape).ConflictFree p
          req.type.bytes .gfx90a := by
  intro req patterns
  have hpatterns : ∀ p ∈ patterns, p.IsRowMajor req.type.bytes := by
    intro p hp
    rcases mem_pair.mp hp with rfl | rfl
    · exact ⟨16, rfl, by decide⟩
    · exact ⟨5, rfl, by decide⟩
  have haddress : req.shape.Addressable req.type.bytes :=
    ⟨by decide, by decide, by decide⟩
  obtain ⟨-, -, hampere⟩ := resolve_rowMajor_traffic req patterns .sm80
    rfl (by decide) (by decide) hpatterns (by decide)
  obtain ⟨-, -, hcdna⟩ := resolve_rowMajor_traffic req patterns .gfx90a
    rfl (by decide) (by decide) hpatterns (by decide)
  exact ⟨(hampere haddress).1, hcdna haddress⟩

end LayoutRequest

end TileProgram
