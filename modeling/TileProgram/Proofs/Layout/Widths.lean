import TileProgram.Proofs.Inference.Choice
import TileProgram.Proofs.Layout.RegisterRuns
import TileProgram.Selection

/-!
# Widths that layouts admit

Groups of columns are in consecutive slots when rows are unbroken, and otherwise
when they start at a multiple of their width and the layout breaks at multiples
of it.  A width that divides the shortest run is one that the layout breaks at
multiples of, up to the exceptions that `Layout.Admits` states.
-/

namespace TileProgram

open Inference

namespace Layout

/-- A pitch, or parameters that suit the shape. -/
def Suited (l : Layout) : Prop :=
  l.kind = .rowMajor ∨ (∃ pad, l.kind = .padded pad) ∨ l.isWellFormed = .ok true

theorem Suited.isWellFormed
    {l : Layout} (h : l.Suited) (hrow : l.kind ≠ .rowMajor)
    (hpad : ∀ pad, l.kind ≠ .padded pad) : l.isWellFormed = .ok true :=
  (h.resolve_left hrow).resolve_left fun hpadded => hpad _ hpadded.choose_spec

/-- Groups of a width, counted from a start, do not straddle a break.  Either
rows have no breaks, or the start is a multiple of the width, and then: a
swizzle needs a power of two that divides the rows, and lanes of four elements
need another width than three. -/
def Admits (l : Layout) (width : Nat) (start : Int) : Prop :=
  l.contiguousRun = .ok l.shape.cols ∨
    match l.kind with
    | .rowMajor | .padded _ => True
    | .swizzled _ =>
        (width : Int) ∣ start ∧ width ∣ l.shape.cols ∧ ∃ e, width = 2 ^ e
    | .fragment (.striped ..) => (width : Int) ∣ start
    | .fragment (.operand atom ..) =>
        (width : Int) ∣ start ∧ (atom.lanes = 32 ∨ width ≠ 3)

theorem Chosen.suited
    {t : Tile} {uses : List TileUse} {l : Layout} (h : l.Chosen t uses) :
    l.Suited := by
  cases h with
  | candidate h =>
      cases h with
      | rowMajor => exact Or.inl rfl
      | swizzled s h => exact Or.inr (Or.inr h)
      | padded pad => exact Or.inr (Or.inl ⟨pad, rfl⟩)
  | declared _ h =>
      unfold isInjective at h
      rcases bind_eq_ok h with ⟨wellFormed, hwf, h⟩
      cases wellFormed with
      | false => cases h
      | true => exact Or.inr (Or.inr hwf)
  | dealt h => exact Or.inr (Or.inr h)
  | operand _ _ h => exact Or.inr (Or.inr h)

section

variable {l : Layout} {shape : Shape} {m r c width : Nat} {start : Int}

theorem dvd_column
    (hstart : (width : Int) ∣ start) (hc : (width : Int) ∣ c - start) :
    width ∣ c := by
  have hsum : (width : Int) ∣ c := by
    have hadd := dvd_add hc hstart
    rwa [Int.sub_add_cancel] at hadd
  exact Int.natCast_dvd_natCast.mp hsum

theorem consecutive_of_whole
    (h : l.contiguousRun = .ok l.shape.cols) (hr : r < l.shape.dropLast.prod)
    (hwidth : 2 ≤ width) (hend : c + width ≤ l.shape.cols) :
    l.Consecutive r c width := by
  have hshortest :=
    shortestRun_of_contiguousRun h (by omega) (by omega) (Nat.zero_lt_of_lt hr)
  have hrow := hshortest.row r hr
  exact hrow.consecutive hend fun x _ hx => hrow.not_breaks (by omega)

theorem consecutive_of_le
    (hsuited : l.Suited) (hmemory : l.isFragment = false)
    (hrun : l.contiguousRun = .ok m) (hle : width ≤ m) (hwidth : 2 ≤ width)
    (hadmits : l.Admits width start) (hr : r < l.shape.dropLast.prod)
    (hc : (width : Int) ∣ c - start) (hend : c + width ≤ l.shape.cols) :
    l.Consecutive r c width := by
  have hshortest := shortestRun_of_contiguousRun hrun (by omega) (by omega)
    (Nat.zero_lt_of_lt hr)
  rcases hadmits with hwhole | hkind
  · exact consecutive_of_whole hwhole hr hwidth hend
  · rcases l with ⟨shape, kind⟩
    cases kind with
    | rowMajor =>
        apply (hshortest.row r hr).consecutive hend
        exact fun x _ _ => not_breaks_rowMajor shape r x
    | padded pad =>
        exact (hshortest.row r hr).consecutive hend fun x _ _ =>
          not_breaks_padded shape pad r x
    | swizzled s =>
        rcases hkind with ⟨hstart, hcols, hpower⟩
        have haligned := aligned_swizzled (hsuited.isWellFormed nofun nofun)
          hshortest.row hle hpower hcols
        exact haligned.consecutive (hshortest.row r hr) hr
          (dvd_column hstart hc) hend
    | fragment f => cases hmemory

theorem consecutive_of_dvd
    (hsuited : l.Suited) (hrun : l.contiguousRun = .ok m) (hdvd : width ∣ m)
    (hwidth : 2 ≤ width) (hadmits : l.Admits width start)
    (hr : r < l.shape.dropLast.prod) (hc : (width : Int) ∣ c - start)
    (hend : c + width ≤ l.shape.cols) : l.Consecutive r c width := by
  have hm : 0 < m := (contiguousRun_eq_ok (by omega) hrun).1
  have hle := Nat.le_of_dvd hm hdvd
  by_cases hmemory : l.isFragment = false
  · exact consecutive_of_le hsuited hmemory hrun hle hwidth hadmits hr hc hend
  · have hshortest := shortestRun_of_contiguousRun hrun (by omega) (by omega)
      (Nat.zero_lt_of_lt hr)
    rcases hadmits with hwhole | hkind
    · exact consecutive_of_whole hwhole hr hwidth hend
    · rcases l with ⟨shape, kind⟩
      cases kind with
      | fragment f =>
          have hwf := hsuited.isWellFormed nofun nofun
          cases f with
          | striped threads vector =>
              have haligned := aligned_striped hwf hshortest hm hdvd
              exact haligned.consecutive (hshortest.row r hr) hr
                (dvd_column hkind hc) hend
          | operand atom warps replicas transposed =>
              rcases hkind with ⟨hstart, hthree⟩
              have haligned :=
                aligned_operand hwf hshortest hm hdvd hwidth hthree
              exact haligned.consecutive (hshortest.row r hr) hr
                (dvd_column hstart hc) hend
      | rowMajor => exact (hmemory rfl).elim
      | padded pad => exact (hmemory rfl).elim
      | swizzled s => exact (hmemory rfl).elim

theorem isHardwareMode_eq_ok
    {s : Swizzle} {bytes : Nat} (h : s.isHardwareMode bytes = .ok true) :
    2 ^ s.base * bytes = Swizzle.chunkBytes := by
  unfold Swizzle.isHardwareMode at h
  split at h
  · rcases bind_eq_ok h with ⟨chunk, hchunk, h⟩
    rcases bind_eq_ok h with ⟨size, hsize, h⟩
    have hsize := (Checked.word32_settles _).of_eq_ok hsize
    simp only [pure, Except.pure, Except.ok.injEq, beq_iff_eq] at h
    unfold Swizzle.chunkElements Checked.bit at hchunk
    split at hchunk
    · rw [← Nat.one_shiftLeft, Except.ok.inj hchunk, ← hsize, h]
    · cases hchunk
  · cases h

theorem consecutive_of_bulkReady
    {bytes : Nat} (hsuited : l.Suited)
    (hready : Selection.bulkReady l bytes = .ok true)
    (hrows : l.shape.cols * bytes % Swizzle.chunkBytes = 0)
    (hchunk : width * bytes = Swizzle.chunkBytes) (hwidth : 2 ≤ width)
    (hadmits : l.Admits width start) (hr : r < l.shape.dropLast.prod)
    (hc : (width : Int) ∣ c - start) (hend : c + width ≤ l.shape.cols) :
    l.Consecutive r c width := by
  rcases hadmits with hwhole | hkind
  · exact consecutive_of_whole hwhole hr hwidth hend
  · rcases l with ⟨shape, kind⟩
    cases kind with
    | rowMajor =>
        apply (rowRuns_zero fun c _ => ⟨_, rfl⟩).consecutive hend
        exact fun x _ _ => not_breaks_rowMajor shape r x
    | swizzled s =>
        have hproper : s.Proper :=
          (swizzle_of_isWellFormed (hsuited.isWellFormed nofun nofun)).1
        have hmode : 2 ^ s.base * bytes = Swizzle.chunkBytes :=
          isHardwareMode_eq_ok hready
        have hpos : 0 < bytes := by
          apply Nat.pos_of_ne_zero
          rintro rfl
          cases hchunk
        have hsame : 2 ^ s.base = width :=
          Nat.eq_of_mul_eq_mul_right hpos (hmode.trans hchunk.symm)
        have hcols : width ∣ shape.cols := by
          rw [← hchunk] at hrows
          exact Nat.dvd_of_mul_dvd_mul_right hpos (Nat.dvd_of_mod_eq_zero hrows)
        have haligned : Aligned ⟨shape, .swizzled s⟩ width :=
          fun r _ c _ hbreak =>
          dvd_of_dvd_chunk hproper (hsame ▸ Nat.dvd_refl _) hcols hbreak
        exact haligned.consecutive (rowRuns_swizzled hproper r) hr
          (dvd_column hkind.1 hc) hend
    | padded pad => cases hready
    | fragment f => cases hready

end

end Layout

end TileProgram
