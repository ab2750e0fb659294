import TileProgram.Proofs.Layout.Placement

/-!
# Numbers of elements

The simulator numbers the elements of a shape by a position, and a row-major
layout gives each of them an offset by its row and its column.  On the elements
of a shape these are one numbering, with `unravel` as its inverse; outside of
them `linearIndex?` gives nothing.
-/

namespace TileProgram

namespace Shape

variable {shape : Shape} {index : List Int} {i : Nat}

/-- The position has the rank of the shape and a coordinate below each
extent. -/
def InRange (shape : Shape) (index : List Int) : Prop :=
  List.Forall₂ (fun (coordinate : Int) (extent : Nat) =>
    0 ≤ coordinate ∧ coordinate < extent) index shape

theorem linearFrom_isSome_iff (acc : Nat) (shape : Shape) (index : List Int) :
    (linearFrom acc shape index).isSome ↔ shape.InRange index := by
  unfold InRange
  fun_induction linearFrom acc shape index with
  | case1 acc => simp
  | case2 acc extent shape j index hbounds ih => simp [ih, hbounds]
  | case3 acc extent shape j index hbounds => simp [hbounds]
  | case4 acc shape index hnil hcons =>
      simp only [Option.isSome_none, Bool.false_eq_true, false_iff]
      intro hrange
      cases hrange with
      | nil => exact hnil rfl rfl
      | cons _ _ => exact hcons _ _ _ _ rfl rfl

theorem InRange.contains (h : shape.InRange index) :
    shape.Contains (index.map Int.toNat) := by
  apply List.forall₂_map_left_iff.mpr
  apply List.Forall₂.imp _ h
  intro coordinate extent hbounds
  omega

theorem InRange.map_toNat (h : shape.InRange index) :
    (index.map Int.toNat).map Int.ofNat = index := by
  induction h with
  | nil => rfl
  | cons hbounds _ ih =>
      rw [List.map_cons, List.map_cons, ih, Int.ofNat_eq_natCast,
        Int.toNat_of_nonneg hbounds.1]

theorem unravel_of_linearIndex? (h : shape.linearIndex? index = some i) :
    (shape.unravel i).map Int.ofNat = index :=
  (linearFrom_inj (linearIndex?_unravel (linearIndex?_lt h)) h).2

end Shape

theorem Layout.offset_rowMajor
    {shape : Shape} {index : List Nat} {i : Nat} (hindex : shape.Contains index)
    (hrows : shape.dropLast.prod < limit32)
    (h : shape.linearIndex? (index.map Int.ofNat) = some i) :
    (rowMajor shape).offset index = .ok (some i) := by
  obtain ⟨hlt, _⟩ | ⟨r, _, c, _, hlinear, hposition⟩ :=
    position_eq (show (rowMajor shape).shape.Contains index from hindex)
  · exact absurd hrows (Nat.not_lt_of_lt hlt)
  · cases h.symm.trans hlinear
    rw [offset, slot, hposition]
    rfl

/-- Numbers and positions determine each other on every shape whose elements and
rows can be counted, exactly the positions in range have a number, and it is
their row-major offset. -/
theorem Shape.linear_and_tuple_indices_agree
    (shape : Shape) (hpos : ∀ extent ∈ shape, 0 < extent)
    (hnumel : shape.prod < 0x8000000000000000)
    (hrows : shape.dropLast.prod < limit32) :
    ∃ n, shape.numel = .ok n ∧
      (∀ linear < n,
        shape.linearIndex? ((shape.unravel linear).map Int.ofNat) =
          some linear) ∧
      ∀ index : List Int,
        ((shape.linearIndex? index).isSome ↔ shape.InRange index) ∧
        ∀ i, shape.linearIndex? index = some i →
          i < n ∧ (shape.unravel i).map Int.ofNat = index ∧
            (Layout.rowMajor shape).offset (index.map Int.toNat) =
              .ok (some i) := by
  have hcount : shape.numel = .ok shape.prod :=
    Checked.product_of_lt (fun _ => Checked.word64_of_lt) hpos
      (hnumel.trans (by decide))
  refine ⟨shape.prod, hcount, fun linear => linearIndex?_unravel,
    fun index => ⟨?_, ?_⟩⟩
  · exact linearFrom_isSome_iff 0 shape index
  · intro i h
    have hrange : shape.InRange index := by
      rw [← linearFrom_isSome_iff 0, Option.isSome_iff_exists]
      exact ⟨i, h⟩
    refine ⟨linearIndex?_lt h, unravel_of_linearIndex? h, ?_⟩
    apply Layout.offset_rowMajor hrange.contains hrows
    rw [hrange.map_toNat]
    exact h

theorem Shape.linear_and_tuple_indices_agree_rank_three :
    Shape.unravel 17 [2, 3, 4] = [1, 1, 1] ∧
      (Layout.rowMajor [2, 3, 4]).offset [1, 1, 1] = .ok (some 17) ∧
      (Shape.linearIndex? [2, 3, 4] [1, 3, 0]).isSome = false := by
  rcases linear_and_tuple_indices_agree [2, 3, 4] (by decide) (by decide)
    (by decide) with
    ⟨n, hn, hnumber, htuple⟩
  cases hn
  have hlinear := hnumber 17 (by decide)
  refine ⟨rfl, ?_, ?_⟩
  · exact ((htuple [1, 1, 1]).2 17 hlinear).2.2
  · rw [Bool.eq_false_iff, ne_eq, (htuple [1, 3, 0]).1]
    rintro (_ | ⟨_, _ | ⟨hbounds, _⟩⟩)
    exact absurd hbounds (by decide)

end TileProgram
