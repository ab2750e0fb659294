import Mathlib.Tactic
import TileProgram.Index

/-!
# Numbers and positions

`unravel` and `linearIndex?` are inverse to each other on the elements of a
shape, and a number that `linearIndex?` gives is that of an element.
-/

namespace TileProgram
namespace Shape

theorem unravelFrom_snd {linear : Nat} {shape : Shape} (hpos : 0 < shape.prod) :
    (unravelFrom linear shape).2 = linear / shape.prod := by
  induction shape with
  | nil => simp [unravelFrom]
  | cons extent rest ih =>
      rw [List.prod_cons] at hpos
      have hextent : 0 < extent := Nat.pos_of_mul_pos_right hpos
      have hrest : 0 < rest.prod := Nat.pos_of_mul_pos_left hpos
      have hmax : max 1 extent = extent := by omega
      simp only [unravelFrom, hmax, List.prod_cons]
      rw [ih hrest, Nat.div_div_eq_div_mul, Nat.mul_comm rest.prod]

@[simp]
theorem length_unravel (linear : Nat) (shape : Shape) :
    (unravel linear shape).length = shape.length := by
  unfold unravel
  induction shape with
  | nil => rfl
  | cons extent rest ih => simp [unravelFrom, ih]

theorem linearFrom_unravel
    {shape : Shape} (hpos : 0 < shape.prod) (acc linear : Nat) :
    linearFrom acc shape ((unravel linear shape).map Int.ofNat) =
      some (acc * shape.prod + linear % shape.prod) := by
  induction shape generalizing acc with
  | nil => simp [unravel, unravelFrom, linearFrom, Nat.mod_one]
  | cons extent rest ih =>
      have hpos' := hpos
      rw [List.prod_cons] at hpos'
      have hextent : 0 < extent := Nat.pos_of_mul_pos_right hpos'
      have hrest : 0 < rest.prod := Nat.pos_of_mul_pos_left hpos'
      have hmax : max 1 extent = extent := by omega
      have houter : linear / rest.prod % extent < extent := Nat.mod_lt _ hextent
      have hunravel : unravel linear (extent :: rest) =
          linear / rest.prod % extent :: unravel linear rest := by
        simp only [unravel, unravelFrom, hmax, unravelFrom_snd hrest]
      rw [hunravel, List.map_cons, linearFrom]
      rw [if_pos ⟨Int.natCast_nonneg _, Int.ofNat_lt.mpr houter⟩]
      have htail := ih hrest (acc * extent + linear / rest.prod % extent)
      rw [Int.ofNat_eq_natCast, Int.toNat_natCast, htail, List.prod_cons,
        Nat.mul_comm extent rest.prod, Nat.mod_mul]
      congr 1
      ring

theorem linearIndex?_unravel
    {shape : Shape} {linear : Nat} (h : linear < shape.prod) :
    shape.linearIndex? ((shape.unravel linear).map Int.ofNat) =
      some linear := by
  unfold linearIndex?
  rw [linearFrom_unravel (by omega), Nat.mod_eq_of_lt h]
  simp

theorem linearFrom_lt
    {shape : Shape} {index : List Int} {acc i : Nat}
    (h : linearFrom acc shape index = some i) : i < (acc + 1) * shape.prod := by
  fun_induction linearFrom acc shape index with
  | case1 acc =>
      cases h
      simp
  | case2 acc extent shape j index hbounds ih =>
      have hi := ih h
      have hj : acc * extent + j.toNat + 1 ≤ (acc + 1) * extent := by
        have : j.toNat < extent := by omega
        calc acc * extent + j.toNat + 1 ≤ acc * extent + extent := by omega
          _ = (acc + 1) * extent := by ring
      calc i < (acc * extent + j.toNat + 1) * shape.prod := hi
        _ ≤ (acc + 1) * extent * shape.prod := Nat.mul_le_mul_right _ hj
        _ = (acc + 1) * (extent :: shape).prod := by
          rw [List.prod_cons, Nat.mul_assoc]
  | case3 acc extent shape j index hbounds => cases h
  | case4 acc shape index hnil hcons => cases h

theorem linearIndex?_lt
    {shape : Shape} {index : List Int} {i : Nat}
    (h : shape.linearIndex? index = some i) : i < shape.prod := by
  have hlt := linearFrom_lt h
  simpa using hlt

end Shape
end TileProgram
