import TileProgram.Layout.Injective
import TileProgram.Proofs.Operands

/-!
# Where layouts place elements

`Layout.Spreads` says of the two-dimensional view, and `Layout.Holds` of index
tuples, that distinct elements have distinct slots, all inside the footprint,
and that nothing but an exhausted word can stop the computation of a slot.  The
layouts in memory have it: rows that are apart by a pitch, and swizzles, which
permute the offsets of aligned blocks.  A layout that passes `isInjective` has
it by what the test has seen.
-/

namespace TileProgram

open Checked List

/-- Every index is below its extent. -/
def Shape.Contains (shape : Shape) (index : List Nat) : Prop :=
  Forall₂ (· < ·) index shape

namespace Layout

/-- The slot passes for one inside the footprint. -/
def Inside (l : Layout) (s : Slot) : Prop :=
  ∀ accept, l.inside = .ok accept → accept s = true

/-- The elements of the two-dimensional view have slots of their own. -/
structure Spreads (l : Layout) : Prop where
  footprint : Settles .overflow (fun _ => True) l.inside
  slot : ∀ r < l.shape.dropLast.prod, ∀ c < l.shape.cols,
    Settles .overflow l.Inside (l.slotAt r c)
  apart : ∀ r < l.shape.dropLast.prod,
    ∀ c < l.shape.cols, ∀ r' < l.shape.dropLast.prod, ∀ c' < l.shape.cols,
    ∀ s, l.slotAt r c = .ok s → l.slotAt r' c' = .ok s → r = r' ∧ c = c'

/-- The elements of the tile have slots of their own. -/
structure Holds (l : Layout) : Prop where
  footprint : Settles .overflow (fun _ => True) l.inside
  slot : ∀ index, l.shape.Contains index →
    Settles .overflow l.Inside (l.slot index)
  apart : ∀ index index', l.shape.Contains index → l.shape.Contains index' →
    ∀ s, l.slot index = .ok s → l.slot index' = .ok s → index = index'

end Layout

/-! ## Index tuples -/

namespace Shape

theorem linearFrom_inj
    {shape : Shape} {index index' : List Int} {acc acc' n : Nat}
    (h : linearFrom acc shape index = some n)
    (h' : linearFrom acc' shape index' = some n) :
    acc = acc' ∧ index = index' := by
  induction shape generalizing index index' acc acc' with
  | nil =>
      cases index with
      | cons i rest => cases h
      | nil =>
          cases index' with
          | cons i rest => cases h'
          | nil =>
              cases h
              cases h'
              exact ⟨rfl, rfl⟩
  | cons extent shape ih =>
      cases index with
      | nil => cases h
      | cons i rest =>
          cases index' with
          | nil => cases h'
          | cons i' rest' =>
              simp only [linearFrom, Option.ite_none_right_eq_some] at h h'
              obtain ⟨hi, h⟩ := h
              obtain ⟨hi', h'⟩ := h'
              obtain ⟨hsum, rfl⟩ := ih h h'
              obtain ⟨hacc, hnat⟩ :=
                eq_of_rowMajor_eq (by omega) (by omega) hsum
              have hint : i = i' := by omega
              exact ⟨hacc, by rw [hint]⟩

theorem Contains.prod_pos
    {shape : Shape} {index : List Nat} (h : shape.Contains index) :
    0 < shape.prod := by
  induction h with
  | nil => simp
  | cons hi _ ih =>
      rw [prod_cons]
      exact Nat.mul_pos (Nat.zero_lt_of_lt hi) ih

/-- The fold over the outer indices gives the number of the outer element,
unless the outer extents have more elements than a word counts.  `start` counts
the extents already passed. -/
theorem foldlM_row_eq
    (shape : Shape) {outer : Shape} {index : List Nat}
    (hindex : outer.Contains index) (start row : Nat)
    (houter : ∀ i < outer.length, shape[start + i]? = outer[i]?) :
    (limit32 < (row + 1) * outer.prod ∧ (index.zipIdx start).foldlM
      (fun row (ix, i) => Checked.word32 (row * shape[i]?.getD 1 + ix)) row =
        .error .overflow) ∨
    ∃ n, linearFrom row outer (index.map Int.ofNat) = some n ∧
      (index.zipIdx start).foldlM (fun row (ix, i) =>
        Checked.word32 (row * shape[i]?.getD 1 + ix)) row = .ok n := by
  induction hindex generalizing start row with
  | nil => exact Or.inr ⟨row, rfl, rfl⟩
  | @cons i extent index outer hi hrest ih =>
      rw [zipIdx_cons, foldlM_cons]
      have hextent : shape[start]? = some extent := houter 0 (by simp)
      simp only [hextent, Option.getD_some]
      have hsize : (row * extent + i + 1) * outer.prod ≤
          (row + 1) * (extent :: outer).prod := by
        rw [prod_cons, ← Nat.mul_assoc]
        apply Nat.mul_le_mul_right
        rw [Nat.add_mul, Nat.one_mul]
        omega
      by_cases hword : row * extent + i < limit32
      · rw [word32_of_lt hword, ok_bind, map_cons, linearFrom,
          if_pos ⟨Int.natCast_nonneg i, Int.ofNat_lt.mpr hi⟩]
        refine (ih (start + 1) (row * extent + i) ?_).imp_left fun h =>
          ⟨h.1.trans_le hsize, h.2⟩
        intro j hj
        have hnext := houter (j + 1) (by simpa using hj)
        rwa [getElem?_cons_succ, show start + (j + 1) = start + 1 + j by omega]
          at hnext
      · left
        have hrow := Nat.le_mul_of_pos_right (row * extent + i + 1)
          (Contains.prod_pos hrest)
        rw [Checked.word32, if_neg hword]
        exact ⟨by omega, rfl⟩

theorem linearFrom_append
    {outer : Shape} {front : List Int} {acc n col last : Nat}
    (h : linearFrom acc outer front = some n) (hcol : col < last) :
    linearFrom acc (outer ++ [last]) (front ++ [(col : Int)]) =
      some (n * last + col) := by
  fun_induction linearFrom acc outer front with
  | case1 acc =>
      cases h
      simp [linearFrom, hcol]
  | case2 acc extent outer i front hbounds ih =>
      rw [cons_append, cons_append, linearFrom, if_pos hbounds]
      exact ih h
  | case3 acc extent outer i front hbounds => cases h
  | case4 acc outer front hnil hcons => cases h

theorem Contains.append_last
    {outer : Shape} {last : Nat} {index : List Nat}
    (h : Shape.Contains (outer ++ [last]) index) :
    ∃ front col,
      index = front ++ [col] ∧ outer.Contains front ∧ col < last := by
  have hfront := forall₂_take_append index outer [last] h
  have hback := forall₂_drop_append index outer [last] h
  obtain ⟨col, rest, hcol, hnil, hdrop⟩ := forall₂_cons_right_iff.mp hback
  rw [forall₂_nil_right_iff] at hnil
  refine ⟨index.take outer.length, col, ?_, hfront, hcol⟩
  rw [← hnil, ← hdrop, take_append_drop]

end Shape

namespace Layout

/-- Row and column of an element number it row by row. -/
theorem position_eq
    {l : Layout} {index : List Nat} (h : l.shape.Contains index) :
    (limit32 < l.shape.dropLast.prod ∧ l.position index = .error .overflow) ∨
      ∃ r < l.shape.dropLast.prod, ∃ c < l.shape.cols,
        l.shape.linearIndex? (index.map Int.ofNat) =
          some (r * l.shape.cols + c) ∧ l.position index = .ok (r, c) := by
  unfold position Shape.cols Shape.linearIndex?
  rcases eq_nil_or_concat l.shape with hnil | ⟨outer, last, hshape⟩
  · rw [hnil] at h ⊢
    cases h
    exact Or.inr ⟨0, by simp, 0, by simp, rfl, rfl⟩
  · rw [concat_eq_append] at hshape
    rw [hshape] at h
    obtain ⟨front, col, rfl, hfront, hcol⟩ := h.append_last
    simp only [hshape, getLast?_concat, dropLast_concat, Option.getD_some,
      map_append, map_cons, map_nil, Int.ofNat_eq_natCast]
    obtain ⟨hlt, hstop⟩ | ⟨row, hrow, hfold⟩ :=
      Shape.foldlM_row_eq (outer ++ [last]) hfront 0 0 (by
        intro i hi
        rw [Nat.zero_add, getElem?_append_left hi])
    · rw [hstop]
      exact Or.inl ⟨by simpa using hlt, rfl⟩
    · rw [hfold]
      exact Or.inr ⟨row, by simpa using Shape.linearFrom_lt hrow, col, hcol,
        Shape.linearFrom_append hrow hcol, rfl⟩

theorem slot_eq_ok
    {l : Layout} {index : List Nat} {s : Slot} (h : l.shape.Contains index)
    (hs : l.slot index = .ok s) :
    ∃ r < l.shape.dropLast.prod, ∃ c < l.shape.cols,
      l.shape.linearIndex? (index.map Int.ofNat) = some (r * l.shape.cols + c) ∧
        l.slotAt r c = .ok s := by
  unfold Layout.slot at hs
  obtain ⟨_, hstop⟩ | ⟨r, hr, c, hc, hlinear, hposition⟩ := position_eq h
  · rw [hstop] at hs
    cases hs
  · rw [hposition] at hs
    exact ⟨r, hr, c, hc, hlinear, hs⟩

/-- Index tuples have slots where the elements of the two-dimensional view
do. -/
theorem returns_slot
    {l : Layout} {index : List Nat} (hrows : l.shape.dropLast.prod ≤ limit32)
    (hslots : ∀ r < l.shape.dropLast.prod,
      ∀ c < l.shape.cols, Returns (l.slotAt r c))
    (h : l.shape.Contains index) : Returns (l.slot index) := by
  unfold Layout.slot
  obtain ⟨hlt, _⟩ | ⟨r, hr, c, hc, _, hposition⟩ := position_eq h
  · exact absurd hrows (Nat.not_le_of_lt hlt)
  · rw [hposition]
    exact hslots r hr c hc

theorem Spreads.holds {l : Layout} (h : l.Spreads) : l.Holds where
  footprint := h.footprint
  slot index hindex := by
    unfold Layout.slot
    obtain ⟨_, hstop⟩ | ⟨r, hr, c, hc, _, hposition⟩ := position_eq hindex
    · left
      rw [hstop, error_bind]
    · rw [hposition]
      exact h.slot r hr c hc
  apart index index' hindex hindex' s hs hs' := by
    obtain ⟨r, hr, c, hc, hlinear, hslot⟩ := slot_eq_ok hindex hs
    obtain ⟨r', hr', c', hc', hlinear', hslot'⟩ := slot_eq_ok hindex' hs'
    obtain ⟨rfl, rfl⟩ := h.apart r hr c hc r' hr' c' hc' s hslot hslot'
    exact map_injective_iff.mpr Int.ofNat_injective
      (Shape.linearFrom_inj hlinear hlinear').2

theorem spreads_of_slots
    {l : Layout} (place : Nat → Nat → Slot)
    (hinside : Settles .overflow
      (fun accept => ∀ r < l.shape.dropLast.prod, ∀ c < l.shape.cols,
        accept (place r c) = true) l.inside)
    (hslot : ∀ r < l.shape.dropLast.prod, ∀ c < l.shape.cols,
      Settles .overflow (fun s => s = place r c) (l.slotAt r c))
    (hinj : ∀ r < l.shape.dropLast.prod,
      ∀ c < l.shape.cols, ∀ r' < l.shape.dropLast.prod,
      ∀ c' < l.shape.cols, place r c = place r' c' → r = r' ∧ c = c') :
    l.Spreads where
  footprint := hinside.mono fun _ _ => trivial
  slot r hr c hc := by
    apply (hslot r hr c hc).mono
    rintro _ rfl accept haccept
    exact hinside.of_eq_ok haccept r hr c hc
  apart r hr c hc r' hr' c' hc' s hs hs' := by
    have hplace := (hslot r hr c hc).of_eq_ok hs
    have hplace' := (hslot r' hr' c' hc').of_eq_ok hs'
    exact hinj r hr c hc r' hr' c' hc' (hplace.symm.trans hplace')

/-! ## Memory -/

theorem spreads_of_offsets
    {l : Layout} (place : Nat → Nat → Nat) {n : Nat}
    (hkind : l.isFragment = false)
    (hfootprint : Settles .overflow (· = n) l.footprint)
    (hslot : ∀ r < l.shape.dropLast.prod, ∀ c < l.shape.cols,
      Settles .overflow (fun s => s = .offset (place r c)) (l.slotAt r c))
    (hlt : ∀ r < l.shape.dropLast.prod, ∀ c < l.shape.cols, place r c < n)
    (hinj : ∀ r < l.shape.dropLast.prod,
      ∀ c < l.shape.cols, ∀ r' < l.shape.dropLast.prod,
      ∀ c' < l.shape.cols, place r c = place r' c' → r = r' ∧ c = c') :
    l.Spreads := by
  apply spreads_of_slots (fun r c => .offset (place r c)) _ hslot
  · intro r hr c hc r' hr' c' hc' heq
    exact hinj r hr c hc r' hr' c' hc' (Slot.offset.inj heq)
  · unfold inside
    apply hfootprint.bind
    rintro _ rfl
    unfold isFragment at hkind
    split
    · rename_i f heq
      rw [heq] at hkind
      cases hkind
    · exact Settles.ok fun r hr c hc => decide_eq_true (hlt r hr c hc)

theorem spreads_rowMajor (shape : Shape) : (rowMajor shape).Spreads := by
  apply spreads_of_offsets (fun r c => r * shape.cols + c)
    rfl shape.numel_settles
  · intro r _ c _
    exact Settles.ok rfl
  · intro r hr c hc
    rw [Shape.prod_eq_dropLast_mul_cols]
    exact rowMajor_lt hr hc
  · intro r _ c hc r' _ c' hc' heq
    exact eq_of_rowMajor_eq hc hc' heq

theorem spreads_padded (shape : Shape) (pad : Nat) :
    Spreads ⟨shape, .padded pad⟩ := by
  have hfootprint : Settles .overflow
      (fun footprint => footprint = shape.dropLast.prod * (shape.cols + pad))
      (footprint ⟨shape, .padded pad⟩) := by
    apply shape.rows_settles.bind
    rintro _ rfl
    apply (word32_settles (shape.cols + pad)).bind
    rintro _ rfl
    exact Settles.ok rfl
  apply spreads_of_offsets (fun r c => r * (shape.cols + pad) + c)
    rfl hfootprint
  · intro r _ c _
    apply (word64_settles _).bind
    rintro _ rfl
    exact Settles.ok rfl
  · intro r hr c hc
    exact rowMajor_lt hr (Nat.lt_add_right pad hc)
  · intro r _ c hc r' _ c' hc' heq
    exact eq_of_rowMajor_eq (Nat.lt_add_right pad hc)
      (Nat.lt_add_right pad hc') heq

end Layout

/-! ## Swizzles -/

namespace Swizzle

/-- The offset with the upper field added to the lower one. -/
def permute (s : Swizzle) (offset : Nat) : Nat :=
  offset ^^^ (offset >>> (s.base + s.shift) % 2 ^ s.bits) <<< s.base

theorem testBit_permute (s : Swizzle) (offset i : Nat) :
    (s.permute offset).testBit i = (offset.testBit i ^^
      (decide (s.base ≤ i ∧ i < s.base + s.bits) &&
        offset.testBit (i + s.shift))) := by
  unfold permute
  rw [Nat.testBit_xor, Nat.testBit_shiftLeft, Nat.testBit_mod_two_pow,
    Nat.testBit_shiftRight]
  by_cases hi : s.base ≤ i
  · have hfield : i - s.base < s.bits ↔ i < s.base + s.bits := by omega
    simp [hi, hfield,
      show s.base + s.shift + (i - s.base) = i + s.shift by omega]
  · simp [hi]

/-- The two fields are not empty and do not overlap, and the upper one ends
below the top of a word. -/
structure Proper (s : Swizzle) : Prop where
  bits_pos : 1 ≤ s.bits
  bits_le : s.bits ≤ s.shift
  end_lt : s.base + s.shift + s.bits < 63

theorem proper_of_isWellFormed {s : Swizzle} (h : s.isWellFormed = .ok true) :
    s.Proper := by
  unfold isWellFormed at h
  split at h
  · rename_i hbits
    obtain ⟨n, hn, h⟩ := bind_eq_ok h
    have hsum := (word32_settles _).of_eq_ok hn
    simp only [pure, Except.pure, Except.ok.injEq, decide_eq_true_eq] at h
    exact ⟨hbits.1, hbits.2, by omega⟩
  · cases h

variable {s : Swizzle}

theorem Proper.apply_eq (h : s.Proper) (offset : Nat) :
    s.apply offset = .ok (s.permute offset) := by
  have hend := h.end_lt
  unfold apply Checked.bit Checked.shiftLeft Checked.shiftRight
  rw [if_pos (by omega), ok_bind, word32_of_lt (by omega), ok_bind,
    if_pos (by omega), ok_bind, if_pos (by omega), ok_bind]
  apply congrArg Except.ok
  apply Nat.eq_of_testBit_eq
  intro i
  have hlimit : limit64 = 2 ^ 64 := rfl
  rw [testBit_permute, Nat.one_shiftLeft, hlimit, Nat.testBit_xor,
    Nat.testBit_shiftRight, Nat.testBit_and, Nat.testBit_mod_two_pow,
    Nat.testBit_shiftLeft, Nat.testBit_two_pow_sub_one]
  have hfield : (s.shift + i < 64 ∧ s.base + s.shift ≤ s.shift + i ∧
      s.shift + i - (s.base + s.shift) < s.bits) ↔
      s.base ≤ i ∧ i < s.base + s.bits := by
    omega
  rw [← Bool.decide_and, ← Bool.decide_and, Bool.and_comm,
    decide_eq_decide.mpr hfield, Nat.add_comm s.shift]

/-- The upper field stays, so adding it a second time takes it away again. -/
theorem Proper.permute_permute (h : s.Proper) (offset : Nat) :
    s.permute (s.permute offset) = offset := by
  apply Nat.eq_of_testBit_eq
  intro i
  rw [testBit_permute, testBit_permute, testBit_permute]
  by_cases hi : s.base ≤ i ∧ i < s.base + s.bits
  · have hupper : ¬(s.base ≤ i + s.shift ∧ i + s.shift < s.base + s.bits) := by
      have := h.bits_le
      omega
    simp [hi, hupper]
  · simp [hi]

theorem Proper.permute_inj
    (h : s.Proper) {a b : Nat} (heq : s.permute a = s.permute b) : a = b := by
  rw [← h.permute_permute a, heq, h.permute_permute]

theorem permute_div (s : Swizzle) (offset : Nat) :
    s.permute offset / 2 ^ (s.base + s.bits) =
      offset / 2 ^ (s.base + s.bits) := by
  rw [← Nat.shiftRight_eq_div_pow, ← Nat.shiftRight_eq_div_pow]
  apply Nat.eq_of_testBit_eq
  intro i
  rw [Nat.testBit_shiftRight, Nat.testBit_shiftRight, testBit_permute]
  simp

theorem permute_lt
    {n offset : Nat} (hn : n % 2 ^ (s.base + s.bits) = 0) (hlt : offset < n) :
    s.permute offset < n := by
  obtain ⟨blocks, rfl⟩ := Nat.dvd_of_mod_eq_zero hn
  have hpos : 0 < 2 ^ (s.base + s.bits) := Nat.two_pow_pos _
  rw [Nat.mul_comm, ← Nat.div_lt_iff_lt_mul hpos] at hlt ⊢
  rwa [permute_div]

end Swizzle

namespace Layout

theorem swizzle_of_isWellFormed
    {shape : Shape} {s : Swizzle}
    (h : isWellFormed ⟨shape, .swizzled s⟩ = .ok true) :
    s.Proper ∧ shape.prod % 2 ^ (s.base + s.bits) = 0 := by
  unfold isWellFormed at h
  split at h
  · cases h
  obtain ⟨wellFormed, hwf, h⟩ := bind_eq_ok h
  cases wellFormed with
  | false => cases h
  | true =>
    obtain ⟨n, hn, h⟩ := bind_eq_ok h
    obtain ⟨period, hperiod, h⟩ := bind_eq_ok h
    obtain ⟨width, hwidth, hbit⟩ := bind_eq_ok hperiod
    have hnumel := shape.numel_settles.of_eq_ok hn
    have hwidth := (word32_settles _).of_eq_ok hwidth
    refine ⟨Swizzle.proper_of_isWellFormed hwf, ?_⟩
    unfold Checked.bit at hbit
    split at hbit
    · simp only [pure, Except.pure, Except.ok.injEq, beq_iff_eq] at h hbit
      rw [← hnumel, ← hwidth, ← Nat.one_shiftLeft, hbit, h]
    · cases hbit

theorem spreads_swizzled
    {shape : Shape} {s : Swizzle}
    (h : isWellFormed ⟨shape, .swizzled s⟩ = .ok true) :
    Spreads ⟨shape, .swizzled s⟩ := by
  obtain ⟨hproper, haligned⟩ := swizzle_of_isWellFormed h
  apply spreads_of_offsets (fun r c => s.permute (r * shape.cols + c))
    rfl shape.numel_settles
  · intro r _ c _
    simp only [slotAt, hproper.apply_eq]
    exact Settles.ok rfl
  · intro r hr c hc
    apply Swizzle.permute_lt haligned
    rw [Shape.prod_eq_dropLast_mul_cols]
    exact rowMajor_lt hr hc
  · intro r _ c hc r' _ c' hc' heq
    exact eq_of_rowMajor_eq hc hc' (hproper.permute_inj heq)

/-! ## Layouts that pass the test -/

/-- A part of the elements whose slots are acceptable, different from each
other, not among those seen before and among those seen after. -/
structure Fresh
    (l : Layout) (accept : Slot → Bool) (seen seen' : Std.HashSet Slot)
    (part : Nat → Nat → Prop) : Prop where
  kept : ∀ s ∈ seen, s ∈ seen'
  new : ∀ r c, part r c →
    ∃ s, l.slotAt r c = .ok s ∧ accept s = true ∧ s ∉ seen ∧ s ∈ seen'
  apart : ∀ r c r' c' s, part r c → part r' c' → l.slotAt r c = .ok s →
    l.slotAt r' c' = .ok s → r = r' ∧ c = c'

variable {l : Layout} {accept : Slot → Bool}
  {seen seen' seen'' : Std.HashSet Slot} {part part' : Nat → Nat → Prop}

theorem Fresh.empty (h : ∀ r c, ¬part r c) : l.Fresh accept seen seen part where
  kept _ hs := hs
  new r c hpart := (h r c hpart).elim
  apart r c _ _ _ hpart := (h r c hpart).elim

theorem Fresh.insert
    {r c : Nat} {s : Slot} (hslot : l.slotAt r c = .ok s)
    (haccept : accept s = true) (hnew : s ∉ seen) :
    l.Fresh accept seen (seen.insert s) (fun r' c' => r' = r ∧ c' = c) where
  kept _ hs := Std.HashSet.mem_insert.mpr (Or.inr hs)
  new := by
    rintro _ _ ⟨rfl, rfl⟩
    exact ⟨s, hslot, haccept, hnew, Std.HashSet.mem_insert_self⟩
  apart := by
    rintro _ _ _ _ _ ⟨rfl, rfl⟩ ⟨rfl, rfl⟩ - -
    exact ⟨rfl, rfl⟩

theorem Fresh.slot_eq_ok
    (h : l.Fresh accept seen seen' part) {r c : Nat} {s : Slot}
    (hpart : part r c) (hs : l.slotAt r c = .ok s) : s ∉ seen ∧ s ∈ seen' := by
  obtain ⟨s', hs', -, hnew, hseen⟩ := h.new r c hpart
  rw [hs] at hs'
  cases hs'
  exact ⟨hnew, hseen⟩

theorem Fresh.trans
    (h : l.Fresh accept seen seen' part)
    (h' : l.Fresh accept seen' seen'' part') :
    l.Fresh accept seen seen'' (fun r c => part r c ∨ part' r c) where
  kept s hs := h'.kept s (h.kept s hs)
  new r c hpart := by
    rcases hpart with hpart | hpart
    · obtain ⟨s, hs, haccept, hnew, hseen⟩ := h.new r c hpart
      exact ⟨s, hs, haccept, hnew, h'.kept s hseen⟩
    · obtain ⟨s, hs, haccept, hnew, hseen⟩ := h'.new r c hpart
      exact ⟨s, hs, haccept, fun hold => hnew (h.kept s hold), hseen⟩
  apart r c r' c' s hpart hpart' hs hs' := by
    -- a slot of the first part has been seen when the second part starts
    rcases hpart with hpart | hpart <;> rcases hpart' with hpart' | hpart'
    · exact h.apart r c r' c' s hpart hpart' hs hs'
    · exact ((h'.slot_eq_ok hpart' hs').1 (h.slot_eq_ok hpart hs).2).elim
    · exact ((h'.slot_eq_ok hpart hs).1 (h.slot_eq_ok hpart' hs').2).elim
    · exact h'.apart r c r' c' s hpart hpart' hs hs'

theorem Fresh.mono
    (h : l.Fresh accept seen seen' part) (hsub : ∀ r c, part' r c → part r c) :
    l.Fresh accept seen seen' part' where
  kept := h.kept
  new r c hpart := h.new r c (hsub r c hpart)
  apart r c r' c' s hpart hpart' :=
    h.apart r c r' c' s (hsub r c hpart) (hsub r' c' hpart')

theorem fresh_of_freshInRow
    {r c n : Nat} (h : l.freshInRow accept r c n seen = .ok (some seen')) :
    l.Fresh accept seen seen' (fun r' c' => r' = r ∧ c ≤ c' ∧ c' < c + n) := by
  induction n generalizing c seen with
  | zero =>
      cases h
      exact Fresh.empty fun r' c' hpart => by omega
  | succ n ih =>
      obtain ⟨s, hs, h⟩ := bind_eq_ok h
      split at h
      · rename_i hfresh
        simp only [Bool.and_eq_true, Bool.not_eq_true',
          Std.HashSet.contains_eq_false_iff_not_mem] at hfresh
        exact ((Fresh.insert hs hfresh.1 hfresh.2).trans (ih h)).mono
          fun r' c' hpart => by omega
      · cases h

theorem fresh_of_freshRows
    {cols r n : Nat} (h : l.freshRows accept cols r n seen = .ok true) :
    ∃ seen', l.Fresh accept seen seen'
      (fun r' c' => r ≤ r' ∧ r' < r + n ∧ c' < cols) := by
  induction n generalizing r seen with
  | zero => exact ⟨seen, Fresh.empty fun r' c' hpart => by omega⟩
  | succ n ih =>
      obtain ⟨row, hrow, h⟩ := bind_eq_ok h
      cases row with
      | none => cases h
      | some seen₁ =>
          obtain ⟨seen', hrest⟩ := ih h
          exact ⟨seen', ((fresh_of_freshInRow hrow).trans hrest).mono
            fun r' c' hpart => by omega⟩

theorem spreads_of_isInjective (h : l.isInjective = .ok true) : l.Spreads := by
  unfold isInjective at h
  obtain ⟨wellFormed, -, h⟩ := bind_eq_ok h
  cases wellFormed with
  | false => cases h
  | true =>
    obtain ⟨accept, haccept, h⟩ := bind_eq_ok h
    obtain ⟨n, -, h⟩ := bind_eq_ok h
    obtain ⟨room, -, h⟩ := bind_eq_ok h
    obtain ⟨rows, hrows, h⟩ := bind_eq_ok h
    obtain rfl := l.shape.rows_settles.of_eq_ok hrows
    obtain ⟨seen, hfresh⟩ := fresh_of_freshRows h
    refine ⟨haccept ▸ Settles.ok trivial, ?_, ?_⟩
    · intro r hr c hc
      obtain ⟨s, hs, hin, -, -⟩ := hfresh.new r c (by omega)
      rw [hs]
      apply Settles.ok
      intro accept' haccept'
      rw [haccept] at haccept'
      cases haccept'
      exact hin
    · intro r hr c hc r' hr' c' hc' s hs hs'
      exact hfresh.apart r c r' c' s (by omega) (by omega) hs hs'

end Layout

end TileProgram
