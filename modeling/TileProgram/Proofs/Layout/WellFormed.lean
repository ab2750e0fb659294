import TileProgram.Proofs.Layout.Registers

/-!
# Well-formed layouts

The test of injectivity remembers the slots of the elements it has visited, so a
layout that keeps its elements apart passes it.  Well-formed layouts in memory
and well-formed stripes do.  When the sizes of a layout fit their words, the
slot of every element is computed and the test ends.
-/

namespace TileProgram

open Checked

variable {r c n : Nat} {s : Slot} {index : List Nat}

namespace Swizzle

theorem Proper.period_eq {s : Swizzle} (h : s.Proper) :
    s.period = .ok (2 ^ (s.base + s.bits)) := by
  have hend := h.end_lt
  unfold period Checked.bit
  rw [word32_of_lt (by omega), ok_bind, if_pos (by omega), Nat.one_shiftLeft]

theorem Proper.limit_mod {s : Swizzle} (h : s.Proper) :
    limit64 % 2 ^ (s.base + s.bits) = 0 := by
  have hend := h.end_lt
  exact Nat.mod_eq_zero_of_dvd
    (Nat.pow_dvd_pow 2 (by omega : s.base + s.bits ≤ 64))

end Swizzle

namespace Layout

variable {l : Layout} {accept : Slot → Bool} {seen : Std.HashSet Slot}

/-! ## Passing the test -/

/-- The element comes before column `c` of row `r` in row-major order. -/
def Before (l : Layout) (r c : Nat) (r' c' : Nat) : Prop :=
  (r' < r ∧ c' < l.shape.cols) ∨ (r' = r ∧ c' < c)

/-- Every slot seen is that of an element before column `c` of row `r`. -/
def Visited (l : Layout) (seen : Std.HashSet Slot) (r c : Nat) : Prop :=
  ∀ s ∈ seen, ∃ r' c', l.Before r c r' c' ∧ l.slotAt r' c' = .ok s

theorem Visited.insert (h : l.Visited seen r c) (hs : l.slotAt r c = .ok s) :
    l.Visited (seen.insert s) r (c + 1) := by
  intro s' hs'
  rcases Std.HashSet.mem_insert.mp hs' with heq | hold
  · rw [beq_iff_eq] at heq
    exact ⟨r, c, Or.inr ⟨rfl, Nat.lt_succ_self c⟩, heq ▸ hs⟩
  · obtain ⟨r', c', hbefore, hslot⟩ := h s' hold
    refine ⟨r', c', ?_, hslot⟩
    unfold Before at hbefore ⊢
    omega

theorem Visited.next_row (h : l.Visited seen r l.shape.cols) :
    l.Visited seen (r + 1) 0 := by
  intro s hs
  obtain ⟨r', c', hbefore, hslot⟩ := h s hs
  refine ⟨r', c', ?_, hslot⟩
  unfold Before at hbefore ⊢
  omega

theorem Spreads.not_mem_seen
    (h : l.Spreads) (hr : r < l.shape.dropLast.prod) (hc : c < l.shape.cols)
    (hs : l.slotAt r c = .ok s) (hseen : l.Visited seen r c) : s ∉ seen := by
  intro hmem
  obtain ⟨r', c', hbefore, hslot⟩ := hseen s hmem
  unfold Before at hbefore
  have hsame := h.apart r' (by omega) c' (by omega) r hr c hc s hslot hs
  omega

theorem Spreads.freshInRow_settles
    (h : l.Spreads) (haccept : l.inside = .ok accept)
    (hr : r < l.shape.dropLast.prod) (hn : c + n = l.shape.cols)
    (hseen : l.Visited seen r c) :
    Settles .overflow
      (fun found => ∃ seen', found = some seen' ∧ l.Visited seen' (r + 1) 0)
      (l.freshInRow accept r c n seen) := by
  induction n generalizing c seen with
  | zero =>
      have hc : c = l.shape.cols := by omega
      subst hc
      exact Settles.ok ⟨seen, rfl, hseen.next_row⟩
  | succ n ih =>
      have hc : c < l.shape.cols := by omega
      simp only [freshInRow]
      rcases h.slot r hr c hc with hstop | ⟨s, hs, hinside⟩
      · left
        rw [hstop, error_bind]
      · have hnew : seen.contains s = false :=
          Std.HashSet.contains_eq_false_iff_not_mem.mpr
            (h.not_mem_seen hr hc hs hseen)
        rw [hs, ok_bind, if_pos (by simp [hinside accept haccept, hnew])]
        exact ih (by omega) (hseen.insert hs)

theorem Spreads.freshRows_settles
    (h : l.Spreads) (haccept : l.inside = .ok accept)
    (hn : r + n = l.shape.dropLast.prod) (hseen : l.Visited seen r 0) :
    Settles .overflow (fun fresh => fresh = true)
      (l.freshRows accept l.shape.cols r n seen) := by
  induction n generalizing r seen with
  | zero => exact Settles.ok rfl
  | succ n ih =>
      apply (h.freshInRow_settles haccept (by omega) (Nat.zero_add _)
        hseen).bind
      rintro _ ⟨seen', rfl, hseen'⟩
      exact ih (by omega) hseen'

theorem Spreads.isInjective_settles
    (h : l.Spreads) (hwf : l.isWellFormed = .ok true) :
    Settles .overflow (fun injective => injective = true) l.isInjective := by
  unfold isInjective
  rw [hwf, ok_bind, if_pos rfl]
  rcases h.footprint with hstop | ⟨accept, haccept, -⟩
  · left
    rw [hstop, error_bind]
  · rw [haccept, ok_bind]
    apply l.shape.numel_settles.bind
    intro numel _
    apply (table_settles _ _).bind
    intro room _
    apply l.shape.rows_settles.bind
    rintro _ rfl
    apply h.freshRows_settles haccept (Nat.zero_add _)
    intro s hs
    exact absurd hs Std.HashSet.not_mem_empty

/-! ## What stops the test -/

theorem exists_slotAt_of_freshInRow
    {e : Fault} (h : l.freshInRow accept r c n seen = .error e) :
    ∃ c' < c + n, l.slotAt r c' = .error e := by
  induction n generalizing c seen with
  | zero => cases h
  | succ n ih =>
      simp only [freshInRow] at h
      cases hs : l.slotAt r c with
      | error e' =>
          rw [hs, error_bind] at h
          cases h
          exact ⟨c, by omega, hs⟩
      | ok s =>
          rw [hs, ok_bind] at h
          split at h
          · obtain ⟨c', hc', hstop⟩ := ih h
            exact ⟨c', by omega, hstop⟩
          · cases h

theorem exists_slotAt_of_freshRows
    {cols : Nat} {e : Fault} (h : l.freshRows accept cols r n seen = .error e) :
    ∃ r' < r + n, ∃ c' < cols, l.slotAt r' c' = .error e := by
  induction n generalizing r seen with
  | zero => cases h
  | succ n ih =>
      simp only [freshRows] at h
      cases hrow : l.freshInRow accept r 0 cols seen with
      | error e' =>
          rw [hrow, error_bind] at h
          cases h
          obtain ⟨c', hc', hstop⟩ := exists_slotAt_of_freshInRow hrow
          exact ⟨r, by omega, c', by omega, hstop⟩
      | ok found =>
          rw [hrow, ok_bind] at h
          cases found with
          | none => cases h
          | some seen' =>
              obtain ⟨r', hr', c', hc', hstop⟩ := ih h
              exact ⟨r', by omega, c', hc', hstop⟩

end Layout

/-! ## Sizes that fit their words -/

theorem Shape.pos_of_not_degenerate
    {shape : Shape} (h : shape.isDegenerate = false) : ∀ n ∈ shape, 0 < n := by
  intro n hn
  apply Nat.pos_of_ne_zero
  rintro rfl
  simp [isDegenerate, hn] at h

namespace Layout

/-- The rows are counted in 32 bits and the elements in 64, or in 32 where they
are dealt to threads; a padded row is measured in 32 bits. -/
structure FitsWords (l : Layout) : Prop where
  rows_lt : l.shape.dropLast.prod < limit32
  numel_lt : l.shape.prod < limit64
  pitch_lt : ∀ pad, l.kind = .padded pad → l.shape.cols + pad < limit32
  stripes_lt : ∀ threads vector, l.kind = .fragment (.striped threads vector) →
    threads < limit32 ∧ vector < limit32 ∧ l.shape.prod ≤ limit32

/-- The slot is an offset below the footprint, or one of the registers of one of
the threads. -/
def Bounds (l : Layout) : Slot → Prop
  | .offset o => ∃ n, l.footprint = .ok n ∧ o < n
  | .register thread index => ∃ f threads numel locals, l.kind = .fragment f ∧
      f.threads = .ok threads ∧ l.shape.numel = .ok numel ∧
      f.localsPerThread numel = .ok locals ∧ thread < threads ∧ index < locals

def isOperand (l : Layout) : Bool :=
  match l.kind with
  | .fragment (.operand ..) => true
  | _ => false

variable {l : Layout}

theorem bounds_of_inside
    {accept : Slot → Bool} (hinside : l.inside = .ok accept)
    (h : accept s = true) : l.Bounds s := by
  unfold inside at hinside
  obtain ⟨footprint, hfootprint, hinside⟩ := bind_eq_ok hinside
  split at hinside
  · next f hkind =>
      obtain ⟨threads, hthreads, hinside⟩ := bind_eq_ok hinside
      obtain ⟨numel, hnumel, hinside⟩ := bind_eq_ok hinside
      obtain ⟨locals, hlocals, hinside⟩ := bind_eq_ok hinside
      cases hinside
      cases s with
      | offset o => exact ⟨footprint, hfootprint, of_decide_eq_true h⟩
      | register thread index =>
          simp only [Bool.and_eq_true, decide_eq_true_eq] at h
          exact ⟨f, threads, numel, locals, hkind, hthreads, hnumel, hlocals, h⟩
  · cases hinside
    cases s with
    | offset o => exact ⟨footprint, hfootprint, of_decide_eq_true h⟩
    | register thread index => cases h

theorem not_degenerate_of_isWellFormed (h : l.isWellFormed = .ok true) :
    l.shape.isDegenerate = false := by
  unfold isWellFormed at h
  split at h
  · cases h
  · next hdegenerate => exact Bool.eq_false_iff.mpr hdegenerate

theorem spreads_of_isWellFormed
    (hkind : l.isOperand = false) (h : l.isWellFormed = .ok true) :
    l.Spreads := by
  obtain ⟨shape, kind⟩ := l
  cases kind with
  | rowMajor => exact spreads_rowMajor shape
  | padded pad => exact spreads_padded shape pad
  | swizzled s => exact spreads_swizzled h
  | fragment f =>
      cases f with
      | operand atom warps replicas transposed => cases hkind
      | striped threads vector => exact spreads_striped h

namespace FitsWords

theorem rows_eq (h : l.FitsWords) (hwf : l.isWellFormed = .ok true) :
    l.shape.rows = .ok l.shape.dropLast.prod := by
  apply product_of_lt (fun _ => word32_of_lt) _ h.rows_lt
  intro n hn
  exact Shape.pos_of_not_degenerate (not_degenerate_of_isWellFormed hwf) n
    (List.mem_of_mem_dropLast hn)

theorem numel_eq (h : l.FitsWords) (hwf : l.isWellFormed = .ok true) :
    l.shape.numel = .ok l.shape.prod :=
  product_of_lt (fun _ => word64_of_lt)
    (Shape.pos_of_not_degenerate (not_degenerate_of_isWellFormed hwf))
    h.numel_lt

theorem exists_slotAt
    (h : l.FitsWords) (hkind : l.isOperand = false)
    (hwf : l.isWellFormed = .ok true) (hr : r < l.shape.dropLast.prod)
    (hc : c < l.shape.cols) : ∃ s, l.slotAt r c = .ok s := by
  have hlt : r * l.shape.cols + c < l.shape.prod := by
    rw [Shape.prod_eq_dropLast_mul_cols]
    exact rowMajor_lt hr hc
  obtain ⟨shape, kind⟩ := l
  cases kind with
  | rowMajor => exact ⟨_, rfl⟩
  | padded pad =>
      have hpitch := h.pitch_lt pad rfl
      have hplace : r * (shape.cols + pad) + c < limit32 * limit32 :=
        (rowMajor_lt hr (Nat.lt_add_right pad hc)).trans_le
          (Nat.mul_le_mul h.rows_lt.le hpitch.le)
      simp only [slotAt]
      rw [word64_of_lt hplace]
      exact ⟨_, rfl⟩
  | swizzled s =>
      simp only [slotAt]
      rw [(swizzle_of_isWellFormed hwf).1.apply_eq]
      exact ⟨_, rfl⟩
  | fragment f =>
      cases f with
      | operand atom warps replicas transposed => cases hkind
      | striped threads vector =>
          obtain ⟨hthreads, hvector, -⟩ := striped_of_isWellFormed hwf
          obtain ⟨-, -, hnumel⟩ := h.stripes_lt threads vector rfl
          simp only [slotAt, RegisterLayout.slot]
          rw [h.rows_eq hwf, ok_bind, word32_of_lt (hlt.trans_le hnumel),
            ok_bind, div_of_ne_zero _ hvector.ne', ok_bind,
            mod_of_ne_zero _ hthreads.ne']
          exact ⟨_, rfl⟩

theorem exists_room_iff (n : Nat) :
    (∃ room, roomFor n = .ok room) ↔ n < 7 * 2 ^ 55 := by
  unfold roomFor Checked.table slotBytes
  split <;> simp <;> omega

theorem threads_mul_locals_lt
    {threads vector numel : Nat} (hthreads : threads < limit32)
    (hvector : vector < limit32) (hnumel : numel ≤ limit32) :
    threads * ((numel + threads * vector - 1) / (threads * vector) * vector) <
      limit64 := by
  have hround : threads * vector ≤ (limit32 - 1) * (limit32 - 1) :=
    Nat.mul_le_mul (by omega) (by omega)
  have hwords : limit32 + (limit32 - 1) * (limit32 - 1) < limit64 := by decide
  calc threads * ((numel + threads * vector - 1) / (threads * vector) * vector)
      = (numel + threads * vector - 1) / (threads * vector) *
          (threads * vector) := by ring
    _ ≤ numel + threads * vector - 1 := Nat.div_mul_le_self _ _
    _ < limit64 := by omega

theorem exists_inside
    (h : l.FitsWords) (hkind : l.isOperand = false)
    (hwf : l.isWellFormed = .ok true) :
    ∃ accept, l.inside = .ok accept := by
  have hrows := h.rows_eq hwf
  have hnumel := h.numel_eq hwf
  obtain ⟨shape, kind⟩ := l
  cases kind with
  | rowMajor =>
      simp only [inside, footprint]
      rw [hnumel]
      exact ⟨_, rfl⟩
  | padded pad =>
      simp only [inside, footprint]
      rw [hrows, ok_bind, word32_of_lt (h.pitch_lt pad rfl)]
      exact ⟨_, rfl⟩
  | swizzled s =>
      simp only [inside, footprint]
      rw [hnumel]
      exact ⟨_, rfl⟩
  | fragment f =>
      cases f with
      | operand atom warps replicas transposed => cases hkind
      | striped threads vector =>
          obtain ⟨hthreads, hvector, -⟩ := striped_of_isWellFormed hwf
          obtain ⟨hthreadsLt, hvectorLt, hle⟩ := h.stripes_lt threads vector rfl
          have hall := threads_mul_locals_lt hthreadsLt hvectorLt hle
          have hlocals : RegisterLayout.localsPerThread
              (.striped threads vector) shape.prod =
              .ok ((shape.prod + threads * vector - 1) / (threads * vector) *
                vector) := by
            simp only [RegisterLayout.localsPerThread, RegisterLayout.threads]
            rw [ok_bind, Nat.max_eq_right hthreads,
              ceilDiv_of_ne_zero _ (Nat.mul_pos hthreads hvector).ne', ok_bind,
              word64_of_lt ((Nat.le_mul_of_pos_left _ hthreads).trans_lt hall)]
          simp only [inside, footprint, RegisterLayout.threads, ok_bind]
          rw [hnumel, ok_bind, hlocals, ok_bind, word64_of_lt hall, ok_bind,
            ok_bind, hlocals]
          exact ⟨_, rfl⟩

theorem exists_slot
    (h : l.FitsWords) (hkind : l.isOperand = false)
    (hwf : l.isWellFormed = .ok true) (hindex : l.shape.Contains index) :
    ∃ s, l.slot index = .ok s ∧ l.Bounds s := by
  obtain ⟨s, hs⟩ := returns_slot h.rows_lt.le
    (fun r hr c hc => h.exists_slotAt hkind hwf hr hc) hindex
  obtain ⟨r, hr, c, hc, -, hslot⟩ := slot_eq_ok hindex hs
  obtain ⟨accept, hinside⟩ := h.exists_inside hkind hwf
  have haccept := ((spreads_of_isWellFormed hkind hwf).slot r hr c hc).of_eq_ok
    hslot accept hinside
  exact ⟨s, hs, bounds_of_inside hinside haccept⟩

/-- The test ends unless the slots it remembers are more than can be
addressed. -/
theorem isInjective_iff
    (h : l.FitsWords) (hkind : l.isOperand = false)
    (hwf : l.isWellFormed = .ok true) :
    l.isInjective = .ok true ↔ l.shape.prod < 7 * 2 ^ 55 := by
  rw [← exists_room_iff]
  obtain ⟨accept, hinside⟩ := h.exists_inside hkind hwf
  have hspreads := spreads_of_isWellFormed hkind hwf
  unfold isInjective
  rw [hwf, ok_bind, if_pos rfl, hinside, ok_bind, h.numel_eq hwf, ok_bind]
  constructor
  · intro hok
    obtain ⟨room, hroom, -⟩ := bind_eq_ok hok
    exact ⟨room, hroom⟩
  · rintro ⟨room, hroom⟩
    rw [hroom, ok_bind, h.rows_eq hwf, ok_bind]
    rcases hspreads.freshRows_settles hinside (Nat.zero_add _) (fun s hs =>
      absurd hs Std.HashSet.not_mem_empty) with hstop | ⟨_, hfresh, rfl⟩
    · obtain ⟨r, hr, c, hc, hslot⟩ := exists_slotAt_of_freshRows hstop
      rw [Nat.zero_add] at hr
      obtain ⟨s, hs⟩ := h.exists_slotAt hkind hwf hr hc
      rw [hs] at hslot
      cases hslot
    · exact hfresh

end FitsWords

end Layout

/-! ## Injectivity -/

/-- A well-formed swizzle undoes itself and keeps offsets in their aligned
blocks.  A well-formed layout that is row-major, padded, swizzled or striped
keeps the elements of its tile apart and inside the footprint, and it passes the
test. -/
theorem wellFormed_layout_injective :
    (∀ s : Swizzle, s.isWellFormed = .ok true →
      ∃ period, s.period = .ok period ∧
      ∀ x < limit64, ∃ y < limit64, s.apply x = .ok y ∧ s.apply y = .ok x ∧
        y / period = x / period) ∧
    ∀ l : Layout, l.isOperand = false → l.isWellFormed = .ok true →
      l.Holds ∧
      Settles .overflow (fun injective => injective = true) l.isInjective ∧
      (l.FitsWords →
        (∀ index, l.shape.Contains index →
          ∃ s, l.slot index = .ok s ∧ l.Bounds s) ∧
        (l.isInjective = .ok true ↔ l.shape.prod < 7 * 2 ^ 55)) := by
  constructor
  · intro s hs
    have hproper := Swizzle.proper_of_isWellFormed hs
    refine ⟨2 ^ (s.base + s.bits), hproper.period_eq, ?_⟩
    intro x hx
    refine ⟨s.permute x, ?_, hproper.apply_eq x, ?_, s.permute_div x⟩
    · exact Swizzle.permute_lt hproper.limit_mod hx
    · rw [hproper.apply_eq, hproper.permute_permute]
  · intro l hkind hwf
    have hspreads := Layout.spreads_of_isWellFormed hkind hwf
    refine ⟨hspreads.holds, hspreads.isInjective_settles hwf, ?_⟩
    intro hwords
    exact ⟨fun index hindex => hwords.exists_slot hkind hwf hindex,
      hwords.isInjective_iff hkind hwf⟩

/-- Rows of 24 elements under a swizzle whose blocks have 64, and a tile of rank
three dealt to four threads in runs of three, which leave the last round
incomplete. -/
theorem wellFormed_layout_injective_ragged :
    (∃ y < limit64, Swizzle.apply ⟨3, 3, 3⟩ 1234567 = .ok y ∧
      Swizzle.apply ⟨3, 3, 3⟩ y = .ok 1234567) ∧
    Layout.isInjective ⟨[8, 24], .swizzled ⟨3, 3, 3⟩⟩ = .ok true ∧
    ∃ s, Layout.slot ⟨[2, 5, 3], .fragment (.striped 4 3)⟩ [1, 4, 2] = .ok s ∧
      Layout.Bounds ⟨[2, 5, 3], .fragment (.striped 4 3)⟩ s := by
  obtain ⟨hswizzle, hlayout⟩ := wellFormed_layout_injective
  obtain ⟨period, -, hperiod⟩ := hswizzle ⟨3, 3, 3⟩ (by decide)
  obtain ⟨y, hy, happly, hback, -⟩ := hperiod 1234567 (by decide)
  obtain ⟨-, -, hswizzled⟩ :=
    hlayout ⟨[8, 24], .swizzled ⟨3, 3, 3⟩⟩ rfl (by decide)
  obtain ⟨-, -, hstriped⟩ :=
    hlayout ⟨[2, 5, 3], .fragment (.striped 4 3)⟩ rfl (by decide)
  refine ⟨⟨y, hy, happly, hback⟩, ?_, ?_⟩
  · refine (hswizzled ⟨by decide, by decide, nofun, nofun⟩).2.mpr (by decide)
  · refine (hstriped ⟨by decide, by decide, nofun, ?_⟩).1 [1, 4, 2] ?_
    · rintro _ _ ⟨⟩
      decide
    · exact .cons (by decide) (.cons (by decide) (.cons (by decide) .nil))

end TileProgram
