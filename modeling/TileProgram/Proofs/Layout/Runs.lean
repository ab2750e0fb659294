import Mathlib.Data.Nat.Bitwise
import TileProgram.Layout.Run
import TileProgram.Proofs.Layout.Placement

/-!
# Runs of consecutive slots

A row of a tile falls into runs of columns in consecutive slots.  Where one run
ends and the next one begins is a break.  `contiguousRun` is the length of the
shortest run; a width that divides it need not divide the columns of the breaks,
since the runs of one row may have several lengths.  For every kind of layout
there is a condition on the width under which it does, so that accesses of this
width from a multiple of it on stay inside a run.
-/

namespace TileProgram

variable {m c width shortest left chunk : Nat}

/-- The slot a number of places further: offsets go on, a thread keeps its
registers. -/
def Slot.advance : Slot → Nat → Slot
  | offset o, n => offset (o + n)
  | register thread index, n => register thread (index + n)

theorem Slot.advance_zero (s : Slot) : s.advance 0 = s := by
  cases s <;> rfl

theorem Slot.isSuccessor_iff {s t : Slot} :
    s.isSuccessor t = true ↔ t = s.advance 1 := by
  cases s with
  | offset a =>
      cases t with
      | offset b => simp [isSuccessor, advance]
      | register thread index => simp [isSuccessor, advance]
  | register thread index =>
      cases t with
      | offset b => simp [isSuccessor, advance]
      | register thread' index' =>
          simp only [isSuccessor, advance, Bool.and_eq_true, beq_iff_eq,
            register.injEq]
          exact ⟨fun h => ⟨h.1.symm, h.2⟩, fun h => ⟨h.1.symm, h.2⟩⟩

namespace Layout

/-- A run ends before the column: its slot does not follow the slot of the
column before it. -/
def Breaks (l : Layout) (r c : Nat) : Prop :=
  ∃ b s t, c = b + 1 ∧ l.slotAt r b = .ok s ∧ l.slotAt r c = .ok t ∧
    s.isSuccessor t = false

def Boundary (l : Layout) (r c : Nat) : Prop :=
  c = 0 ∨ c = l.shape.cols ∨ (c < l.shape.cols ∧ l.Breaks r c)

def Consecutive (l : Layout) (r c width : Nat) : Prop :=
  ∃ first : Slot, ∀ i < width, l.slotAt r (c + i) = .ok (first.advance i)

/-- The slots of a row can be computed and its runs have at least a length. -/
structure RowRuns (l : Layout) (r m : Nat) : Prop where
  slot : ∀ c < l.shape.cols, ∃ s, l.slotAt r c = .ok s
  apart : ∀ a b, l.Boundary r a → l.Boundary r b → a < b → b ≤ l.shape.cols →
    a + m ≤ b

variable {l : Layout} {r : Nat}

theorem RowRuns.consecutive
    (h : l.RowRuns r m) (hend : c + width ≤ l.shape.cols)
    (hnone : ∀ x, c < x → x < c + width → ¬l.Breaks r x) :
    l.Consecutive r c width := by
  induction width with
  | zero => exact ⟨.offset 0, by simp⟩
  | succ width ih =>
      rcases ih (by omega) fun x hlow hhigh => hnone x hlow (by omega) with
        ⟨first, hfirst⟩
      rcases h.slot (c + width) (by omega) with ⟨s, hs⟩
      cases width with
      | zero =>
          refine ⟨s, ?_⟩
          intro i hi
          have hzero : i = 0 := by omega
          rw [hzero, Slot.advance_zero]
          exact hs
      | succ width =>
          refine ⟨first, ?_⟩
          intro i hi
          by_cases hlast : i < width + 1
          · exact hfirst i hlast
          · have hi : i = width + 1 := by omega
            have hprevious := hfirst width (by omega)
            have hsuccessor : (first.advance width).isSuccessor s = true := by
              by_contra hbreak
              apply hnone (c + (width + 1)) (by omega) (by omega)
              exact ⟨c + width, _, s, by omega, hprevious, hs,
                by simpa using hbreak⟩
            rw [hi, hs, Slot.isSuccessor_iff.mp hsuccessor]
            cases first <;> rfl

/-! ## The shortest run -/

theorem Boundary.eq_start
    {start stop a : Nat} (h : l.Boundary r a)
    (hnone : ∀ x, start < x → x < stop → ¬l.Breaks r x)
    (hstop : stop ≤ l.shape.cols) (hlow : start ≤ a) (hhigh : a < stop) :
    a = start := by
  rcases h with hzero | hlast | ⟨_, hbreak⟩
  · omega
  · omega
  · by_contra hne
    exact hnone a (by omega) hhigh hbreak

/-- A boundary beyond the start of a run is not before its end. -/
theorem Boundary.stop_le
    {start stop b : Nat} (h : l.Boundary r b)
    (hnone : ∀ x, start < x → x < stop → ¬l.Breaks r x)
    (hstop : stop ≤ l.shape.cols) (hlow : start < b) : stop ≤ b := by
  by_contra hbefore
  have hstart := h.eq_start hnone hstop (by omega) (by omega)
  omega

theorem not_breaks_of_isSuccessor
    {c x : Nat} {previous next : Slot} (hx : x = c + 1)
    (hprevious : l.slotAt r c = .ok previous) (hnext : l.slotAt r x = .ok next)
    (h : previous.isSuccessor next = true) : ¬l.Breaks r x := by
  rintro ⟨b, s, t, hb, hs, ht, hfalse⟩
  have hcolumn : b = c := by omega
  rw [hcolumn, hprevious] at hs
  rw [hnext] at ht
  cases hs
  cases ht
  rw [h] at hfalse
  cases hfalse

/-- Two boundaries with the length of the shortest run between them. -/
def Attained (l : Layout) (r m : Nat) : Prop :=
  ∃ a, l.Boundary r a ∧ l.Boundary r (a + m) ∧ a + m ≤ l.shape.cols

/-- A run that ends is the shortest one or leaves it as it was. -/
theorem attained_min
    {start run : Nat} (hstart : l.Boundary r start)
    (hstop : l.Boundary r (start + run)) (hend : start + run ≤ l.shape.cols)
    (shortest : Nat) :
    min shortest run = shortest ∨ l.Attained r (min shortest run) := by
  rcases Nat.le_total shortest run with hle | hle
  · exact Or.inl (Nat.min_eq_left hle)
  · right
    rw [Nat.min_eq_right hle]
    exact ⟨start, hstart, hstop, hend⟩

/-- What a scan of the rest of a row comes to, when the current run began at
`start`. -/
theorem shortestRun_eq_ok
    {start run shortest left m : Nat} {previous : Slot}
    (h : l.shortestRun r (start + run) previous run shortest left = .ok m)
    (hrun : 0 < run) (hshortest : 0 < shortest)
    (hend : start + run + left = l.shape.cols)
    (hprevious : l.slotAt r (start + run - 1) = .ok previous)
    (hstart : l.Boundary r start)
    (hinside : ∀ x, start < x → x < start + run → ¬l.Breaks r x) :
    0 < m ∧ m ≤ shortest ∧
      (∀ c, start + run ≤ c → c < l.shape.cols → ∃ s, l.slotAt r c = .ok s) ∧
      (∀ a b, start ≤ a → l.Boundary r a → l.Boundary r b → a < b →
        b ≤ l.shape.cols → a + m ≤ b) ∧ (m = shortest ∨ l.Attained r m) := by
  induction left generalizing start run shortest previous with
  | zero =>
      cases h
      have hcols : start + run = l.shape.cols := by omega
      have hmin := Nat.min_le_right shortest run
      refine ⟨Nat.lt_min.mpr ⟨hshortest, hrun⟩, Nat.min_le_left _ _,
        fun c hlow hhigh => by omega, ?_,
        attained_min hstart (Or.inr (Or.inl hcols)) hcols.le shortest⟩
      intro a b hlow ha hb hlt hle
      have hstartA := ha.eq_start hinside (by omega) hlow (by omega)
      have hstopB := hb.stop_le hinside (by omega) (by omega)
      omega
  | succ left ih =>
      simp only [shortestRun] at h
      rcases bind_eq_ok h with ⟨next, hnext, h⟩
      have hslot : ∀ {c}, start + run ≤ c →
          (start + run + 1 ≤ c → ∃ s, l.slotAt r c = .ok s) →
          ∃ s, l.slotAt r c = .ok s := by
        intro c hlow hlater
        by_cases hc : c = start + run
        · exact ⟨next, hc ▸ hnext⟩
        · exact hlater (by omega)
      split at h
      · -- the run goes on
        next hsuccessor =>
          have hnone : ∀ x, start < x → x < start + (run + 1) →
              ¬l.Breaks r x := by
            intro x hlow hhigh
            by_cases hlast : x < start + run
            · exact hinside x hlow hlast
            · have hx : x = start + run := by omega
              rw [hx]
              exact not_breaks_of_isSuccessor (by omega) hprevious hnext
                hsuccessor
          rcases ih h (by omega) hshortest (by omega) hnext hstart hnone with
            ⟨hpos, hle, hslots, hapart, hattained⟩
          refine ⟨hpos, hle, ?_, hapart, hattained⟩
          exact fun c hlow hhigh =>
            hslot hlow fun hlater => hslots c hlater hhigh
      · -- the next one begins
        next hsuccessor =>
          have hbreak : l.Breaks r (start + run) :=
            ⟨start + run - 1, previous, next, by omega, hprevious, hnext,
              by simpa using hsuccessor⟩
          have hboundary : l.Boundary r (start + run) :=
            Or.inr (Or.inr ⟨by omega, hbreak⟩)
          rcases ih h (by omega) (Nat.lt_min.mpr ⟨hshortest, hrun⟩) (by omega)
            hnext hboundary (fun x hlow hhigh => by omega) with
            ⟨hpos, hle, hslots, hapart, hattained⟩
          have hmin := Nat.min_le_right shortest run
          refine ⟨hpos, Nat.le_trans hle (Nat.min_le_left _ _), ?_, ?_, ?_⟩
          · exact fun c hlow hhigh =>
              hslot hlow fun hlater => hslots c hlater hhigh
          · intro a b hlow ha hb hab hend'
            by_cases hlater : start + run ≤ a
            · exact hapart a b hlater ha hb hab hend'
            · have hstartA := ha.eq_start hinside (by omega) hlow (by omega)
              have hstopB := hb.stop_le hinside (by omega) (by omega)
              omega
          · rcases hattained with heq | hfound
            · rw [heq]
              exact attained_min hstart hboundary (by omega) shortest
            · exact Or.inr hfound

theorem rowRuns_of_shortestRun
    {first : Slot} (hcols : 0 < l.shape.cols) (hshortest : 0 < shortest)
    (hfirst : l.slotAt r 0 = .ok first)
    (h : l.shortestRun r 1 first 1 shortest (l.shape.cols - 1) = .ok m) :
    0 < m ∧ m ≤ shortest ∧ l.RowRuns r m ∧ (m = shortest ∨ l.Attained r m) := by
  have hscan :=
    @shortestRun_eq_ok l r 0 1 shortest (l.shape.cols - 1) m first h (by omega)
      hshortest (by omega) hfirst (Or.inl rfl) (fun x hlow hhigh => by omega)
  rcases hscan with ⟨hpos, hle, hslots, hapart, hattained⟩
  refine ⟨hpos, hle, ⟨?_, fun a b ha hb => hapart a b (Nat.zero_le a) ha hb⟩,
    hattained⟩
  intro c hc
  cases c with
  | zero => exact ⟨first, hfirst⟩
  | succ c => exact hslots (c + 1) (by omega) hc

theorem RowRuns.mono {n : Nat} (h : l.RowRuns r n) (hle : m ≤ n) :
    l.RowRuns r m :=
  ⟨h.slot, fun a b ha hb hlt hend => by
    have hapart := h.apart a b ha hb hlt hend
    omega⟩

theorem rowRuns_zero (hslot : ∀ c < l.shape.cols, ∃ s, l.slotAt r c = .ok s) :
    l.RowRuns r 0 :=
  ⟨hslot, fun _ _ _ _ hlt _ => Nat.le_of_lt hlt⟩

/-- What a scan of the rest of the rows comes to.  A run of one ends it, so that
only longer results say something of all rows; but the result is always that of
a row that was scanned. -/
theorem shortestRunFrom_eq_ok
    (hcols : 0 < l.shape.cols) (hshortest : 0 < shortest)
    (h : l.shortestRunFrom r left shortest = .ok m) :
    0 < m ∧ m ≤ shortest ∧
      (m ≠ 1 → ∀ r', r ≤ r' → r' < r + left → l.RowRuns r' m) ∧
      (left = 0 ∧ m = shortest ∨ ∃ r', r ≤ r' ∧ r' < r + left ∧ l.RowRuns r' m ∧
        (m = shortest ∨ l.Attained r' m)) := by
  induction left generalizing r shortest with
  | zero =>
      cases h
      exact ⟨hshortest, Nat.le_refl _, fun _ r' hlow hhigh => by omega,
        Or.inl ⟨rfl, rfl⟩⟩
  | succ left ih =>
      simp only [shortestRunFrom] at h
      rcases bind_eq_ok h with ⟨first, hfirst, h⟩
      rcases bind_eq_ok h with ⟨here, hhere, h⟩
      rcases rowRuns_of_shortestRun hcols hshortest hfirst hhere with
        ⟨hpos, hle, hrow, hattained⟩
      split at h
      · next hone =>
          cases h
          exact ⟨hpos, hle, fun hm => absurd hone hm,
            Or.inr ⟨r, Nat.le_refl r, by omega, hrow, hattained⟩⟩
      · rcases ih hpos h with ⟨hpos', hle', hrows, hfound⟩
        refine ⟨hpos', hle'.trans hle, ?_, Or.inr ?_⟩
        · intro hm r' hlow hhigh
          by_cases hsame : r' = r
          · rw [hsame]
            exact hrow.mono hle'
          · exact hrows hm r' (by omega) (by omega)
        · by_cases hhere : m = here
          · rw [hhere]
            exact ⟨r, Nat.le_refl r, by omega, hrow, hattained⟩
          · rcases hfound with
              ⟨_, hsame⟩ | ⟨r', hlow, hhigh, hrow', hsame | hfound⟩
            · exact absurd hsame hhere
            · exact absurd hsame hhere
            · exact ⟨r', by omega, by omega, hrow', Or.inr hfound⟩

theorem attained_cols (l : Layout) (r : Nat) : l.Attained r l.shape.cols :=
  ⟨0, Or.inl rfl, Or.inr (Or.inl (Nat.zero_add _)), by omega⟩

theorem contiguousRun_eq_ok
    (hcols : 0 < l.shape.cols) (h : l.contiguousRun = .ok m) :
    0 < m ∧ m ≤ l.shape.cols ∧
      (m ≠ 1 → ∀ r < l.shape.dropLast.prod, l.RowRuns r m) ∧
      (l.shape.dropLast.prod = 0 ∧ m = l.shape.cols ∨
        ∃ r < l.shape.dropLast.prod, l.RowRuns r m ∧ l.Attained r m) := by
  unfold contiguousRun at h
  rw [if_neg hcols.ne'] at h
  rcases bind_eq_ok h with ⟨rows, hrows, h⟩
  obtain rfl := l.shape.rows_settles.of_eq_ok hrows
  rcases shortestRunFrom_eq_ok hcols hcols h with ⟨hpos, hle, hall, hfound⟩
  refine ⟨hpos, hle, fun hm r hr => hall hm r (Nat.zero_le r) (by omega), ?_⟩
  refine hfound.imp_right ?_
  rintro ⟨r, _, hr, hrow, hattained⟩
  refine ⟨r, by omega, hrow, ?_⟩
  rcases hattained with rfl | hattained
  · exact l.attained_cols r
  · exact hattained

theorem shortestRun_returns
    {stop : Nat} (hslot : ∀ c < stop, Returns (l.slotAt r c))
    (hend : c + left ≤ stop) (previous : Slot) (run shortest : Nat) :
    Returns (l.shortestRun r c previous run shortest left) := by
  induction left generalizing c previous run shortest with
  | zero => exact Returns.ok _
  | succ left ih =>
      rw [shortestRun]
      apply (hslot c (by omega)).bind
      intro next _
      split
      · exact ih (by omega) _ _ _
      · exact ih (by omega) _ _ _

theorem contiguousRun_returns
    (l : Layout) {rows : Nat} (hrows : l.shape.rows = .ok rows)
    (hslot : ∀ r < rows, ∀ c < l.shape.cols, Returns (l.slotAt r c)) :
    Returns l.contiguousRun := by
  unfold contiguousRun
  split
  · exact Returns.ok 0
  · next hcols =>
      rw [hrows, ok_bind]
      suffices hscan : ∀ left r shortest, r + left ≤ rows →
          Returns (l.shortestRunFrom r left shortest) from hscan rows 0 _
            (by omega)
      intro left
      induction left with
      | zero => exact fun _ _ _ => Returns.ok _
      | succ left ih =>
          intro r shortest hend
          rw [shortestRunFrom]
          apply (hslot r (by omega) 0 (Nat.pos_of_ne_zero hcols)).bind
          intro first _
          apply (shortestRun_returns (hslot r (by omega)) (by omega) first 1
            shortest).bind
          intro shorter _
          split
          · exact Returns.ok _
          · exact ih _ _ (by omega)

/-- The runs of all rows have at least a length, which one of them has. -/
structure ShortestRun (l : Layout) (m : Nat) : Prop where
  row : ∀ r < l.shape.dropLast.prod, l.RowRuns r m
  attained : ∃ r < l.shape.dropLast.prod, l.Attained r m

theorem shortestRun_of_contiguousRun
    (h : l.contiguousRun = .ok m) (hm : 2 ≤ m) (hcols : 0 < l.shape.cols)
    (hrows : 0 < l.shape.dropLast.prod) : l.ShortestRun m := by
  rcases contiguousRun_eq_ok hcols h with ⟨_, _, hall, hfound⟩
  rcases hfound with ⟨hzero, _⟩ | ⟨r, hr, _, hattained⟩
  · omega
  · exact ⟨hall (by omega), r, hr, hattained⟩

/-! ## Aligned breaks -/

def Aligned (l : Layout) (width : Nat) : Prop :=
  ∀ r < l.shape.dropLast.prod, ∀ c < l.shape.cols, l.Breaks r c → width ∣ c

theorem Aligned.consecutive
    (h : l.Aligned width) (hrow : l.RowRuns r m)
    (hr : r < l.shape.dropLast.prod) (hc : width ∣ c)
    (hend : c + width ≤ l.shape.cols) : l.Consecutive r c width := by
  apply hrow.consecutive hend
  intro x hlow hhigh hbreak
  have hx := h r hr x (by omega) hbreak
  have hgap : width ∣ x - c := Nat.dvd_sub hx hc
  have hle := Nat.le_of_dvd (by omega) hgap
  omega

theorem Breaks.exists_succ (h : l.Breaks r c) : ∃ b, c = b + 1 := by
  rcases h with ⟨b, _, _, hb, _⟩
  exact ⟨b, hb⟩

theorem RowRuns.not_breaks
    (h : l.RowRuns r l.shape.cols) (hc : c < l.shape.cols) : ¬l.Breaks r c := by
  intro hbreak
  have hpos : 0 < c := by
    rcases hbreak.exists_succ with ⟨b, rfl⟩
    exact Nat.succ_pos b
  have hapart := h.apart 0 c (Or.inl rfl) (Or.inr (Or.inr ⟨hc, hbreak⟩)) hpos
    (Nat.le_of_lt hc)
  omega

/-! ## Pitches -/

theorem not_breaks_of_pitch
    (base : Nat) (h : ∀ c s, l.slotAt r c = .ok s → s = .offset (base + c))
    (c : Nat) : ¬l.Breaks r c := by
  rintro ⟨b, s, t, rfl, hs, ht, hfalse⟩
  rw [h b s hs, h (b + 1) t ht] at hfalse
  simp [Slot.isSuccessor, Nat.add_assoc] at hfalse

theorem Attained.eq_cols
    (h : l.Attained r m) (hm : 0 < m)
    (hnone : ∀ c < l.shape.cols, ¬l.Breaks r c) : m = l.shape.cols := by
  have hends : ∀ {x}, l.Boundary r x → x = 0 ∨ x = l.shape.cols :=
    fun hx => hx.imp_right
      (Or.resolve_right · fun hbreak => hnone _ hbreak.1 hbreak.2)
  rcases h with ⟨a, ha, hb, hend⟩
  have ha := hends ha
  have hb := hends hb
  omega

theorem not_breaks_rowMajor (shape : Shape) (r c : Nat) :
    ¬(rowMajor shape).Breaks r c := by
  apply not_breaks_of_pitch (r * shape.cols)
  intro c s hs
  cases hs
  rfl

theorem not_breaks_padded (shape : Shape) (pad r c : Nat) :
    ¬Breaks ⟨shape, .padded pad⟩ r c := by
  apply not_breaks_of_pitch (r * (shape.cols + pad))
  intro c s hs
  rcases bind_eq_ok hs with ⟨o, ho, hs⟩
  have heq := (Checked.word64_settles _).of_eq_ok ho
  cases hs
  rw [heq]

end Layout

/-! ## Chunks of a swizzle -/

namespace Swizzle

variable {s : Swizzle}

/-- Where a chunk goes: chunks keep their elements together. -/
def shuffle (s : Swizzle) (chunk : Nat) : Nat :=
  chunk ^^^ (chunk >>> s.shift) % 2 ^ s.bits

theorem permute_eq_shuffle (s : Swizzle) (offset : Nat) :
    s.permute offset = 2 ^ s.base * s.shuffle (offset / 2 ^ s.base) +
      offset % 2 ^ s.base := by
  apply Nat.eq_of_testBit_eq
  intro i
  rw [testBit_permute,
    Nat.testBit_two_pow_mul_add _ (Nat.mod_lt _ (Nat.two_pow_pos _))]
  by_cases hi : i < s.base
  · have hfield : ¬(s.base ≤ i ∧ i < s.base + s.bits) := by omega
    simp [hi, hfield]
  · have hbelow : i - s.base < s.bits ↔ s.base ≤ i ∧ i < s.base + s.bits := by
      omega
    have hsame : i - s.base + s.base = i := by omega
    simp only [hi, if_false, shuffle, Nat.testBit_xor, Nat.testBit_mod_two_pow,
      Nat.testBit_shiftRight, Nat.testBit_div_two_pow, hbelow]
    rw [hsame, show s.shift + (i - s.base) + s.base = i + s.shift by omega]

theorem shuffle_of_lt (h : chunk < 2 ^ s.shift) : s.shuffle chunk = chunk := by
  rw [shuffle, Nat.shiftRight_eq_div_pow, Nat.div_eq_of_lt h, Nat.zero_mod,
    Nat.xor_zero]

theorem Proper.shuffle_swaps (h : s.Proper) :
    s.shuffle (2 ^ s.shift) = 2 ^ s.shift + 1 ∧
      s.shuffle (2 ^ s.shift + 1) = 2 ^ s.shift := by
  have hshift : s.shift ≠ 0 := by
    have hpos := h.bits_pos
    have hle := h.bits_le
    omega
  have heven : Even (2 ^ s.shift) := (even_two).pow_of_ne_zero hshift
  have hone : 1 < 2 ^ s.shift := Nat.one_lt_two_pow hshift
  have hbits : s.bits ≠ 0 := Nat.ne_of_gt h.bits_pos
  have hfield : 1 % 2 ^ s.bits = 1 :=
    Nat.mod_eq_of_lt (Nat.one_lt_two_pow hbits)
  constructor
  · rw [shuffle, Nat.shiftRight_eq_div_pow, Nat.div_self (Nat.two_pow_pos _),
      hfield, Nat.xor_one_of_even heven]
  · have hquotient : (2 ^ s.shift + 1) / 2 ^ s.shift = 1 := by
      rw [Nat.add_div_left _ (Nat.two_pow_pos _), Nat.div_eq_of_lt hone]
    rw [shuffle, Nat.shiftRight_eq_div_pow, hquotient, hfield,
      Nat.xor_one_of_odd heven.add_one, Nat.add_sub_cancel]

theorem permute_succ_of_not_dvd {offset : Nat} (h : ¬2 ^ s.base ∣ offset + 1) :
    s.permute (offset + 1) = s.permute offset + 1 := by
  have hchunk : (offset + 1) / 2 ^ s.base = offset / 2 ^ s.base :=
    Nat.succ_div_of_not_dvd h
  have hsplit := Nat.div_add_mod offset (2 ^ s.base)
  have hsplit' := Nat.div_add_mod (offset + 1) (2 ^ s.base)
  rw [hchunk] at hsplit'
  rw [permute_eq_shuffle, permute_eq_shuffle, hchunk]
  omega

theorem permute_succ_of_dvd
    {offset : Nat} (h : offset + 1 = 2 ^ s.base * (chunk + 1)) :
    s.permute (offset + 1) = s.permute offset + 1 ↔
      s.shuffle (chunk + 1) = s.shuffle chunk + 1 := by
  have hpos := Nat.two_pow_pos s.base
  have hlast : offset = 2 ^ s.base * chunk + (2 ^ s.base - 1) := by
    rw [Nat.mul_add_one] at h
    omega
  have hnext : s.permute (offset + 1) = 2 ^ s.base * s.shuffle (chunk + 1) := by
    rw [permute_eq_shuffle, h, Nat.mul_div_cancel_left _ hpos,
      Nat.mul_mod_right, Nat.add_zero]
  have hthis : s.permute offset = 2 ^ s.base * s.shuffle chunk +
      (2 ^ s.base - 1) := by
    rw [permute_eq_shuffle, hlast, Nat.mul_add_div hpos, Nat.mul_add_mod,
      Nat.div_eq_of_lt (by omega), Nat.mod_eq_of_lt (by omega), Nat.add_zero]
  have hsum : 2 ^ s.base * s.shuffle chunk + (2 ^ s.base - 1) + 1 =
      2 ^ s.base * (s.shuffle chunk + 1) := by
    rw [Nat.mul_add_one]
    omega
  rw [hnext, hthis, hsum]
  exact Nat.mul_right_inj hpos.ne'

end Swizzle

namespace Layout

section

variable {shape : Shape} {s : Swizzle}

theorem slotAt_swizzled (hproper : s.Proper) (r c : Nat) :
    slotAt ⟨shape, .swizzled s⟩ r c =
      .ok (.offset (s.permute (r * shape.cols + c))) := by
  simp only [slotAt, hproper.apply_eq]
  rfl

theorem rowRuns_swizzled (hproper : s.Proper) (r : Nat) :
    RowRuns ⟨shape, .swizzled s⟩ r 0 :=
  rowRuns_zero fun c _ => ⟨_, slotAt_swizzled hproper r c⟩

theorem breaks_swizzled_iff (hproper : s.Proper) :
    Breaks ⟨shape, .swizzled s⟩ r (c + 1) ↔
      s.permute (r * shape.cols + (c + 1)) ≠
        s.permute (r * shape.cols + c) + 1 := by
  constructor
  · rintro ⟨b, t, t', hb, ht, ht', hfalse⟩
    cases hb
    rw [slotAt_swizzled hproper] at ht ht'
    cases ht
    cases ht'
    simpa [Slot.isSuccessor] using hfalse
  · intro hne
    refine ⟨c, _, _, rfl, slotAt_swizzled hproper r c,
      slotAt_swizzled hproper r (c + 1), ?_⟩
    simpa [Slot.isSuccessor] using hne

theorem dvd_of_breaks_swizzled
    (hproper : s.Proper) (hbreak : Breaks ⟨shape, .swizzled s⟩ r c) :
    2 ^ s.base ∣ r * shape.cols + c := by
  rcases hbreak.exists_succ with ⟨b, rfl⟩
  by_contra hdvd
  exact (breaks_swizzled_iff hproper).mp hbreak
    (Swizzle.permute_succ_of_not_dvd hdvd)

theorem boundary_of_shuffle
    (hproper : s.Proper) (hc : c < shape.cols)
    (hoffset : r * shape.cols + c = 2 ^ s.base * (chunk + 1))
    (hne : s.shuffle (chunk + 1) ≠ s.shuffle chunk + 1) :
    Boundary ⟨shape, .swizzled s⟩ r c := by
  cases c with
  | zero => exact Or.inl rfl
  | succ c =>
      refine Or.inr (Or.inr ⟨hc, (breaks_swizzled_iff hproper).mpr ?_⟩)
      exact fun heq => hne ((Swizzle.permute_succ_of_dvd hoffset).mp heq)

/-- A tile with a break has the first chunk that moves, and this chunk has no
neighbour that follows it. -/
theorem le_chunk_of_breaks
    (hproper : s.Proper) (haligned : shape.prod % 2 ^ (s.base + s.bits) = 0)
    (h : ∀ r < shape.dropLast.prod, RowRuns ⟨shape, .swizzled s⟩ r m)
    (hr : r < shape.dropLast.prod) (hc : c < shape.cols)
    (hbreak : Breaks ⟨shape, .swizzled s⟩ r c) : m ≤ 2 ^ s.base := by
  have hpos := Nat.two_pow_pos s.base
  -- a break needs an offset past the chunks that stay where they are
  have hreach : 2 ^ s.base * 2 ^ s.shift < shape.prod := by
    have hin : r * shape.cols + c < shape.prod := by
      rw [Shape.prod_eq_dropLast_mul_cols]
      exact rowMajor_lt hr hc
    rcases dvd_of_breaks_swizzled hproper hbreak with ⟨chunk, hchunk⟩
    by_contra hle
    have hlt : chunk < 2 ^ s.shift := by
      apply Nat.lt_of_mul_lt_mul_left (a := 2 ^ s.base)
      omega
    rcases hbreak.exists_succ with ⟨b, rfl⟩
    cases chunk with
    | zero => omega
    | succ chunk =>
        apply (breaks_swizzled_iff hproper).mp hbreak
        apply (Swizzle.permute_succ_of_dvd hchunk).mpr
        rw [Swizzle.shuffle_of_lt hlt, Swizzle.shuffle_of_lt (by omega)]
  have hwhole : 2 ^ s.base * (2 ^ s.shift + 1) ≤ shape.prod := by
    have hdvd : 2 ^ s.base ∣ shape.prod :=
      (Nat.pow_dvd_pow 2 (Nat.le_add_right _ _)).trans
        (Nat.dvd_of_mod_eq_zero haligned)
    rcases hdvd with ⟨chunks, hchunks⟩
    rw [hchunks] at hreach ⊢
    exact Nat.mul_le_mul_left _ (Nat.lt_of_mul_lt_mul_left hreach)
  rcases hproper.shuffle_swaps with ⟨hfirst, hsecond⟩
  have hbefore : ∃ before, 2 ^ s.shift = before + 1 :=
    Nat.exists_eq_add_one.mpr (Nat.two_pow_pos _)
  rcases hbefore with ⟨before, hbefore⟩
  rw [hbefore] at hreach hwhole hfirst hsecond
  have hstays : s.shuffle before = before := Swizzle.shuffle_of_lt (by omega)
  -- the row and the column of its first element
  have hcols : 0 < shape.cols := Nat.zero_lt_of_lt hc
  have hsplit := Nat.div_add_mod' (2 ^ s.base * (before + 1)) shape.cols
  have hcol := Nat.mod_lt (2 ^ s.base * (before + 1)) hcols
  have hrow : 2 ^ s.base * (before + 1) / shape.cols < shape.dropLast.prod := by
    rw [Nat.div_lt_iff_lt_mul hcols, ← Shape.prod_eq_dropLast_mul_cols]
    exact hreach
  generalize 2 ^ s.base * (before + 1) / shape.cols = row at hsplit hrow
  generalize 2 ^ s.base * (before + 1) % shape.cols = col at hsplit hcol
  have hstart : Boundary ⟨shape, .swizzled s⟩ row col :=
    boundary_of_shuffle hproper hcol hsplit (by omega)
  by_cases hend : col + 2 ^ s.base < shape.cols
  · have hnext : row * shape.cols + (col + 2 ^ s.base) =
        2 ^ s.base * (before + 1 + 1) := by
      rw [Nat.mul_add_one (2 ^ s.base) (before + 1), ← hsplit]
      omega
    have hstop := boundary_of_shuffle hproper hend hnext (by omega)
    have hapart :=
      (h row hrow).apart _ _ hstart hstop (by omega) (Nat.le_of_lt hend)
    omega
  · have hapart := (h row hrow).apart col shape.cols hstart
      (Or.inr (Or.inl rfl)) hcol (Nat.le_refl _)
    omega

theorem dvd_of_dvd_chunk
    (hproper : s.Proper) (hwidth : width ∣ 2 ^ s.base)
    (hcols : width ∣ shape.cols) (hbreak : Breaks ⟨shape, .swizzled s⟩ r c) :
    width ∣ c := by
  have hsum := hwidth.trans (dvd_of_breaks_swizzled hproper hbreak)
  exact (Nat.dvd_add_right (hcols.mul_left r)).mp hsum

theorem aligned_swizzled
    (hwf : isWellFormed ⟨shape, .swizzled s⟩ = .ok true)
    (h : ∀ r < shape.dropLast.prod, RowRuns ⟨shape, .swizzled s⟩ r m)
    (hle : width ≤ m) (hpower : ∃ e, width = 2 ^ e)
    (hcols : width ∣ shape.cols) :
    Aligned ⟨shape, .swizzled s⟩ width := by
  rcases swizzle_of_isWellFormed hwf with ⟨hproper, haligned⟩
  intro r hr c hc hbreak
  have hchunk := le_chunk_of_breaks hproper haligned h hr hc hbreak
  apply dvd_of_dvd_chunk hproper _ hcols hbreak
  rcases hpower with ⟨e, rfl⟩
  exact Nat.pow_dvd_pow 2
    ((Nat.pow_le_pow_iff_right (by decide)).mp (hle.trans hchunk))

end

end Layout

end TileProgram
