import TileProgram.Proofs.Layout.Registers
import TileProgram.Proofs.Layout.Runs

/-!
# Runs of registers

Stripes break at multiples of their length.  In an operand the atoms decide: the
elements of a lane follow each other, so that an atom breaks at the multiples of
some distance, and between two atoms the turns of the warp decide.  All rows of
these layouts break at the same columns, and the shortest run is the distance
between the breaks, unless that distance does not divide the atom.
-/

namespace TileProgram

open Checked

theorem succ_div_mod (d n : Nat) :
    (d ∣ n + 1 ∧ (n + 1) / d = n / d + 1 ∧ (n + 1) % d = 0 ∧ n % d + 1 = d) ∨
      (¬d ∣ n + 1 ∧ (n + 1) / d = n / d ∧ (n + 1) % d = n % d + 1) := by
  have hsplit := Nat.div_add_mod n d
  have hsplit' := Nat.div_add_mod (n + 1) d
  by_cases hdvd : d ∣ n + 1
  · left
    have hquotient := Nat.succ_div_of_dvd hdvd
    have hrest := Nat.mod_eq_zero_of_dvd hdvd
    rw [hquotient, hrest, Nat.mul_add_one] at hsplit'
    exact ⟨hdvd, hquotient, hrest, by omega⟩
  · right
    have hquotient := Nat.succ_div_of_not_dvd hdvd
    rw [hquotient] at hsplit'
    exact ⟨hdvd, hquotient, by omega⟩

/-! ## Rows that break alike -/

namespace Layout

variable {l : Layout} {breaks : Nat → Prop} {m width : Nat}

def Alike (l : Layout) (breaks : Nat → Prop) : Prop :=
  ∀ r < l.shape.dropLast.prod,
    ∀ c, c + 1 < l.shape.cols → (l.Breaks r (c + 1) ↔ breaks (c + 1))

def Edge (breaks : Nat → Prop) (cols x : Nat) : Prop :=
  x = 0 ∨ x = cols ∨ (0 < x ∧ x < cols ∧ breaks x)

/-- Edges are apart by a length, and two of them by no more. -/
structure Spaced (breaks : Nat → Prop) (cols m : Nat) : Prop where
  apart : ∀ a b, Edge breaks cols a → Edge breaks cols b → a < b → b ≤ cols →
    a + m ≤ b
  attained : ∃ a, Edge breaks cols a ∧ Edge breaks cols (a + m) ∧ a + m ≤ cols

theorem boundary_iff_edge
    {r : Nat}
    (h : ∀ c, c + 1 < l.shape.cols → (l.Breaks r (c + 1) ↔ breaks (c + 1)))
    (x : Nat) :
    l.Boundary r x ↔ Edge breaks l.shape.cols x := by
  constructor
  · rintro (hzero | hlast | ⟨hlt, hbreak⟩)
    · exact Or.inl hzero
    · exact Or.inr (Or.inl hlast)
    · rcases hbreak.exists_succ with ⟨c, rfl⟩
      exact Or.inr (Or.inr ⟨Nat.succ_pos c, hlt, (h c hlt).mp hbreak⟩)
  · rintro (hzero | hlast | ⟨hpos, hlt, hbreak⟩)
    · exact Or.inl hzero
    · exact Or.inr (Or.inl hlast)
    · rcases Nat.exists_eq_add_one.mpr hpos with ⟨c, rfl⟩
      exact Or.inr (Or.inr ⟨hlt, (h c hlt).mpr hbreak⟩)

theorem RowRuns.spaced
    {r : Nat} (hrow : l.RowRuns r m) (hattained : l.Attained r m)
    (h : ∀ c, c + 1 < l.shape.cols → (l.Breaks r (c + 1) ↔ breaks (c + 1))) :
    Spaced breaks l.shape.cols m := by
  rcases hattained with ⟨a, ha, hb, hend⟩
  constructor
  · intro a b ha hb
    exact hrow.apart a b ((boundary_iff_edge h a).mpr ha)
      ((boundary_iff_edge h b).mpr hb)
  · exact ⟨a, (boundary_iff_edge h a).mp ha, (boundary_iff_edge h _).mp hb,
      hend⟩

theorem Alike.spaced (h : l.Alike breaks) (hm : l.ShortestRun m) :
    Spaced breaks l.shape.cols m := by
  rcases hm.attained with ⟨r, hr, hattained⟩
  exact (hm.row r hr).spaced hattained (h r hr)

theorem Alike.aligned
    (h : l.Alike breaks)
    (hdvd : ∀ x, 0 < x → x < l.shape.cols → breaks x → width ∣ x) :
    l.Aligned width := by
  intro r hr c hc hbreak
  rcases hbreak.exists_succ with ⟨b, rfl⟩
  exact hdvd (b + 1) (Nat.succ_pos b) hc ((h r hr b hc).mp hbreak)

theorem ShortestRun.cols_pos (h : l.ShortestRun m) (hpos : 0 < m) :
    0 < l.shape.cols := by
  rcases h.attained with ⟨_, _, _, _, _, hend⟩
  omega

theorem Spaced.eq_of_grid
    {cols grid : Nat} (h : Spaced breaks cols m) (hm : 0 < m) (hgrid : 0 < grid)
    (hcols : grid ∣ cols) (hpos : 0 < cols)
    (hdvd : ∀ x, 0 < x → x < cols → breaks x → grid ∣ x)
    (hfirst : grid < cols → breaks grid) : m = grid := by
  have hedge : ∀ x, Edge breaks cols x → grid ∣ x := by
    rintro x (rfl | rfl | ⟨hx, hlt, hbreak⟩)
    · exact Nat.dvd_zero grid
    · exact hcols
    · exact hdvd x hx hlt hbreak
  have hle := Nat.le_of_dvd hpos hcols
  apply Nat.le_antisymm
  · have hgridEdge : Edge breaks cols grid := by
      rcases Nat.eq_or_lt_of_le hle with heq | hlt
      · exact Or.inr (Or.inl heq)
      · exact Or.inr (Or.inr ⟨hgrid, hlt, hfirst hlt⟩)
    have hapart := h.apart 0 grid (Or.inl rfl) hgridEdge hgrid hle
    omega
  · rcases h.attained with ⟨a, ha, hb, _⟩
    exact Nat.le_of_dvd hm ((Nat.dvd_add_right (hedge a ha)).mp (hedge _ hb))

theorem breaks_register_iff
    {r : Nat} {thread index : Nat → Nat} (hrow : l.RowRuns r m)
    (hslot : ∀ c s, l.slotAt r c = .ok s → s = .register (thread c) (index c))
    {c : Nat} (hc : c + 1 < l.shape.cols) :
    l.Breaks r (c + 1) ↔
      ¬(thread (c + 1) = thread c ∧ index (c + 1) = index c + 1) := by
  constructor
  · rintro ⟨b, s, t, hb, hs, ht, hfalse⟩ ⟨hthread, hindex⟩
    cases hb
    rw [hslot _ _ hs, hslot _ _ ht, hthread, hindex] at hfalse
    simp [Slot.isSuccessor] at hfalse
  · intro hne
    rcases hrow.slot c (Nat.lt_of_succ_lt hc) with ⟨s, hs⟩
    rcases hrow.slot (c + 1) hc with ⟨t, ht⟩
    refine ⟨c, s, t, rfl, hs, ht, ?_⟩
    rw [hslot _ _ hs, hslot _ _ ht, ← Bool.not_eq_true, Slot.isSuccessor_iff]
    intro heq
    rcases Slot.register.inj heq with ⟨hthread, hindex⟩
    exact hne ⟨hthread, hindex⟩

/-! ## Stripes -/

section

variable {shape : Shape} {threads vector : Nat}

theorem slotAt_striped
    {r c : Nat} {s : Slot}
    (h : slotAt ⟨shape, .fragment (.striped threads vector)⟩ r c = .ok s) :
    s = .register ((r * shape.cols + c) / vector % threads)
      ((r * shape.cols + c) / vector / threads * vector +
        (r * shape.cols + c) % vector) := by
  rcases bind_eq_ok h with ⟨rows, _, h⟩
  rcases bind_eq_ok h with ⟨⟨thread, index⟩, hslot, h⟩
  cases h
  rcases div_bind_eq_ok (word32_bind_eq_ok hslot) with ⟨_, hslot⟩
  rcases mod_bind_eq_ok hslot with ⟨_, hslot⟩
  cases hslot
  rfl

/-- The elements of a stripe follow each other; the next stripe goes to another
thread. -/
theorem breaks_striped_iff
    {m r c : Nat}
    (hwf : isWellFormed ⟨shape, .fragment (.striped threads vector)⟩ = .ok true)
    (h : RowRuns ⟨shape, .fragment (.striped threads vector)⟩ r m)
    (hc : c + 1 < shape.cols) :
    Breaks ⟨shape, .fragment (.striped threads vector)⟩ r (c + 1) ↔
      vector ∣ c + 1 ∧ 2 ≤ threads := by
  rcases striped_of_isWellFormed hwf with ⟨hthreads, _, hcols⟩
  rw [breaks_register_iff h (fun c s => slotAt_striped) hc]
  have hsame : vector ∣ c + 1 ↔ vector ∣ r * shape.cols + (c + 1) :=
    (Nat.dvd_add_right (hcols.mul_left r)).symm
  rw [hsame, ← Nat.add_assoc]
  generalize r * shape.cols + c = e
  rcases succ_div_mod vector e with
    ⟨hdvd, hchunk, hfirst, hlast⟩ | ⟨hdvd, hchunk, hnext⟩
  · rw [hchunk, hfirst]
    by_cases hone : threads = 1
    · have hfollows : (e / vector + 1) % threads = e / vector % threads ∧
          (e / vector + 1) / threads * vector + 0 =
            e / vector / threads * vector + e % vector + 1 := by
        rw [hone, Nat.mod_one, Nat.mod_one, Nat.div_one, Nat.div_one,
          Nat.add_one_mul, Nat.add_zero, Nat.add_assoc, hlast]
        exact ⟨rfl, rfl⟩
      constructor
      · intro hne
        exact (hne hfollows).elim
      · intro hbreak
        omega
    · have hmoves : (e / vector + 1) % threads ≠ e / vector % threads := by
        rcases succ_div_mod threads (e / vector) with
          ⟨_, _, hthread, hlast⟩ | ⟨_, _, hthread⟩
        · omega
        · omega
      constructor
      · intro _
        exact ⟨hdvd, by omega⟩
      · intro _ hfollows
        exact hmoves hfollows.1
  · rw [hchunk, hnext]
    constructor
    · intro hne
      exact (hne ⟨rfl, rfl⟩).elim
    · intro hbreak
      exact (hdvd hbreak.1).elim

theorem aligned_striped
    {m width : Nat}
    (hwf : isWellFormed ⟨shape, .fragment (.striped threads vector)⟩ = .ok true)
    (h : ShortestRun ⟨shape, .fragment (.striped threads vector)⟩ m)
    (hm : 0 < m) (hwidth : width ∣ m) :
    Aligned ⟨shape, .fragment (.striped threads vector)⟩ width := by
  have halike : Alike ⟨shape, .fragment (.striped threads vector)⟩
      fun x => vector ∣ x ∧ 2 ≤ threads :=
    fun r hr _ hc => breaks_striped_iff hwf (h.row r hr) hc
  rcases striped_of_isWellFormed hwf with ⟨_, hvector, hcols⟩
  apply halike.aligned
  intro x _ _ hbreak
  have hrun := (halike.spaced h).eq_of_grid hm hvector hcols (h.cols_pos hm)
    (fun _ _ _ hbreak => hbreak.1) (fun _ => ⟨Nat.dvd_refl vector, hbreak.2⟩)
  exact (hrun ▸ hwidth).trans hbreak.1

end

end Layout

/-! ## Atoms -/

namespace Atom

/-- What one coordinate adds to the lane and to the register of an element. -/
structure Part where
  lane : Nat → Nat
  register : Nat → Nat

def rowPart : Atom → Part
  | mmaA pack => ⟨fun r => r % 8 * 4, fun r => pack * (r / 8 % 2)⟩
  | mmaB pack =>
      ⟨fun r => r % (4 * pack) / pack,
        fun r => r % pack + pack * (r / (4 * pack))⟩
  | mmaC => ⟨fun r => r % 8 * 4, fun r => 2 * (r / 8)⟩
  | mfmaA _ _ => ⟨fun r => r, fun _ => 0⟩
  | mfmaB n _ => ⟨fun r => n * (r / 4), fun r => r % 4⟩
  | mfmaC _ n =>
      ⟨fun r => n * (r / 4 % (64 / n)), fun r => r / (4 * (64 / n)) * 4 + r % 4⟩

def colPart : Atom → Part
  | mmaA pack =>
      ⟨fun c => c % (4 * pack) / pack,
        fun c => c % pack + 2 * pack * (c / (4 * pack))⟩
  | mmaB _ => ⟨fun c => c * 4, fun _ => 0⟩
  | mmaC => ⟨fun c => c % 8 / 2, fun c => c % 2⟩
  | mfmaA m _ => ⟨fun c => m * (c / 4), fun c => c % 4⟩
  | mfmaB _ _ => ⟨fun c => c, fun _ => 0⟩
  | mfmaC _ _ => ⟨fun c => c, fun _ => 0⟩

theorem slot_eq_parts
    {a : Atom} {r c lane register : Nat}
    (h : a.slot r c = .ok (lane, register)) :
    lane = a.rowPart.lane r + a.colPart.lane c ∧
      register = a.rowPart.register r + a.colPart.register c := by
  cases a with
  | mmaA pack =>
      rcases mod_bind_eq_ok (word32_bind_eq_ok h) with ⟨_, h⟩
      cases word32_bind_eq_ok h
      exact ⟨rfl, by simp only [rowPart, colPart]; ring⟩
  | mmaB pack =>
      have h := word32_bind_eq_ok (word32_bind_eq_ok h)
      rcases mod_bind_eq_ok h with ⟨_, h⟩
      cases word32_bind_eq_ok h
      exact ⟨by simp only [rowPart, colPart]; ring,
        by simp only [rowPart, colPart]; ring⟩
  | mmaC =>
      cases h
      exact ⟨rfl, by simp only [rowPart, colPart]; ring⟩
  | mfmaA m k =>
      cases word32_bind_eq_ok h
      exact ⟨rfl, by simp only [rowPart, colPart]; ring⟩
  | mfmaB n k =>
      cases word32_bind_eq_ok h
      exact ⟨by simp only [rowPart, colPart]; ring,
        by simp only [rowPart, colPart]; ring⟩
  | mfmaC m n =>
      rcases div_bind_eq_ok h with ⟨_, h⟩
      rcases mod_bind_eq_ok h with ⟨_, h⟩
      cases word32_bind_eq_ok h
      exact ⟨by simp only [rowPart, colPart]; ring,
        by simp only [rowPart, colPart]; ring⟩

/-- Along a coordinate, elements follow each other in their lane up to the
multiples of a distance. -/
structure Part.Breaks (p : Part) (size distance : Nat) : Prop where
  pos : 0 < distance
  follows_iff : ∀ i, i + 1 < size →
    ((p.lane (i + 1) = p.lane i ∧ p.register (i + 1) = p.register i + 1) ↔
      ¬distance ∣ i + 1)
  first_le : ∀ i, p.register 0 ≤ p.register i

theorem Part.breaks_one
    {p : Part} {size : Nat}
    (hlane : ∀ i, i + 1 < size → p.lane (i + 1) ≠ p.lane i)
    (hfirst : ∀ i, p.register 0 ≤ p.register i) : p.Breaks size 1 where
  pos := Nat.one_pos
  follows_iff i hi := by
    have hdvd : 1 ∣ i + 1 := Nat.one_dvd _
    exact ⟨fun h => (hlane i hi h.1).elim, fun h => (h hdvd).elim⟩
  first_le := hfirst

/-- Elements packed into registers, with the packs going round four lanes. -/
theorem Part.breaks_pack {pack : Nat} (hpack : 0 < pack) (stride size : Nat) :
    Part.Breaks ⟨fun i => i % (4 * pack) / pack,
      fun i => i % pack + stride * (i / (4 * pack))⟩ size pack where
  pos := hpack
  follows_iff i _ := by
    have hlane : ∀ x, x % (4 * pack) / pack = x / pack % 4 := by
      intro x
      rw [Nat.mul_comm, Nat.mod_mul_right_div_self]
    have hround : ∀ x, x / (4 * pack) = x / pack / 4 := by
      intro x
      rw [Nat.mul_comm, Nat.div_div_eq_div_mul]
    simp only [hlane, hround]
    rcases succ_div_mod pack i with
      ⟨hdvd, hquotient, _, _⟩ | ⟨hdvd, hquotient, hrest⟩
    · rw [hquotient]
      constructor
      · intro h
        omega
      · intro h
        exact (h hdvd).elim
    · rw [hquotient, hrest]
      refine ⟨fun _ => hdvd, fun _ => ⟨rfl, ?_⟩⟩
      omega
  first_le i := by simp

theorem Part.breaks_four {stride : Nat} (hstride : 0 < stride) (size : Nat) :
    Part.Breaks ⟨fun i => stride * (i / 4), fun i => i % 4⟩ size 4 where
  pos := by decide
  follows_iff i _ := by
    rcases succ_div_mod 4 i with
      ⟨hdvd, hquotient, _, _⟩ | ⟨hdvd, hquotient, hrest⟩
    · simp only [hquotient, Nat.mul_add_one]
      constructor
      · intro h
        omega
      · intro h
        exact (h hdvd).elim
    · simp only [hquotient, hrest]
      exact ⟨fun _ => hdvd, fun _ => ⟨trivial, trivial⟩⟩
  first_le i := Nat.zero_le _

theorem Part.breaks_groups
    {n size : Nat} (hgroups : 0 < 64 / n) (hsize : 0 < size) :
    ∃ distance,
      Part.Breaks ⟨fun i => n * (i / 4 % (64 / n)),
        fun i => i / (4 * (64 / n)) * 4 + i % 4⟩ size distance ∧
      (size ≤ distance ∨ distance = 4) := by
  have hn : 0 < n := by
    apply Nat.pos_of_ne_zero
    rintro rfl
    simp at hgroups
  have hround : ∀ x, x / (4 * (64 / n)) = x / 4 / (64 / n) := by
    intro x
    rw [Nat.div_div_eq_div_mul]
  simp only [hround]
  generalize 64 / n = groups at hgroups
  by_cases hone : groups = 1
  · subst hone
    refine ⟨size, ⟨hsize, ?_, fun i => by simp⟩, Or.inl (Nat.le_refl size)⟩
    intro i hi
    have hdvd : ¬size ∣ i + 1 := Nat.not_dvd_of_pos_of_lt (Nat.succ_pos i) hi
    simp only [Nat.mod_one, Nat.mul_zero, Nat.div_one]
    refine ⟨fun _ => hdvd, fun _ => ⟨trivial, ?_⟩⟩
    omega
  · refine ⟨4, ⟨by decide, ?_, fun i => by simp⟩, Or.inr rfl⟩
    intro i _
    dsimp only
    rcases succ_div_mod 4 i with
      ⟨hdvd, hquotient, _, _⟩ | ⟨hdvd, hquotient, hrest⟩
    · have hmoves : (i / 4 + 1) % groups ≠ i / 4 % groups := by
        rcases succ_div_mod groups (i / 4) with
          ⟨_, _, hgroup, hlast⟩ | ⟨_, _, hgroup⟩
        · omega
        · omega
      rw [hquotient]
      constructor
      · intro h
        exact (hmoves (Nat.eq_of_mul_eq_mul_left hn h.1)).elim
      · intro h
        exact (h hdvd).elim
    · rw [hquotient, hrest]
      exact ⟨fun _ => hdvd, fun _ => ⟨rfl, by omega⟩⟩

section

variable {a : Atom} {rows cols r c : Nat} {s : Nat × Nat}

/-- Where the columns of an atom break.  Four elements a lane need not divide
the columns. -/
theorem exists_breaks_colPart
    (hrows : a.rows = .ok rows) (hcols : a.cols = .ok cols) (hpos : 0 < rows)
    (hslot : a.slot r c = .ok s) :
    ∃ distance, a.colPart.Breaks cols distance ∧
      (cols ≤ distance ∨ distance ∣ cols ∨ (distance = 4 ∧ a.lanes = 64)) := by
  cases a with
  | mmaA pack =>
      rcases mod_bind_eq_ok (word32_bind_eq_ok hslot) with ⟨hne, _⟩
      have hcols := (word32_settles _).of_eq_ok hcols
      exact ⟨pack, Part.breaks_pack (by omega) (2 * pack) cols,
        Or.inr (Or.inl (hcols ▸ Nat.dvd_mul_left pack 8))⟩
  | mmaB pack =>
      refine ⟨1, Part.breaks_one ?_ fun _ => Nat.le_refl _,
        Or.inr (Or.inl (Nat.one_dvd _))⟩
      intro i _
      simp only [colPart]
      omega
  | mmaC =>
      cases hcols
      refine ⟨2, ⟨by decide, ?_, fun _ => Nat.zero_le _⟩,
        Or.inr (Or.inl (by decide))⟩
      intro i hi
      simp only [colPart]
      omega
  | mfmaA m k =>
      cases hrows
      exact ⟨4, Part.breaks_four hpos cols, Or.inr (Or.inr ⟨rfl, rfl⟩)⟩
  | mfmaB n k =>
      refine ⟨1, Part.breaks_one ?_ fun _ => Nat.le_refl _,
        Or.inr (Or.inl (Nat.one_dvd _))⟩
      exact fun i _ => Nat.succ_ne_self i
  | mfmaC m n =>
      refine ⟨1, Part.breaks_one ?_ fun _ => Nat.le_refl _,
        Or.inr (Or.inl (Nat.one_dvd _))⟩
      exact fun i _ => Nat.succ_ne_self i

theorem exists_breaks_rowPart
    (hrows : a.rows = .ok rows) (hcols : a.cols = .ok cols) (hpos : 0 < rows)
    (hpos' : 0 < cols) (hslot : a.slot r c = .ok s) :
    ∃ distance, a.rowPart.Breaks rows distance ∧
      (rows ≤ distance ∨ distance ∣ rows ∨ (distance = 4 ∧ a.lanes = 64)) := by
  cases a with
  | mmaA pack =>
      refine ⟨1, Part.breaks_one ?_ fun _ => Nat.zero_le _,
        Or.inr (Or.inl (Nat.one_dvd _))⟩
      intro i _
      simp only [rowPart]
      omega
  | mmaB pack =>
      have hslot := word32_bind_eq_ok (word32_bind_eq_ok hslot)
      rcases mod_bind_eq_ok hslot with ⟨hne, _⟩
      have hrows := (word32_settles _).of_eq_ok hrows
      exact ⟨pack, Part.breaks_pack (by omega) pack rows,
        Or.inr (Or.inl (hrows ▸ Nat.dvd_mul_left pack 8))⟩
  | mmaC =>
      refine ⟨1, Part.breaks_one ?_ fun _ => Nat.zero_le _,
        Or.inr (Or.inl (Nat.one_dvd _))⟩
      intro i _
      simp only [rowPart]
      omega
  | mfmaA m k =>
      refine ⟨1, Part.breaks_one ?_ fun _ => Nat.le_refl _,
        Or.inr (Or.inl (Nat.one_dvd _))⟩
      exact fun i _ => Nat.succ_ne_self i
  | mfmaB n k =>
      cases hcols
      exact ⟨4, Part.breaks_four hpos' rows, Or.inr (Or.inr ⟨rfl, rfl⟩)⟩
  | mfmaC m n =>
      rcases div_bind_eq_ok hslot with ⟨_, hslot⟩
      rcases mod_bind_eq_ok hslot with ⟨hne, _⟩
      rcases Part.breaks_groups (Nat.pos_of_ne_zero hne) hpos with
        ⟨distance, hbreaks, hle | hfour⟩
      · exact ⟨distance, hbreaks, Or.inl hle⟩
      · exact ⟨distance, hbreaks, Or.inr (Or.inr ⟨hfour, rfl⟩)⟩

end

end Atom

/-! ## Operands -/

namespace Layout

/-- Along a row, atoms of a size follow each other, and a warp takes some of
them in turn. -/
structure Tiled
    (l : Layout) (part : Atom.Part) (size turns warpStride turnStride : Nat) :
    Prop where
  size_pos : 0 < size
  turns_pos : 0 < turns
  dvd_cols : size * turns ∣ l.shape.cols
  slot : ∀ r < l.shape.dropLast.prod,
    ∃ thread index, ∀ c s, l.slotAt r c = .ok s →
    s = .register
      (thread + c / size / turns * warpStride + part.lane (c % size))
      (index + c / size % turns * turnStride + part.register (c % size))

/-- The first element of an atom follows the last one of the atom that was the
turn before. -/
def Joined (part : Atom.Part) (size turnStride : Nat) : Prop :=
  part.lane 0 = part.lane (size - 1) ∧
    turnStride + part.register 0 = part.register (size - 1) + 1

def TiledBreak (part : Atom.Part) (size turns turnStride distance x : Nat) :
    Prop :=
  (size ∣ x ∧ (turns ∣ x / size ∨ ¬Joined part size turnStride)) ∨
    (¬size ∣ x ∧ distance ∣ x % size)

section

variable {l : Layout} {part : Atom.Part}
  {size turns warpStride turnStride distance m width : Nat}

theorem Tiled.alike
    (h : l.Tiled part size turns warpStride turnStride)
    (hbreaks : part.Breaks size distance)
    (hrow : ∀ r < l.shape.dropLast.prod, l.RowRuns r m) :
    l.Alike (TiledBreak part size turns turnStride distance) := by
  intro r hr c hc
  rcases h.slot r hr with ⟨thread, index, hslot⟩
  rw [breaks_register_iff (hrow r hr) hslot hc]
  unfold TiledBreak
  rcases succ_div_mod size c with
    ⟨hdvd, hblock, hfirst, hlast⟩ | ⟨hdvd, hblock, hnext⟩
  · have hend : c % size = size - 1 := by omega
    rw [hblock, hfirst, hend]
    rcases succ_div_mod turns (c / size) with
      ⟨hround, _, hturn, _⟩ | ⟨hround, hwarp, hturn⟩
    · -- the next atom is the first turn of another warp: registers start again
      have hbreak :
          ¬(thread + (c / size + 1) / turns * warpStride + part.lane 0 =
            thread + c / size / turns * warpStride + part.lane (size - 1) ∧
          index + (c / size + 1) % turns * turnStride + part.register 0 =
            index + c / size % turns * turnStride +
              part.register (size - 1) + 1) := by
        rintro ⟨_, hindex⟩
        have hle := hbreaks.first_le (size - 1)
        rw [hturn, Nat.zero_mul] at hindex
        generalize c / size % turns * turnStride = passed at hindex
        omega
      exact ⟨fun _ => Or.inl ⟨hdvd, Or.inl hround⟩, fun _ => hbreak⟩
    · have hjoined :
          (thread + (c / size + 1) / turns * warpStride + part.lane 0 =
            thread + c / size / turns * warpStride + part.lane (size - 1) ∧
          index + (c / size + 1) % turns * turnStride + part.register 0 =
            index + c / size % turns * turnStride +
              part.register (size - 1) + 1) ↔
          Joined part size turnStride := by
        rw [hwarp, hturn, Nat.add_one_mul]
        unfold Joined
        generalize c / size % turns * turnStride = passed
        generalize c / size / turns * warpStride = warp
        constructor <;> rintro ⟨hlane, hregister⟩ <;> constructor <;> omega
      rw [hjoined]
      constructor
      · intro hapart
        exact Or.inl ⟨hdvd, Or.inr hapart⟩
      · rintro (⟨_, hround' | hapart⟩ | ⟨hdvd', _⟩)
        · exact (hround hround').elim
        · exact hapart
        · exact (hdvd' hdvd).elim
  · have hinside : c % size + 1 < size := by
      rw [← hnext]
      exact Nat.mod_lt _ h.size_pos
    have hfollows := hbreaks.follows_iff (c % size) hinside
    have hcancel :
        (thread + c / size / turns * warpStride + part.lane (c % size + 1) =
          thread + c / size / turns * warpStride + part.lane (c % size) ∧
        index + c / size % turns * turnStride + part.register (c % size + 1) =
          index + c / size % turns * turnStride +
            part.register (c % size) + 1) ↔
        ¬distance ∣ c % size + 1 := by
      rw [Nat.add_left_cancel_iff, Nat.add_assoc _ (part.register (c % size)) 1,
        Nat.add_left_cancel_iff, hfollows]
    rw [hblock, hnext, hcancel, not_not]
    constructor
    · intro hbreak
      exact Or.inr ⟨hdvd, hbreak⟩
    · rintro (⟨hdvd', _⟩ | ⟨_, hbreak⟩)
      · exact (hdvd hdvd').elim
      · exact hbreak

/-- Atoms without breaks inside: the shortest run is an atom, or all turns of a
warp. -/
theorem Tiled.aligned_of_size_le
    (h : l.Tiled part size turns warpStride turnStride)
    (hbreaks : part.Breaks size distance) (hm : l.ShortestRun m) (hpos : 0 < m)
    (hwidth : width ∣ m) (hle : size ≤ distance) : l.Aligned width := by
  have halike := h.alike hbreaks hm.row
  have hcols := hm.cols_pos hpos
  have hsize := h.size_pos
  have hboundary : ∀ x, TiledBreak part size turns turnStride distance x →
      size ∣ x ∧ (turns ∣ x / size ∨ ¬Joined part size turnStride) := by
    rintro x (hbreak | ⟨hdvd, hinside⟩)
    · exact hbreak
    · have hrest := Nat.mod_lt x hsize
      have hrest' : x % size ≠ 0 :=
        fun hzero => hdvd (Nat.dvd_of_mod_eq_zero hzero)
      have hge := Nat.le_of_dvd (Nat.pos_of_ne_zero hrest') hinside
      omega
  apply halike.aligned
  by_cases hjoined : Joined part size turnStride
  · have hgrid : ∀ x, TiledBreak part size turns turnStride distance x →
        size * turns ∣ x := by
      intro x hbreak
      rcases hboundary x hbreak with ⟨hdvd, hround | hapart⟩
      · exact Nat.mul_dvd_of_dvd_div hdvd hround
      · exact (hapart hjoined).elim
    have hfirst : TiledBreak part size turns turnStride distance
        (size * turns) := by
      refine Or.inl ⟨Nat.dvd_mul_right size turns, Or.inl ?_⟩
      rw [Nat.mul_div_cancel_left _ hsize]
    have hrun :=
      (halike.spaced hm).eq_of_grid hpos (Nat.mul_pos hsize h.turns_pos)
        h.dvd_cols hcols (fun x _ _ hbreak => hgrid x hbreak) (fun _ => hfirst)
    exact fun x _ _ hbreak => (hrun ▸ hwidth).trans (hgrid x hbreak)
  · have hfirst : TiledBreak part size turns turnStride distance size :=
      Or.inl ⟨Nat.dvd_refl size, Or.inr hjoined⟩
    have hrun := (halike.spaced hm).eq_of_grid hpos hsize
      ((Nat.dvd_mul_right _ _).trans h.dvd_cols) hcols
      (fun x _ _ hbreak => (hboundary x hbreak).1) (fun _ => hfirst)
    exact fun x _ _ hbreak => (hrun ▸ hwidth).trans (hboundary x hbreak).1

theorem Tiled.aligned_of_dvd
    (h : l.Tiled part size turns warpStride turnStride)
    (hbreaks : part.Breaks size distance) (hm : l.ShortestRun m) (hpos : 0 < m)
    (hwidth : width ∣ m) (hlt : distance < size) (hdvd : distance ∣ size) :
    l.Aligned width := by
  have halike := h.alike hbreaks hm.row
  have hgrid : ∀ x, TiledBreak part size turns turnStride distance x →
      distance ∣ x := by
    rintro x (⟨hsize, _⟩ | ⟨_, hinside⟩)
    · exact hdvd.trans hsize
    · exact (Nat.dvd_mod_iff hdvd).mp hinside
  have hfirst : TiledBreak part size turns turnStride distance distance := by
    refine Or.inr ⟨Nat.not_dvd_of_pos_of_lt hbreaks.pos hlt, ?_⟩
    rw [Nat.mod_eq_of_lt hlt]
  have hrun := (halike.spaced hm).eq_of_grid hpos hbreaks.pos
    ((hdvd.trans (Nat.dvd_mul_right _ _)).trans h.dvd_cols) (hm.cols_pos hpos)
    (fun x _ _ hbreak => hgrid x hbreak) (fun _ => hfirst)
  exact halike.aligned fun x _ _ hbreak =>
    (hrun ▸ hwidth).trans (hgrid x hbreak)

/-- Four elements a lane that do not divide the atom.  What is left at the end
of an atom is the shortest run, and a width of two is all that divides it. -/
theorem Tiled.aligned_of_four
    (h : l.Tiled part size turns warpStride turnStride)
    (hbreaks : part.Breaks size 4) (hm : l.ShortestRun m) (hwidth : width ∣ m)
    (htwo : 2 ≤ width) (hpos : 0 < m) (hlt : 4 < size) (hdvd : ¬4 ∣ size)
    (hthree : width ≠ 3) : l.Aligned width := by
  have halike := h.alike hbreaks hm.row
  have hspaced := halike.spaced hm
  have hcols := h.dvd_cols
  have hedge : ∀ x,
      Edge (TiledBreak part size turns turnStride 4) l.shape.cols x →
      4 ∣ x % size := by
    rintro x (rfl | rfl | ⟨_, _, ⟨hsize, _⟩ | ⟨_, hinside⟩⟩)
    · simp
    · rw [Nat.mod_eq_zero_of_dvd ((Nat.dvd_mul_right _ _).trans hcols)]
      exact Nat.dvd_zero 4
    · rw [Nat.mod_eq_zero_of_dvd hsize]
      exact Nat.dvd_zero 4
    · exact hinside
  have hle : m ≤ size % 4 := by
    -- the last break in the last turn of the first warp, and the end of that
    -- turn
    have hsplit := Nat.div_add_mod size 4
    have hturns : size * (turns - 1) + size = size * turns := by
      rw [← Nat.mul_add_one, Nat.sub_add_cancel h.turns_pos]
    have hlast : (size * (turns - 1) + 4 * (size / 4)) % size =
        4 * (size / 4) := by
      rw [Nat.mul_add_mod, Nat.mod_eq_of_lt (by omega)]
    have hend := Nat.le_of_dvd (hm.cols_pos hpos) hcols
    have hbreak : TiledBreak part size turns turnStride 4
        (size * (turns - 1) + 4 * (size / 4)) := by
      right
      constructor
      · intro hsize
        rw [Nat.mod_eq_zero_of_dvd hsize] at hlast
        omega
      · rw [hlast]
        exact Nat.dvd_mul_right 4 _
    have hstop : Edge (TiledBreak part size turns turnStride 4) l.shape.cols
        (size * turns) := by
      rcases Nat.eq_or_lt_of_le hend with heq | hlt
      · exact Or.inr (Or.inl heq)
      · refine Or.inr
          (Or.inr ⟨Nat.mul_pos h.size_pos h.turns_pos, hlt, Or.inl ?_⟩)
        refine ⟨Nat.dvd_mul_right size turns, Or.inl ?_⟩
        rw [Nat.mul_div_cancel_left _ h.size_pos]
    have hapart := hspaced.apart _ _
      (Or.inr (Or.inr ⟨by omega, by omega, hbreak⟩)) hstop (by omega) hend
    omega
  have hcase : width = 2 ∧ m = 2 := by
    have hbound := Nat.le_of_dvd hpos hwidth
    have hrest := Nat.mod_lt size (show 4 > 0 by decide)
    have hwidth' : width = 2 := by omega
    subst hwidth'
    omega
  rcases hcase with ⟨rfl, rfl⟩
  have heven : 2 ∣ size := by
    rcases hspaced.attained with ⟨a, ha, hb, _⟩
    have hmod := hedge a ha
    have hmod' := hedge _ hb
    have hrest := Nat.mod_lt a h.size_pos
    rw [Nat.add_mod, Nat.mod_eq_of_lt (show 2 < size by omega)] at hmod'
    by_cases hwrap : a % size + 2 < size
    · rw [Nat.mod_eq_of_lt hwrap] at hmod'
      omega
    · rw [Nat.mod_eq_sub_mod (by omega), Nat.mod_eq_of_lt (by omega)] at hmod'
      omega
  apply halike.aligned
  intro x hx hlt hbreak
  have hmod := hedge x (Or.inr (Or.inr ⟨hx, hlt, hbreak⟩))
  exact (Nat.dvd_mod_iff heven).mp ((show 2 ∣ 4 by decide).trans hmod)

theorem Tiled.aligned
    (h : l.Tiled part size turns warpStride turnStride)
    (hbreaks : part.Breaks size distance) (hm : l.ShortestRun m) (hpos : 0 < m)
    (hwidth : width ∣ m) (htwo : 2 ≤ width)
    (hdistance : size ≤ distance ∨ distance ∣ size ∨
      (distance = 4 ∧ width ≠ 3)) : l.Aligned width := by
  by_cases hle : size ≤ distance
  · exact h.aligned_of_size_le hbreaks hm hpos hwidth hle
  · by_cases hdvd : distance ∣ size
    · exact h.aligned_of_dvd hbreaks hm hpos hwidth (by omega) hdvd
    · rcases hdistance with hle' | hdvd' | ⟨rfl, hthree⟩
      · exact (hle hle').elim
      · exact (hdvd hdvd').elim
      · exact h.aligned_of_four hbreaks hm hwidth htwo hpos (by omega)
          hdvd hthree

end

section

variable {atom : Atom} {warps : WarpGrid} {replicas rows cols : Nat}

theorem slot_operand_eq_ok
    {r c : Nat} {s : Nat × Nat}
    (h : (RegisterLayout.operand atom warps replicas false).slot
      rows cols r c = .ok s) :
    ∃ atomRows atomCols locals p,
      atom.rows = .ok atomRows ∧ atom.cols = .ok atomCols ∧
      atom.locals = .ok locals ∧ atomRows * warps.rows ≠ 0 ∧
      atomCols * warps.cols ≠ 0 ∧
      atom.slot (r % atomRows) (c % atomCols) = .ok p ∧
      s = ((r / atomRows / max 1 (rows / (atomRows * warps.rows)) * warps.cols +
            c / atomCols / max 1 (cols / (atomCols * warps.cols))) *
            atom.lanes + p.1,
          (r / atomRows % max 1 (rows / (atomRows * warps.rows)) *
              max 1 (cols / (atomCols * warps.cols)) +
            c / atomCols % max 1 (cols / (atomCols * warps.cols))) * locals +
            p.2) := by
  simp only [RegisterLayout.slot, Bool.false_eq_true, if_false] at h
  rcases bind_eq_ok h with ⟨atomRows, hrows, h⟩
  rcases div_bind_eq_ok (word32_bind_eq_ok h) with ⟨hne, h⟩
  rcases bind_eq_ok h with ⟨atomCols, hcols, h⟩
  rcases div_bind_eq_ok (word32_bind_eq_ok h) with ⟨hne', h⟩
  have h := word32_bind_eq_ok (word32_bind_eq_ok h)
  rcases bind_eq_ok h with ⟨p, hslot, h⟩
  rcases bind_eq_ok (word32_bind_eq_ok h) with ⟨locals, hlocals, h⟩
  cases word32_bind_eq_ok h
  exact ⟨atomRows, atomCols, locals, p, hrows, hcols, hlocals, hne, hne', hslot,
    rfl⟩

theorem slot_operand_eq_parts
    {atomRows atomCols locals r c : Nat} {s : Nat × Nat}
    (hrows : atom.rows = .ok atomRows) (hcols : atom.cols = .ok atomCols)
    (hlocals : atom.locals = .ok locals)
    (h : (RegisterLayout.operand atom warps replicas false).slot
      rows cols r c = .ok s) :
    s = ((r / atomRows / max 1 (rows / (atomRows * warps.rows)) * warps.cols +
            c / atomCols / max 1 (cols / (atomCols * warps.cols))) *
            atom.lanes +
          (atom.rowPart.lane (r % atomRows) + atom.colPart.lane (c % atomCols)),
        (r / atomRows % max 1 (rows / (atomRows * warps.rows)) *
              max 1 (cols / (atomCols * warps.cols)) +
            c / atomCols % max 1 (cols / (atomCols * warps.cols))) * locals +
          (atom.rowPart.register (r % atomRows) +
            atom.colPart.register (c % atomCols))) := by
  rcases slot_operand_eq_ok h with
    ⟨atomRows', atomCols', locals', p, hrows', hcols', hlocals', _, _, hslot,
      rfl⟩
  rw [hrows] at hrows'
  rw [hcols] at hcols'
  rw [hlocals] at hlocals'
  cases hrows'
  cases hcols'
  cases hlocals'
  rcases Atom.slot_eq_parts hslot with ⟨hlane, hregister⟩
  rw [hlane, hregister]

variable {shape : Shape} {m : Nat}

theorem slotAt_fragment
    {f : RegisterLayout} {r c : Nat} {s : Slot}
    (h : slotAt ⟨shape, .fragment f⟩ r c = .ok s) :
    ∃ p, f.slot shape.dropLast.prod shape.cols r c = .ok p ∧
      s = .register p.1 p.2 := by
  rcases bind_eq_ok h with ⟨rows, hrows, h⟩
  rcases bind_eq_ok h with ⟨p, hp, h⟩
  have hcount := shape.rows_settles.of_eq_ok hrows
  cases h
  exact ⟨p, hcount ▸ hp, rfl⟩

theorem turns_of_dvd
    {atomSize warps extent : Nat} (hpos : 0 < extent)
    (h : atomSize * warps ∣ extent) :
    0 < atomSize ∧ atomSize * max 1 (extent / (atomSize * warps)) ∣ extent := by
  rcases h with ⟨turns, rfl⟩
  have hturns : 0 < turns := Nat.pos_of_mul_pos_left hpos
  have hblock : 0 < atomSize * warps := Nat.pos_of_mul_pos_right hpos
  rw [Nat.mul_div_cancel_left _ hblock, Nat.max_eq_right hturns,
    Nat.mul_right_comm]
  exact ⟨Nat.pos_of_mul_pos_right hblock, Nat.dvd_mul_right _ _⟩

theorem ShortestRun.exists_slot
    {f : RegisterLayout} (h : ShortestRun ⟨shape, .fragment f⟩ m) (hm : 0 < m) :
    ∃ r p, f.slot shape.dropLast.prod shape.cols r 0 = .ok p := by
  rcases h.attained with ⟨r, hr, _⟩
  rcases (h.row r hr).slot 0 (h.cols_pos hm) with ⟨s, hs⟩
  rcases slotAt_fragment hs with ⟨p, hp, _⟩
  exact ⟨r, p, hp⟩

/-- Rows of an operand go along the columns of its atoms, those of a transposed
operand along the rows. -/
theorem exists_tiled
    {transposed : Bool}
    (hwf : isWellFormed
      ⟨shape, .fragment (.operand atom warps replicas transposed)⟩ = .ok true)
    (h : ShortestRun
      ⟨shape, .fragment (.operand atom warps replicas transposed)⟩ m)
    (hm : 0 < m) :
    ∃ part size turns warpStride turnStride distance,
      Tiled ⟨shape, .fragment (.operand atom warps replicas transposed)⟩ part
        size turns warpStride turnStride ∧ part.Breaks size distance ∧
      (size ≤ distance ∨ distance ∣ size ∨
        (distance = 4 ∧ atom.lanes = 64)) := by
  have hcolsPos : 0 < shape.cols := h.cols_pos hm
  obtain ⟨-, hfits, -⟩ := fits_of_isWellFormed hwf
  rcases h.exists_slot hm with ⟨r, p, hp⟩
  cases transposed with
  | false =>
      rcases slot_operand_eq_ok hp with
        ⟨atomRows, atomCols, locals, q, hrows, hcols, hlocals, hne, _, hslot, _⟩
      have hdvd := (RegisterLayout.covers_of_fits hrows hcols hfits).cols_dvd
      rcases turns_of_dvd hcolsPos hdvd with ⟨hsize, hturns⟩
      have hatomRows : 0 < atomRows :=
        Nat.pos_of_mul_pos_right (Nat.pos_of_ne_zero hne)
      rcases Atom.exists_breaks_colPart hrows hcols hatomRows hslot with
        ⟨distance, hbreaks, hcase⟩
      refine ⟨atom.colPart, atomCols,
        max 1 (shape.cols / (atomCols * warps.cols)), atom.lanes, locals,
        distance, ⟨hsize, Nat.lt_of_lt_of_le Nat.one_pos (Nat.le_max_left _ _),
          hturns, ?_⟩, hbreaks, hcase⟩
      intro r _
      refine ⟨r / atomRows /
        max 1 (shape.dropLast.prod / (atomRows * warps.rows)) * warps.cols *
          atom.lanes + atom.rowPart.lane (r % atomRows),
        r / atomRows % max 1 (shape.dropLast.prod / (atomRows * warps.rows)) *
            max 1 (shape.cols / (atomCols * warps.cols)) * locals +
          atom.rowPart.register (r % atomRows), ?_⟩
      intro c s hs
      rcases slotAt_fragment hs with ⟨p, hp, rfl⟩
      rw [slot_operand_eq_parts hrows hcols hlocals hp]
      apply congrArg₂ Slot.register
      · ring
      · ring
  | true =>
      -- the slot of a transposed operand is that of the operand, with the
      -- coordinates exchanged
      have hfits' : (RegisterLayout.operand atom warps replicas false).fits
          shape.cols shape.dropLast.prod = .ok true := hfits
      rcases slot_operand_eq_ok
        (show (RegisterLayout.operand atom warps replicas false).slot shape.cols
          shape.dropLast.prod 0 r = .ok p from hp) with
        ⟨atomRows, atomCols, locals, q, hrows, hcols, hlocals, hne, hne',
          hslot, _⟩
      have hdvd := (RegisterLayout.covers_of_fits hrows hcols hfits').rows_dvd
      rcases turns_of_dvd hcolsPos hdvd with ⟨hsize, hturns⟩
      have hatomCols : 0 < atomCols :=
        Nat.pos_of_mul_pos_right (Nat.pos_of_ne_zero hne')
      rcases Atom.exists_breaks_rowPart hrows hcols hsize hatomCols hslot with
        ⟨distance, hbreaks, hcase⟩
      refine ⟨atom.rowPart, atomRows,
        max 1 (shape.cols / (atomRows * warps.rows)), warps.cols * atom.lanes,
        max 1 (shape.dropLast.prod / (atomCols * warps.cols)) * locals,
        distance, ⟨hsize, Nat.lt_of_lt_of_le Nat.one_pos (Nat.le_max_left _ _),
          hturns, ?_⟩, hbreaks, hcase⟩
      intro r _
      refine ⟨r / atomCols /
        max 1 (shape.dropLast.prod / (atomCols * warps.cols)) * atom.lanes +
          atom.colPart.lane (r % atomCols),
        r / atomCols % max 1 (shape.dropLast.prod / (atomCols * warps.cols)) *
          locals + atom.colPart.register (r % atomCols), ?_⟩
      intro c s hs
      rcases slotAt_fragment hs with ⟨p, hp, rfl⟩
      have hslot : (RegisterLayout.operand atom warps replicas false).slot
          shape.cols shape.dropLast.prod c r = .ok p := hp
      rw [slot_operand_eq_parts hrows hcols hlocals hslot]
      apply congrArg₂ Slot.register
      · ring
      · ring

theorem aligned_operand
    {transposed : Bool} {width : Nat}
    (hwf : isWellFormed
      ⟨shape, .fragment (.operand atom warps replicas transposed)⟩ = .ok true)
    (h : ShortestRun
      ⟨shape, .fragment (.operand atom warps replicas transposed)⟩ m)
    (hm : 0 < m) (hwidth : width ∣ m) (htwo : 2 ≤ width)
    (hthree : atom.lanes = 32 ∨ width ≠ 3) :
    Aligned ⟨shape, .fragment (.operand atom warps replicas transposed)⟩
      width := by
  rcases exists_tiled hwf h hm with
    ⟨part, size, turns, warpStride, turnStride, distance, htiled, hbreaks,
      hcase⟩
  apply htiled.aligned hbreaks h hm hwidth htwo
  rcases hcase with hle | hdvd | ⟨hfour, hlanes⟩
  · exact Or.inl hle
  · exact Or.inr (Or.inl hdvd)
  · refine Or.inr (Or.inr ⟨hfour, ?_⟩)
    rcases hthree with hlanes' | hne
    · omega
    · exact hne

end

end Layout

end TileProgram
