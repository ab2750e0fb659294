import Mathlib.Tactic

/-!
# Numbers and lists

Numbers that are near each other differ modulo a number that is larger, and the
places of a matrix are numbered row by row.  The numbers below a bound are dealt
out in rows or in panels of one width, of which the last may be narrower.
-/

namespace TileProgram

open List

variable {α β γ : Type} {i j i' j' rows cols : Nat}

/-! ## Numbers -/

theorem eq_of_mod_eq
    {n : Nat} (hi : i < j + n) (hj : j < i + n) (hmod : i % n = j % n) :
    i = j := by
  rcases Nat.le_total i j with hle | hle
  · have hdvd : n ∣ j - i := (Nat.modEq_iff_dvd' hle).mp hmod
    have hzero := Nat.eq_zero_of_dvd_of_lt hdvd (by omega)
    omega
  · have hdvd : n ∣ i - j := (Nat.modEq_iff_dvd' hle).mp hmod.symm
    have hzero := Nat.eq_zero_of_dvd_of_lt hdvd (by omega)
    omega

theorem mod_ne_of_lt {n : Nat} (hlt : i < j) (hnear : j < i + n) :
    i % n ≠ j % n :=
  fun hmod => hlt.ne (eq_of_mod_eq (by omega) hnear hmod)

theorem rowMajor_lt (hi : i < rows) (hj : j < cols) :
    i * cols + j < rows * cols := by
  calc i * cols + j < i * cols + cols := by omega
    _ = (i + 1) * cols := by ring
    _ ≤ rows * cols := Nat.mul_le_mul_right cols hi

theorem eq_of_rowMajor_eq
    (hj : j < cols) (hj' : j' < cols) (h : i * cols + j = i' * cols + j') :
    i = i' ∧ j = j' := by
  have hdiv := congrArg (· / cols) h
  have hmod := congrArg (· % cols) h
  simp only [Nat.mul_comm _ cols, Nat.mul_add_div (Nat.zero_lt_of_lt hj),
    Nat.mul_add_mod, Nat.div_eq_of_lt hj, Nat.div_eq_of_lt hj',
    Nat.mod_eq_of_lt hj, Nat.mod_eq_of_lt hj', Nat.add_zero] at hdiv hmod
  exact ⟨hdiv, hmod⟩

/-! ## Lists -/

theorem nodup_eraseDups [BEq α] [LawfulBEq α] (l : List α) :
    l.eraseDups.Nodup := by
  -- the tail of the result comes from a shorter list
  induction hn : l.length using Nat.strong_induction_on generalizing l with
  | _ n ih =>
      cases l with
      | nil => simp
      | cons a rest =>
          rw [eraseDups_cons, nodup_cons]
          have hshorter := length_filter_le (fun b => !b == a) rest
          rw [length_cons] at hn
          refine ⟨?_, ih _ (by omega) _ rfl⟩
          rw [mem_eraseDups]
          simp

theorem nodup_of_subperm
    {l l' : List α} (h : l.Subperm l') (hnodup : l'.Nodup) : l.Nodup := by
  obtain ⟨mid, hperm, hsub⟩ := h
  exact hperm.nodup_iff.mp (hnodup.sublist hsub)

theorem exists_split_of_getElem?
    {xs : List α} {n : Nat} {x : α} (h : xs[n]? = some x) :
    ∃ before after,
      xs = before ++ x :: after ∧ xs.eraseIdx n = before ++ after := by
  obtain ⟨hlt, rfl⟩ := List.getElem?_eq_some_iff.mp h
  refine ⟨xs.take n, xs.drop (n + 1), ?_, eraseIdx_eq_take_drop_succ xs n⟩
  rw [getElem_cons_drop, take_append_drop]

theorem map_eq_map_of_map_eq
    {f : α → β} {g : α → γ} {l l' : List α}
    (hfg : ∀ a ∈ l, ∀ a' ∈ l', f a = f a' → g a = g a')
    (h : l.map f = l'.map f) : l.map g = l'.map g := by
  induction l generalizing l' with
  | nil => rw [map_eq_nil_iff.mp h.symm]
  | cons a l ih =>
      cases l' with
      | nil => cases h
      | cons a' l' =>
          rw [map_cons, map_cons, cons.injEq] at h
          rw [map_cons, map_cons, hfg a mem_cons_self a' mem_cons_self h.1,
            ih (fun b hb b' hb' =>
              hfg b (mem_cons_of_mem a hb) b' (mem_cons_of_mem a' hb')) h.2]

theorem append_inj_of_head
    {p : α → Prop} {w w' s s' : List α} (hw : ∀ a ∈ w, p a)
    (hw' : ∀ a ∈ w', p a) (hs : ∀ a ∈ s.head?, ¬ p a)
    (hs' : ∀ a ∈ s'.head?, ¬ p a) (h : w ++ s = w' ++ s') :
    w = w' ∧ s = s' := by
  induction w generalizing w' with
  | nil =>
      cases w' with
      | nil => exact ⟨rfl, h⟩
      | cons a w' =>
          rw [nil_append, cons_append] at h
          exact absurd (hw' a mem_cons_self) (hs a (by rw [h]; rfl))
  | cons a w ih =>
      cases w' with
      | nil =>
          rw [nil_append, cons_append] at h
          exact absurd (hw a mem_cons_self) (hs' a (by rw [← h]; rfl))
      | cons a' w' =>
          rw [cons_append, cons_append, cons.injEq] at h
          rcases ih (fun b hb => hw b (mem_cons_of_mem a hb))
            (fun b hb => hw' b (mem_cons_of_mem a' hb)) h.2 with ⟨hrest, htail⟩
          exact ⟨by rw [h.1, hrest], htail⟩

theorem flatMap_swap (as : List α) (bs : List β) (f : α → β → List γ) :
    (as.flatMap fun a => bs.flatMap (f a)).Perm
      (bs.flatMap fun b => as.flatMap (f · b)) := by
  induction as with
  | nil => simp
  | cons a rest ih =>
      simp only [flatMap_cons]
      exact (ih.append_left _).trans (flatMap_append_perm bs (f a) _)

theorem reduceOption_eq_filterMap (l : List (Option α)) :
    l.reduceOption = l.filterMap id := rfl

theorem reduceOption_map_some (f : α → β) (items : List α) :
    (items.map fun a => some (f a)).reduceOption = items.map f := by
  simp [reduceOption_eq_filterMap, filterMap_map]

/-! ## Numbers below a bound -/

theorem flatMap_range_of_le (first count : Nat) (f : Nat → List α) :
    (range (first + count)).flatMap
      (fun i => if first ≤ i then f (i - first) else []) =
      (range count).flatMap f := by
  have houtside :
      (range first).flatMap (fun i => if first ≤ i then f (i - first) else []) =
      [] := by
    rw [flatMap_eq_nil_iff]
    intro i hi
    rw [if_neg (Nat.not_le.mpr (mem_range.mp hi))]
  rw [range_add, flatMap_append, houtside, flatMap_map]
  simp

theorem flatMap_range_of_lt (count more : Nat) (f : Nat → List α) :
    (range (count + more)).flatMap (fun i => if i < count then f i else []) =
      (range count).flatMap f := by
  have hinside :
      (range count).flatMap (fun i => if i < count then f i else []) =
      (range count).flatMap f := by
    apply flatMap_congr
    intro i hi
    rw [if_pos (mem_range.mp hi)]
  rw [range_add, flatMap_append, hinside, flatMap_map]
  simp

theorem map_range_mul (f : Nat → α) (a b : Nat) :
    (range (a * b)).map f =
      (range a).flatMap fun i => (range b).map fun j => f (i * b + j) := by
  induction a with
  | zero => simp
  | succ a ih =>
      rw [Nat.add_mul, Nat.one_mul, range_add, map_append, ih, range_succ,
        flatMap_append]
      simp [Function.comp_def]

def panels (columns panel : Nat) : List (List Nat) :=
  (range ((columns + panel - 1) / panel)).map fun i =>
    range' (i * panel) (min panel (columns - i * panel))

section

variable {columns panel : Nat} (hpanel : 0 < panel)

include hpanel

/-- A panel starts left of the last column, and the one after the last does
not. -/
theorem lt_panels_iff (i : Nat) :
    i < (columns + panel - 1) / panel ↔ i * panel < columns := by
  rw [Nat.lt_iff_add_one_le, Nat.le_div_iff_mul_le hpanel, Nat.add_mul,
    Nat.one_mul]
  omega

theorem length_of_mem_dropLast_panels :
    ∀ p ∈ (panels columns panel).dropLast, p.length = panel := by
  intro p hp
  unfold panels at hp
  rw [dropLast_eq_take, length_map, length_range, ← map_take,
    take_range] at hp
  obtain ⟨i, hi, rfl⟩ := mem_map.mp hp
  have hnext : i + 1 < (columns + panel - 1) / panel := by
    rw [mem_range] at hi
    omega
  have hwhole := (lt_panels_iff hpanel _).mp hnext
  rw [Nat.add_mul, Nat.one_mul] at hwhole
  rw [length_range']
  omega

theorem map_range_panels (f : Nat → α) (rows : Nat) :
    (range (columns * rows)).map f =
      (range ((columns + panel - 1) / panel)).flatMap fun i =>
        (range (rows * min panel (columns - i * panel))).map fun j =>
          f (i * (panel * rows) + j) := by
  suffices h : ∀ m ≤ (columns + panel - 1) / panel,
      (range (min (m * panel) columns * rows)).map f =
        (range m).flatMap fun i =>
          (range (rows * min panel (columns - i * panel))).map fun j =>
            f (i * (panel * rows) + j) by
    have hlast : columns ≤ (columns + panel - 1) / panel * panel :=
      Nat.le_of_not_lt fun h => Nat.lt_irrefl _ ((lt_panels_iff hpanel _).mpr h)
    rw [← h _ (Nat.le_refl _), Nat.min_eq_right hlast]
  intro m hm
  induction m with
  | zero => simp
  | succ m ih =>
      have hstart := (lt_panels_iff hpanel m).mp hm
      have hsum : min ((m + 1) * panel) columns * rows =
          min (m * panel) columns * rows +
            rows * min panel (columns - m * panel) := by
        rw [Nat.mul_comm rows, ← Nat.add_mul, Nat.add_mul m, Nat.one_mul]
        congr 1
        omega
      rw [hsum, range_add, map_append, ih (by omega), range_succ,
        flatMap_append, Nat.min_eq_left hstart.le, Nat.mul_assoc]
      simp [Function.comp_def]

theorem flatten_panels : (panels columns panel).flatten = range columns := by
  have hsplit : (range (columns * 1)).map id = _ := map_range_panels hpanel id 1
  rw [map_id, Nat.mul_one] at hsplit
  rw [hsplit]
  unfold panels
  simp [flatMap, range'_eq_map_range]

end

end TileProgram
