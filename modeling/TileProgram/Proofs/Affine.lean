import TileProgram.Affine
import TileProgram.Proofs.Checked

/-!
# Affine arithmetic

The terms of an expression are summed under weights of the variables.  The value
under a binding and the coefficient of a loop variable are two such sums, so
that what addition and scaling do is said once, for all weights.  Term lists may
repeat a variable: a sum merges a term into the first one on its variable and
leaves the others, and no weight notices the difference.

The machine computes with words.  Each function either gives what exact
arithmetic gives or reports that a word is exhausted.
-/

namespace TileProgram

open List

/-! ## Bindings -/

namespace Bindings

theorem lookup_filter_ne
    {name other : String} (h : other ≠ name) (loops : List (String × Int)) :
    (loops.filter (·.1 != name)).lookup other = loops.lookup other := by
  induction loops with
  | nil => rfl
  | cons binding rest ih =>
      by_cases hname : binding.1 = name
      · have hother : (other == binding.1) = false := by
          rw [hname]
          exact beq_false_of_ne h
        rw [filter_cons_of_neg (by simp [hname]), ih, lookup_cons, hother]
      · rw [filter_cons_of_pos (by simp [hname]), lookup_cons, lookup_cons, ih]

theorem value_bind (env : Bindings) (name : String) (z : Int) (v : Var) :
    (env.bind name z).value v = if v = .loop name then z else env.value v := by
  cases v with
  | block axis => rfl
  | loop other =>
      simp only [value, bind, unbind, lookup_cons, Var.loop.injEq]
      by_cases hname : other = name
      · simp [hname]
      · rw [beq_false_of_ne hname, if_neg hname]
        exact congrArg (·.getD 0) (lookup_filter_ne hname env.loops)

end Bindings

namespace Affine

/-! ## Weights -/

/-- Sum of the coefficients, each times the weight of its variable. -/
def weighted (weight : Var → Int) (terms : List (Var × Int)) : Int :=
  (terms.map fun term => term.2 * weight term.1).sum

@[simp] theorem weighted_nil (weight : Var → Int) :
    weighted weight [] = 0 := rfl

@[simp] theorem weighted_cons
    (weight : Var → Int) (term : Var × Int) (terms : List (Var × Int)) :
    weighted weight (term :: terms) = term.2 * weight term.1 +
      weighted weight terms := by
  simp [weighted]

theorem weighted_filter_ne_zero
    (weight : Var → Int) (terms : List (Var × Int)) :
    weighted weight (terms.filter (·.2 != 0)) = weighted weight terms := by
  induction terms with
  | nil => rfl
  | cons term rest ih =>
      by_cases hzero : term.2 = 0
      · rw [filter_cons_of_neg (by simp [hzero]), ih, weighted_cons, hzero]
        ring
      · rw [filter_cons_of_pos (by simp [hzero]), weighted_cons,
          weighted_cons, ih]

theorem addTerm_settles (v : Var) (c : Int) (terms : List (Var × Int)) :
    Settles .overflow
      (fun result =>
        ∀ weight, weighted weight result = weighted weight terms + c * weight v)
      (addTerm v c terms) := by
  induction terms with
  | nil =>
      apply Settles.ok
      intro weight
      simp
  | cons term rest ih =>
      simp only [addTerm]
      split
      · next hvar =>
          apply (Checked.int64_settles (term.2 + c)).bind
          rintro _ rfl
          apply Settles.ok
          intro weight
          rw [weighted_cons, weighted_cons, hvar]
          ring
      · apply ih.bind
        intro result hresult
        apply Settles.ok
        intro weight
        rw [weighted_cons, weighted_cons, hresult]
        ring

theorem foldlM_addTerm_settles (more terms : List (Var × Int)) :
    Settles .overflow
      (fun result => ∀ weight,
        weighted weight result = weighted weight terms + weighted weight more)
      (more.foldlM (fun acc (v, c) => addTerm v c acc) terms) := by
  induction more generalizing terms with
  | nil =>
      apply Settles.ok
      intro weight
      simp
  | cons term rest ih =>
      rw [foldlM_cons]
      apply (addTerm_settles term.1 term.2 terms).bind
      intro merged hmerged
      apply (ih merged).mono
      intro result hresult weight
      rw [hresult, hmerged, weighted_cons]
      ring

theorem plus_settles (a b : Affine) :
    Settles .overflow
      (fun sum => sum.constant = a.constant + b.constant ∧
        ∀ weight, weighted weight sum.terms =
          weighted weight a.terms + weighted weight b.terms)
      (a.plus b) := by
  unfold plus
  apply (Checked.int64_settles (a.constant + b.constant)).bind
  rintro _ rfl
  apply (foldlM_addTerm_settles b.terms a.terms).bind
  intro merged hmerged
  apply Settles.ok
  refine ⟨rfl, ?_⟩
  intro weight
  rw [weighted_filter_ne_zero, hmerged]

theorem mapM_scale_settles (k : Int) (terms : List (Var × Int)) :
    Settles .overflow
      (fun result =>
        ∀ weight, weighted weight result = k * weighted weight terms)
      (terms.mapM fun (v, c) => do return (v, ← Checked.int64 (c * k))) := by
  induction terms with
  | nil =>
      apply Settles.ok
      intro weight
      simp
  | cons term rest ih =>
      rw [mapM_cons]
      have hterm : Settles .overflow
          (fun scaled => scaled = (term.1, term.2 * k))
          (do return (term.1, ← Checked.int64 (term.2 * k))) := by
        apply (Checked.int64_settles (term.2 * k)).bind
        rintro _ rfl
        exact Settles.ok rfl
      apply hterm.bind
      rintro _ rfl
      apply ih.bind
      intro result hresult
      apply Settles.ok
      intro weight
      rw [weighted_cons, weighted_cons, hresult]
      ring

theorem scaled_settles (a : Affine) (k : Int) :
    Settles .overflow
      (fun multiple => multiple.constant = k * a.constant ∧
        ∀ weight, weighted weight multiple.terms = k * weighted weight a.terms)
      (a.scaled k) := by
  unfold scaled
  apply (Checked.int64_settles (a.constant * k)).bind
  rintro _ rfl
  apply (mapM_scale_settles k a.terms).bind
  intro terms hterms
  exact Settles.ok ⟨Int.mul_comm _ _, hterms⟩

/-! ## Values -/

def exactValue (a : Affine) (env : Bindings) : Int :=
  weighted env.value a.terms + a.constant

theorem foldlM_terms_settles
    (env : Bindings) (terms : List (Var × Int)) (acc : Int) :
    Settles .overflow (fun total => total = acc + weighted env.value terms)
      (terms.foldlM (fun acc (v, c) => do
        Checked.int64 (acc + (← Checked.int64 (c * env.value v)))) acc) := by
  induction terms generalizing acc with
  | nil => exact Settles.ok (by simp)
  | cons term rest ih =>
      rw [foldlM_cons]
      have hterm : Settles .overflow
          (fun acc' => acc' = acc + term.2 * env.value term.1)
          (do
            Checked.int64
              (acc + (← Checked.int64 (term.2 * env.value term.1)))) := by
        apply (Checked.int64_settles _).bind
        rintro _ rfl
        exact Checked.int64_settles _
      apply hterm.bind
      rintro _ rfl
      apply (ih _).mono
      rintro _ rfl
      rw [weighted_cons, Int.add_assoc]

theorem eval_settles_exactValue (a : Affine) (env : Bindings) :
    Settles .overflow (fun value => value = a.exactValue env) (a.eval env) := by
  unfold eval
  apply (foldlM_terms_settles env a.terms 0).bind
  rintro _ rfl
  rw [Int.zero_add]
  exact Checked.int64_settles _

theorem plus_eval_settles (a b : Affine) (env : Bindings) :
    Settles .overflow (fun value => value = a.exactValue env + b.exactValue env)
      (a.plus b >>= (·.eval env)) := by
  apply (a.plus_settles b).bind
  rintro sum ⟨hconstant, hterms⟩
  apply (sum.eval_settles_exactValue env).mono
  rintro _ rfl
  unfold exactValue
  rw [hconstant, hterms]
  ring

theorem scaled_eval_settles (a : Affine) (k : Int) (env : Bindings) :
    Settles .overflow (fun value => value = k * a.exactValue env)
      (a.scaled k >>= (·.eval env)) := by
  apply (a.scaled_settles k).bind
  rintro multiple ⟨hconstant, hterms⟩
  apply (multiple.eval_settles_exactValue env).mono
  rintro _ rfl
  unfold exactValue
  rw [hconstant, hterms]
  ring

theorem offset_eval_settles (a : Affine) (c : Int) (env : Bindings) :
    Settles .overflow (fun value => value = a.exactValue env + c)
      (a.offset c >>= (·.eval env)) := by
  apply (a.plus_eval_settles (ofInt c) env).mono
  rintro _ rfl
  simp [exactValue, ofInt]

/-! ## Coefficients -/

/-- Weight one for a loop variable and none for all others. -/
def unitWeight (name : String) (v : Var) : Int :=
  if v = .loop name then 1 else 0

def exactCoefficient (a : Affine) (name : String) : Int :=
  weighted (unitWeight name) a.terms

theorem foldlM_coefficients_settles
    (name : String) (terms : List (Var × Int)) (acc : Int) :
    Settles .overflow
      (fun total => total = acc + weighted (unitWeight name) terms)
      ((terms.filter (·.1 = .loop name)).foldlM (fun acc term =>
        Checked.int64 (acc + term.2)) acc) := by
  induction terms generalizing acc with
  | nil => exact Settles.ok (by simp)
  | cons term rest ih =>
      rw [weighted_cons, unitWeight]
      by_cases hvar : term.1 = .loop name
      · rw [filter_cons_of_pos (by simpa using hvar), foldlM_cons, if_pos hvar]
        apply (Checked.int64_settles (acc + term.2)).bind
        rintro _ rfl
        apply (ih _).mono
        rintro _ rfl
        ring
      · rw [filter_cons_of_neg (by simpa using hvar), if_neg hvar]
        apply (ih acc).mono
        rintro _ rfl
        ring

theorem coefficient_settles (a : Affine) (name : String) :
    Settles .overflow (fun c => c = a.exactCoefficient name)
      (a.coefficient name) := by
  apply (foldlM_coefficients_settles name a.terms 0).mono
  rintro _ rfl
  exact Int.zero_add _

theorem dependsOn_settles (a : Affine) (name : String) :
    Settles .overflow (fun depends => depends = (a.exactCoefficient name != 0))
      (a.dependsOn name) := by
  unfold dependsOn
  apply (a.coefficient_settles name).bind
  rintro _ rfl
  exact Settles.ok rfl

theorem plus_coefficient_settles (a b : Affine) (name : String) :
    Settles .overflow
      (fun c => c = a.exactCoefficient name + b.exactCoefficient name)
      (a.plus b >>= (·.coefficient name)) := by
  apply (a.plus_settles b).bind
  rintro sum ⟨_, hterms⟩
  apply (sum.coefficient_settles name).mono
  rintro _ rfl
  exact hterms _

theorem scaled_coefficient_settles (a : Affine) (k : Int) (name : String) :
    Settles .overflow (fun c => c = k * a.exactCoefficient name)
      (a.scaled k >>= (·.coefficient name)) := by
  apply (a.scaled_settles k).bind
  rintro multiple ⟨_, hterms⟩
  apply (multiple.coefficient_settles name).mono
  rintro _ rfl
  exact hterms _

/-! ## Rebinding -/

/-- A loop variable changes the sum by its coefficient times its own change. -/
theorem weighted_bind
    (env : Bindings) (name : String) (z : Int) (terms : List (Var × Int)) :
    weighted (env.bind name z).value terms = weighted env.value terms +
      weighted (unitWeight name) terms * (z - env.value (.loop name)) := by
  induction terms with
  | nil => simp
  | cons term rest ih =>
      rw [weighted_cons, weighted_cons, weighted_cons, ih, Bindings.value_bind,
        unitWeight]
      by_cases hvar : term.1 = .loop name
      · rw [if_pos hvar, if_pos hvar, hvar]
        ring
      · rw [if_neg hvar, if_neg hvar]
        ring

theorem exactValue_bind
    (a : Affine) (env : Bindings) (name : String) (z : Int) :
    a.exactValue (env.bind name z) =
      a.exactValue env + a.exactCoefficient name *
        (z - env.value (.loop name)) := by
  unfold exactValue exactCoefficient
  rw [weighted_bind]
  ring

theorem exactValue_bind_eq_iff
    (a : Affine) (env : Bindings) (name : String) (z : Int) :
    a.exactValue (env.bind name z) = a.exactValue env ↔
      a.exactCoefficient name = 0 ∨ z = env.value (.loop name) := by
  rw [exactValue_bind, add_eq_left, mul_eq_zero, sub_eq_zero]

theorem exactCoefficient_eq_zero_iff
    (a : Affine) (env : Bindings) (name : String) :
    a.exactCoefficient name = 0 ↔
      ∀ z, IsInt64 z → a.exactValue (env.bind name z) = a.exactValue env := by
  constructor
  · intro hzero z _
    exact (a.exactValue_bind_eq_iff env name z).mpr (Or.inl hzero)
  · intro hsame
    -- of two values that fit a word, one is not the value that is bound
    have hother : ∃ z, IsInt64 z ∧ z ≠ env.value (.loop name) := by
      by_cases hbound : env.value (.loop name) = 0
      · exact ⟨1, by decide, by omega⟩
      · exact ⟨0, by decide, Ne.symm hbound⟩
    obtain ⟨z, hz, hne⟩ := hother
    exact ((a.exactValue_bind_eq_iff env name z).mp (hsame z hz)).resolve_right
      hne

/-! ## Where words suffice -/

section

variable {env : Bindings} {terms : List (Var × Int)} {a b : Affine} {c : Int}

/-- A term counts with its coefficient, and with its value where that is
larger. -/
def termReach (env : Bindings) (term : Var × Int) : Nat :=
  term.2.natAbs * max 1 (env.value term.1).natAbs

def reach (env : Bindings) (a : Affine) : Nat :=
  a.constant.natAbs + (a.terms.map (termReach env)).sum

theorem natAbs_le_termReach (env : Bindings) (term : Var × Int) :
    term.2.natAbs ≤ termReach env term ∧
      (term.2 * env.value term.1).natAbs ≤ termReach env term := by
  rw [Int.natAbs_mul]
  exact ⟨Nat.le_mul_of_pos_right _ (Nat.le_max_left _ _),
    Nat.mul_le_mul_left _ (Nat.le_max_right _ _)⟩

theorem termReach_add_le (env : Bindings) (v : Var) (c d : Int) :
    termReach env (v, c + d) ≤ termReach env (v, c) + termReach env (v, d) := by
  unfold termReach
  rw [← Nat.add_mul]
  exact Nat.mul_le_mul_right _ (Int.natAbs_add_le c d)

theorem exists_addTerm
    {v : Var}
    (h : (terms.map (termReach env)).sum + termReach env (v, c) <
      0x8000000000000000) :
    ∃ result, addTerm v c terms = .ok result ∧
      (result.map (termReach env)).sum ≤
        (terms.map (termReach env)).sum + termReach env (v, c) := by
  induction terms with
  | nil => exact ⟨_, rfl, by simp⟩
  | cons term rest ih =>
      obtain ⟨w, d⟩ := term
      simp only [map_cons, sum_cons] at h ⊢
      simp only [addTerm]
      split
      · next hvar =>
          subst hvar
          have hsum := termReach_add_le env w d c
          have hword := (natAbs_le_termReach env (w, d + c)).1
          rw [Checked.int64_of_natAbs_lt (by omega)]
          refine ⟨_, rfl, ?_⟩
          simp only [map_cons, sum_cons]
          omega
      · obtain ⟨result, hresult, hle⟩ := ih (by omega)
        rw [hresult]
        refine ⟨_, rfl, ?_⟩
        simp only [map_cons, sum_cons]
        omega

theorem exists_foldlM_addTerm
    {more : List (Var × Int)}
    (h : (terms.map (termReach env)).sum + (more.map (termReach env)).sum <
      0x8000000000000000) :
    ∃ result, more.foldlM (fun acc (v, c) => addTerm v c acc) terms =
      .ok result ∧ (result.map (termReach env)).sum ≤
        (terms.map (termReach env)).sum + (more.map (termReach env)).sum := by
  induction more generalizing terms with
  | nil => exact ⟨_, rfl, Nat.le_add_right _ _⟩
  | cons term rest ih =>
      obtain ⟨v, c⟩ := term
      simp only [map_cons, sum_cons] at h ⊢
      obtain ⟨merged, hmerged, hle⟩ :=
        exists_addTerm (show (terms.map (termReach env)).sum +
          termReach env (v, c) < _ by omega)
      obtain ⟨result, hresult, hle'⟩ :=
        ih (show (merged.map (termReach env)).sum +
          (rest.map (termReach env)).sum < _ by omega)
      refine ⟨result, ?_, by omega⟩
      simp only [foldlM_cons, hmerged, ok_bind, hresult]

theorem exists_plus (h : a.reach env + b.reach env < 0x8000000000000000) :
    ∃ sum, a.plus b = .ok sum ∧ sum.reach env ≤ a.reach env + b.reach env := by
  unfold reach at h
  have hconstant := Int.natAbs_add_le a.constant b.constant
  obtain ⟨terms, hterms, hle⟩ :=
    exists_foldlM_addTerm (show (a.terms.map (termReach env)).sum +
      (b.terms.map (termReach env)).sum < _ by omega)
  refine ⟨⟨a.constant + b.constant, terms.filter (·.2 != 0)⟩, ?_, ?_⟩
  · unfold plus
    rw [Checked.int64_of_natAbs_lt (by omega), ok_bind, hterms]
    rfl
  · have hdropped : ((terms.filter (·.2 != 0)).map (termReach env)).sum ≤
        (terms.map (termReach env)).sum :=
      (filter_sublist.map _).sum_le_sum fun _ _ => Nat.zero_le _
    simp only [reach]
    omega

theorem exists_scaled (h : a.reach env * c.natAbs < 0x8000000000000000) :
    ∃ multiple, a.scaled c = .ok multiple ∧
      multiple.reach env = a.reach env * c.natAbs := by
  unfold reach at h
  rw [Nat.add_mul, ← sum_map_mul_right] at h
  have hterms :
      a.terms.mapM (fun (v, d) => do return (v, ← Checked.int64 (d * c))) =
      .ok (a.terms.map fun term => (term.1, term.2 * c)) := by
    apply mapM_eq_ok_map
    intro term hin
    have hle := Nat.mul_le_mul_right c.natAbs (natAbs_le_termReach env term).1
    have hsum :=
      le_sum_of_mem (mem_map_of_mem (f := (termReach env · * c.natAbs)) hin)
    have hword := Checked.int64_of_natAbs_lt (z := term.2 * c)
      (by rw [Int.natAbs_mul]; omega)
    simp only [hword]
    rfl
  refine ⟨⟨a.constant * c, a.terms.map fun term => (term.1, term.2 * c)⟩,
    ?_, ?_⟩
  · unfold scaled
    rw [Checked.int64_of_natAbs_lt (by rw [Int.natAbs_mul]; omega), ok_bind,
      hterms]
    rfl
  · unfold reach
    rw [Nat.add_mul, Int.natAbs_mul, List.map_map, ← sum_map_mul_right]
    congr 2
    apply map_congr_left
    intro term _
    simp only [Function.comp_apply, termReach, Int.natAbs_mul]
    ring

theorem returns_coefficient
    (h : a.reach env < 0x8000000000000000) (name : String) :
    Returns (a.coefficient name) := by
  have hsum : ∀ (terms : List (Var × Int)) (acc : Int),
      acc.natAbs + (terms.map (termReach env)).sum < 0x8000000000000000 →
      Returns (terms.foldlM (fun acc term =>
        Checked.int64 (acc + term.2)) acc) := by
    intro terms
    induction terms with
    | nil => exact fun acc _ => Returns.ok acc
    | cons term rest ih =>
        intro acc hlt
        simp only [map_cons, sum_cons] at hlt
        have hterm := (natAbs_le_termReach env term).1
        have hadd := Int.natAbs_add_le acc term.2
        rw [foldlM_cons, Checked.int64_of_natAbs_lt (by omega), ok_bind]
        exact ih _ (by omega)
  apply hsum
  have hkept : ((a.terms.filter (·.1 = .loop name)).map (termReach env)).sum ≤
      (a.terms.map (termReach env)).sum :=
    (filter_sublist.map _).sum_le_sum fun _ _ => Nat.zero_le _
  unfold reach at h
  simp only [Int.natAbs_zero]
  omega

theorem returns_eval (h : a.reach env < 0x8000000000000000) :
    Returns (a.eval env) := by
  have hsum : ∀ (terms : List (Var × Int)) (acc : Int),
      acc.natAbs + (terms.map (termReach env)).sum < 0x8000000000000000 →
      ∃ total, total.natAbs ≤ acc.natAbs + (terms.map (termReach env)).sum ∧
        terms.foldlM (fun acc (v, c) => do
          Checked.int64 (acc + (← Checked.int64 (c * env.value v)))) acc =
            .ok total := by
    intro terms
    induction terms with
    | nil => exact fun acc _ => ⟨acc, Nat.le_add_right _ _, rfl⟩
    | cons term rest ih =>
        intro acc hlt
        obtain ⟨v, c⟩ := term
        simp only [map_cons, sum_cons] at hlt ⊢
        have hterm : (c * env.value v).natAbs ≤ _ :=
          (natAbs_le_termReach env (v, c)).2
        have hadd := Int.natAbs_add_le acc (c * env.value v)
        obtain ⟨total, hle, htotal⟩ := ih (acc + c * env.value v) (by omega)
        refine ⟨total, by omega, ?_⟩
        have hproduct :=
          Checked.int64_of_natAbs_lt (z := c * env.value v) (by omega)
        have hsum :=
          Checked.int64_of_natAbs_lt (z := acc + c * env.value v) (by omega)
        simp only [foldlM_cons, hproduct, hsum, ok_bind, htotal]
  unfold reach at h
  obtain ⟨total, hle, htotal⟩ :=
    hsum a.terms 0 (by simp only [Int.natAbs_zero]; omega)
  have hadd := Int.natAbs_add_le total a.constant
  simp only [Int.natAbs_zero] at hle
  unfold eval
  rw [htotal, ok_bind, Checked.int64_of_natAbs_lt (by omega)]
  exact Returns.ok _

/-- No word is exhausted while the reach of the result is below the bound of a
word. -/
theorem arithmetic_returns
    (a b : Affine) (c : Int) (name : String) (env : Bindings) :
    (a.reach env < 0x8000000000000000 →
      Returns (a.eval env) ∧ Returns (a.coefficient name)) ∧
    (a.reach env + b.reach env < 0x8000000000000000 →
      Returns (a.plus b >>= (·.eval env)) ∧
      Returns (a.plus b >>= (·.coefficient name))) ∧
    (a.reach env * c.natAbs < 0x8000000000000000 →
      Returns (a.scaled c >>= (·.eval env)) ∧
        Returns (a.scaled c >>= (·.coefficient name))) := by
  refine ⟨fun h => ⟨returns_eval h, returns_coefficient h name⟩, ?_, ?_⟩
  · intro h
    obtain ⟨sum, hsum, hle⟩ := exists_plus h
    rw [hsum, ok_bind, ok_bind]
    have hreach := hle.trans_lt h
    exact ⟨returns_eval hreach, returns_coefficient hreach name⟩
  · intro h
    obtain ⟨multiple, hmultiple, heq⟩ := exists_scaled h
    rw [hmultiple, ok_bind, ok_bind]
    rw [← heq] at h
    exact ⟨returns_eval h, returns_coefficient h name⟩

end

/-- Evaluation, sums, multiples, shifts and coefficients are exact unless a word
is exhausted. `dependsOn` is false exactly when no value of the loop variable
changes the value of the expression; between two evaluations that return it
decides whether they differ. -/
theorem arithmetic_exact
    (a b : Affine) (c : Int) (name : String) (env : Bindings) :
    (∀ env', Settles .overflow (· = a.exactValue env') (a.eval env')) ∧
    (∀ x y, a.eval env = .ok x → b.eval env = .ok y →
      Settles .overflow (· = x + y) (a.plus b >>= (·.eval env))) ∧
    (∀ x, a.eval env = .ok x →
      Settles .overflow (· = c * x) (a.scaled c >>= (·.eval env)) ∧
      Settles .overflow (· = x + c) (a.offset c >>= (·.eval env))) ∧
    (∀ p q, a.coefficient name = .ok p → b.coefficient name = .ok q →
      Settles .overflow (· = p + q) (a.plus b >>= (·.coefficient name))) ∧
    (∀ p, a.coefficient name = .ok p →
      Settles .overflow (· = c * p) (a.scaled c >>= (·.coefficient name))) ∧
    Settles .overflow
      (fun depends =>
        (depends = false ↔
          ∀ z, IsInt64 z → a.exactValue (env.bind name z) = a.exactValue env) ∧
        ∀ x y z, a.eval env = .ok x → a.eval (env.bind name z) = .ok y →
          (y = x ↔ depends = false ∨ z = env.value (.loop name)))
      (a.dependsOn name) := by
  refine ⟨a.eval_settles_exactValue, ?_, ?_, ?_, ?_, ?_⟩
  · intro x y hx hy
    rw [(a.eval_settles_exactValue env).of_eq_ok hx,
      (b.eval_settles_exactValue env).of_eq_ok hy]
    exact a.plus_eval_settles b env
  · intro x hx
    rw [(a.eval_settles_exactValue env).of_eq_ok hx]
    exact ⟨a.scaled_eval_settles c env, a.offset_eval_settles c env⟩
  · intro p q hp hq
    rw [(a.coefficient_settles name).of_eq_ok hp,
      (b.coefficient_settles name).of_eq_ok hq]
    exact a.plus_coefficient_settles b name
  · intro p hp
    rw [(a.coefficient_settles name).of_eq_ok hp]
    exact a.scaled_coefficient_settles c name
  · apply (a.dependsOn_settles name).mono
    rintro _ rfl
    have hfalse : (a.exactCoefficient name != 0) = false ↔
        a.exactCoefficient name = 0 := by
      simp
    rw [hfalse]
    refine ⟨a.exactCoefficient_eq_zero_iff env name, ?_⟩
    intro x y z hx hy
    rw [(a.eval_settles_exactValue env).of_eq_ok hx,
      (a.eval_settles_exactValue _).of_eq_ok hy]
    exact a.exactValue_bind_eq_iff env name z

/-- Two terms on `i` cancel, the term on `j` is zero and the axis is past the
third. -/
def cancelling :
    Affine :=
  ⟨3, [(.loop "i", 2), (.block 5, 4), (.loop "i", -2), (.loop "j", 0)]⟩

/-- A sum merges one more term on `i` into the first of the two.  Without it, no
value of `i` changes the value of the expression. -/
theorem arithmetic_exact_cancelling :
    (cancelling.eval ((Bindings.ofBlock ⟨1, 2, 3⟩).bind "i" 10) = .ok 15 ∧
      (ofVar (.loop "i")).eval ((Bindings.ofBlock ⟨1, 2, 3⟩).bind "i" 10) =
        .ok 10) ∧
    (cancelling.plus (ofVar (.loop "i")) >>=
      (·.eval ((Bindings.ofBlock ⟨1, 2, 3⟩).bind "i" 10))) = .ok 25 ∧
    cancelling.dependsOn "i" = .ok false ∧
    (∀ z y, cancelling.eval
      (((Bindings.ofBlock ⟨1, 2, 3⟩).bind "i" 10).bind "i" z) = .ok y →
      y = 15) := by
  obtain ⟨_, hsum, _, _, _, hdepends⟩ := arithmetic_exact cancelling
    (ofVar (.loop "i")) 0 "i" ((Bindings.ofBlock ⟨1, 2, 3⟩).bind "i" 10)
  have hfirst : cancelling.eval ((Bindings.ofBlock ⟨1, 2, 3⟩).bind "i" 10) =
      .ok 15 := by
    decide
  have hsecond : (ofVar (.loop "i")).eval
      ((Bindings.ofBlock ⟨1, 2, 3⟩).bind "i" 10) = .ok 10 := by
    decide
  have hfalse : cancelling.dependsOn "i" = .ok false := by decide
  refine ⟨⟨hfirst, hsecond⟩, ?_, hfalse, ?_⟩
  · rcases hsum 15 10 hfirst hsecond with hstop | ⟨_, hreturn, rfl⟩
    · exact absurd hstop (by decide)
    · exact hreturn
  · intro z y hy
    exact ((hdepends.of_eq_ok hfalse).2 15 y z hfirst hy).mpr (Or.inl rfl)

end Affine

end TileProgram
