import TileProgram.Proofs.Checked

/-!
# Why a pass stops

`Runs` says that nothing but an exhausted word stops a computation, whatever it
returns.  A pass may also stop with an error of its own: `Ends` says which
errors it reports and what its result satisfies, and that no other fault stops
it.  The last part may rest on an assumption that the other two do not need.
Both pass through sequences, loops and searches, so a pass is followed function
by function.
-/

namespace TileProgram

open Checked List

/-- Nothing but an exhausted word stops the computation. -/
def Runs {α : Type} (x : Checked α) : Prop :=
  Settles .overflow (fun _ => True) x

theorem Settles.runs
    {α : Type} {P : α → Prop} {x : Checked α} (h : Settles .overflow P x) :
    Runs x :=
  h.mono fun _ _ => trivial

namespace Runs

variable {α β ι : Type} {x : Checked α} {l : List ι}

@[simp] theorem ok (a : α) : Runs (.ok a) := Settles.ok trivial

@[simp] theorem pure (a : α) : Runs (pure a) := ok a

@[simp] theorem bind_iff {f : α → Checked β} (hx : Runs x) :
    Runs (x >>= f) ↔ ∀ a, x = .ok a → Runs (f a) := by
  rcases hx with hstop | ⟨a, hreturn, _⟩
  · simp [hstop, error_bind, Runs, Settles]
  · simp [hreturn, ok_bind]

@[simp] theorem map_iff {f : α → β} : Runs (f <$> x) ↔ Runs x := by
  cases x <;> simp [Runs, Settles]

@[simp] theorem ite_iff {c : Prop} [Decidable c] {x y : Checked α} :
    Runs (if c then x else y) ↔ (c → Runs x) ∧ (¬c → Runs y) := by
  split <;> simp [*]

theorem bind {f : α → Checked β} (hx : Runs x) (hf : ∀ a, Runs (f a)) :
    Runs (x >>= f) :=
  (bind_iff hx).mpr fun a _ => hf a

theorem foldlM
    {σ : Type} {f : σ → ι → Checked σ} (h : ∀ i ∈ l, ∀ s, Runs (f s i))
    (s : σ) : Runs (l.foldlM f s) :=
  Settles.foldlM (fun i hi s _ => h i hi s) trivial

theorem foldM
    {σ : Type} {f : Nat → σ → Checked σ} (h : ∀ i s, Runs (f i s))
    (start count : Nat) (s : σ) :
    Runs (Counted.foldM f start count s) :=
  Settles.foldM (fun i s _ _ => h i s) count start s (Nat.le_refl _) trivial

theorem mapM {f : ι → Checked α} (h : ∀ i ∈ l, Runs (f i)) : Runs (l.mapM f) :=
  (Settles.mapM h).runs

theorem all {test : ι → Checked Bool} (h : ∀ i ∈ l, Runs (test i)) :
    Runs (Checked.all test l) := by
  induction l with
  | nil => exact ok true
  | cons i rest ih =>
      apply (h i mem_cons_self).bind
      intro passes
      cases passes with
      | true => exact ih fun j hj => h j (mem_cons_of_mem i hj)
      | false => exact ok false

theorem filterM {test : ι → Checked Bool} (h : ∀ i ∈ l, Runs (test i)) :
    Runs (l.filterM test) := by
  simp only [Runs, settles_iff_meets] at h ⊢
  exact Meets.filterM h

@[simp] theorem of_word32 (n : Nat) : Runs (Checked.word32 n) :=
  (word32_settles n).runs

@[simp] theorem of_word64 (n : Nat) : Runs (Checked.word64 n) :=
  (word64_settles n).runs

@[simp] theorem of_int64 (z : Int) : Runs (Checked.int64 z) :=
  (int64_settles z).runs

@[simp] theorem of_bit (width position : Nat) :
    Runs (Checked.bit width position) := by
  unfold Checked.bit
  split
  · simp
  · exact Or.inl rfl

@[simp] theorem of_shiftLeft (a amount : Nat) :
    Runs (Checked.shiftLeft a amount) := by
  unfold Checked.shiftLeft
  split
  · simp
  · exact Or.inl rfl

@[simp] theorem of_shiftRight (a amount : Nat) :
    Runs (Checked.shiftRight a amount) := by
  unfold Checked.shiftRight
  split
  · simp
  · exact Or.inl rfl

@[simp] theorem of_div (a : Nat) {b : Nat} (hb : 0 < b) :
    Runs (Checked.div a b) := by
  rw [div_of_ne_zero a hb.ne']
  exact ok _

@[simp] theorem of_mod (a : Nat) {b : Nat} (hb : 0 < b) :
    Runs (Checked.mod a b) := by
  rw [mod_of_ne_zero a hb.ne']
  exact ok _

@[simp] theorem of_ceilDiv (a : Nat) {b : Nat} (hb : 0 < b) :
    Runs (Checked.ceilDiv a b) := by
  rw [ceilDiv_of_ne_zero a hb.ne']
  exact ok _

end Runs

theorem Runs.settles
    {α : Type} {P : α → Prop} {x : Checked α} (hx : Runs x)
    (h : ∀ a, x = .ok a → P a) : Settles .overflow P x := by
  rcases hx with hstop | ⟨a, hreturn, _⟩
  · exact Or.inl hstop
  · exact Or.inr ⟨a, hreturn, h a hreturn⟩

theorem Checked.find?_settles
    {ι : Type} {test : ι → Checked Bool} {P : ι → Prop} {l : List ι}
    (h : ∀ i ∈ l,
      Settles .overflow (fun passes => passes = true → P i) (test i)) :
    Settles .overflow (fun found => ∀ i, found = some i → i ∈ l ∧ P i)
      (Checked.find? test l) := by
  simp only [settles_iff_meets] at h ⊢
  exact Meets.find? h

/-- An error has `Q`; a fault is an exhausted word, as far as `W` is given. -/
def Stop.Allowed {ε : Type} (W : Prop) (Q : ε → Prop) : Stop ε → Prop
  | .error e => Q e
  | .fault reason => W → reason = .overflow

/-- A result of the pass has `P` and an error that it reports has `Q`; given
`W`, no fault stops it but an exhausted word. -/
abbrev Ends
    {ε α : Type} (W : Prop) (Q : ε → Prop) (P : α → Prop) (x : Pass ε α) :
    Prop :=
  Meets (Stop.Allowed W Q) P x

namespace Ends

variable {ε φ α β : Type} {W : Prop} {Q : ε → Prop} {P : α → Prop}
variable {R : β → Prop} {x : Pass ε α}

theorem ok {a : α} (h : P a) : Ends W Q P (.ok a : Pass ε α) := h

@[simp] theorem ok_iff {a : α} : Ends W Q P (.ok a : Pass ε α) ↔ P a := Iff.rfl

@[simp] theorem pure_iff {a : α} : Ends W Q P (pure a : Pass ε α) ↔ P a :=
  Iff.rfl

@[simp] theorem ite_iff {c : Prop} [Decidable c] {x y : Pass ε α} :
    Ends W Q P (if c then x else y) ↔
      (c → Ends W Q P x) ∧ (¬c → Ends W Q P y) := by
  split <;> simp [*]

theorem fail {e : ε} (h : Q e) : Ends W Q P (Pass.fail e : Pass ε α) := h

@[simp] theorem fail_iff {e : ε} : Ends W Q P (Pass.fail e : Pass ε α) ↔ Q e :=
  Iff.rfl

theorem fail_bind {e : ε} (h : Q e) (f : α → Pass ε β) :
    Ends W Q R ((Pass.fail e : Pass ε α) >>= f) := h

theorem bind_eq
    {f : α → Pass ε β} (hx : Ends W Q P x)
    (hf : ∀ a, x = .ok a → P a → Ends W Q R (f a)) : Ends W Q R (x >>= f) :=
  Meets.bind hx hf

theorem bind
    {f : α → Pass ε β} (hx : Ends W Q P x) (hf : ∀ a, P a → Ends W Q R (f a)) :
    Ends W Q R (x >>= f) :=
  hx.bind_eq fun a _ => hf a

theorem bind_lift
    {x : Checked α} {f : α → Pass ε β} (hx : W → Settles .overflow P x)
    (hf : ∀ a, x = .ok a → (W → P a) → Ends W Q R (f a)) :
    Ends W Q R ((liftM x : Pass ε α) >>= f) := by
  cases x with
  | ok a => exact hf a rfl fun hW => (hx hW).of_eq_ok rfl
  | error fault =>
      intro hW
      rcases hx hW with hstop | ⟨_, hreturn, _⟩
      · exact Except.error.inj hstop
      · cases hreturn

@[simp] theorem bind_lift_iff
    {x : Checked α} {f : α → Pass ε β} (hx : W → Runs x) :
    Ends W Q R ((liftM x : Pass ε α) >>= f) ↔
      ∀ a, x = .ok a → Ends W Q R (f a) := by
  refine ⟨?_, fun hf => bind_lift hx fun a ha _ => hf a ha⟩
  rintro h a rfl
  exact h

@[simp] theorem lift_iff {x : Checked α} (hx : W → Runs x) :
    Ends W Q P (liftM x : Pass ε α) ↔ ∀ a, x = .ok a → P a := by
  rw [← bind_pure (liftM x : Pass ε α), bind_lift_iff hx]
  exact Iff.rfl

@[simp] theorem map_iff {f : α → β} :
    Ends W Q R (f <$> x) ↔ Ends W Q (fun a => R (f a)) x := by
  cases x <;> exact Iff.rfl

theorem mono_error {Q' : ε → Prop} (hx : Ends W Q P x) (h : ∀ e, Q e → Q' e) :
    Ends W Q' P x := by
  rcases x with (fault | e) | a
  · exact hx
  · exact h e hx
  · exact hx

theorem within {Q : φ → Prop} {f : ε → φ} (hx : Ends W (fun e => Q (f e)) P x) :
    Ends W Q P (Pass.within f x) := by
  rcases x with (fault | e) | a <;> exact hx

theorem of_eq_ok {a : α} (hx : Ends W Q P x) (h : x = .ok a) : P a := by
  rw [h] at hx
  exact hx

theorem of_error {e : ε} (hx : Ends W Q P x) (h : x = .error (.error e)) :
    Q e := by
  rw [h] at hx
  exact hx

theorem of_stop {stop : Stop ε} (hx : Ends W Q P x) (h : x = .error stop) :
    Ends W Q R (.error stop : Pass ε β) := by
  rw [h] at hx
  exact hx

end Ends

end TileProgram
