import TileProgram.Proofs.Outcome

/-!
# Checked arithmetic

Arithmetic on words stops where a word is exhausted or a divisor is zero, and
returns the exact result otherwise.  Searches stop where a test does.
-/

namespace TileProgram

open List

variable {n a b : Nat}

theorem settles_ite {ε α : Type} {e : ε} (c : Prop) [Decidable c] (a : α) :
    Settles e (fun result => result = a)
      (if c then .ok a else .error e : Except ε α) := by
  split
  · exact Settles.ok rfl
  · exact Or.inl rfl

namespace Checked

theorem word32_settles (n : Nat) :
    Settles .overflow (fun result => result = n) (word32 n) :=
  settles_ite _ n

theorem word32_of_lt (h : n < 0x100000000) : word32 n = .ok n :=
  if_pos h

theorem word32_eq_ok {result : Nat} (h : word32 n = .ok result) :
    n < limit32 ∧ result = n := by
  unfold word32 at h
  split at h
  · next hlt =>
      cases h
      exact ⟨hlt, rfl⟩
  · cases h

@[simp] theorem word32_eq_ok_iff {m : Nat} :
    word32 n = .ok m ↔ n < limit32 ∧ n = m := by
  unfold word32
  split <;> simp [*]

theorem word32_bind {α : Type} (n : Nat) (f : Nat → Checked α) :
    (word32 n >>= f) = if n < limit32 then f n else .error .overflow := by
  unfold word32
  split <;> rfl

theorem word32_bind_eq_ok
    {α : Type} {f : Nat → Checked α} {a : α} (h : (word32 n >>= f) = .ok a) :
    f n = .ok a := by
  obtain ⟨word, hword, hf⟩ := bind_eq_ok h
  obtain ⟨_, rfl⟩ := word32_eq_ok hword
  exact hf

theorem word64_settles (n : Nat) :
    Settles .overflow (fun result => result = n) (word64 n) :=
  settles_ite _ n

theorem word64_of_lt (h : n < limit64) : word64 n = .ok n := if_pos h

theorem word64_eq_ok_iff {m : Nat} :
    word64 n = .ok m ↔ n < limit64 ∧ n = m := by
  unfold word64
  split <;> simp [*]

theorem int64_settles (z : Int) :
    Settles .overflow (fun result => result = z) (int64 z) :=
  settles_ite _ z

theorem int64_of_natAbs_lt {z : Int} (h : z.natAbs < 0x8000000000000000) :
    int64 z = .ok z := by
  unfold int64
  rw [if_pos ⟨by omega, by omega⟩]

theorem int64_natCast (h : n < 0x8000000000000000) :
    int64 (n : Int) = .ok (n : Int) :=
  int64_of_natAbs_lt h

theorem sub_settles (a b : Nat) :
    Settles .overflow (fun result => result = a - b) (sub a b) :=
  settles_ite _ (a - b)

theorem table_settles (entryBytes count : Nat) :
    Settles .overflow (fun result => result = count) (table entryBytes count) :=
  settles_ite _ count

theorem mod_eq_ok {c : Nat} (h : mod a b = .ok c) : b ≠ 0 ∧ c = a % b := by
  unfold mod at h
  split at h
  · cases h
  · next hb =>
      cases h
      exact ⟨hb, rfl⟩

theorem div_eq_ok {c : Nat} (h : div a b = .ok c) : b ≠ 0 ∧ c = a / b := by
  unfold div at h
  split at h
  · cases h
  · next hb =>
      cases h
      exact ⟨hb, rfl⟩

theorem mod_bind_eq_ok
    {α : Type} {f : Nat → Checked α} {c : α} (h : (mod a b >>= f) = .ok c) :
    b ≠ 0 ∧ f (a % b) = .ok c := by
  obtain ⟨rest, hrest, hf⟩ := bind_eq_ok h
  obtain ⟨hb, rfl⟩ := mod_eq_ok hrest
  exact ⟨hb, hf⟩

theorem div_bind_eq_ok
    {α : Type} {f : Nat → Checked α} {c : α} (h : (div a b >>= f) = .ok c) :
    b ≠ 0 ∧ f (a / b) = .ok c := by
  obtain ⟨quotient, hquotient, hf⟩ := bind_eq_ok h
  obtain ⟨hb, rfl⟩ := div_eq_ok hquotient
  exact ⟨hb, hf⟩

theorem div_of_ne_zero (a : Nat) (hb : b ≠ 0) : div a b = .ok (a / b) := by
  unfold div
  rw [if_neg hb]

theorem mod_of_ne_zero (a : Nat) (hb : b ≠ 0) : mod a b = .ok (a % b) := by
  unfold mod
  rw [if_neg hb]

theorem ceilDiv_of_ne_zero (a : Nat) (hb : b ≠ 0) :
    ceilDiv a b = .ok ((a + b - 1) / b) := by
  unfold ceilDiv
  rw [if_neg hb]

theorem product_settles
    {word : Nat → Checked Nat}
    (hword : ∀ n, Settles .overflow (fun result => result = n) (word n))
    (factors : List Nat) :
    Settles .overflow (fun result => result = factors.prod)
      (product word factors) := by
  unfold product
  suffices h : ∀ acc,
      Settles .overflow (fun result => result = acc * factors.prod)
      (factors.foldlM (fun acc factor => word (acc * factor)) acc) by
    have hone := h 1
    rwa [Nat.one_mul] at hone
  induction factors with
  | nil =>
      intro acc
      exact Settles.ok (by simp)
  | cons factor rest ih =>
      intro acc
      rw [foldlM_cons]
      apply (hword (acc * factor)).bind
      rintro _ rfl
      apply (ih (acc * factor)).mono
      intro result hresult
      rw [hresult, prod_cons, Nat.mul_assoc]

theorem product_of_lt
    {word : Nat → Checked Nat} {limit : Nat}
    (hword : ∀ n < limit, word n = .ok n) {factors : List Nat}
    (hpos : ∀ n ∈ factors, 0 < n) (hlt : factors.prod < limit) :
    product word factors = .ok factors.prod := by
  unfold product
  suffices h : ∀ acc, acc * factors.prod < limit →
      factors.foldlM (fun acc factor => word (acc * factor)) acc =
        .ok (acc * factors.prod) by
    have hone := h 1 (by rwa [Nat.one_mul])
    rwa [Nat.one_mul] at hone
  clear hlt
  induction factors with
  | nil =>
      intro acc _
      simp [pure, Except.pure]
  | cons factor rest ih =>
      intro acc hacc
      rw [prod_cons, ← Nat.mul_assoc] at hacc ⊢
      have hrest : 0 < rest.prod :=
        prod_pos fun n hn => hpos n (mem_cons_of_mem factor hn)
      have hstep : acc * factor < limit :=
        (Nat.le_mul_of_pos_right _ hrest).trans_lt hacc
      rw [foldlM_cons, hword _ hstep, ok_bind]
      exact ih (fun n hn => hpos n (mem_cons_of_mem factor hn)) _ hacc

/-! ## Searches -/

section

variable {α : Type} {test : α → Checked Bool} {l : List α}

theorem all_eq_ok (h : all test l = .ok true) : ∀ a ∈ l, test a = .ok true := by
  intro a ha
  induction l with
  | nil => cases ha
  | cons first rest ih =>
      rcases bind_eq_ok h with ⟨passes, hfirst, h⟩
      cases passes with
      | false => cases h
      | true =>
          rcases mem_cons.mp ha with rfl | hin
          · exact hfirst
          · exact ih h hin

theorem find?_eq_none (h : find? test l = .ok none) :
    ∀ a ∈ l, test a = .ok false := by
  intro a ha
  induction l with
  | nil => cases ha
  | cons first rest ih =>
      rcases bind_eq_ok h with ⟨passes, hfirst, h⟩
      cases passes with
      | true => cases h
      | false =>
          rcases mem_cons.mp ha with rfl | hin
          · exact hfirst
          · exact ih h hin

theorem find?_eq_some {a : α} (h : find? test l = .ok (some a)) :
    a ∈ l ∧ test a = .ok true := by
  induction l with
  | nil => cases h
  | cons first rest ih =>
      rcases bind_eq_ok h with ⟨passes, hpasses, h⟩
      cases passes with
      | true =>
          cases h
          exact ⟨mem_cons_self, hpasses⟩
      | false => exact (ih h).imp_left (mem_cons_of_mem first)

end

end Checked

end TileProgram
