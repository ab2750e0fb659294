import Mathlib.Tactic
import TileProgram.Counted
import TileProgram.Fault

/-!
# Outcomes of computations that may stop

Two ways of comparing computations recur in the theory of runs.  `Matches` says
that two of them stop for the same reason or return related results; it compares
runs that make the same arithmetic.  `Follows` says that a second computation
returns a related result whenever the first returns one, unless the second runs
out of its words.  `Settles` says the same of one computation alone: nothing but
an exhausted word can stop it; `Returns` says that nothing stops it.  Each of
them passes through a sequence of computations and through a counted loop; what
is said of one computation alone is a case of `Meets`, and gets its loops from
there.
-/

namespace TileProgram

open List

section

variable {ε α β γ δ : Type}

theorem ok_bind (a : α) (f : α → Except ε β) : (Except.ok a >>= f) = f a := rfl

theorem error_bind (e : ε) (f : α → Except ε β) :
    (Except.error e >>= f) = Except.error e := rfl

theorem bind_eq_ok_iff {x : Except ε α} {f : α → Except ε β} {b : β} :
    (x >>= f) = .ok b ↔ ∃ a, x = .ok a ∧ f a = .ok b := by
  cases x with
  | error e =>
      rw [error_bind]
      simp
  | ok a =>
      rw [ok_bind]
      simp

theorem bind_eq_ok
    {x : Except ε α} {f : α → Except ε β} {b : β} (h : (x >>= f) = .ok b) :
    ∃ a, x = .ok a ∧ f a = .ok b :=
  bind_eq_ok_iff.mp h

theorem map_eq_ok_iff {x : Except ε α} {f : α → β} {b : β} :
    x.map f = .ok b ↔ ∃ a, x = .ok a ∧ f a = b := by
  cases x <;> simp [Except.map]

theorem map_eq_error_iff {x : Except ε α} {f : α → β} {e : ε} :
    x.map f = .error e ↔ x = .error e := by
  cases x <;> simp [Except.map]

theorem toOption_eq_some_iff {x : Except ε α} {a : α} :
    x.toOption = some a ↔ x = .ok a := by
  cases x <;> simp [Except.toOption]

theorem bind_pure_eq_map (x : Except ε α) (f : α → β) :
    (x >>= fun a => (pure (f a) : Except ε β)) = x.map f := by
  cases x <;> rfl

theorem map_bind (x : Except ε α) (f : α → β) (g : β → Except ε γ) :
    (x.map f >>= g) = (x >>= fun a => g (f a)) := by
  cases x <;> rfl

theorem bind_map (x : Except ε α) (f : α → Except ε β) (g : β → γ) :
    (x >>= f).map g = (x >>= fun a => (f a).map g) := by
  cases x <;> rfl

theorem map_map (x : Except ε α) (f : α → β) (g : β → γ) :
    (x.map f).map g = x.map fun a => g (f a) := by
  cases x <;> rfl

theorem mapM_map_eq_map
    {r : α → β} {h : γ → δ} {f : α → Except ε γ} {g : β → Except ε δ}
    {l : List α} (hfg : ∀ a ∈ l, g (r a) = (f a).map h) :
    (l.map r).mapM g = (l.mapM f).map (map h) := by
  induction l with
  | nil => rfl
  | cons a rest ih =>
      have hrest := ih fun b hb => hfg b (mem_cons_of_mem a hb)
      rw [map_cons, mapM_cons, mapM_cons, hfg a mem_cons_self, hrest]
      cases f a with
      | error e => rfl
      | ok c =>
          cases rest.mapM f with
          | error e => rfl
          | ok cs => rfl

theorem mapM_eq_ok_iff_forall₂
    {f : α → Except ε β} {l : List α} {results : List β} :
    l.mapM f = .ok results ↔ Forall₂ (fun a b => f a = .ok b) l results := by
  induction l generalizing results with
  | nil =>
      rw [forall₂_nil_left_iff]
      exact ⟨fun h => (Except.ok.inj h).symm, fun h => by rw [h]; rfl⟩
  | cons a rest ih =>
      rw [mapM_cons, forall₂_cons_left_iff]
      constructor
      · intro h
        obtain ⟨b, hb, h⟩ := bind_eq_ok h
        obtain ⟨others, hothers, h⟩ := bind_eq_ok h
        cases h
        exact ⟨b, others, hb, ih.mp hothers, rfl⟩
      · rintro ⟨b, others, hb, hothers, rfl⟩
        rw [hb, ok_bind, ih.mpr hothers]
        rfl

theorem mapM_eq_of_forall₂
    {f : α → Except ε γ} {g : β → Except ε γ} {l : List α} {l' : List β}
    (h : Forall₂ (fun a b => f a = g b) l l') : l.mapM f = l'.mapM g := by
  induction h with
  | nil => rfl
  | cons hhead _ ih => rw [mapM_cons, mapM_cons, hhead, ih]

theorem exists_of_mem_mapM
    {f : α → Except ε β} {l : List α} {results : List β}
    (h : l.mapM f = .ok results) {b : β} (hb : b ∈ results) :
    ∃ a ∈ l, f a = .ok b := by
  obtain ⟨hlength, hall⟩ := forall₂_iff_get.mp (mapM_eq_ok_iff_forall₂.mp h)
  obtain ⟨i, hi, rfl⟩ := mem_iff_getElem.mp hb
  exact ⟨l[i], getElem_mem _, hall i (hlength ▸ hi) hi⟩

theorem getElem?_of_mapM_eq_ok
    {f : α → Except ε β} {l : List α} {results : List β}
    (h : l.mapM f = .ok results) {i : Nat} {a : α} (ha : l[i]? = some a) :
    ∃ b, results[i]? = some b ∧ f a = .ok b := by
  obtain ⟨hlength, hall⟩ := forall₂_iff_get.mp (mapM_eq_ok_iff_forall₂.mp h)
  obtain ⟨hi, rfl⟩ := List.getElem?_eq_some_iff.mp ha
  exact ⟨results[i], getElem?_eq_getElem _, hall i hi (hlength ▸ hi)⟩

theorem exists_of_mapM_eq_ok
    {f : α → Except ε β} {l : List α} {results : List β}
    (h : l.mapM f = .ok results) {a : α} (ha : a ∈ l) :
    ∃ b ∈ results, f a = .ok b := by
  obtain ⟨i, hi⟩ := getElem?_of_mem ha
  obtain ⟨b, hb, hab⟩ := getElem?_of_mapM_eq_ok h hi
  exact ⟨b, mem_of_getElem? hb, hab⟩

theorem mapM_eq_ok_map
    {f : α → Except ε β} {g : α → β} {l : List α}
    (h : ∀ a ∈ l, f a = .ok (g a)) : l.mapM f = .ok (l.map g) := by
  induction l with
  | nil => rfl
  | cons first rest ih =>
      rw [mapM_cons, h first mem_cons_self, ok_bind,
        ih fun a ha => h a (mem_cons_of_mem first ha), ok_bind]
      rfl

theorem eq_map_of_mapM_eq_ok
    {f : α → Except ε β} {g : α → β} {l : List α} {results : List β}
    (hfg : ∀ a ∈ l, ∀ b, f a = .ok b → b = g a) (h : l.mapM f = .ok results) :
    results = l.map g := by
  have hall : ∀ a ∈ l, f a = .ok (g a) := by
    intro a ha
    obtain ⟨b, _, hb⟩ := exists_of_mapM_eq_ok h ha
    rw [hb, hfg a ha b hb]
  exact Except.ok.inj (h.symm.trans (mapM_eq_ok_map hall))

theorem map_eq_of_mapM_eq_ok
    {f : α → Except ε β} {g : β → α} {l : List α} {results : List β}
    (hfg : ∀ a ∈ l, ∀ b, f a = .ok b → g b = a) (h : l.mapM f = .ok results) :
    results.map g = l := by
  induction mapM_eq_ok_iff_forall₂.mp h with
  | nil => rfl
  | cons hb hrest ih =>
      rw [map_cons, hfg _ mem_cons_self _ hb, ih (fun a ha =>
        hfg a (mem_cons_of_mem _ ha)) (mapM_eq_ok_iff_forall₂.mpr hrest)]

theorem check_eq_ok_iff
    {c : Prop} [Decidable c] {e : ε} {next : PUnit → Except ε α} {a : α} :
    (if c then throw e >>= next else next ⟨⟩) = .ok a ↔
      ¬c ∧ next ⟨⟩ = .ok a := by
  split
  · next hc => exact ⟨nofun, fun h => absurd hc h.1⟩
  · next hc => exact ⟨fun h => ⟨hc, h⟩, fun h => h.2⟩

theorem exists_mem_flatten_iff
    {f : α → Except ε (List β)} {l : List α} {parts : List (List β)}
    (h : l.mapM f = .ok parts) {P : β → Prop} {Q : α → Prop}
    (hf : ∀ a part, f a = .ok part → ((∃ b ∈ part, P b) ↔ Q a)) :
    (∃ b ∈ parts.flatten, P b) ↔ ∃ a ∈ l, Q a := by
  constructor
  · rintro ⟨b, hb, hP⟩
    obtain ⟨part, hpart, hin⟩ := mem_flatten.mp hb
    obtain ⟨a, ha, hfa⟩ := exists_of_mem_mapM h hpart
    exact ⟨a, ha, (hf a part hfa).mp ⟨b, hin, hP⟩⟩
  · rintro ⟨a, ha, hQ⟩
    obtain ⟨part, hpart, hfa⟩ := exists_of_mapM_eq_ok h ha
    obtain ⟨b, hb, hP⟩ := (hf a part hfa).mpr hQ
    exact ⟨b, mem_flatten.mpr ⟨part, hpart, hb⟩, hP⟩

theorem exists_of_ite_bind
    {c : Prop} [Decidable c] {x y : Except ε α} {next : α → Except ε β} {b : β}
    (h : (if c then x >>= next else y >>= next) = .ok b) :
    ∃ a, (if c then x else y) = .ok a ∧ next a = .ok b := by
  split at h
  · next hc =>
      rw [if_pos hc]
      exact bind_eq_ok h
  · next hc =>
      rw [if_neg hc]
      exact bind_eq_ok h

theorem mem_of_filterAuxM
    {p : α → Except ε Bool} {l acc kept : List α}
    (h : l.filterAuxM p acc = .ok kept) {a : α} (ha : a ∈ kept) :
    a ∈ acc ∨ a ∈ l ∧ p a = .ok true := by
  induction l generalizing acc with
  | nil =>
      cases h
      exact Or.inl ha
  | cons first rest ih =>
      obtain ⟨passes, hfirst, hrest⟩ := bind_eq_ok h
      rcases ih hrest with hacc | ⟨hin, hpasses⟩
      · cases passes with
        | false => exact Or.inl hacc
        | true =>
            rcases mem_cons.mp hacc with rfl | hacc
            · exact Or.inr ⟨mem_cons_self, hfirst⟩
            · exact Or.inl hacc
      · exact Or.inr ⟨mem_cons_of_mem _ hin, hpasses⟩

theorem mem_of_filterM
    {p : α → Except ε Bool} {l kept : List α} (h : l.filterM p = .ok kept)
    {a : α} (ha : a ∈ kept) : a ∈ l ∧ p a = .ok true := by
  obtain ⟨found, hfound, h⟩ := bind_eq_ok h
  cases h
  rcases mem_of_filterAuxM hfound (mem_reverse.mp ha) with hnil | hin
  · cases hnil
  · exact hin

/-- What every step of a fold preserves holds at its end, of all that was
visited. -/
theorem foldlM_induct
    {σ ι : Type} {f : σ → ι → Except ε σ} {I : List ι → σ → Prop}
    (hstep : ∀ done i s s', I done s → f s i = .ok s' → I (done ++ [i]) s')
    {l : List ι} {s s' : σ} (hs : I [] s) (h : l.foldlM f s = .ok s') :
    I l s' := by
  suffices hrun : ∀ (rest done : List ι) (s : σ),
      I done s → rest.foldlM f s = .ok s' →
      I (done ++ rest) s' from hrun l [] s hs h
  intro rest
  induction rest with
  | nil =>
      intro done s hs h
      cases h
      rwa [append_nil]
  | cons i rest ih =>
      intro done s hs h
      rw [foldlM_cons] at h
      obtain ⟨mid, hmid, h⟩ := bind_eq_ok h
      have hrest := ih (done ++ [i]) mid (hstep done i s mid hs hmid) h
      rwa [append_assoc] at hrest

theorem forM_eq_ok
    {f : α → Except ε Unit} {l : List α} (h : l.forM f = .ok ()) {a : α}
    (ha : a ∈ l) : f a = .ok () := by
  induction l with
  | nil => cases ha
  | cons first rest ih =>
      obtain ⟨_, hfirst, hrest⟩ := bind_eq_ok h
      rcases mem_cons.mp ha with rfl | hin
      · exact hfirst
      · exact ih hrest hin

end

namespace Counted

variable {ε β γ : Type}

theorem flatMapM_map
    {f : Nat → Except ε (List β)} {g : Nat → Except ε (List γ)} {h : β → γ}
    (hfg : ∀ i, g i = (f i).map (map h)) (start count : Nat) :
    flatMapM g start count = (flatMapM f start count).map (map h) := by
  rw [flatMapM_eq_flatten_mapM, flatMapM_eq_flatten_mapM]
  have hlists :=
    mapM_map_eq_map (r := id) (l := range' start count) fun i _ => hfg i
  rw [map_id] at hlists
  rw [hlists, map_map, map_map]
  congr 1
  funext lists
  exact map_flatten.symm

theorem exists_of_mem_flatMapM
    {f : Nat → Except ε (List β)} {start count : Nat} {all : List β}
    (h : flatMapM f start count = .ok all) {b : β} (hb : b ∈ all) :
    ∃ i part, f i = .ok part ∧ b ∈ part := by
  rw [flatMapM_eq_flatten_mapM] at h
  obtain ⟨parts, hparts, rfl⟩ := map_eq_ok_iff.mp h
  obtain ⟨part, hpart, hmem⟩ := mem_flatten.mp hb
  obtain ⟨i, _, hi⟩ := exists_of_mem_mapM hparts hpart
  exact ⟨i, part, hi, hmem⟩

theorem subset_of_flatMapM_eq_ok
    {f : Nat → Except ε (List β)} {start count : Nat} {all : List β}
    (h : flatMapM f start count = .ok all) {i : Nat} (hstart : start ≤ i)
    (hi : i < start + count) :
    ∃ part, f i = .ok part ∧ part ⊆ all := by
  rw [flatMapM_eq_flatten_mapM] at h
  obtain ⟨parts, hparts, rfl⟩ := map_eq_ok_iff.mp h
  obtain ⟨part, hpart, hfi⟩ :=
    exists_of_mapM_eq_ok hparts (mem_range'_1.mpr ⟨hstart, hi⟩)
  refine ⟨part, hfi, ?_⟩
  intro b hb
  exact mem_flatten.mpr ⟨part, hpart, hb⟩

theorem foldM_eq_ok
    {σ : Type} {visit : Nat → σ → Except ε σ} {I : Nat → σ → Prop}
    {start count : Nat}
    (hstep : ∀ i s, start ≤ i → i < start + count → I i s →
      ∃ s', visit i s = .ok s' ∧ I (i + 1) s')
    {s : σ} (h : I start s) :
    ∃ s', foldM visit start count s = .ok s' ∧ I (start + count) s' := by
  induction count generalizing start s with
  | zero => exact ⟨s, rfl, h⟩
  | succ count ih =>
      obtain ⟨s₁, hvisit, hs₁⟩ := hstep start s (Nat.le_refl start) (by omega) h
      obtain ⟨s', hrest, hs'⟩ :=
        ih (fun i s hlo hhi => hstep i s (by omega) (by omega)) hs₁
      refine ⟨s', ?_, ?_⟩
      · rw [foldM_succ, hvisit]
        exact hrest
      · rwa [show start + (count + 1) = start + 1 + count by omega]

end Counted

theorem signed64_of_lt {n : Nat} (h : n < 0x8000000000000000) :
    signed64 n = n := by
  unfold signed64
  rw [if_pos h]

@[simp]
theorem lift_ok {ε α : Type} (a : α) :
    (liftM (Except.ok a : Checked α) : Pass ε α) = .ok a := rfl

@[simp]
theorem lift_error {ε α : Type} (fault : Fault) :
    (liftM (Except.error fault : Checked α) : Pass ε α) =
      .error (.fault fault) :=
  rfl

theorem lift_eq_ok_iff {ε α : Type} {x : Checked α} {a : α} :
    (liftM x : Pass ε α) = .ok a ↔ x = .ok a := by
  cases x <;> simp

theorem lift_map {ε α β : Type} (x : Checked α) (f : α → β) :
    (liftM (x.map f) : Pass ε β) = (liftM x : Pass ε α).map f := by
  cases x <;> rfl

theorem within_eq_ok_iff {ε φ α : Type} {f : ε → φ} {x : Pass ε α} {a : α} :
    Pass.within f x = .ok a ↔ x = .ok a := by
  cases x <;> simp [Pass.within, Except.mapError]

/-! ## Same outcome -/

/-- Both stop for the same reason, or both return and the results are
related. -/
def Matches {ε α β : Type} (R : α → β → Prop) : Except ε α → Except ε β → Prop
  | .ok a, .ok b => R a b
  | .error e, .error e' => e = e'
  | _, _ => False

namespace Matches

variable {ε α β γ δ : Type} {R : α → β → Prop} {S : γ → δ → Prop}
variable {x : Except ε α} {y : Except ε β}

theorem bind
    {f : α → Except ε γ} {g : β → Except ε δ} (hxy : Matches R x y)
    (hfg : ∀ a b, R a b → Matches S (f a) (g b)) :
    Matches S (x >>= f) (y >>= g) := by
  cases x with
  | error e =>
      cases y with
      | error e' =>
          rw [error_bind, error_bind]
          exact hxy
      | ok b => exact hxy.elim
  | ok a =>
      cases y with
      | error e' => exact hxy.elim
      | ok b =>
          rw [ok_bind, ok_bind]
          exact hfg a b hxy

theorem ok_left {x : α} (h : Matches R (.ok x) y) : ∃ b, y = .ok b ∧ R x b := by
  cases y with
  | error e => exact h.elim
  | ok b => exact ⟨b, rfl, h⟩

theorem attach (h : Matches R x y) :
    Matches (fun a b => x = .ok a ∧ y = .ok b ∧ R a b) x y := by
  cases x with
  | error e =>
      cases y with
      | error e' => exact h
      | ok b => exact h.elim
  | ok a =>
      obtain ⟨b, rfl, hab⟩ := h.ok_left
      exact ⟨rfl, rfl, hab⟩

theorem mono
    {R' : α → β → Prop} (h : Matches R x y) (hR : ∀ a b, R a b → R' a b) :
    Matches R' x y := by
  rw [← bind_pure x, ← bind_pure y]
  exact h.bind hR

theorem refl (x : Except ε α) : Matches (fun a b => a = b) x x := by
  cases x with
  | error e => exact rfl
  | ok a => exact rfl

theorem lift
    {ε α β : Type} {R : α → β → Prop} {x : Checked α} {y : Checked β}
    (h : Matches R x y) :
    Matches R (liftM x : Pass ε α) (liftM y : Pass ε β) := by
  cases x with
  | error e =>
      cases y with
      | error e' => exact congrArg Stop.fault h
      | ok b => exact h.elim
  | ok a =>
      cases y with
      | error e' => exact h.elim
      | ok b => exact h

theorem foldM
    {σ τ : Type} {R : σ → τ → Prop} {f : Nat → σ → Except ε σ}
    {g : Nat → τ → Except ε τ}
    (hstep : ∀ i s t, R s t → Matches R (f i s) (g i t)) (count start : Nat)
    (s : σ) (t : τ) (hst : R s t) :
    Matches R (Counted.foldM f start count s)
      (Counted.foldM g start count t) := by
  induction count generalizing start s t with
  | zero => exact hst
  | succ count ih =>
      rw [Counted.foldM_succ, Counted.foldM_succ]
      exact (hstep start s t hst).bind fun s' t' hst' =>
        ih (start + 1) s' t' hst'

end Matches

/-! ## Results and reasons to stop -/

/-- A result of the computation has `P`, and a reason for which it stops has
`E`. -/
def Meets {ε α : Type} (E : ε → Prop) (P : α → Prop) : Except ε α → Prop
  | .ok a => P a
  | .error e => E e

namespace Meets

variable {ε α β ι σ : Type} {E : ε → Prop} {P : α → Prop} {Q : β → Prop}
  {x : Except ε α} {l : List ι}

theorem mono {P' : α → Prop} (hx : Meets E P x) (h : ∀ a, P a → P' a) :
    Meets E P' x := by
  cases x with
  | error e => exact hx
  | ok a => exact h a hx

theorem bind
    {f : α → Except ε β} (hx : Meets E P x)
    (hf : ∀ a, x = .ok a → P a → Meets E Q (f a)) : Meets E Q (x >>= f) := by
  cases x with
  | error e => exact hx
  | ok a => exact hf a rfl hx

theorem foldlM
    {I : σ → Prop} {f : σ → ι → Except ε σ}
    (hstep : ∀ i ∈ l, ∀ s, I s → Meets E I (f s i)) {s : σ} (hs : I s) :
    Meets E I (l.foldlM f s) := by
  induction l generalizing s with
  | nil => exact hs
  | cons i rest ih =>
      rw [foldlM_cons]
      apply (hstep i mem_cons_self s hs).bind
      intro s' _ hs'
      exact ih (fun j hj => hstep j (mem_cons_of_mem i hj)) hs'

theorem mapM {f : ι → Except ε α} (h : ∀ i ∈ l, Meets E P (f i)) :
    Meets E (fun as => ∀ a ∈ as, P a) (l.mapM f) := by
  induction l with
  | nil => exact forall_mem_nil P
  | cons i rest ih =>
      rw [mapM_cons]
      apply (h i mem_cons_self).bind
      intro a _ ha
      apply (ih fun j hj => h j (mem_cons_of_mem i hj)).bind
      intro as _ has
      exact forall_mem_cons.mpr ⟨ha, has⟩

theorem forM
    {f : ι → Except ε Unit} (h : ∀ i ∈ l, Meets E (fun _ => True) (f i)) :
    Meets E (fun _ => True) (l.forM f) := by
  induction l with
  | nil => exact trivial
  | cons i rest ih =>
      apply (h i mem_cons_self).bind
      intro _ _ _
      exact ih fun j hj => h j (mem_cons_of_mem i hj)

theorem filterM
    {test : ι → Except ε Bool} (h : ∀ i ∈ l, Meets E (fun _ => True) (test i)) :
    Meets E (fun _ => True) (l.filterM test) := by
  have haux : ∀ acc, Meets E (fun _ => True) (l.filterAuxM test acc) := by
    induction l with
    | nil => exact fun acc => trivial
    | cons i rest ih =>
        intro acc
        apply (h i mem_cons_self).bind
        intro passes _ _
        exact ih (fun j hj => h j (mem_cons_of_mem i hj)) _
  exact (haux []).bind fun kept _ _ => trivial

theorem find?
    {E : Fault → Prop} {P : ι → Prop} {test : ι → Checked Bool}
    (h : ∀ i ∈ l, Meets E (fun passes => passes = true → P i) (test i)) :
    Meets E (fun found => ∀ i, found = some i → i ∈ l ∧ P i)
      (Checked.find? test l) := by
  induction l with
  | nil => exact nofun
  | cons i rest ih =>
      apply (h i mem_cons_self).bind
      intro passes _ hpasses
      cases passes with
      | true =>
          rintro j ⟨⟩
          exact ⟨mem_cons_self, hpasses rfl⟩
      | false =>
          apply (ih fun j hj => h j (mem_cons_of_mem i hj)).mono
          intro found hfound j hj
          exact ⟨mem_cons_of_mem i (hfound j hj).1, (hfound j hj).2⟩

end Meets

/-! ## Nothing but an exhausted word -/

/-- The computation returns a result with the property, or it stops with `e`. -/
def Settles {ε α : Type} (e : ε) (P : α → Prop) (x : Except ε α) : Prop :=
  x = .error e ∨ ∃ a, x = .ok a ∧ P a

theorem settles_iff_meets {ε α : Type} {e : ε} {P : α → Prop} {x : Except ε α} :
    Settles e P x ↔ Meets (· = e) P x := by
  cases x <;> simp [Settles, Meets]

namespace Settles

variable {ε α β : Type} {e : ε} {P : α → Prop} {Q : β → Prop} {x : Except ε α}

theorem ok {a : α} (h : P a) : Settles e P (.ok a) := Or.inr ⟨a, rfl, h⟩

theorem of_eq_ok {a : α} (hx : Settles e P x) (h : x = .ok a) : P a := by
  rcases hx with hstop | ⟨b, hreturn, hb⟩
  · rw [h] at hstop
    cases hstop
  · rw [h] at hreturn
    cases hreturn
    exact hb

theorem bind
    {f : α → Except ε β} (hx : Settles e P x)
    (hf : ∀ a, P a → Settles e Q (f a)) : Settles e Q (x >>= f) := by
  simp only [settles_iff_meets] at hx hf ⊢
  exact hx.bind fun a _ => hf a

theorem mono {P' : α → Prop} (hx : Settles e P x) (h : ∀ a, P a → P' a) :
    Settles e P' x := by
  rw [settles_iff_meets] at hx ⊢
  exact hx.mono h

theorem lift
    {ε α : Type} {P : α → Prop} {fault : Fault} {x : Checked α}
    (hx : Settles fault P x) :
    Settles (Stop.fault fault) P (liftM x : Pass ε α) := by
  rcases hx with hstop | ⟨a, hreturn, ha⟩
  · left
    rw [hstop, lift_error]
  · right
    exact ⟨a, by rw [hreturn, lift_ok], ha⟩

theorem foldlM
    {σ ι : Type} {I : σ → Prop} {f : σ → ι → Except ε σ} {l : List ι}
    (hstep : ∀ i ∈ l, ∀ s, I s → Settles e I (f s i)) {s : σ} (hs : I s) :
    Settles e I (l.foldlM f s) := by
  simp only [settles_iff_meets] at hstep ⊢
  exact Meets.foldlM hstep hs

theorem foldM
    {σ : Type} {I : σ → Prop} {f : Nat → σ → Except ε σ} {stop : Nat}
    (hstep : ∀ i s, i < stop → I s → Settles e I (f i s)) (count start : Nat)
    (s : σ) (hstop : start + count ≤ stop) (hs : I s) :
    Settles e I (Counted.foldM f start count s) := by
  rw [Counted.foldM_eq_foldlM]
  apply foldlM _ hs
  intro i hi s
  rw [mem_range'_1] at hi
  exact hstep i s (by omega)

theorem mapM
    {ι : Type} {f : ι → Except ε α} {l : List ι}
    (h : ∀ i ∈ l, Settles e P (f i)) :
    Settles e (fun as => ∀ a ∈ as, P a) (l.mapM f) := by
  simp only [settles_iff_meets] at h ⊢
  exact Meets.mapM h

theorem mapM_eq_error
    {ι : Type} {f : ι → Except ε α} {l : List ι}
    (h : ∀ i ∈ l, Settles e P (f i)) {i : ι} (hi : i ∈ l)
    (hstop : f i = .error e) : l.mapM f = .error e := by
  rcases mapM h with hfail | ⟨results, hreturn, _⟩
  · exact hfail
  · obtain ⟨b, _, hb⟩ := exists_of_mapM_eq_ok hreturn hi
    rw [hstop] at hb
    cases hb

end Settles

/-! ## Computations that return -/

def Returns {ε α : Type} (x : Except ε α) : Prop := ∃ a, x = .ok a

theorem returns_iff_meets {ε α : Type} {x : Except ε α} :
    Returns x ↔ Meets (fun _ => False) (fun _ => True) x := by
  cases x <;> simp [Returns, Meets]

namespace Returns

variable {ε α β ι σ : Type} {x : Except ε α} {l : List ι}

theorem ok (a : α) : Returns (.ok a : Except ε α) := ⟨a, rfl⟩

theorem bind
    {f : α → Except ε β} (hx : Returns x)
    (hf : ∀ a, x = .ok a → Returns (f a)) : Returns (x >>= f) := by
  obtain ⟨a, ha⟩ := hx
  rw [ha, ok_bind]
  exact hf a ha

theorem lift {x : Checked α} (hx : Returns x) :
    Returns (liftM x : Pass ε α) := by
  obtain ⟨a, ha⟩ := hx
  exact ⟨a, lift_eq_ok_iff.mpr ha⟩

theorem foldlM
    {f : σ → ι → Except ε σ} (h : ∀ i ∈ l, ∀ s, Returns (f s i)) (s : σ) :
    Returns (l.foldlM f s) := by
  simp only [returns_iff_meets] at h ⊢
  exact Meets.foldlM (fun i hi s _ => h i hi s) trivial

theorem foldM
    {visit : Nat → σ → Except ε σ} {start count : Nat}
    (h : ∀ i s, start ≤ i → i < start + count → Returns (visit i s)) (s : σ) :
    Returns (Counted.foldM visit start count s) := by
  rw [Counted.foldM_eq_foldlM]
  apply foldlM
  intro i hi s
  rw [mem_range'_1] at hi
  exact h i s hi.1 hi.2

theorem mapM {f : ι → Except ε α} (h : ∀ i ∈ l, Returns (f i)) :
    Returns (l.mapM f) := by
  simp only [returns_iff_meets] at h ⊢
  exact (Meets.mapM h).mono fun _ _ => trivial

theorem filterM {test : ι → Except ε Bool} (h : ∀ i ∈ l, Returns (test i)) :
    Returns (l.filterM test) := by
  simp only [returns_iff_meets] at h ⊢
  exact Meets.filterM h

theorem find? {test : ι → Checked Bool} (h : ∀ i ∈ l, Returns (test i)) :
    Returns (Checked.find? test l) := by
  simp only [returns_iff_meets] at h ⊢
  exact (Meets.find? (P := fun _ => True) fun i hi =>
    (h i hi).mono fun _ _ _ => trivial).mono fun _ _ => trivial

theorem bind_iff {f : α → Except ε β} :
    Returns (x >>= f) ↔ ∃ a, x = .ok a ∧ Returns (f a) := by
  cases x with
  | error e =>
      rw [error_bind]
      constructor
      · rintro ⟨_, h⟩
        cases h
      · rintro ⟨_, h, _⟩
        cases h
  | ok a =>
      rw [ok_bind]
      constructor
      · exact fun h => ⟨a, rfl, h⟩
      · rintro ⟨_, ⟨⟩, h⟩
        exact h

theorem map_iff {f : α → β} : Returns (x.map f) ↔ Returns x := by
  rw [← bind_pure_eq_map, bind_iff]
  constructor
  · rintro ⟨a, ha, _⟩
    exact ⟨a, ha⟩
  · rintro ⟨a, ha⟩
    exact ⟨a, ha, ok (f a)⟩

theorem mapM_iff {f : ι → Except ε α} :
    Returns (l.mapM f) ↔ ∀ i ∈ l, Returns (f i) := by
  refine ⟨?_, mapM⟩
  rintro ⟨results, hresults⟩ i hi
  obtain ⟨a, _, ha⟩ := exists_of_mapM_eq_ok hresults hi
  exact ⟨a, ha⟩

theorem iff_of_eq_ite
    {c : Prop} [Decidable c] {a : α} {e : ε}
    (h : x = if c then .ok a else .error e) : Returns x ↔ c := by
  by_cases hc : c
  · rw [if_pos hc] at h
    exact iff_of_true ⟨a, h⟩ hc
  · rw [if_neg hc] at h
    apply iff_of_false _ hc
    rintro ⟨b, hb⟩
    rw [h] at hb
    cases hb

end Returns

theorem mapM_eq_error_iff
    {ε α β : Type} {f : α → Except ε β} {l : List α} {e : ε} :
    l.mapM f = .error e ↔ ∃ before a after, l = before ++ a :: after ∧
      (∀ b ∈ before, Returns (f b)) ∧ f a = .error e := by
  induction l with
  | nil =>
      constructor
      · intro h
        cases h
      · rintro ⟨before, a, after, hsplit, _⟩
        simp at hsplit
  | cons first rest ih =>
      rw [mapM_cons]
      cases hfirst : f first with
      | error e' =>
          rw [error_bind]
          constructor
          · rintro ⟨⟩
            exact ⟨[], first, rest, rfl, by simp, hfirst⟩
          · rintro ⟨before, a, after, hsplit, hbefore, ha⟩
            cases before with
            | nil =>
                cases hsplit
                cases hfirst.symm.trans ha
                rfl
            | cons b before =>
                cases hsplit
                obtain ⟨result, hresult⟩ := hbefore first mem_cons_self
                cases hfirst.symm.trans hresult
      | ok result =>
          rw [ok_bind, bind_pure_eq_map, map_eq_error_iff, ih]
          constructor
          · rintro ⟨before, a, after, rfl, hbefore, ha⟩
            refine ⟨first :: before, a, after, rfl, ?_, ha⟩
            rintro b (_ | ⟨_, hb⟩)
            · exact ⟨result, hfirst⟩
            · exact hbefore b hb
          · rintro ⟨before, a, after, hsplit, hbefore, ha⟩
            cases before with
            | nil =>
                cases hsplit
                cases hfirst.symm.trans ha
            | cons b before =>
                cases hsplit
                exact ⟨before, a, after, rfl,
                  fun b hb => hbefore b (mem_cons_of_mem _ hb), ha⟩

/-! ## Following another computation -/

/-- When the first returns, the second returns something related, unless it
stops with `e`. -/
def Follows
    {ε α β : Type} (e : ε) (R : α → β → Prop) (x : Except ε α)
    (y : Except ε β) : Prop :=
  ∀ a, x = .ok a → Settles e (R a) y

namespace Follows

variable {ε α β γ δ : Type} {e : ε} {R : α → β → Prop} {S : γ → δ → Prop}
variable {x : Except ε α} {y : Except ε β}

theorem bind
    {f : α → Except ε γ} {g : β → Except ε δ} (hxy : Follows e R x y)
    (hfg : ∀ a b, R a b → Follows e S (f a) (g b)) :
    Follows e S (x >>= f) (y >>= g) := by
  intro c hc
  obtain ⟨a, ha, hfa⟩ := bind_eq_ok hc
  apply Settles.bind (hxy a ha)
  intro b hab
  exact hfg a b hab c hfa

theorem ok {a : α} {b : β} (h : R a b) : Follows e R (.ok a) (.ok b) := by
  intro a' ha'
  cases ha'
  exact Settles.ok h

theorem of_matches (h : Matches R x y) : Follows e R x y := by
  intro a ha
  rw [ha] at h
  obtain ⟨b, hb, hab⟩ := h.ok_left
  exact Or.inr ⟨b, hb, hab⟩

theorem foldM
    {σ τ : Type} {R : σ → τ → Prop} {f : Nat → σ → Except ε σ}
    {g : Nat → τ → Except ε τ}
    (hstep : ∀ i s t, R s t → Follows e R (f i s) (g i t)) (count start : Nat)
    (s : σ) (t : τ) (hst : R s t) :
    Follows e R (Counted.foldM f start count s)
      (Counted.foldM g start count t) := by
  induction count generalizing start s t with
  | zero => exact ok hst
  | succ count ih =>
      rw [Counted.foldM_succ, Counted.foldM_succ]
      exact (hstep start s t hst).bind fun s' t' hst' =>
        ih (start + 1) s' t' hst'

end Follows

end TileProgram
