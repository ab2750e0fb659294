import Mathlib.Data.List.Forall2
import Std.Data.String.ToInt
import TileProgram.Proofs.Lists

/-!
# Texts that can be told apart

A text is put together from words, numbers and fixed marks, with nothing but the
marks to show where a part ends.  `Legible` says of two texts, whatever stands
after them, that they can be read alike in one way only.  It is kept by the ways
in which texts are put together, so that a grammar is read part by part.
-/

namespace TileProgram

open List

variable {stops : List Char} {c : Char}

def Lacks (marks text : List Char) : Prop := ∀ c ∈ text, c ∉ marks

instance (marks text : List Char) : Decidable (Lacks marks text) :=
  decidableBAll _ text

/-- The text is empty or begins with one of `stops`. -/
def StopsAt (stops s : List Char) : Prop := ∀ c ∈ s.head?, c ∈ stops

theorem stopsAt_nil (stops : List Char) : StopsAt stops [] := by
  intro c hc
  cases hc

theorem stopsAt_cons (h : c ∈ stops) (s : List Char) :
    StopsAt stops (c :: s) := by
  intro d hd
  cases hd
  exact h

theorem StopsAt.mono
    {more s : List Char} (h : StopsAt stops s) (hsub : stops ⊆ more) :
    StopsAt more s :=
  fun c hc => hsub (h c hc)

/-- The text begins with something that is not one of `stops`. -/
def StartsOff (stops x : List Char) : Prop :=
  ∃ c rest, x = c :: rest ∧ c ∉ stops

theorem StartsOff.not_stopsAt
    {x : List Char} (h : StartsOff stops x) (s : List Char) :
    ¬ StopsAt stops (x ++ s) := by
  rcases h with ⟨c, rest, rfl, hc⟩
  intro hstops
  exact hc (hstops c rfl)

theorem startsOff_of_lacks {x : List Char} (hne : x ≠ []) (h : Lacks stops x) :
    StartsOff stops x := by
  cases x with
  | nil => exact absurd rfl hne
  | cons c rest => exact ⟨c, rest, rfl, h c mem_cons_self⟩

theorem StartsOff.mono
    {fewer x : List Char} (h : StartsOff stops x) (hsub : fewer ⊆ stops) :
    StartsOff fewer x := by
  rcases h with ⟨c, rest, hx, hc⟩
  exact ⟨c, rest, hx, fun hin => hc (hsub hin)⟩

theorem StartsOff.append
    {x : List Char} (h : StartsOff stops x) (s : List Char) :
    StartsOff stops (x ++ s) := by
  rcases h with ⟨c, rest, rfl, hc⟩
  exact ⟨c, rest ++ s, rfl, hc⟩

/-! ## Numerals -/

@[simp] theorem toString_string (s : String) : toString s = s := rfl

theorem toList_pushn (s : String) (c : Char) (n : Nat) :
    (s.pushn c n).toList = s.toList ++ replicate n c := by
  rw [String.pushn_eq_repeat_push]
  induction n with
  | zero => simp [Nat.repeat]
  | succ n ih =>
      rw [Nat.repeat, String.toList_push, ih, append_assoc, ← replicate_succ']

theorem isDigit_of_mem_repr {n : Nat} (h : c ∈ n.repr.toList) :
    c.isDigit = true := by
  rw [Nat.toList_repr] at h
  exact Nat.isDigit_of_mem_toDigits (by decide) (by decide) h

theorem exists_repr_eq_cons (n : Nat) :
    ∃ c rest, n.repr.toList = c :: rest ∧ c.isDigit = true := by
  rcases hrepr : n.repr.toList with _ | ⟨c, rest⟩
  · have hlen := Nat.length_repr_pos (n := n)
    rw [← String.length_toList, hrepr] at hlen
    exact absurd hlen (Nat.lt_irrefl 0)
  · exact ⟨c, rest, rfl,
      isDigit_of_mem_repr (by rw [hrepr]; exact mem_cons_self)⟩

theorem repr_toList_ne_nil (n : Nat) : n.repr.toList ≠ [] := by
  rcases exists_repr_eq_cons n with ⟨c, rest, hrepr, _⟩
  rw [hrepr]
  exact cons_ne_nil c rest

theorem isDigit_or_eq_of_mem_int_repr {z : Int} (h : c ∈ z.repr.toList) :
    c.isDigit = true ∨ c = '-' := by
  rw [Int.repr_eq_if] at h
  split at h
  · exact .inl (isDigit_of_mem_repr h)
  · rw [String.toList_append] at h
    rcases mem_append.mp h with h | h
    · exact .inr (mem_singleton.mp h)
    · exact .inl (isDigit_of_mem_repr h)

theorem int_repr_toList_ne_nil (z : Int) : z.repr.toList ≠ [] := by
  rw [Int.repr_eq_if]
  split
  · exact repr_toList_ne_nil _
  · simp

/-! ## Reading -/

/-- Whatever follows them in `T`, the texts `x` and `y` are read alike only if
`P` holds, and then what follows is read alike too. -/
def Legible (T : List Char → Prop) (x y : List Char) (P : Prop) : Prop :=
  ∀ s s', T s → T s' → x ++ s = y ++ s' → P ∧ s = s'

namespace Legible

variable {T T' : List Char → Prop} {x y x' y' : List Char} {P Q : Prop}

theorem mono (h : Legible T' x y P) (htail : ∀ s, T s → T' s) (hP : P → Q) :
    Legible T x y Q := by
  intro s s' hs hs' heq
  rcases h s s' (htail s hs) (htail s' hs') heq with ⟨hp, hrest⟩
  exact ⟨hP hp, hrest⟩

theorem literal (text : List Char) (h : Legible T x y P) :
    Legible T (text ++ x) (text ++ y) P := by
  intro s s' hs hs' heq
  rw [append_assoc, append_assoc] at heq
  exact h s s' hs hs' (append_cancel_left heq)

theorem nil (T : List Char → Prop) : Legible T [] [] True :=
  fun _ _ _ _ heq => ⟨trivial, heq⟩

/-- One text after another: what follows the first are the texts that begin with
the second. -/
theorem append
    (h : Legible T' x y P) (h' : Legible T x' y' Q)
    (hx : ∀ s, T s → T' (x' ++ s)) (hy : ∀ s, T s → T' (y' ++ s)) :
    Legible T (x ++ x') (y ++ y') (P ∧ Q) := by
  intro s s' hs hs' heq
  rw [append_assoc, append_assoc] at heq
  rcases h _ _ (hx s hs) (hy s' hs') heq with ⟨hp, hrest⟩
  rcases h' s s' hs hs' hrest with ⟨hq, htail⟩
  exact ⟨⟨hp, hq⟩, htail⟩

theorem append_mark
    (hc : c ∈ stops) (gap : List Char) (h : Legible (StopsAt stops) x y P)
    (h' : Legible T x' y' Q) :
    Legible T (x ++ c :: (gap ++ x')) (y ++ c :: (gap ++ y')) (P ∧ Q) :=
  append h (literal (c :: gap) h') (fun _ _ => stopsAt_cons hc _)
    (fun _ _ => stopsAt_cons hc _)

theorem word {w w' : List Char} (hw : Lacks stops w) (hw' : Lacks stops w') :
    Legible (StopsAt stops) w w' (w = w') := by
  intro s s' hs hs' heq
  exact append_inj_of_head hw hw' (fun c hc hnot => hnot (hs c hc))
    (fun c hc hnot => hnot (hs' c hc)) heq

theorem names
    {A : Type} {name : A → String} (hclear : ∀ a, Lacks stops (name a).toList)
    (hinj : Function.Injective name) (a b : A) :
    Legible (StopsAt stops) (name a).toList (name b).toList (a = b) :=
  (word (hclear a) (hclear b)).mono (fun _ hs => hs) fun h =>
    hinj (String.toList_inj.mp h)

/-- A text that is there or not, where nothing else begins like it. -/
theorem optional
    {text : List Char} (htail : ∀ s, T s → ¬ text <+: s) (b b' : Bool) :
    Legible T (if b then text else []) (if b' then text else []) (b = b') := by
  intro s s' hs hs' heq
  cases b <;> cases b'
  · exact ⟨rfl, heq⟩
  · exact absurd ⟨s', heq.symm⟩ (htail s hs)
  · exact absurd ⟨s, heq⟩ (htail s' hs')
  · exact ⟨rfl, append_cancel_left heq⟩

/-! ## Lists -/

section Join

variable {A B : Type} {p : A → List Char} {q : B → List Char} {R : A → B → Prop}
  {sep : Char} {gap ends : List Char}

/-- The items after the first, each behind the separator. -/
private def following
    (sep : Char) (gap : List Char) (items : List (List Char)) : List Char :=
  items.flatMap fun item => sep :: (gap ++ item)

private theorem intercalate_cons (item : List Char) (items : List (List Char)) :
    (sep :: gap).intercalate (item :: items) = item ++
      following sep gap items := by
  induction items generalizing item with
  | nil => simp [following]
  | cons next rest ih =>
      rw [intercalate_cons_cons, ih next]
      simp [following]

theorem startsOff_join
    {l : List A} (hne : l ≠ []) (hstart : ∀ a ∈ l, StartsOff stops (p a)) :
    StartsOff stops ((sep :: gap).intercalate (l.map p)) := by
  cases l with
  | nil => exact absurd rfl hne
  | cons a l =>
      rw [map_cons, intercalate_cons]
      exact (hstart a mem_cons_self).append _

private theorem stopsAt_following
    (items : List (List Char)) {s : List Char} (hs : StopsAt ends s) :
    StopsAt (sep :: ends) (following sep gap items ++ s) := by
  cases items with
  | nil => exact hs.mono (subset_cons_self sep ends)
  | cons item rest => exact stopsAt_cons mem_cons_self _

private theorem following_inj
    (hsep : sep ∉ ends) {l : List A} {l' : List B}
    (hitem : ∀ a ∈ l,
      ∀ b ∈ l', Legible (StopsAt (sep :: ends)) (p a) (q b) (R a b)) :
    Legible (StopsAt ends) (following sep gap (l.map p))
      (following sep gap (l'.map q)) (Forall₂ R l l') := by
  have hne : ∀ s r, StopsAt ends s → s ≠ sep :: r := by
    rintro s r hs rfl
    exact hsep (hs sep rfl)
  induction l generalizing l' with
  | nil =>
      intro s s' hs hs' heq
      cases l' with
      | nil => exact ⟨.nil, heq⟩
      | cons b l' => exact absurd heq (hne s _ hs)
  | cons a l ih =>
      intro s s' hs hs' heq
      cases l' with
      | nil => exact absurd heq.symm (hne s' _ hs')
      | cons b l' =>
          have hhead := hitem a mem_cons_self b mem_cons_self
          have hrest := ih fun a ha b hb =>
            hitem a (mem_cons_of_mem _ ha) b (mem_cons_of_mem _ hb)
          have hboth := literal (sep :: gap) (append hhead hrest
            (fun _ => stopsAt_following _) (fun _ => stopsAt_following _))
          rcases hboth s s' hs hs' (by simpa [following] using heq) with
            ⟨⟨hab, hl⟩, htail⟩
          exact ⟨.cons hab hl, htail⟩

/-- Items between separators are read one by one, if no item looks like the
end. -/
theorem join
    (hsep : sep ∉ ends) {l : List A} {l' : List B}
    (hitem : ∀ a ∈ l,
      ∀ b ∈ l', Legible (StopsAt (sep :: ends)) (p a) (q b) (R a b))
    (hstart : ∀ a ∈ l, StartsOff ends (p a))
    (hstart' : ∀ b ∈ l', StartsOff ends (q b)) :
    Legible (StopsAt ends) ((sep :: gap).intercalate (l.map p))
      ((sep :: gap).intercalate (l'.map q)) (Forall₂ R l l') := by
  intro s s' hs hs' heq
  cases l with
  | nil =>
      cases l' with
      | nil => exact ⟨.nil, heq⟩
      | cons b l' =>
          rw [map_cons, intercalate_cons, append_assoc] at heq
          have hstop : StopsAt ends (q b ++ _) := heq.subst hs
          exact absurd hstop ((hstart' b mem_cons_self).not_stopsAt _)
  | cons a l =>
      cases l' with
      | nil =>
          rw [map_cons, intercalate_cons, append_assoc] at heq
          have hstop : StopsAt ends (p a ++ _) := heq.symm.subst hs'
          exact absurd hstop ((hstart a mem_cons_self).not_stopsAt _)
      | cons b l' =>
          have hhead := hitem a mem_cons_self b mem_cons_self
          have hrest : Legible (StopsAt ends) (following sep gap (l.map p))
              (following sep gap (l'.map q)) (Forall₂ R l l') :=
            following_inj hsep fun a ha b hb =>
              hitem a (mem_cons_of_mem _ ha) b (mem_cons_of_mem _ hb)
          rw [map_cons, map_cons, intercalate_cons, intercalate_cons] at heq
          rcases append hhead hrest (fun _ => stopsAt_following _) (fun _ =>
            stopsAt_following _) s s' hs hs' heq with ⟨⟨hab, hl⟩, htail⟩
          exact ⟨.cons hab hl, htail⟩

end Join

/-! ## Numbers -/

theorem nat (hstops : stops.any Char.isDigit = false) (n m : Nat) :
    Legible (StopsAt stops) n.repr.toList m.repr.toList (n = m) := by
  have hclear : ∀ (n : Nat), Lacks stops n.repr.toList := by
    intro n c hc hin
    exact any_eq_false.mp hstops c hin (isDigit_of_mem_repr hc)
  exact (word (hclear n) (hclear m)).mono (fun _ hs => hs)
    (fun h => Nat.repr_inj.mp (String.toList_inj.mp h))

theorem nats
    {sep : Char} {gap ends : List Char} (hsep : sep ∉ ends)
    (hdigit : (sep :: ends).any Char.isDigit = false) (l l' : List Nat) :
    Legible (StopsAt ends)
      ((sep :: gap).intercalate (l.map fun n => n.repr.toList))
      ((sep :: gap).intercalate (l'.map fun n => n.repr.toList))
      (l = l') := by
  have hstart : ∀ n : Nat, StartsOff ends n.repr.toList := by
    intro n
    rcases exists_repr_eq_cons n with ⟨c, rest, hrepr, hc⟩
    exact ⟨c, rest, hrepr, fun hin =>
      any_eq_false.mp hdigit c (mem_cons_of_mem _ hin) hc⟩
  have hjoin : Legible (StopsAt ends) ((sep :: gap).intercalate (l.map fun n =>
      n.repr.toList)) ((sep :: gap).intercalate (l'.map fun n => n.repr.toList))
      (Forall₂ (· = ·) l l') :=
    join hsep (fun n _ m _ => nat hdigit n m) (fun n _ => hstart n)
      (fun n _ => hstart n)
  exact hjoin.mono (fun _ h => h) fun h => forall₂_eq_eq_eq ▸ h

end Legible

end TileProgram
