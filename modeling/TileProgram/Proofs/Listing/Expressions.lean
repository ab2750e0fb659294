import TileProgram.Kernel.Listing
import TileProgram.Proofs.Decimal.Faithful
import TileProgram.Proofs.Footprint

/-!
# Names and expressions in listings

Index expressions, windows and element expressions are read back from a listing
up to their meaning, as long as the names in them hold none of the marks that
listings are made of and variables look neither like numbers nor like block
coordinates.
-/

namespace TileProgram

open Kernel List

variable {stops : List Char} {v : Var} {a b : Affine} {s : String} {e : Expr}

/-! ## Names -/

/-- Characters that end a name in a listing. -/
def listingMarks : List Char :=
  [' ', '\n', ':', '[', ']', ',', '^', '+', '*', '(', ')', '<', ';']

def IsPlain (name : String) : Prop := Lacks listingMarks name.toList

instance (name : String) : Decidable (IsPlain name) :=
  inferInstanceAs (Decidable (Lacks listingMarks name.toList))

def startsNumber (text : List Char) : Bool :=
  text.head?.all fun c => c.isDigit || c == '-'

/-- A name that can only be read as that of a loop variable. -/
structure IsVariable (name : String) : Prop where
  plain : IsPlain name
  start : startsNumber name.toList = false
  apart : name ∉ ["bx", "by", "bz"]

instance (name : String) : Decidable (IsVariable name) :=
  decidable_of_iff (IsPlain name ∧ startsNumber name.toList = false ∧
    name ∉ ["bx", "by", "bz"])
    ⟨fun h => ⟨h.1, h.2.1, h.2.2⟩, fun h => ⟨h.plain, h.start, h.apart⟩⟩

theorem IsPlain.lacks
    {name : String} (h : IsPlain name) (hstops : stops ⊆ listingMarks) :
    Lacks stops name.toList :=
  fun c hc hin => h c hc (hstops hin)

theorem IsVariable.startsOff
    {name : String} (h : IsVariable name) (hstops : stops ⊆ listingMarks) :
    StartsOff stops name.toList := by
  apply startsOff_of_lacks _ (h.plain.lacks hstops)
  intro hnil
  have hstart := h.start
  rw [hnil] at hstart
  cases hstart

def Var.IsNamed : Var → Prop
  | loop name => IsVariable name
  | block _ => True

instance (v : Var) : Decidable v.IsNamed := by
  cases v <;> unfold Var.IsNamed <;> infer_instance

theorem Var.text_block_mem (axis : Nat) :
    (Var.block axis).text ∈ ["bx", "by", "bz"] := by
  match axis with
  | 0 | 1 | _ + 2 => simp [Var.text]

theorem Var.IsNamed.plain (h : v.IsNamed) : IsPlain v.text := by
  have hblocks : ∀ name ∈ ["bx", "by", "bz"], IsPlain name := by decide
  cases v with
  | loop name => exact IsVariable.plain h
  | block axis => exact hblocks _ (text_block_mem axis)

theorem Var.IsNamed.start (h : v.IsNamed) :
    startsNumber v.text.toList = false := by
  have hblocks : ∀ name ∈ ["bx", "by", "bz"],
      startsNumber name.toList = false := by
    decide
  cases v with
  | loop name => exact IsVariable.start h
  | block axis => exact hblocks _ (text_block_mem axis)

theorem Var.along_eq_of_text
    {axis axis' : Nat} (h : (Var.block axis).text = (Var.block axis').text)
    (d : Dim3) : d.along axis = d.along axis' := by
  match axis, axis' with
  | 0, 0 | 1, 1 | _ + 2, _ + 2 => rfl
  | 0, 1 | 0, _ + 2 | 1, 0 | 1, _ + 2 | _ + 2, 0 | _ + 2, 1 =>
      simp [Var.text] at h

theorem Var.value_eq_of_text
    {v' : Var} (hv : v.IsNamed) (hv' : v'.IsNamed) (h : v.text = v'.text)
    (env : Bindings) : env.value v = env.value v' := by
  cases v with
  | loop name =>
      cases v' with
      | loop name' => exact congrArg (fun name => env.value (.loop name)) h
      | block axis =>
          have hmem : (Var.loop name).text ∈ _ := h ▸ text_block_mem axis
          exact absurd hmem (IsVariable.apart hv)
  | block axis =>
      cases v' with
      | loop name =>
          have hmem : (Var.loop name).text ∈ _ := h.subst (text_block_mem axis)
          exact absurd hmem (IsVariable.apart hv')
      | block axis' => exact congrArg Nat.cast (along_eq_of_text h env.block)

/-! ## Index expressions -/

namespace Affine

def SameValue (a b : Affine) : Prop := ∀ env, a.eval env = b.eval env

def IsNamed (a : Affine) : Prop := ∀ term ∈ a.terms, term.1.IsNamed

instance (a : Affine) : Decidable a.IsNamed :=
  inferInstanceAs (Decidable (∀ term ∈ a.terms, term.1.IsNamed))

/-- The coefficient in a term; one is left out. -/
def factorText (c : Int) : List Char :=
  if c = 1 then [] else '*' :: c.repr.toList

theorem toList_termText (term : Var × Int) :
    (termText term).toList = term.1.text.toList ++ factorText term.2 := by
  rcases term with ⟨v, c⟩
  dsimp only [termText, factorText]
  split
  · exact (append_nil _).symm
  · simp

theorem factorText_inj {c d : Int} (h : factorText c = factorText d) :
    c = d := by
  unfold factorText at h
  split at h <;> split at h
  · next hc hd => rw [hc, hd]
  · cases h
  · cases h
  · exact Int.repr_inj.mp (String.toList_inj.mp (cons.inj h).2)

theorem stopsAt_factorText (c : Int) : StopsAt ['*'] (factorText c) := by
  unfold factorText
  split
  · exact stopsAt_nil _
  · exact stopsAt_cons mem_cons_self _

/-- Terms with one text have the same variable, up to its value, and
coefficient. -/
theorem term_of_termText
    {t t' : Var × Int} (ht : t.1.IsNamed) (ht' : t'.1.IsNamed)
    (h : termText t = termText t') :
    t.1.text = t'.1.text ∧ t.2 = t'.2 := by
  have hchars := congrArg String.toList h
  rw [toList_termText, toList_termText] at hchars
  have hstar : ['*'] ⊆ listingMarks := by decide
  rcases Legible.word (ht.plain.lacks hstar) (ht'.plain.lacks hstar) _ _
    (stopsAt_factorText t.2) (stopsAt_factorText t'.2) hchars with
    ⟨hvar, hfactor⟩
  exact ⟨String.toList_inj.mp hvar, factorText_inj hfactor⟩

/-- The constant in a sum, unless it is left out. -/
def constantText (a : Affine) : List String :=
  if a.constant != 0 || a.terms.isEmpty then [a.constant.repr] else []

def summands (a : Affine) : List String :=
  a.terms.map termText ++ a.constantText

theorem text_eq_intercalate (a : Affine) :
    a.text = "+".intercalate a.summands := by
  unfold text summands constantText
  dsimp only
  rw [isEmpty_map]
  split
  · rfl
  · rw [append_nil]

theorem startsNumber_repr (c : Int) : startsNumber c.repr.toList = true := by
  rw [Int.repr_eq_if]
  split
  · rcases exists_repr_eq_cons c.toNat with ⟨d, rest, hrepr, hd⟩
    rw [hrepr]
    simp [startsNumber, hd]
  · simp [startsNumber]

theorem startsNumber_termText {t : Var × Int} (h : t.1.IsNamed) :
    startsNumber (termText t).toList = false := by
  have hstart := h.start
  rw [toList_termText]
  unfold startsNumber at hstart ⊢
  rcases htext : t.1.text.toList with _ | ⟨c, rest⟩
  · rw [htext] at hstart
    cases hstart
  · rw [htext] at hstart
    exact hstart

theorem foldlM_terms_eq
    {terms terms' : List (Var × Int)} (h : ∀ t ∈ terms, t.1.IsNamed)
    (h' : ∀ t ∈ terms', t.1.IsNamed)
    (htext : terms.map termText = terms'.map termText) (env : Bindings)
    (start : Int) :
    terms.foldlM (fun acc (v, c) => do
        Checked.int64 (acc + (← Checked.int64 (c * env.value v)))) start
      = terms'.foldlM (fun acc (v, c) => do
        Checked.int64 (acc + (← Checked.int64 (c * env.value v)))) start := by
  have hproducts : terms.map (fun t => t.2 * env.value t.1) =
      terms'.map fun t => t.2 * env.value t.1 := by
    refine map_eq_map_of_map_eq (fun t ht t' ht' heq => ?_) htext
    rcases term_of_termText (h t ht) (h' t' ht') heq with ⟨hvar, hcoefficient⟩
    rw [hcoefficient, Var.value_eq_of_text (h t ht) (h' t' ht') hvar env]
  have hsums := congrArg (foldlM (fun acc product => do
    Checked.int64 (acc + (← Checked.int64 product))) start) hproducts
  rwa [foldlM_map, foldlM_map] at hsums

theorem constant_eq_of_constantText (h : a.constantText = b.constantText) :
    a.constant = b.constant := by
  unfold constantText at h
  split at h <;> split at h
  · exact Int.repr_inj.mp (cons.inj h).1
  · cases h
  · cases h
  · next ha hb =>
      simp only [Bool.or_eq_true, bne_iff_ne, ne_eq, not_or, not_not] at ha hb
      rw [ha.1, hb.1]

/-- The summands fix the value: what begins like a number is the constant. -/
theorem sameValue_of_summands
    (ha : a.IsNamed) (hb : b.IsNamed) (h : a.summands = b.summands) :
    SameValue a b := by
  have hterm : ∀ {a : Affine}, a.IsNamed → ∀ s ∈ a.terms.map termText,
      startsNumber s.toList = false := by
    intro a ha s hs
    rcases mem_map.mp hs with ⟨t, ht, rfl⟩
    exact startsNumber_termText (ha t ht)
  have hlast : ∀ (a : Affine),
      ∀ s ∈ a.constantText.head?, ¬ startsNumber s.toList = false := by
    intro a s hs
    unfold constantText at hs
    split at hs
    · cases hs
      rw [startsNumber_repr]
      exact Bool.noConfusion
    · cases hs
  rcases append_inj_of_head (hterm ha) (hterm hb) (hlast a) (hlast b) h with
    ⟨hterms, hconstant⟩
  intro env
  unfold eval
  rw [foldlM_terms_eq ha hb hterms, constant_eq_of_constantText hconstant]

theorem lacks_of_mem_summands (h : a.IsNamed) (hs : s ∈ a.summands) :
    Lacks ['+', ',', ' ', ']'] s.toList := by
  have hnumber : ∀ c : Char, c.isDigit = true ∨ c = '-' →
      c ∉ ['+', ',', ' ', ']'] := by
    rintro c (hc | rfl) hin
    · fin_cases hin <;> cases hc
    · exact absurd hin (by decide)
  intro c hc
  rcases mem_append.mp hs with hs | hs
  · rcases mem_map.mp hs with ⟨t, ht, rfl⟩
    rw [toList_termText] at hc
    rcases mem_append.mp hc with hc | hc
    · exact (h t ht).plain.lacks (by decide) c hc
    · unfold factorText at hc
      split at hc
      · cases hc
      · rcases mem_cons.mp hc with rfl | hc
        · decide
        · exact hnumber c (isDigit_or_eq_of_mem_int_repr hc)
  · unfold constantText at hs
    split at hs
    · rw [mem_singleton.mp hs] at hc
      exact hnumber c (isDigit_or_eq_of_mem_int_repr hc)
    · cases hs

theorem toList_ne_nil_of_mem_summands (h : a.IsNamed) (hs : s ∈ a.summands) :
    s.toList ≠ [] := by
  rcases mem_append.mp hs with hs | hs
  · rcases mem_map.mp hs with ⟨t, ht, rfl⟩
    intro hnil
    have hstart := startsNumber_termText (h t ht)
    rw [hnil] at hstart
    cases hstart
  · unfold constantText at hs
    split at hs
    · rw [mem_singleton.mp hs]
      exact int_repr_toList_ne_nil _
    · cases hs

theorem startsOff_of_mem_summands (h : a.IsNamed) (hs : s ∈ a.summands) :
    StartsOff [',', ' ', ']'] s.toList :=
  startsOff_of_lacks (toList_ne_nil_of_mem_summands h hs) fun c hc hin =>
    lacks_of_mem_summands h hs c hc (mem_cons_of_mem _ hin)

theorem summands_ne_nil (a : Affine) : a.summands ≠ [] := by
  unfold summands constantText
  rcases a with ⟨constant, _ | ⟨t, terms⟩⟩ <;> simp

theorem startsOff_text (h : a.IsNamed) :
    StartsOff [',', ' ', ']'] a.text.toList := by
  rw [text_eq_intercalate, String.toList_intercalate]
  exact Legible.startsOff_join (summands_ne_nil a) fun _ =>
    startsOff_of_mem_summands h

theorem text_legible (ha : a.IsNamed) (hb : b.IsNamed) :
    Legible (StopsAt [',', ' ', ']']) a.text.toList b.text.toList
      (SameValue a b) := by
  have hitem : ∀ s ∈ a.summands, ∀ s' ∈ b.summands,
      Legible (StopsAt ['+', ',', ' ', ']']) s.toList s'.toList (s = s') := by
    intro s hs s' hs'
    exact (Legible.word (lacks_of_mem_summands ha hs)
      (lacks_of_mem_summands hb hs')).mono (fun _ h => h) String.toList_inj.mp
  have hjoin : Legible (StopsAt [',', ' ', ']'])
      (['+'].intercalate (a.summands.map String.toList))
      (['+'].intercalate (b.summands.map String.toList))
      (Forall₂ (· = ·) a.summands b.summands) :=
    Legible.join (by decide) hitem (fun _ => startsOff_of_mem_summands ha)
      (fun _ => startsOff_of_mem_summands hb)
  rw [text_eq_intercalate, text_eq_intercalate, String.toList_intercalate,
    String.toList_intercalate]
  exact hjoin.mono (fun _ h => h) fun h =>
    sameValue_of_summands ha hb (forall₂_eq_eq_eq ▸ h)

theorem mapM_eval_eq
    {l l' : List Affine} (h : Forall₂ SameValue l l') (env : Bindings) :
    l.mapM (·.eval env) = l'.mapM (·.eval env) :=
  mapM_eq_of_forall₂ (h.imp fun _ _ hsame => hsame env)

end Affine

theorem Kernel.affineList_legible
    {l l' : List Affine} (h : ∀ a ∈ l, a.IsNamed) (h' : ∀ a ∈ l', a.IsNamed) :
    Legible (StopsAt [' ', ']']) (affineList l).toList (affineList l').toList
      (Forall₂ Affine.SameValue l l') := by
  have hstart : ∀ {a : Affine},
      a.IsNamed → StartsOff [' ', ']'] a.text.toList := by
    intro a ha
    exact (Affine.startsOff_text ha).mono (by decide)
  unfold affineList
  rw [String.toList_intercalate, String.toList_intercalate, List.map_map,
    List.map_map]
  exact Legible.join (by decide)
    (fun a ha b hb => Affine.text_legible (h a ha) (h' b hb))
    (fun a ha => hstart (h a ha)) (fun b hb => hstart (h' b hb))

/-! ## Windows and accesses -/

/-- Two tables with the same shapes, in which a name stands for one place. -/
structure Kernel.SameTable (k k' : Kernel) : Prop where
  plain : ∀ t, k.Has t → IsPlain (k.tileName t)
  plain' : ∀ t, k'.Has t → IsPlain (k'.tileName t)
  place : ∀ t t' : TileId, k.Has t → k'.Has t' →
    k.tileName t = k'.tileName t' → t = t'
  shape : ∀ t, k.shapeOf t = k'.shapeOf t

section

variable {k k' : Kernel}

theorem Kernel.SameTable.tileName_legible
    (h : k.SameTable k') {t t' : TileId} (ht : k.Has t) (ht' : k'.Has t')
    (hstops : stops ⊆ listingMarks) :
    Legible (StopsAt stops) (k.tileName t).toList (k'.tileName t').toList
      (t = t') :=
  (Legible.word ((h.plain t ht).lacks hstops)
    ((h.plain' t' ht').lacks hstops)).mono (fun _ hs => hs) fun heq =>
    h.place t t' ht ht' (String.toList_inj.mp heq)

structure Region.Same (r r' : Region) : Prop where
  tile : r.tile = r'.tile
  offsets : Forall₂ Affine.SameValue r.offsets r'.offsets
  extents : r.extents = r'.extents

theorem Kernel.toList_regionText (k : Kernel) (r : Region) :
    (k.regionText r).toList = (k.tileName r.tile).toList ++
      '[' :: ((affineList r.offsets).toList ++
      ' ' :: (['+', ':', ' '] ++
        (['x'].intercalate (r.extents.map fun n => n.repr.toList) ++
        [']']))) := by
  simp [Kernel.regionText, Function.comp_def]

theorem Kernel.SameTable.regionText_legible
    (h : k.SameTable k') {r r' : Region} (ht : k.Has r.tile)
    (ht' : k'.Has r'.tile) (hr : ∀ a ∈ r.offsets, a.IsNamed)
    (hr' : ∀ a ∈ r'.offsets, a.IsNamed) (T : List Char → Prop) :
    Legible T (k.regionText r).toList (k'.regionText r').toList
      (r.Same r') := by
  have hextents : Legible (StopsAt [']'])
      (['x'].intercalate (r.extents.map fun n => n.repr.toList))
      (['x'].intercalate (r'.extents.map fun n => n.repr.toList))
      (r.extents = r'.extents) :=
    Legible.nats (by decide) (by decide) r.extents r'.extents
  have hinside := Legible.append_mark mem_cons_self ['+', ':', ' ']
    (affineList_legible hr hr')
    (Legible.append_mark (mem_singleton_self ']') [] hextents (Legible.nil T))
  have hwhole := Legible.append_mark (mem_singleton_self '[') []
    (h.tileName_legible ht ht' (by decide)) hinside
  rw [toList_regionText, toList_regionText]
  exact hwhole.mono (fun _ hs => hs) fun hparts =>
    ⟨hparts.1, hparts.2.1, hparts.2.2.1⟩

structure Access.Same (a a' : Access) : Prop where
  tile : a.tile = a'.tile
  indices : Forall₂ Affine.SameValue a.indices a'.indices

theorem Kernel.toList_accessText (k : Kernel) (a : Access) :
    (k.accessText a).toList =
      (k.tileName a.tile).toList ++
      '[' :: ((affineList a.indices).toList ++ [']']) := by
  simp [Kernel.accessText]

theorem Kernel.SameTable.accessText_legible
    (h : k.SameTable k') {a a' : Access} (ht : k.Has a.tile)
    (ht' : k'.Has a'.tile) (ha : ∀ i ∈ a.indices, i.IsNamed)
    (ha' : ∀ i ∈ a'.indices, i.IsNamed) (T : List Char → Prop) :
    Legible T (k.accessText a).toList (k'.accessText a').toList
      (a.Same a') := by
  have hinside :=
    Legible.append_mark (mem_cons_of_mem ' ' (mem_singleton_self ']'))
      [] (affineList_legible ha ha') (Legible.nil T)
  have hwhole := Legible.append_mark (mem_singleton_self '[') []
    (h.tileName_legible ht ht' (by decide)) hinside
  rw [toList_accessText, toList_accessText]
  exact hwhole.mono (fun _ hs => hs) fun hparts => ⟨hparts.1, hparts.2.1⟩

theorem Kernel.SameTable.locate_eq
    (h : k.SameTable k') {a a' : Access} (ha : a.Same a') (env : Bindings) :
    a.locate k env = a'.locate k' env := by
  rw [Access.locate_eq, Access.locate_eq, Affine.mapM_eval_eq ha.indices,
    ha.tile, h.shape a'.tile]

/-! ## Element expressions -/

/-- The word at which the text of an expression begins. -/
def Kernel.exprWord (k : Kernel) : Expr → String
  | .load a => k.tileName a.tile
  | .const c => Decimal.listingText c
  | .unary op _ => op.name
  | .binary op _ _ => op.name
  | .cast _ _ => "cast"

/-- What the text of an expression says after its first word. -/
def Kernel.exprRest (k : Kernel) : Expr → List Char
  | .load a => '[' :: ((affineList a.indices).toList ++ [']'])
  | .const _ => []
  | .unary _ x => '(' :: ((k.exprText x).toList ++ [')'])
  | .binary _ l r =>
      '(' :: ((k.exprText l).toList ++
        ',' :: ' ' :: ((k.exprText r).toList ++ [')']))
  | .cast type x =>
      '<' :: (type.name.toList ++
        '>' :: '(' :: ((k.exprText x).toList ++ [')']))

/-- The mark after the first word of an expression; a constant has none. -/
def Expr.opening? : Expr → Option Char
  | load _ => some '['
  | const _ => none
  | unary .. | binary .. => some '('
  | cast .. => some '<'

theorem Kernel.toList_exprText (k : Kernel) (e : Expr) :
    (k.exprText e).toList = (k.exprWord e).toList ++ k.exprRest e := by
  cases e <;>
    simp [Kernel.exprText, Kernel.exprWord, Kernel.exprRest, toList_accessText]

theorem Kernel.head?_exprRest (k : Kernel) (e : Expr) :
    (k.exprRest e).head? = e.opening? := by
  cases e <;> rfl

theorem Expr.not_stop_of_opening {c : Char} (h : e.opening? = some c) :
    c ∉ [',', ')', ';', ' '] := by
  cases e <;> cases h <;> decide

theorem UnaryOp.name_injective : Function.Injective UnaryOp.name := by
  intro op op' h
  cases op <;> cases op' <;> first | rfl | exact absurd h (by decide)

theorem BinaryOp.name_injective : Function.Injective BinaryOp.name := by
  intro op op' h
  cases op <;> cases op' <;> first | rfl | exact absurd h (by decide)

theorem UnaryOp.isPlain_name (op : UnaryOp) : IsPlain op.name := by
  cases op <;> decide

theorem BinaryOp.isPlain_name (op : BinaryOp) : IsPlain op.name := by
  cases op <;> decide

theorem UnaryOp.name_ne_name (op : UnaryOp) (op' : BinaryOp) :
    op.name ≠ op'.name := by
  cases op <;> cases op' <;> decide

theorem ElementType.name_injective : Function.Injective ElementType.name := by
  intro type type' h
  cases type <;> cases type' <;> first | rfl | exact absurd h (by decide)

theorem ElementType.name_legible (type type' : ElementType) :
    Legible (StopsAt ['>', '[']) type.name.toList type'.name.toList
      (type = type') := by
  refine Legible.names (fun type => ?_) ElementType.name_injective type type'
  cases type <;> decide

/-- The tiles of an expression are in the table and its variables are named. -/
structure Expr.IsNamed (k : Kernel) (e : Expr) : Prop where
  tile : ∀ a ∈ e.loads, k.Has a.tile
  indices : ∀ a ∈ e.loads, ∀ i ∈ a.indices, i.IsNamed

theorem Expr.IsNamed.operand
    {op : UnaryOp} {x : Expr} (h : (Expr.unary op x).IsNamed k) : x.IsNamed k :=
  ⟨h.tile, h.indices⟩

theorem Expr.IsNamed.inner
    {type : ElementType} {x : Expr} (h : (Expr.cast type x).IsNamed k) :
    x.IsNamed k :=
  ⟨h.tile, h.indices⟩

theorem Expr.IsNamed.left
    {op : BinaryOp} {l r : Expr} (h : (Expr.binary op l r).IsNamed k) :
    l.IsNamed k :=
  ⟨fun a ha => h.tile a (mem_append_left _ ha),
    fun a ha => h.indices a (mem_append_left _ ha)⟩

theorem Expr.IsNamed.right
    {op : BinaryOp} {l r : Expr} (h : (Expr.binary op l r).IsNamed k) :
    r.IsNamed k :=
  ⟨fun a ha => h.tile a (mem_append_right _ ha),
    fun a ha => h.indices a (mem_append_right _ ha)⟩

theorem Decimal.isPlain_listingText (x : Float) :
    IsPlain (Decimal.listingText x) := by
  intro c hc hin
  rcases Decimal.isAlphanum_of_mem_listingText hc with hc | rfl | rfl
  · fin_cases hin <;> cases hc
  · exact absurd hin (by decide)
  · exact absurd hin (by decide)

theorem Expr.IsNamed.isPlain_exprWord (hplain : ∀ t, k.Has t →
    IsPlain (k.tileName t)) (he : e.IsNamed k) : IsPlain (k.exprWord e) := by
  cases e with
  | load a => exact hplain a.tile (he.tile a (mem_singleton_self a))
  | const c => exact Decimal.isPlain_listingText c
  | unary op x => exact op.isPlain_name
  | binary op l r => exact op.isPlain_name
  | cast type x => exact (by decide : IsPlain "cast")

/-- Expressions are told apart by their first word and the mark after it. -/
theorem Kernel.SameTable.exprWord_eq
    (h : k.SameTable k') {e' : Expr} (he : e.IsNamed k) (he' : e'.IsNamed k')
    {s s' : List Char} (hs : StopsAt [',', ')', ';', ' '] s)
    (hs' : StopsAt [',', ')', ';', ' '] s')
    (heq : (k.exprText e).toList ++ s = (k'.exprText e').toList ++ s') :
    k.exprWord e = k'.exprWord e' ∧ e.opening? = e'.opening? ∧
      k.exprRest e ++ s = k'.exprRest e' ++ s' := by
  have hstops : ∀ (k : Kernel) (e : Expr) {s : List Char},
      StopsAt [',', ')', ';', ' '] s →
      StopsAt ['[', '(', '<', ',', ')', ';', ' '] (k.exprRest e ++ s) := by
    intro k e s hs
    cases e with
    | const c => exact hs.mono (by decide)
    | load a => exact stopsAt_cons (by decide) _
    | unary op x => exact stopsAt_cons (by decide) _
    | binary op l r => exact stopsAt_cons (by decide) _
    | cast type x => exact stopsAt_cons (by decide) _
  have hmarks : ['[', '(', '<', ',', ')', ';', ' '] ⊆ listingMarks := by decide
  rw [toList_exprText, toList_exprText, append_assoc, append_assoc] at heq
  rcases Legible.word ((he.isPlain_exprWord h.plain).lacks hmarks)
    ((he'.isPlain_exprWord h.plain').lacks hmarks) _ _ (hstops k e hs)
    (hstops k' e' hs') heq
    with ⟨hword, hrest⟩
  refine ⟨String.toList_inj.mp hword, ?_, hrest⟩
  have hhead := congrArg head? hrest
  rw [head?_append, head?_append, head?_exprRest, head?_exprRest] at hhead
  cases hopen : e.opening? with
  | none =>
      cases hopen' : e'.opening? with
      | none => rfl
      | some c =>
          rw [hopen, hopen', Option.none_or, Option.some_or] at hhead
          exact absurd (hs c hhead) (Expr.not_stop_of_opening hopen')
  | some c =>
      cases hopen' : e'.opening? with
      | none =>
          rw [hopen, hopen', Option.none_or, Option.some_or] at hhead
          exact absurd (hs' c hhead.symm) (Expr.not_stop_of_opening hopen)
      | some c' =>
          rw [hopen, hopen', Option.some_or, Option.some_or] at hhead
          exact hhead

theorem Kernel.SameTable.exprText_legible
    {α : Type} [Element α] (h : k.SameTable k') {e' : Expr} (he : e.IsNamed k)
    (he' : e'.IsNamed k') :
    Legible (StopsAt [',', ')', ';', ' ']) (k.exprText e).toList
      (k'.exprText e').toList
        (∀ (m : Memory α) env, e.eval k m env = e'.eval k' m env) := by
  induction e generalizing e' with
  | load a =>
      intro s s' hs hs' heq
      rcases h.exprWord_eq he he' hs hs' heq with ⟨hword, hopening, hrest⟩
      cases e' with
      | load a' =>
          have ha := mem_singleton_self a
          have ha' := mem_singleton_self a'
          rcases h.accessText_legible (he.tile a ha) (he'.tile a' ha')
            (he.indices a ha) (he'.indices a' ha')
            (StopsAt [',', ')', ';', ' ']) s s' hs hs' heq with ⟨hsame, htail⟩
          refine ⟨fun m env => ?_, htail⟩
          simp only [Expr.eval, h.locate_eq hsame, hsame.tile]
      | const c | unary op x | binary op l r | cast type x => cases hopening
  | const c =>
      intro s s' hs hs' heq
      rcases h.exprWord_eq he he' hs hs' heq with ⟨hword, hopening, hrest⟩
      cases e' with
      | const c' =>
          have hc : c = c' := Decimal.listingText_injective hword
          exact ⟨fun m env => by rw [hc]; rfl, hrest⟩
      | load a | unary op x | binary op l r | cast type x => cases hopening
  | unary op x ih =>
      intro s s' hs hs' heq
      rcases h.exprWord_eq he he' hs hs' heq with ⟨hword, hopening, hrest⟩
      cases e' with
      | unary op' x' =>
          have hx := ih he.operand he'.operand
          rcases Legible.literal
            ['('] (Legible.append_mark (by decide) [] hx (Legible.nil _)) s s'
            hs hs' hrest with ⟨⟨heval, _⟩, htail⟩
          refine ⟨fun m env => ?_, htail⟩
          simp only [Expr.eval, heval, UnaryOp.name_injective hword]
      | binary op' l r => exact absurd hword (UnaryOp.name_ne_name op op')
      | load a | const c | cast type x => cases hopening
  | binary op l r ihl ihr =>
      intro s s' hs hs' heq
      rcases h.exprWord_eq he he' hs hs' heq with ⟨hword, hopening, hrest⟩
      cases e' with
      | binary op' l' r' =>
          have hl := ihl he.left he'.left
          have hr := ihr he.right he'.right
          rcases Legible.literal ['('] (Legible.append_mark (by decide) [' '] hl
            (Legible.append_mark (by decide) [] hr (Legible.nil _))) s s' hs hs'
            hrest
            with ⟨⟨hevall, hevalr, _⟩, htail⟩
          refine ⟨fun m env => ?_, htail⟩
          simp only [Expr.eval, hevall, hevalr, BinaryOp.name_injective hword]
      | unary op' x => exact absurd hword.symm (UnaryOp.name_ne_name op' op)
      | load a | const c | cast type x => cases hopening
  | cast type x ih =>
      intro s s' hs hs' heq
      rcases h.exprWord_eq he he' hs hs' heq with ⟨hword, hopening, hrest⟩
      cases e' with
      | cast type' x' =>
          have hx := ih he.inner he'.inner
          rcases Legible.literal ['<'] (Legible.append_mark mem_cons_self ['(']
            (ElementType.name_legible type type')
            (Legible.append_mark (by decide) [] hx (Legible.nil _))) s s' hs hs'
            hrest
            with ⟨⟨htype, heval, _⟩, htail⟩
          refine ⟨fun m env => ?_, htail⟩
          simp only [Expr.eval, heval, htype]
      | load a | const c | unary op x | binary op l r => cases hopening

end

end TileProgram
