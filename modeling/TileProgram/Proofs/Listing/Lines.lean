import TileProgram.Proofs.Listing.Operations

/-!
# Lines of a listing

No part of a listing breaks a line, if its names do not, and no line begins with
a blank.  So the lines and their depths are read back from the text, and from
them the nesting of loops: a body ends where the depth falls or a schedule
begins.
-/

namespace TileProgram

open Kernel List

/-! ## Texts on one line -/

def OneLine (s : String) : Prop := '\n' ∉ s.toList

instance (s : String) : Decidable (OneLine s) :=
  inferInstanceAs (Decidable ('\n' ∉ s.toList))

@[simp] theorem newline_not_mem_toDigits (n : Nat) :
    '\n' ∉ Nat.toDigits 10 n := by
  intro hin
  rw [← Nat.toList_repr] at hin
  have hdigit := isDigit_of_mem_repr hin
  cases hdigit

@[simp] theorem newline_not_mem_int_repr (z : Int) : '\n' ∉ z.repr.toList := by
  intro hin
  rcases isDigit_or_eq_of_mem_int_repr hin with hdigit | heq
  · cases hdigit
  · cases heq

theorem oneLine_append {s t : String} (hs : OneLine s) (ht : OneLine t) :
    OneLine (s ++ t) := by
  unfold OneLine at *
  simp [hs, ht]

theorem oneLine_intercalate
    {sep : String} (hsep : OneLine sep) {l : List String}
    (h : ∀ s ∈ l, OneLine s) : OneLine (sep.intercalate l) := by
  induction l with
  | nil => simp [OneLine]
  | cons s rest ih =>
      have hrest := ih fun s hs => h s (mem_cons_of_mem _ hs)
      by_cases hnil : rest = []
      · rw [hnil, String.intercalate_singleton]
        exact h s mem_cons_self
      · rw [String.intercalate_cons_of_ne_nil hnil]
        exact oneLine_append (oneLine_append (h s mem_cons_self) hsep) hrest

theorem IsPlain.oneLine {name : String} (h : IsPlain name) : OneLine name := by
  have hmark : '\n' ∈ listingMarks := by decide
  exact fun hin => h _ hin hmark

theorem Atom.oneLine_text (atom : Atom) : OneLine atom.text := by
  unfold Atom.text
  cases atom <;> simp [OneLine]

theorem RegisterLayout.oneLine_text (f : RegisterLayout) : OneLine f.text := by
  cases f with
  | operand atom warps replicas transposed =>
      have hatom : '\n' ∉ atom.text.toList := atom.oneLine_text
      change OneLine (toString "fragment(" ++ toString atom.text ++
        toString " warps=" ++ toString warps.rows ++ toString "x" ++
        toString warps.cols ++ toString
        (if 1 < replicas then toString " x" ++ toString replicas else "") ++
        toString (if transposed then " T" else "") ++ toString ")")
      split <;> split <;> simp [OneLine, hatom]
  | striped threads vector =>
      change OneLine (toString "striped(threads=" ++ toString threads ++
        toString ", vector=" ++ toString vector ++ toString ")")
      simp [OneLine]

theorem Layout.oneLine_text (l : Layout) : OneLine l.text := by
  rcases l with ⟨shape, kind⟩
  unfold Layout.text
  cases kind with
  | rowMajor => simp [OneLine]
  | padded pad => simp [OneLine]
  | swizzled s => simp [OneLine]
  | fragment f => exact f.oneLine_text

/-- A strategy whose instruction has a name on one line. -/
def Strategy.IsNamed : Strategy → Prop
  | matrix instruction _ _ _ => OneLine instruction
  | _ => True

instance (s : Strategy) : Decidable s.IsNamed := by
  cases s <;> unfold Strategy.IsNamed <;> infer_instance

theorem Strategy.oneLine_text {s : Strategy} (h : s.IsNamed) :
    OneLine s.text := by
  unfold Strategy.text
  cases s with
  | bulk engine bytes => cases engine <;> simp [BulkEngine.name, OneLine]
  | vector width => simp [OneLine]
  | matrix instruction shape warps repeats =>
      have hname : '\n' ∉ instruction.toList := h
      simp [OneLine, hname]
  | scalar => simp [OneLine]

theorem oneLine_strategyText
    {s : Option Strategy} (h : ∀ strategy ∈ s, strategy.IsNamed) :
    OneLine (Kernel.strategyText s) := by
  cases s with
  | none => simp [Kernel.strategyText, OneLine]
  | some strategy =>
      exact oneLine_append (by simp [OneLine])
        (Strategy.oneLine_text (h strategy rfl))

/-! ## Expressions and operations -/

theorem Affine.oneLine_text {a : Affine} (h : a.IsNamed) : OneLine a.text := by
  rw [text_eq_intercalate]
  apply oneLine_intercalate (by simp [OneLine])
  intro s hs
  rcases mem_append.mp hs with hs | hs
  · rcases mem_map.mp hs with ⟨t, ht, rfl⟩
    have hvar : '\n' ∉ t.1.text.toList := (h t ht).plain.oneLine
    unfold OneLine
    rw [toList_termText, factorText]
    split <;> simp [hvar]
  · unfold constantText at hs
    split at hs
    · rw [mem_singleton.mp hs]
      exact newline_not_mem_int_repr _
    · cases hs

theorem oneLine_affineList {l : List Affine} (h : ∀ a ∈ l, a.IsNamed) :
    OneLine (Kernel.affineList l) := by
  apply oneLine_intercalate (by simp [OneLine])
  intro s hs
  rcases mem_map.mp hs with ⟨a, ha, rfl⟩
  exact Affine.oneLine_text (h a ha)

section

variable {k : Kernel} (hplain : ∀ t, k.Has t → IsPlain (k.tileName t))

include hplain

theorem Kernel.oneLine_tileName (t : TileId) : OneLine (k.tileName t) := by
  by_cases ht : k.Has t
  · exact (hplain t ht).oneLine
  · unfold Kernel.tileName Kernel.tile?
    rw [Array.getElem?_eq_none (Nat.le_of_not_lt ht)]
    simp [OneLine]

theorem Kernel.oneLine_regionText
    {r : Region} (h : ∀ a ∈ r.offsets, a.IsNamed) :
    OneLine (k.regionText r) := by
  have hname : '\n' ∉ (k.tileName r.tile).toList :=
    oneLine_tileName hplain r.tile
  have hoffsets : '\n' ∉ (Kernel.affineList r.offsets).toList :=
    oneLine_affineList h
  have hextents : '\n' ∉ ("x".intercalate (r.extents.map Nat.repr)).toList := by
    apply oneLine_intercalate (by simp [OneLine])
    intro s hs
    rcases mem_map.mp hs with ⟨n, _, rfl⟩
    simp [OneLine]
  simp [Kernel.regionText, OneLine, hname, hoffsets, hextents,
    -String.toList_intercalate]

theorem Kernel.oneLine_accessText
    {a : Access} (h : ∀ i ∈ a.indices, i.IsNamed) :
    OneLine (k.accessText a) := by
  have hname : '\n' ∉ (k.tileName a.tile).toList :=
    oneLine_tileName hplain a.tile
  have hindices : '\n' ∉ (Kernel.affineList a.indices).toList :=
    oneLine_affineList h
  simp [Kernel.accessText, OneLine, hname, hindices]

theorem Kernel.oneLine_exprText
    {e : Expr} (h : ∀ a ∈ e.loads, ∀ i ∈ a.indices, i.IsNamed) :
    OneLine (k.exprText e) := by
  induction e with
  | load a => exact oneLine_accessText hplain (h a (mem_singleton_self a))
  | const c => exact (Decimal.isPlain_listingText c).oneLine
  | unary op x ih =>
      have hx : '\n' ∉ (k.exprText x).toList := ih h
      cases op <;> simp [Kernel.exprText, UnaryOp.name, OneLine, hx]
  | binary op l r ihl ihr =>
      have hl : '\n' ∉ (k.exprText l).toList :=
        ihl fun a ha => h a (mem_append_left _ ha)
      have hr : '\n' ∉ (k.exprText r).toList :=
        ihr fun a ha => h a (mem_append_right _ ha)
      cases op <;> simp [Kernel.exprText, BinaryOp.name, OneLine, hl, hr]
  | cast type x ih =>
      have hx : '\n' ∉ (k.exprText x).toList := ih h
      cases type <;> simp [Kernel.exprText, ElementType.name, OneLine, hx]

theorem Kernel.oneLine_opText {op : TileOp} (h : op.IsNamed) :
    OneLine (k.opText op) := by
  have hname : ∀ t, '\n' ∉ (k.tileName t).toList := oneLine_tileName hplain
  have hcleared (clear : Bool) :
      '\n' ∉ (if clear then " clear" else "").toList := by
    cases clear <;> decide
  unfold Kernel.opText
  cases op with
  | alloc t => simp [OneLine, hname]
  | copy src dst width =>
      have hsrc : '\n' ∉ (k.regionText src).toList :=
        oneLine_regionText hplain fun a ha => h a (mem_append_left _ ha)
      have hdst : '\n' ∉ (k.regionText dst).toList :=
        oneLine_regionText hplain fun a ha => h a (mem_append_right _ ha)
      cases width <;> simp [OneLine, hsrc, hdst]
  | fill t value =>
      have hvalue : '\n' ∉ (Decimal.listingText value).toList :=
        (Decimal.isPlain_listingText value).oneLine
      simp [OneLine, hname, hvalue]
  | parallel vars extents body =>
      have hspace : OneLine (", ".intercalate
          ((vars.zip extents).map fun range => s!"{range.1} < {range.2}")) := by
        apply oneLine_intercalate (by simp [OneLine])
        intro s hs
        rcases mem_map.mp hs with ⟨⟨v, e⟩, hrange, rfl⟩
        have hv : '\n' ∉ v.toList :=
          (h.2.1 v (of_mem_zip hrange).1).plain.oneLine
        simp [OneLine, hv]
      have hstmts : OneLine ("; ".intercalate (body.map k.assignText)) := by
        apply oneLine_intercalate (by simp [OneLine])
        intro s hs
        rcases mem_map.mp hs with ⟨assign, hassign, rfl⟩
        have hassigned := h.2.2 assign hassign
        have hdst : '\n' ∉ (k.accessText assign.dst).toList :=
          oneLine_accessText hplain (hassigned _ mem_cons_self)
        have hvalue : '\n' ∉ (k.exprText assign.value).toList :=
          oneLine_exprText hplain fun a ha => hassigned a (mem_cons_of_mem _ ha)
        simp [Kernel.assignText, OneLine, hdst, hvalue]
      have hopen :=
        oneLine_append (by simp [OneLine] : OneLine "parallel (") hspace
      have hbrace :=
        oneLine_append hopen (by simp [OneLine] : OneLine ") \x7b ")
      exact oneLine_append (oneLine_append hbrace hstmts)
        (by simp [OneLine] : OneLine " \x7d")
  | gemm a b c transposeA transposeB clear =>
      have hturned (turned : Bool) :
          '\n' ∉ (if turned then "^T" else "").toList := by
        cases turned <;> decide
      simp [OneLine, hname, hturned, hcleared]
  | reduce src dst axis kind clear =>
      have hkind : '\n' ∉ kind.name.toList := by cases kind <;> decide
      simp [OneLine, hname, hkind, hcleared]
  | relayout src dst => simp [OneLine, hname]

end

/-! ## Schedules -/

theorem Iteration.oneLine_text
    {iter : Iteration} {text : String} (h : iter.text = .ok text) :
    OneLine text := by
  cases iter with
  | fixed j =>
      cases h
      simp [OneLine]
  | relative d =>
      simp only [Iteration.text] at h
      split at h
      · cases h
        simp [OneLine]
      · split at h
        · cases h
          simp [OneLine]
        · rcases bind_eq_ok h with ⟨back, _, h⟩
          cases h
          simp [OneLine]

theorem Action.oneLine_text
    {a : Action} {text : String} (h : a.text = .ok text) : OneLine text := by
  cases a with
  | issue op role iter =>
      rcases bind_eq_ok h with ⟨at', hiter, h⟩
      have hiter : '\n' ∉ at'.toList := Iteration.oneLine_text hiter
      cases h
      simp [OneLine, OpId.text, hiter]
  | wait kind iter =>
      cases kind with
      | acquire | release =>
          rcases bind_eq_ok h with ⟨at', hiter, h⟩
          have hiter : '\n' ∉ at'.toList := Iteration.oneLine_text hiter
          cases h
          simp [OneLine, hiter]

namespace StagedLoop

theorem oneLine_stepText
    {actions : List Action} {text : String} (h : stepText actions = .ok text) :
    OneLine text := by
  rcases bind_eq_ok h with ⟨texts, htexts, h⟩
  cases h
  apply oneLine_intercalate (by simp [OneLine])
  intro s hs
  rcases exists_of_mem_mapM htexts hs with ⟨a, _, ha⟩
  exact Action.oneLine_text ha

theorem oneLine_phaseLines
    {name : String} (hname : OneLine name) {steps : List (List Action)}
    {texts : List String} (h : phaseLines name steps = .ok texts) :
    ∀ s ∈ texts, OneLine s := by
  intro s hs
  rcases exists_of_mem_mapM h hs with ⟨⟨actions, i⟩, _, hline⟩
  rcases bind_eq_ok hline with ⟨text, htext, hline⟩
  have htext : '\n' ∉ text.toList := oneLine_stepText htext
  unfold OneLine at hname ⊢
  cases hline
  simp [hname, htext]

theorem oneLine_rotationLine (r : RotatedBuffer) :
    OneLine (rotationLine r) := by
  have hslots :
      OneLine (", ".intercalate (r.slots.toList.map TileId.text)) := by
    apply oneLine_intercalate (by simp [OneLine])
    intro s hs
    rcases mem_map.mp hs with ⟨t, _, rfl⟩
    simp [TileId.text, OneLine]
  have hhead : OneLine s!"rotate {r.logical.text} -> [" := by
    simp [TileId.text, OneLine]
  exact oneLine_append (oneLine_append hhead hslots) (by simp [OneLine])

theorem oneLine_steadyLines
    {steady : Option SteadyState} {texts : List String}
    (h : steadyLines steady = .ok texts) : ∀ s ∈ texts, OneLine s := by
  intro s hs
  cases steady with
  | none =>
      cases h
      cases hs
  | some state =>
      rcases bind_eq_ok h with ⟨text, htext, h⟩
      have htext : '\n' ∉ text.toList := oneLine_stepText htext
      cases h
      rw [mem_singleton.mp hs]
      simp [OneLine, htext]

theorem oneLine_lines
    {l : StagedLoop} {texts : List String} (h : l.lines = .ok texts) :
    ∀ s ∈ texts, OneLine s := by
  rcases bind_eq_ok h with ⟨prologue, hprologue, h⟩
  rcases bind_eq_ok h with ⟨steady, hsteady, h⟩
  rcases bind_eq_ok h with ⟨epilogue, hepilogue, h⟩
  cases h
  intro s hs
  simp only [append_assoc, cons_append, mem_cons, mem_append] at hs
  rcases hs with rfl | hs | hs | hs | hs
  · simp [OneLine]
  · rcases mem_map.mp hs with ⟨r, _, rfl⟩
    exact oneLine_rotationLine r
  · exact oneLine_phaseLines (by simp [OneLine]) hprologue s hs
  · exact oneLine_steadyLines hsteady s hs
  · exact oneLine_phaseLines (by simp [OneLine]) hepilogue s hs

end StagedLoop

/-! ## Lines and their depths -/

def Line.entry (l : Line) : Nat × String := (l.depth, l.text)

structure Line.Tidy (l : Line) : Prop where
  oneLine : OneLine l.text
  start : StartsOff [' '] l.text.toList

def Line.indented (l : Line) : List Char :=
  replicate (2 * l.depth) ' ' ++ l.text.toList

theorem Listing.toList_text_ofLines (lines : List Line) :
    (Listing.ofLines lines).text.toList = lines.flatMap fun l =>
      l.indented ++ ['\n'] := by
  have hfold : ∀ start : Listing, (lines.foldl push start).text.toList =
      start.text.toList ++ lines.flatMap fun l => l.indented ++ ['\n'] := by
    induction lines with
    | nil => exact fun start => (append_nil _).symm
    | cons l rest ih =>
        intro start
        rw [foldl_cons, ih, flatMap_cons]
        simp [push, toList_pushn, Line.indented]
  exact hfold empty

theorem Line.Tidy.lacks_newline {l : Line} (h : l.Tidy) :
    Lacks ['\n'] l.indented := by
  intro c hc hin
  rw [mem_singleton.mp hin] at hc
  rcases mem_append.mp hc with hblank | htext
  · exact absurd (eq_of_mem_replicate hblank) (by decide)
  · exact h.oneLine htext

theorem Line.Tidy.entry_eq
    {l l' : Line} (h : l.Tidy) (h' : l'.Tidy) (heq : l.indented = l'.indented) :
    l.entry = l'.entry := by
  have hblank : ∀ n, ∀ c ∈ replicate n ' ', c = ' ' :=
    fun n c hc => eq_of_mem_replicate hc
  have hstart : ∀ {l : Line},
      l.Tidy → ∀ c ∈ l.text.toList.head?, ¬ c = ' ' := by
    intro l h c hc
    rcases h.start with ⟨d, rest, htext, hd⟩
    rw [htext] at hc
    cases hc
    exact fun heq => hd (mem_singleton.mpr heq)
  rcases append_inj_of_head (hblank _) (hblank _) (hstart h) (hstart h')
    heq with ⟨hdepth, htext⟩
  have hlength := congrArg length hdepth
  rw [length_replicate, length_replicate] at hlength
  unfold Line.entry
  rw [String.toList_inj.mp htext, Nat.eq_of_mul_eq_mul_left (by decide) hlength]

theorem Listing.entries_eq
    {lines lines' : List Line} (h : ∀ l ∈ lines, l.Tidy)
    (h' : ∀ l ∈ lines', l.Tidy)
    (heq : (Listing.ofLines lines).text = (Listing.ofLines lines').text) :
    lines.map Line.entry = lines'.map Line.entry := by
  have hchars := congrArg String.toList heq
  rw [toList_text_ofLines, toList_text_ofLines] at hchars
  clear heq
  induction lines generalizing lines' with
  | nil =>
      cases lines' with
      | nil => rfl
      | cons l' rest' => simp at hchars
  | cons l rest ih =>
      cases lines' with
      | nil => simp at hchars
      | cons l' rest' =>
          have hl := h l mem_cons_self
          have hl' := h' l' mem_cons_self
          rw [flatMap_cons, flatMap_cons, append_assoc, append_assoc] at hchars
          rcases Legible.word hl.lacks_newline hl'.lacks_newline _ _
            (stopsAt_cons (mem_singleton_self _) _)
            (stopsAt_cons (mem_singleton_self _) _) hchars with ⟨hline, hrest⟩
          rw [map_cons, map_cons, hl.entry_eq hl' hline,
            ih (fun l hl => h l (mem_cons_of_mem _ hl))
              (fun l hl => h' l (mem_cons_of_mem _ hl)) (cons.inj hrest).2]

end TileProgram
