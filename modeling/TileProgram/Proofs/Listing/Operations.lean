import TileProgram.Proofs.Listing.Expressions

/-!
# Operations in listings

The line of an operation says what the operation does: two operations with the
same line, on tables that name their tiles alike, make the same writes.
-/

namespace TileProgram

open Kernel List

/-! ## Ends of lines -/

/-- What follows an operation on its line: nothing, or the blanks before a
strategy. -/
def Trailer (s : List Char) : Prop := s = [] ∨ ∃ rest, s = ' ' :: ' ' :: rest

theorem Trailer.stopsAt
    {s stops : List Char} (h : Trailer s) (hblank : ' ' ∈ stops) :
    StopsAt stops s := by
  rcases h with rfl | ⟨rest, rfl⟩
  · exact stopsAt_nil stops
  · exact stopsAt_cons hblank _

theorem Trailer.not_prefix
    {s : List Char} (h : Trailer s) {c : Char} (hc : c ≠ ' ')
    (text : List Char) : ¬ (' ' :: c :: text) <+: s := by
  rintro ⟨rest, hrest⟩
  rcases h with rfl | ⟨_, rfl⟩
  · cases hrest
  · exact hc (cons.inj (cons.inj hrest).2).1

theorem stopsAt_optional_append
    {stops text s : List Char} (b : Bool) (hs : StopsAt stops s)
    (htext : StopsAt stops text) (hne : text ≠ []) :
    StopsAt stops ((if b then text else []) ++ s) := by
  cases b with
  | false => exact hs
  | true =>
      cases text with
      | nil => exact absurd rfl hne
      | cons c rest => exact htext

def pinnedText : Option Nat → List Char
  | some w => ' ' :: 'c' :: ("oalesced=".toList ++ w.repr.toList)
  | none => []

theorem pinnedText_legible (w w' : Option Nat) :
    Legible Trailer (pinnedText w) (pinnedText w') (w = w') := by
  cases w with
  | none =>
      cases w' with
      | none => exact (Legible.nil Trailer).mono (fun _ hs => hs) fun _ => rfl
      | some n' =>
          intro s s' hs _ heq
          exact absurd ⟨_, heq.symm⟩ (hs.not_prefix (by decide) _)
  | some n =>
      cases w' with
      | none =>
          intro s s' _ hs' heq
          exact absurd ⟨_, heq⟩ (hs'.not_prefix (by decide) _)
      | some n' =>
          have hnat : Legible Trailer n.repr.toList n'.repr.toList (n = n') :=
            (Legible.nat (by decide) n n').mono
              (fun _ hs => hs.stopsAt (mem_singleton_self ' ')) id
          exact (Legible.literal (' ' :: 'c' :: "oalesced=".toList) hnat).mono
            (fun _ hs => hs) (congrArg some)

/-! ## The text of an operation -/

/-- What the line of an operation says after its name. -/
def Kernel.opRest (k : Kernel) : TileOp → List Char
  | .alloc tile => ' ' :: (k.tileName tile).toList
  | .copy src dst width =>
      ' ' :: ((k.regionText src).toList ++ (" -> ".toList ++
        ((k.regionText dst).toList ++ pinnedText width)))
  | .fill tile value =>
      ' ' :: ((k.tileName tile).toList ++
        ' ' :: ("= ".toList ++ (Decimal.listingText value).toList))
  | .parallel vars extents body =>
      " (".toList ++
        ([',', ' '].intercalate ((vars.zip extents).map fun (v, e) =>
          v.toList ++ ' ' :: ("< ".toList ++ e.repr.toList)) ++
        ')' :: (" \x7b ".toList ++
          ([';', ' '].intercalate (body.map fun assign =>
          (k.assignText assign).toList) ++ " \x7d".toList)))
  | .gemm a b c transposeA transposeB clear =>
      ' ' :: ((k.tileName a).toList ++
        ((if transposeA then "^T".toList else []) ++ ',' :: ([' '] ++
        ((k.tileName b).toList ++
          ((if transposeB then "^T".toList else []) ++ ' ' :: ("-> ".toList ++
          ((k.tileName c).toList ++
            (if clear then " clear".toList else []))))))))
  | .reduce src dst axis kind clear =>
      '.' :: (kind.name.toList ++
        ' ' :: ((k.tileName src).toList ++ ' ' :: ("-> ".toList ++
        ((k.tileName dst).toList ++
          ' ' :: ("axis=".toList ++ (axis.repr.toList ++
          (if clear then " clear".toList else [])))))))
  | .relayout src dst =>
      ' ' :: ((k.tileName src).toList ++
        ' ' :: ("-> ".toList ++ (k.tileName dst).toList))

theorem Kernel.toList_opText (k : Kernel) (op : TileOp) :
    (k.opText op).toList = op.mnemonic.toList ++ k.opRest op := by
  unfold Kernel.opText
  cases op with
  | alloc tile => simp [Kernel.opRest, TileOp.mnemonic]
  | copy src dst width =>
      cases width <;> simp [Kernel.opRest, TileOp.mnemonic, pinnedText]
  | fill tile value => simp [Kernel.opRest, TileOp.mnemonic]
  | parallel vars extents body =>
      simp [Kernel.opRest, TileOp.mnemonic, Function.comp_def]
  | gemm a b c transposeA transposeB clear =>
      cases transposeA <;> cases transposeB <;> cases clear <;>
        simp [Kernel.opRest, TileOp.mnemonic]
  | reduce src dst axis kind clear =>
      cases clear <;> simp [Kernel.opRest, TileOp.mnemonic]
  | relayout src dst => simp [Kernel.opRest, TileOp.mnemonic]

/-! ## Names in operations -/

def Assign.IsNamed (assign : Assign) : Prop :=
  ∀ a ∈ assign.dst :: assign.value.loads, ∀ i ∈ a.indices, i.IsNamed

instance (assign : Assign) : Decidable assign.IsNamed :=
  inferInstanceAs (Decidable (∀ a ∈ assign.dst :: assign.value.loads,
    ∀ i ∈ a.indices, i.IsNamed))

/-- The variables of an operation are named, and an elementwise loop has one
extent for each variable. -/
def TileOp.IsNamed : TileOp → Prop
  | .copy src dst _ => ∀ a ∈ src.offsets ++ dst.offsets, a.IsNamed
  | .parallel vars extents body =>
      vars.length = extents.length ∧ (∀ v ∈ vars, IsVariable v) ∧
        ∀ assign ∈ body, assign.IsNamed
  | _ => True

instance (op : TileOp) : Decidable op.IsNamed := by
  cases op <;> unfold TileOp.IsNamed <;> infer_instance

section

variable {α : Type} [Element α] {k k' : Kernel}

/-! ## Copies -/

theorem Kernel.SameTable.evalCopy_eq
    (h : k.SameTable k') {src src' dst dst' : Region} (hsrc : src.Same src')
    (hdst : dst.Same dst') (m : Memory α) (env : Bindings) :
    TileOp.evalCopy k m env src dst = TileOp.evalCopy k' m env src' dst' := by
  have helement : ∀ srcBase dstBase srcShape dstShape data linear,
      TileOp.copyElement (α := α)
          src dst srcBase dstBase srcShape dstShape data linear =
        TileOp.copyElement
          src' dst' srcBase dstBase srcShape dstShape data linear := by
    intro srcBase dstBase srcShape dstShape data linear
    unfold TileOp.copyElement
    rw [hsrc.extents, hdst.extents, hdst.tile]
  rw [TileOp.evalCopy_eq, TileOp.evalCopy_eq]
  simp only [helement, Affine.mapM_eval_eq hsrc.offsets,
    Affine.mapM_eval_eq hdst.offsets, Region.numel, hsrc.extents, hdst.extents,
    hsrc.tile, hdst.tile, h.shape]

theorem Kernel.SameTable.copy_legible
    (h : k.SameTable k') {src src' dst dst' : Region}
    {width width' : Option Nat}
    (htiles : ∀ t ∈ (TileOp.copy src dst width).tiles, k.Has t)
    (htiles' : ∀ t ∈ (TileOp.copy src' dst' width').tiles, k'.Has t)
    (hop : (TileOp.copy src dst width).IsNamed)
    (hop' : (TileOp.copy src' dst' width').IsNamed) :
    Legible Trailer (k.opRest (.copy src dst width))
      (k'.opRest (.copy src' dst' width'))
      (∀ (m : Memory α) env, (TileOp.copy src dst width).eval k m env =
        (TileOp.copy src' dst' width').eval k' m env) := by
  have hsrc := h.regionText_legible (htiles src.tile (by simp))
    (htiles' src'.tile (by simp)) (fun a ha => hop a (mem_append_left _ ha))
    (fun a ha => hop' a (mem_append_left _ ha)) fun _ => True
  have hdst := h.regionText_legible (htiles dst.tile (by simp))
    (htiles' dst'.tile (by simp))
    (fun a ha => hop a (mem_append_right _ ha))
    (fun a ha => hop' a (mem_append_right _ ha)) fun _ => True
  have hstored := Legible.literal " -> ".toList
    (Legible.append hdst (pinnedText_legible width width')
      (fun _ _ => trivial) (fun _ _ => trivial))
  have hwhole := Legible.literal [' ']
    (Legible.append hsrc hstored (fun _ _ => trivial) (fun _ _ => trivial))
  simp only [singleton_append] at hwhole
  exact hwhole.mono (fun _ hs => hs) fun hparts =>
    h.evalCopy_eq hparts.1 hparts.2.1

/-! ## Elementwise loops -/

theorem Kernel.toList_assignText (k : Kernel) (assign : Assign) :
    (k.assignText assign).toList =
      (k.accessText assign.dst).toList ++
      (" = ".toList ++ (k.exprText assign.value).toList) := by
  simp [Kernel.assignText]

theorem Kernel.SameTable.assignText_legible
    (h : k.SameTable k') {assign assign' : Assign}
    (htiles : ∀ a ∈ assign.dst :: assign.value.loads, k.Has a.tile)
    (htiles' : ∀ a ∈ assign'.dst :: assign'.value.loads, k'.Has a.tile)
    (hnamed : assign.IsNamed) (hnamed' : assign'.IsNamed) :
    Legible (StopsAt [';', ' ']) (k.assignText assign).toList
      (k'.assignText assign').toList (∀ (m : Memory α) env,
        assign.eval k m env = assign'.eval k' m env) := by
  have hdst :=
    h.accessText_legible (htiles _ mem_cons_self) (htiles' _ mem_cons_self)
      (hnamed _ mem_cons_self) (hnamed' _ mem_cons_self) fun _ => True
  have hloads : assign.value.IsNamed k :=
    ⟨fun a ha => htiles a (mem_cons_of_mem _ ha),
      fun a ha => hnamed a (mem_cons_of_mem _ ha)⟩
  have hloads' : assign'.value.IsNamed k' :=
    ⟨fun a ha => htiles' a (mem_cons_of_mem _ ha),
      fun a ha => hnamed' a (mem_cons_of_mem _ ha)⟩
  have hvalue : Legible _ _ _ (∀ (m : Memory α) env, _) :=
    h.exprText_legible hloads hloads'
  have hwhole := Legible.append hdst (Legible.literal " = ".toList hvalue)
    (fun _ _ => trivial) (fun _ _ => trivial)
  rw [toList_assignText, toList_assignText]
  refine hwhole.mono (fun s hs => hs.mono (by decide)) fun hparts m env => ?_
  unfold Assign.eval
  simp only [hparts.2 m env, h.locate_eq hparts.1 env, hparts.1.tile]

theorem Kernel.startsOff_assignText
    {assign : Assign} (hplain : IsPlain (k.tileName assign.dst.tile)) :
    StartsOff [' '] (k.assignText assign).toList := by
  rw [toList_assignText, toList_accessText, append_assoc]
  rcases hname : (k.tileName assign.dst.tile).toList with _ | ⟨c, rest⟩
  · exact ⟨'[', _, rfl, by decide⟩
  · refine ⟨c, _, rfl, ?_⟩
    apply hplain.lacks (by decide)
    rw [hname]
    exact mem_cons_self

theorem range_legible
    {v v' : String} (hv : IsVariable v) (hv' : IsVariable v') (e e' : Nat) :
    Legible (StopsAt [',', ')'])
      (v.toList ++ ' ' :: ("< ".toList ++ e.repr.toList)) (v'.toList ++
        ' ' :: ("< ".toList ++ e'.repr.toList)) ((v, e) = (v', e')) := by
  have hname : Legible (StopsAt [' ']) v.toList v'.toList
      (v.toList = v'.toList) :=
    Legible.word (hv.plain.lacks (by decide)) (hv'.plain.lacks (by decide))
  refine (Legible.append_mark (mem_singleton_self ' ') "< ".toList hname
    (Legible.nat (by decide) e e')).mono (fun _ hs => hs) fun hparts => ?_
  rw [String.toList_inj.mp hparts.1, hparts.2]

theorem space_legible
    {vars vars' : List String} {extents extents' : Shape}
    (hlength : vars.length = extents.length)
    (hlength' : vars'.length = extents'.length)
    (hvars : ∀ v ∈ vars, IsVariable v) (hvars' : ∀ v ∈ vars', IsVariable v) :
    Legible (StopsAt [')'])
      ([',', ' '].intercalate ((vars.zip extents).map fun (v, e) =>
        v.toList ++ ' ' :: ("< ".toList ++ e.repr.toList)))
      ([',', ' '].intercalate ((vars'.zip extents').map fun (v, e) =>
        v.toList ++ ' ' :: ("< ".toList ++ e.repr.toList))) (vars = vars' ∧
        extents = extents') := by
  have hstart : ∀ {vars : List String} {extents : Shape},
      (∀ v ∈ vars, IsVariable v) → ∀ range ∈ vars.zip extents, StartsOff [')']
        (range.1.toList ++ ' ' :: ("< ".toList ++ range.2.repr.toList)) := by
    rintro vars extents hvars ⟨v, e⟩ hin
    exact ((hvars v (of_mem_zip hin).1).startsOff (by decide)).append _
  have hitem : ∀ range ∈ vars.zip extents, ∀ range' ∈ vars'.zip extents',
      Legible (StopsAt [',', ')'])
        (range.1.toList ++ ' ' :: ("< ".toList ++ range.2.repr.toList))
          (range'.1.toList ++ ' ' :: ("< ".toList ++ range'.2.repr.toList))
          (range = range') := by
    rintro ⟨v, e⟩ hin ⟨v', e'⟩ hin'
    exact range_legible (hvars v (of_mem_zip hin).1)
      (hvars' v' (of_mem_zip hin').1) e e'
  refine (Legible.join (by decide) hitem (hstart hvars) (hstart hvars')).mono
    (fun _ hs => hs) fun hranges => ?_
  have hzip : vars.zip extents = vars'.zip extents' :=
    forall₂_eq_eq_eq ▸ hranges
  constructor
  · rw [← map_fst_zip hlength.le, hzip, map_fst_zip hlength'.le]
  · rw [← map_snd_zip hlength.ge, hzip, map_snd_zip hlength'.ge]

theorem Kernel.SameTable.parallel_legible
    (h : k.SameTable k') {vars vars' : List String} {extents extents' : Shape}
    {body body' : List Assign}
    (htiles : ∀ t ∈ (TileOp.parallel vars extents body).tiles, k.Has t)
    (htiles' : ∀ t ∈ (TileOp.parallel vars' extents' body').tiles, k'.Has t)
    (hop : (TileOp.parallel vars extents body).IsNamed)
    (hop' : (TileOp.parallel vars' extents' body').IsNamed) :
    Legible Trailer (k.opRest (.parallel vars extents body))
      (k'.opRest (.parallel vars' extents' body'))
      (∀ (m : Memory α) env, (TileOp.parallel vars extents body).eval k m env =
        (TileOp.parallel vars' extents' body').eval k' m env) := by
  have hinside : ∀ {k : Kernel} {vars : List String} {extents : Shape}
      {body : List Assign},
      (∀ t ∈ (TileOp.parallel vars extents body).tiles, k.Has t) →
      ∀ assign ∈ body,
        ∀ a ∈ assign.dst :: assign.value.loads, k.Has a.tile := by
    intro k vars extents body htiles assign hassign a ha
    exact htiles _ (TileOp.mem_tiles_of_access hassign ha)
  have hstmts : Legible (StopsAt [' '])
      ([';', ' '].intercalate (body.map fun assign =>
        (k.assignText assign).toList))
      ([';', ' '].intercalate (body'.map fun assign =>
        (k'.assignText assign).toList))
      (Forall₂ (fun assign assign' => ∀ (m : Memory α) env,
        assign.eval k m env = assign'.eval k' m env) body body') := by
    refine Legible.join (by decide) ?_ ?_ ?_
    · intro assign hassign assign' hassign'
      exact h.assignText_legible (hinside htiles assign hassign)
        (hinside htiles' assign' hassign') (hop.2.2 assign hassign)
        (hop'.2.2 assign' hassign')
    · intro assign hassign
      exact startsOff_assignText
        (h.plain _ (hinside htiles assign hassign _ mem_cons_self))
    · intro assign hassign
      exact startsOff_assignText
        (h.plain' _ (hinside htiles' assign hassign _ mem_cons_self))
  have hwhole := Legible.literal " (".toList
    (Legible.append_mark (mem_singleton_self ')') " \x7b ".toList
      (space_legible hop.1 hop'.1 hop.2.1 hop'.2.1)
      (Legible.append_mark (mem_singleton_self ' ') ['\x7d'] hstmts
        (Legible.nil Trailer)))
  refine hwhole.mono (fun _ hs => hs) ?_
  rintro ⟨⟨rfl, rfl⟩, hbody, _⟩ m env
  have hmapM : ∀ env,
      body.mapM (Assign.eval k m env) = body'.mapM (Assign.eval k' m env) :=
    fun env => mapM_eq_of_forall₂ (hbody.imp fun _ _ heval => heval m env)
  simp only [TileOp.eval, TileOp.evalParallel_eq, hmapM]

/-! ## Operations on whole tiles -/

theorem Kernel.SameTable.eval_eq
    (h : k.SameTable k') (op : TileOp) (m : Memory α) (env : Bindings) :
    op.eval k m env = op.eval k' m env :=
  TileOp.eval_congr (fun t _ => h.shape t) (fun _ _ => rfl) (fun _ _ => rfl)

theorem clear_legible (clear clear' : Bool) :
    Legible Trailer (if clear then " clear".toList else [])
      (if clear' then " clear".toList else []) (clear = clear') :=
  Legible.optional (fun _ hs => hs.not_prefix (by decide) _) clear clear'

theorem stopsAt_clear (clear : Bool) {s : List Char} (hs : Trailer s) :
    StopsAt [' '] ((if clear then " clear".toList else []) ++ s) :=
  stopsAt_optional_append clear (hs.stopsAt (mem_singleton_self ' '))
    (stopsAt_cons (mem_singleton_self ' ') _) (cons_ne_nil _ _)

theorem Kernel.SameTable.operand_legible
    (h : k.SameTable k') {t t' : TileId} (ht : k.Has t) (ht' : k'.Has t')
    (turned turned' : Bool) {c : Char} (hc : c ∈ listingMarks) (hturn : c ≠ '^')
    (gap : List Char) {x y : List Char} {P : Prop} {T : List Char → Prop}
    (hrest : Legible T x y P) :
    Legible T
      ((k.tileName t).toList ++
        ((if turned then "^T".toList else []) ++ c :: (gap ++ x)))
      ((k'.tileName t').toList ++
        ((if turned' then "^T".toList else []) ++ c :: (gap ++ y)))
      (t = t' ∧ turned = turned' ∧ P) := by
  have hmark : ∀ s, StopsAt [c] s → ¬ "^T".toList <+: s := by
    rintro s hs ⟨rest, rfl⟩
    exact hturn (mem_singleton.mp (hs '^' rfl)).symm
  have hname : Legible (StopsAt ['^', c]) (k.tileName t).toList
      (k'.tileName t').toList (t = t') :=
    h.tileName_legible ht ht' (by
      rintro d hd
      rcases mem_cons.mp hd with rfl | hd
      · decide
      · rw [mem_singleton.mp hd]
        exact hc)
  have hstops : ∀ (turned : Bool) (s : List Char),
      StopsAt ['^', c] ((if turned then "^T".toList else []) ++ c :: s) := by
    intro turned s
    exact stopsAt_optional_append turned (stopsAt_cons (by simp) s)
      (stopsAt_cons mem_cons_self _) (cons_ne_nil _ _)
  have hturned := Legible.append_mark (mem_singleton_self c) gap
    (Legible.optional hmark turned turned') hrest
  refine Legible.append hname hturned ?_ ?_
  · intro s _
    rw [append_assoc]
    exact hstops turned _
  · intro s _
    rw [append_assoc]
    exact hstops turned' _

theorem Kernel.SameTable.gemm_legible
    (h : k.SameTable k') {a a' b b' c c' : TileId}
    {transposeA transposeA' transposeB transposeB' clear clear' : Bool}
    (htiles : ∀ t ∈ (TileOp.gemm a b c transposeA transposeB clear).tiles,
      k.Has t)
    (htiles' :
      ∀ t ∈ (TileOp.gemm a' b' c' transposeA' transposeB' clear').tiles,
        k'.Has t) :
    Legible Trailer (k.opRest (.gemm a b c transposeA transposeB clear))
      (k'.opRest (.gemm a' b' c' transposeA' transposeB' clear'))
      (TileOp.gemm a b c transposeA transposeB clear =
        .gemm a' b' c' transposeA' transposeB' clear') := by
  have hmem : ∀ (a b c : TileId) (transposeA transposeB clear : Bool),
      ∀ t ∈ [a, b, c],
        t ∈ (TileOp.gemm a b c transposeA transposeB clear).tiles := by
    intro a b c transposeA transposeB clear t ht
    simpa using ht
  have hlt := fun t ht => htiles t (hmem a b c transposeA transposeB clear t ht)
  have hlt' :=
    fun t ht => htiles' t (hmem a' b' c' transposeA' transposeB' clear' t ht)
  have hsum :=
    Legible.append (h.tileName_legible (hlt c (by simp)) (hlt' c' (by simp))
      (by decide)) (clear_legible clear clear') (fun _ => stopsAt_clear clear)
      (fun _ => stopsAt_clear clear')
  have hright :=
    h.operand_legible (hlt b (by simp)) (hlt' b' (by simp)) transposeB
      transposeB' (by decide : ' ' ∈ listingMarks) (by decide) "-> ".toList hsum
  have hleft :=
    h.operand_legible (hlt a (by simp)) (hlt' a' (by simp)) transposeA
      transposeA' (by decide : ',' ∈ listingMarks) (by decide) [' '] hright
  refine (Legible.literal [' '] hleft).mono (fun _ hs => hs) ?_
  rintro ⟨rfl, rfl, rfl, rfl, rfl, rfl⟩
  rfl

theorem ReduceKind.name_injective : Function.Injective ReduceKind.name := by
  intro kind kind' h
  cases kind <;> cases kind' <;> first | rfl | exact absurd h (by decide)

theorem ReduceKind.name_legible (kind kind' : ReduceKind) :
    Legible (StopsAt [' ']) kind.name.toList kind'.name.toList
      (kind = kind') := by
  refine Legible.names (fun kind => ?_) ReduceKind.name_injective kind kind'
  cases kind <;> decide

theorem Kernel.SameTable.reduce_legible
    (h : k.SameTable k') {src src' dst dst' : TileId} {axis axis' : Nat}
    {kind kind' : ReduceKind} {clear clear' : Bool}
    (htiles : ∀ t ∈ (TileOp.reduce src dst axis kind clear).tiles, k.Has t)
    (htiles' : ∀ t ∈ (TileOp.reduce src' dst' axis' kind' clear').tiles,
      k'.Has t) :
    Legible Trailer (k.opRest (.reduce src dst axis kind clear))
      (k'.opRest (.reduce src' dst' axis' kind' clear'))
      (TileOp.reduce src dst axis kind clear =
        .reduce src' dst' axis' kind' clear') := by
  have hmem : ∀ (src dst : TileId) axis kind (clear : Bool), ∀ t ∈ [src, dst],
      t ∈ (TileOp.reduce src dst axis kind clear).tiles := by
    intro src dst axis kind clear t ht
    simpa using ht
  have hlt := fun t ht => htiles t (hmem src dst axis kind clear t ht)
  have hlt' := fun t ht => htiles' t (hmem src' dst' axis' kind' clear' t ht)
  have haxis := Legible.append (Legible.nat (by decide) axis axis')
    (clear_legible clear clear') (fun _ => stopsAt_clear clear)
    (fun _ => stopsAt_clear clear')
  have hdst := Legible.append_mark (mem_singleton_self ' ') "axis=".toList
    (h.tileName_legible (hlt dst (by simp)) (hlt' dst' (by simp)) (by decide))
    haxis
  have hsrc := Legible.append_mark (mem_singleton_self ' ') "-> ".toList
    (h.tileName_legible (hlt src (by simp)) (hlt' src' (by simp)) (by decide))
    hdst
  have hkind := Legible.append_mark (mem_singleton_self ' ') []
    (ReduceKind.name_legible kind kind') hsrc
  refine (Legible.literal ['.'] hkind).mono (fun _ hs => hs) ?_
  rintro ⟨rfl, rfl, rfl, rfl, rfl⟩
  rfl

theorem Kernel.lacks_tileName
    (hplain : ∀ t, k.Has t → IsPlain (k.tileName t)) (t : TileId) :
    Lacks [' '] (k.tileName t).toList := by
  by_cases ht : k.Has t
  · exact (hplain t ht).lacks (by decide)
  · have hname : k.tileName t = "<unknown>" := by
      unfold Kernel.tileName Kernel.tile?
      rw [Array.getElem?_eq_none (Nat.le_of_not_lt ht)]
      rfl
    rw [hname]
    decide

theorem Kernel.SameTable.opRest_legible
    (h : k.SameTable k') {op op' : TileOp} (htiles : ∀ t ∈ op.tiles, k.Has t)
    (htiles' : ∀ t ∈ op'.tiles, k'.Has t) (hop : op.IsNamed)
    (hop' : op'.IsNamed) (hname : op.mnemonic = op'.mnemonic) :
    Legible Trailer (k.opRest op) (k'.opRest op')
      (∀ (m : Memory α) env, op.eval k m env = op'.eval k' m env) := by
  have hsame : op = op' →
      ∀ (m : Memory α) env, op.eval k m env = op'.eval k' m env := by
    rintro rfl m env
    exact h.eval_eq op m env
  have hblank : ∀ s, Trailer s → StopsAt [' '] s :=
    fun s hs => hs.stopsAt (mem_singleton_self ' ')
  cases op with
  | alloc t =>
      cases op' with
      | alloc t' =>
          have hword := Legible.word (lacks_tileName h.plain t)
            (lacks_tileName h.plain' t')
          exact (Legible.literal [' '] hword).mono hblank fun _ _ _ => rfl
      | _ => simp [TileOp.mnemonic] at hname
  | copy src dst width =>
      cases op' with
      | copy src' dst' width' => exact h.copy_legible htiles htiles' hop hop'
      | _ => simp [TileOp.mnemonic] at hname
  | fill t value =>
      cases op' with
      | fill t' value' =>
          have htile := h.tileName_legible (htiles t (by simp))
            (htiles' t' (by simp)) (by decide : [' '] ⊆ listingMarks)
          have hvalue : Legible Trailer _ _ (_ = _) :=
            (Legible.word
              ((Decimal.isPlain_listingText value).lacks (by decide))
              ((Decimal.isPlain_listingText value').lacks (by decide))).mono
              hblank id
          have hwhole := Legible.literal [' ']
            (Legible.append_mark (mem_singleton_self ' ') "= ".toList htile
              hvalue)
          refine hwhole.mono (fun _ hs => hs) fun hparts => hsame ?_
          rw [hparts.1,
            Decimal.listingText_injective (String.toList_inj.mp hparts.2)]
      | _ => simp [TileOp.mnemonic] at hname
  | parallel vars extents body =>
      cases op' with
      | parallel vars' extents' body' =>
          exact h.parallel_legible htiles htiles' hop hop'
      | _ => simp [TileOp.mnemonic] at hname
  | gemm a b c transposeA transposeB clear =>
      cases op' with
      | gemm a' b' c' transposeA' transposeB' clear' =>
          exact (h.gemm_legible htiles htiles').mono (fun _ hs => hs) hsame
      | _ => simp [TileOp.mnemonic] at hname
  | reduce src dst axis kind clear =>
      cases op' with
      | reduce src' dst' axis' kind' clear' =>
          exact (h.reduce_legible htiles htiles').mono (fun _ hs => hs) hsame
      | _ => simp [TileOp.mnemonic] at hname
  | relayout src dst =>
      cases op' with
      | relayout src' dst' =>
          have hsrc := h.tileName_legible (htiles src (by simp))
            (htiles' src' (by simp)) (by decide : [' '] ⊆ listingMarks)
          have hdst := h.tileName_legible (htiles dst (by simp))
            (htiles' dst' (by simp)) (by decide : [' '] ⊆ listingMarks)
          have hwhole := Legible.literal [' ']
            (Legible.append_mark (mem_singleton_self ' ') "-> ".toList hsrc
              (hdst.mono hblank id))
          refine hwhole.mono (fun _ hs => hs) fun hparts => hsame ?_
          rw [hparts.1, hparts.2]
      | _ => simp [TileOp.mnemonic] at hname

end

end TileProgram
