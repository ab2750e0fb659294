import TileProgram.Proofs.Access.RowMajor
import TileProgram.Selection
import TileProgram.Target.Descriptor

/-!
# The width of vector accesses

An operation that no matrix instruction, no engine and no author decides is done
by vector accesses.  Their width starts at the natural one of the leading
element type and is halved until it divides the innermost extent and the runs of
all layouts.  The widths that this visits are all powers of two up to the
natural width if that is one itself, and only then: any other is taken as it is
where it divides everything.
-/

namespace TileProgram

variable {w natural : Nat} {layouts : List Layout} {runs : List Nat}
  {target : Target}

namespace Selection

def Common (inner : Nat) (runs : List Nat) (w : Nat) : Prop :=
  w ∣ inner ∧ ∀ run ∈ runs, w ∣ run

def HaveRuns (layouts : List Layout) (runs : List Nat) : Prop :=
  List.Forall₂ (fun l run => l.contiguousRun = .ok run) layouts runs

def accesses (w : Nat) : Strategy := if 1 < w then .vector w else .scalar

theorem accesses_injOn
    {w' : Nat} (hw : 0 < w) (hw' : 0 < w') (h : accesses w = accesses w') :
    w = w' := by
  unfold accesses at h
  split at h <;> split at h
  · exact Strategy.vector.inj h
  · cases h
  · cases h
  · omega

/-! ## Halving -/

theorem all_dvd_eq_ok (hruns : HaveRuns layouts runs) (w : Nat) :
    ∃ good, Checked.all (fun l => return (← l.contiguousRun) % w == 0) layouts =
      .ok good ∧ (good = true ↔ ∀ run ∈ runs, w ∣ run) := by
  induction hruns with
  | nil => exact ⟨true, rfl, by simp⟩
  | @cons l run layouts runs hrun _ ih =>
      obtain ⟨good, hgood, hiff⟩ := ih
      by_cases hdvd : w ∣ run
      · refine ⟨good, ?_, ?_⟩
        · rw [Checked.all, hrun, ok_bind, pure_bind,
            if_pos (beq_iff_eq.mpr (Nat.mod_eq_zero_of_dvd hdvd)), hgood]
        · simp [hiff, hdvd]
      · refine ⟨false, ?_, ?_⟩
        · rw [Checked.all, hrun, ok_bind, pure_bind,
            if_neg fun h => hdvd (Nat.dvd_of_mod_eq_zero (beq_iff_eq.mp h))]
          rfl
        · simp [hdvd]

theorem fits_eq_ok (hruns : HaveRuns layouts runs) (inner w : Nat) :
    ∃ good, fits inner layouts w = .ok good ∧
      (good = true ↔ Common inner runs w) := by
  unfold fits
  split
  · next hinner =>
      refine ⟨false, rfl, ?_⟩
      have hnot : ¬w ∣ inner := fun h => hinner (Nat.mod_eq_zero_of_dvd h)
      simp [Common, hnot]
  · next hinner =>
      obtain ⟨good, hgood, hiff⟩ := all_dvd_eq_ok hruns w
      refine ⟨good, hgood, ?_⟩
      have hdvd : w ∣ inner := Nat.dvd_of_mod_eq_zero (not_not.mp hinner)
      simp [Common, hdvd, hiff]

/-- The width `w` is what is left of `natural` after some halvings, and not
nothing. -/
def Halved (natural w : Nat) : Prop := 0 < w ∧ ∃ i, w = natural >>> i

theorem halved_iff :
    Halved natural w ↔
      (0 < natural ∧ w = natural) ∨ Halved (natural / 2) w := by
  constructor
  · rintro ⟨hpos, i, rfl⟩
    cases i with
    | zero => exact Or.inl ⟨hpos, rfl⟩
    | succ i =>
        rw [Nat.add_comm, Nat.shiftRight_add] at hpos ⊢
        exact Or.inr ⟨hpos, i, rfl⟩
  · rintro (⟨hpos, rfl⟩ | ⟨hpos, i, rfl⟩)
    · exact ⟨hpos, 0, rfl⟩
    · refine ⟨hpos, 1 + i, ?_⟩
      rw [Nat.shiftRight_add]
      rfl

theorem Halved.le (h : Halved natural w) : w ≤ natural := by
  obtain ⟨-, i, rfl⟩ := h
  rw [Nat.shiftRight_eq_div_pow]
  exact Nat.div_le_self _ _

theorem halveToFit_isGreatest
    (hruns : HaveRuns layouts runs) (inner : Nat) (hpos : 0 < natural) :
    ∃ w, halveToFit inner layouts natural = .ok w ∧
      IsGreatest {w | Halved natural w ∧ Common inner runs w} w := by
  induction natural using Nat.strongRecOn with
  | ind natural ih =>
      rw [halveToFit]
      split
      · next hsmall =>
          obtain rfl : natural = 1 := by omega
          refine ⟨1, rfl, ⟨⟨Nat.one_pos, 0, rfl⟩, ?_⟩, ?_⟩
          · exact ⟨one_dvd inner, fun run _ => one_dvd run⟩
          · exact fun w hw => hw.1.le
      · next hlarge =>
          obtain ⟨good, hgood, hiff⟩ := fits_eq_ok hruns inner natural
          rw [hgood, ok_bind]
          cases good with
          | true =>
              refine ⟨natural, rfl, ⟨⟨hpos, 0, rfl⟩, hiff.mp rfl⟩, ?_⟩
              exact fun w hw => hw.1.le
          | false =>
              obtain ⟨w, hw, ⟨hhalved, hcommon⟩, hgreatest⟩ :=
                ih (natural / 2) (by omega) (by omega)
              refine ⟨w, hw, ⟨halved_iff.mpr (Or.inr hhalved), hcommon⟩, ?_⟩
              -- the natural width does not fit, so its halves are all that is
              -- left
              rintro w' ⟨hhalved', hcommon'⟩
              rcases halved_iff.mp hhalved' with ⟨_, rfl⟩ | hhalf
              · exact absurd (hiff.mpr hcommon') Bool.false_ne_true
              · exact hgreatest ⟨hhalf, hcommon'⟩

theorem halved_iff_isPowerOfTwo (h : natural.isPowerOfTwo) (w : Nat) :
    Halved natural w ↔ w.isPowerOfTwo ∧ w ≤ natural := by
  obtain ⟨e, rfl⟩ := h
  constructor
  · intro hw
    refine ⟨?_, hw.le⟩
    obtain ⟨hpos, i, rfl⟩ := hw
    rw [Nat.shiftRight_eq_div_pow] at hpos ⊢
    have hle : i ≤ e :=
      (Nat.pow_le_pow_iff_right (by decide)).mp (Nat.div_pos_iff.mp hpos).2
    exact ⟨e - i, Nat.pow_div hle (by decide)⟩
  · rintro ⟨⟨i, rfl⟩, hle⟩
    have hle : i ≤ e := (Nat.pow_le_pow_iff_right (by decide)).mp hle
    refine ⟨Nat.two_pow_pos i, e - i, ?_⟩
    rw [Nat.shiftRight_eq_div_pow, Nat.pow_div (Nat.sub_le e i) (by decide),
      Nat.sub_sub_self hle]

theorem vector_isGreatest
    (hruns : HaveRuns layouts runs) (inner : Nat) (target : Target)
    (leading : ElementType) :
    ∃ w, vector target leading inner layouts = .ok (accesses w) ∧
      IsGreatest {w | Halved (target.vectorElements leading) w ∧
        Common inner runs w} w := by
  have hpos : 0 < target.vectorElements leading := Nat.le_max_left 1 _
  obtain ⟨w, hw, hgreatest⟩ := halveToFit_isGreatest hruns inner hpos
  refine ⟨w, ?_, hgreatest⟩
  rw [vector, hw, ok_bind]
  rfl

/-! ## Operations left to vector accesses -/

/-- Selection leaves an operation to vector accesses, led by an element type,
with an innermost extent and the layouts of the tiles that it walks. -/
inductive FallsBack (k : Kernel) (target : Target) (op : OpId) :
    TileOp → ElementType → Nat → List Layout → Prop where
  /-- A copy without a pinned width that no engine takes. -/
  | copy {src dst : Region} {s d : Layout} {t : Tile}
      (hs : layoutOf k op src.tile = .ok s)
      (hd : layoutOf k op dst.tile = .ok d) (ht : k.tile dst.tile = .ok t)
      (hbulk : bulk? k target src dst s d = .ok none) :
      FallsBack k target op (.copy src dst none) t.type
        (dst.extents.getLast?.getD 1) [s, d]
  | fill {tile : TileId} {value : Float} {l : Layout} {t : Tile}
      (hl : layoutOf k op tile = .ok l) (ht : k.tile tile = .ok t) :
      FallsBack k target op (.fill tile value) t.type t.shape.cols [l]
  /-- An elementwise loop whose innermost variable steps the last index of every
  access. -/
  | parallel {vars : List String} {extents : Shape} {body : List Assign}
      {leading : Access} {others : List Access} {layouts : List Layout}
      {t : Tile} (haccesses : (body.flatMap fun a => a.dst :: a.value.loads) =
        leading :: others)
      (hunit : Checked.all (fun a =>
        unitStride (vars.getLast?.getD "") a.indices) (leading :: others) =
        .ok true)
      (hlayouts : List.Forall₂ (fun a l => layoutOf k op a.tile = .ok l)
        (leading :: others) layouts)
      (ht : k.tile leading.tile = .ok t) :
      FallsBack k target op (.parallel vars extents body) t.type
        (extents.getLast?.getD 1) layouts
  /-- A reduction along the innermost axis. -/
  | reduce {src dst : TileId} {axis : Nat} {kind : ReduceKind} {clear : Bool}
      {l : Layout} {t : Tile} (hl : layoutOf k op src = .ok l)
      (ht : k.tile src = .ok t) (haxis : axis + 1 = t.shape.length)
      (hword : t.shape.length < limit64) :
      FallsBack k target op (.reduce src dst axis kind clear) t.type
        t.shape.cols [l]
  | relayout {src dst : TileId} {s d : Layout} {t : Tile}
      (hs : layoutOf k op src = .ok s) (hd : layoutOf k op dst = .ok d)
      (ht : k.tile dst = .ok t) :
      FallsBack k target op (.relayout src dst) t.type t.shape.cols [s, d]

theorem vectorFor_eq_ok
    {k : Kernel} {leading : TileId} {t : Tile} (ht : k.tile leading = .ok t)
    {inner : Nat} {strategy : Strategy}
    (h : vector target t.type inner layouts = .ok strategy) :
    vectorFor k target leading inner layouts = .ok strategy := by
  rw [vectorFor, ht, lift_ok, ok_bind, h, lift_ok]

/-- The strategy of such an operation is that of its vector accesses. -/
theorem FallsBack.strategy?_eq
    {k : Kernel} {id : OpId} {op : TileOp} {leading : ElementType} {inner : Nat}
    (h : FallsBack k target id op leading inner layouts) {strategy : Strategy}
    (hvector : vector target leading inner layouts = .ok strategy) :
    strategy? k target id op = .ok (some strategy) := by
  cases h with
  | copy hs hd ht hbulk =>
      simp only [strategy?, Selection.copy, hs, hd, hbulk, ok_bind, lift_ok,
        vectorFor_eq_ok ht hvector]
      rfl
  | fill hl ht =>
      simp only [strategy?, hl, ht, ok_bind, lift_ok,
        vectorFor_eq_ok ht hvector]
      rfl
  | parallel haccesses hunit hlayouts ht =>
      have hmapM := mapM_eq_ok_iff_forall₂.mpr hlayouts
      simp only [strategy?, Selection.parallel, haccesses, hunit, ok_bind,
        lift_ok, hmapM, Bool.not_true, Bool.false_eq_true, if_false,
        vectorFor_eq_ok ht hvector]
      rfl
  | reduce hl ht haxis hword =>
      simp only [strategy?, hl, ht, haxis, Checked.word64_of_lt hword, ok_bind,
        lift_ok, vectorFor_eq_ok ht hvector]
      rfl
  | relayout hs hd ht =>
      simp only [strategy?, hs, hd, ht, ok_bind, lift_ok,
        vectorFor_eq_ok ht hvector]
      rfl

/-! ## The widest width -/

/-- Each operation left to vector accesses gets the widest of the widths in
question that divides its innermost extent and all its runs. -/
def TakesWidest (target : Target) (leading : ElementType) (Width : Nat → Prop) :
    Prop :=
  ∀ (k : Kernel) (s : Step) (inner : Nat) (layouts : List Layout)
    (runs : List Nat), FallsBack k target s.id s.op leading inner layouts →
    HaveRuns layouts runs →
      ∃ w, k.select target (.step s) = .ok (some (accesses w)) ∧
        IsGreatest {w | Width w ∧ Common inner runs w} w

theorem takesWidest_halved (target : Target) (leading : ElementType) :
    TakesWidest target leading (Halved (target.vectorElements leading)) := by
  intro k s inner layouts runs hfalls hruns
  obtain ⟨w, hw, hgreatest⟩ := vector_isGreatest hruns inner target leading
  exact ⟨w, hfalls.strategy?_eq hw, hgreatest⟩

def filledRow (n : Nat) (type : ElementType) : Kernel :=
  { Kernel.empty "filled_row" with
    tiles :=
      #[{ Tile.plain "x" [n] type .global with layout := some (.rowMajor [n]) }]
    body := .step ⟨⟨0⟩, .fill ⟨0⟩ 0, none⟩ .done
    nextOp := 1 }

theorem contiguousRun_rowMajor_row (n : Nat) :
    (Layout.rowMajor [n]).contiguousRun = .ok n := by
  obtain ⟨m, hm⟩ :=
    (Layout.rowMajor [n]).contiguousRun_returns rfl fun _ _ _ _ => ⟨_, rfl⟩
  rw [hm, Layout.contiguousRun_rowMajor_eq_ok hm]
  rfl

theorem fallsBack_filledRow (target : Target) (n : Nat) (type : ElementType) :
    FallsBack (filledRow n type) target ⟨0⟩ (.fill ⟨0⟩ 0) type n
      [.rowMajor [n]] :=
  .fill (t := { Tile.plain "x" [n] type .global with
    layout := some (.rowMajor [n]) }) rfl rfl

theorem select_filledRow
    {type : ElementType} {n : Nat} (hn : target.vectorElements type = n) :
    (filledRow n type).select target (.step ⟨⟨0⟩, .fill ⟨0⟩ 0, none⟩) =
      .ok (some (accesses n)) := by
  have hpos : 0 < n := hn ▸ Nat.le_max_left 1 _
  obtain ⟨w, hw, ⟨hhalved, _⟩, hgreatest⟩ :=
    takesWidest_halved target type (filledRow n type)
      ⟨⟨0⟩, .fill ⟨0⟩ 0, none⟩ n _ [n] (fallsBack_filledRow target n type)
      (.cons (contiguousRun_rowMajor_row _) .nil)
  rw [hn] at hhalved hgreatest
  have hle : n ≤ w := hgreatest ⟨⟨hpos, 0, rfl⟩, dvd_rfl, by simp⟩
  rw [hw, Nat.le_antisymm hhalved.le hle]

theorem isPowerOfTwo_of_takesWidest
    {leading : ElementType}
    (h : TakesWidest target leading fun w =>
      w.isPowerOfTwo ∧ w ≤ target.vectorElements leading) :
    (target.vectorElements leading).isPowerOfTwo := by
  generalize hn : target.vectorElements leading = n at h
  have hpos : 0 < n := hn ▸ Nat.le_max_left 1 _
  obtain ⟨w, hw, ⟨⟨htwo, _⟩, _⟩, _⟩ :=
    h (filledRow n leading) ⟨⟨0⟩, .fill ⟨0⟩ 0, none⟩ n _
      [n] (fallsBack_filledRow target n leading)
      (.cons (contiguousRun_rowMajor_row _) .nil)
  rw [select_filledRow hn] at hw
  have heq : n = w := accesses_injOn hpos (Nat.pos_of_isPowerOfTwo htwo)
    (Option.some.inj (Except.ok.inj hw))
  rwa [heq]

/-- Vector accesses get the widest fitting width of those that halving visits.
That is always the widest fitting power of two up to the natural width if the
natural width is a power of two, as it is on every preset, and otherwise it is
not. -/
theorem vector_accesses_widest_iff (target : Target) (leading : ElementType) :
    TakesWidest target leading (Halved (target.vectorElements leading)) ∧
    (TakesWidest target leading
        (fun w => w.isPowerOfTwo ∧ w ≤ target.vectorElements leading) ↔
      (target.vectorElements leading).isPowerOfTwo) ∧
    (target ∈ Target.presets →
      (target.vectorElements leading).isPowerOfTwo) := by
  refine ⟨takesWidest_halved target leading,
    ⟨isPowerOfTwo_of_takesWidest, ?_⟩, ?_⟩
  · intro htwo
    have hsame : Halved (target.vectorElements leading) =
        fun w => w.isPowerOfTwo ∧ w ≤ target.vectorElements leading :=
      funext fun w => propext (halved_iff_isPowerOfTwo htwo w)
    rw [← hsame]
    exact takesWidest_halved target leading
  · intro hpreset
    have hbytes : ∀ target ∈ Target.presets, target.vectorBytes = 16 := by
      decide
    rw [Target.vectorElements, hbytes target hpreset]
    cases leading <;> decide

/-- Twelve halves on a preset: eight do not divide them, four do. -/
theorem vector_accesses_widest_iff_twelve :
    (Target.sm80.vectorElements .f16).isPowerOfTwo ∧
      FallsBack (filledRow 12 .f16) .sm80 ⟨0⟩ (.fill ⟨0⟩ 0) .f16 12
        [.rowMajor [12]] ∧
      (filledRow 12 .f16).select .sm80 (.step ⟨⟨0⟩, .fill ⟨0⟩ 0, none⟩) =
        .ok (some (.vector 4)) ∧
      IsGreatest {w | (w.isPowerOfTwo ∧ w ≤ 8) ∧ Common 12 [12] w} 4 := by
  obtain ⟨_, hiff, hpreset⟩ := vector_accesses_widest_iff .sm80 .f16
  have htwo := hpreset (by decide)
  have hfalls := fallsBack_filledRow .sm80 12 .f16
  obtain ⟨w, hw, hgreatest⟩ :=
    hiff.mpr htwo (filledRow 12 .f16) ⟨⟨0⟩, .fill ⟨0⟩ 0, none⟩ 12 _
      [12] hfalls (.cons (contiguousRun_rowMajor_row _) .nil)
  have hselect :
      (filledRow 12 .f16).select .sm80 (.step ⟨⟨0⟩, .fill ⟨0⟩ 0, none⟩) =
      .ok (some (accesses 4)) := by
    decide +kernel
  have hfour : w = 4 := by
    apply accesses_injOn (Nat.pos_of_isPowerOfTwo hgreatest.1.1.1) (by decide)
    exact Option.some.inj (Except.ok.inj (hw.symm.trans hselect))
  exact ⟨htwo, hfalls, hselect, hfour ▸ hgreatest⟩

/-- A description of a target whose widest access is no power of two. -/
def oddVectorText : String :=
  "[target]\nname = \"custom\"\nvendor = \"nvidia\"\nvector_bytes = 24\n" ++
    "[shared_memory]\ncapacity_bytes = 65536\n"

def oddVector : Target :=
  { Target.sm70 with
    name := "custom"
    displayName := "custom"
    arch := "custom"
    shared := ⟨32, 4, 65536⟩
    vectorBytes := 24 }

/-- Of twelve, six and three halves none divides eight, though eight and four
do. -/
theorem vector_accesses_not_widest_oddVector :
    Descriptor.parse oddVectorText = .ok oddVector ∧
      FallsBack (filledRow 8 .f16) oddVector ⟨0⟩ (.fill ⟨0⟩ 0) .f16 8
        [.rowMajor [8]] ∧
      HaveRuns [.rowMajor [8]] [8] ∧
      (filledRow 8 .f16).select oddVector (.step ⟨⟨0⟩, .fill ⟨0⟩ 0, none⟩) =
        .ok (some .scalar) ∧
      IsGreatest {w | (w.isPowerOfTwo ∧ w ≤ oddVector.vectorElements .f16) ∧
        Common 8 [8] w} 8 := by
  refine ⟨by decide +kernel, fallsBack_filledRow oddVector 8 .f16,
    .cons (contiguousRun_rowMajor_row _) .nil, by decide +kernel, ?_, ?_⟩
  · exact ⟨⟨⟨3, rfl⟩, by decide⟩, dvd_rfl, by simp⟩
  · rintro w ⟨_, hdvd, _⟩
    exact Nat.le_of_dvd (by decide) hdvd

end Selection
end TileProgram
