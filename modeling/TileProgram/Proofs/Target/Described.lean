import TileProgram.Proofs.Target.Drafts

/-!
# Described targets

A text describes a target: every field is what the last line for its key says, a
default where no line does, and the instructions come in the order of their
first lines.  What a value says depends on how it is read.  Taken at its word, a
number says itself if it fits and nothing otherwise, and a shape is a list of
three numbers.  Texts are read more leniently: numbers of 32 bits that are
written too large are cut instead of refused, and in the list of a shape
everything that is not a number is passed over.  On `Exact` texts there is no
difference.
-/

namespace TileProgram

variable {sect key : String} {i : MatrixInstruction} {vendor : Vendor}
  {lanes : Nat} {t : Target} {bs : List Assignment} {ls : List (List Char)}

namespace Descriptor

open Text

/-! ## Descriptions -/

/-- What numbers of 32 bits and shapes say. -/
structure Reading where
  short : List Char → Nat → Prop
  shape : String → GemmShape → Prop

/-- Values say what is written, if it fits. -/
def Reading.faithful : Reading where
  short cs n := n < limit32 ∧ Writes cs n
  shape := WritesShape

/-- Numbers say their low bits, and shapes the three numbers among their
entries. -/
def Reading.lenient : Reading where
  short cs n := ∃ m < limit64, Writes cs m ∧ n = low32 m
  shape value s := numbers value = [s.m, s.n, s.k]

/-- The value says something that its key can mean. -/
def Assignment.Fits (R : Reading) (a : Assignment) : Prop :=
  match kind? a.sect a.key with
  | some .short => ∃ n, R.short a.value.toList n
  | some .long => ∃ n < limit64, Writes a.value.toList n
  | some .shape => ∃ s, R.shape a.value s
  | some .type => ∃ t, ElementType.parse? (unquote a.value) = some t
  | _ => True

/-- The number is what the last value for the key says, or the default. -/
def Numbered
    (reads : List Char → Nat → Prop) (as : List Assignment) (sect key : String)
    (default n : Nat) : Prop :=
  match last? as sect key with
  | some value => reads value.toList n
  | none => n = default

/-- The word is the one written last for the key, without the quotes around it,
or empty. -/
def Worded (as : List Assignment) (sect key w : String) : Prop :=
  match last? as sect key with
  | some value => Trims (· == '"') value.toList w.toList
  | none => w = ""

/-- The word names a copy engine, or says that there is none. -/
inductive NamesEngine : String → Nat → Option BulkCopy → Prop where
  | absent (n : Nat) : NamesEngine "" n none
  | none (n : Nat) : NamesEngine "none" n none
  | tma (n : Nat) : NamesEngine "tma" n (some ⟨.tma, n⟩)
  | cpAsync (n : Nat) : NamesEngine "cp.async" n (some ⟨.cpAsync, n⟩)
  | cpAsync_underscore (n : Nat) : NamesEngine "cp_async" n (some ⟨.cpAsync, n⟩)

/-- The shape and the types are those written last in the section of the
instruction. -/
structure DescribesInstruction
    (R : Reading) (as : List Assignment) (i : MatrixInstruction) : Prop where
  shape : ∃ value, last? as ("mma." ++ i.name) "shape" = some value ∧
    R.shape value i.shape
  a : ∃ w, Worded as ("mma." ++ i.name) "a" w ∧ ElementType.parse? w = some i.a
  b : ∃ w, Worded as ("mma." ++ i.name) "b" w ∧ ElementType.parse? w = some i.b
  acc : ∃ w,
    Worded as ("mma." ++ i.name) "acc" w ∧ ElementType.parse? w = some i.acc
  admissible : i.violation? = none

/-- The assignments describe the target. -/
structure Describes (R : Reading) (as : List Assignment) (t : Target) :
    Prop where
  fits : ∀ a ∈ as, a.Fits R
  name : Worded as "target" "name" t.name
  named : t.name ≠ ""
  displayName : ∃ w, Worded as "target" "display_name" w ∧
    t.displayName = if w = "" then t.name else w
  vendor : Worded as "target" "vendor" t.vendor.name
  arch : ∃ w, Worded as "target" "arch" w ∧
    t.arch = if w = "" then t.name else w
  /-- Zero stands for the warps of the vendor. -/
  warpSize : ∃ n, Numbered R.short as "target" "warp_size" 0 n ∧
    t.warpSize = if n = 0 then t.vendor.lanes else n
  vectorBytes : Numbered R.short as "target" "vector_bytes" 16 t.vectorBytes
  maxThreads : Numbered R.short as "target" "max_threads" 1024 t.maxThreads
  banks : Numbered R.short as "shared_memory" "banks" 32 t.shared.banks
  bankBytes : Numbered R.short as "shared_memory" "bank_bytes" 4
    t.shared.bankBytes
  capacityBytes : Numbered Writes as "shared_memory" "capacity_bytes" 0
    t.shared.capacityBytes
  positive : t.shared.banks ≠ 0 ∧ t.shared.bankBytes ≠ 0 ∧
    t.shared.capacityBytes ≠ 0 ∧ t.vectorBytes ≠ 0
  bulkCopy : ∃ w n, Worded as "bulk_copy" "engine" w ∧
    Numbered Writes as "bulk_copy" "min_bytes" 1024 n ∧
    NamesEngine w n t.bulkCopy
  instructionNames : t.instructions.map (·.name) = instructionNames as
  instructions : ∀ i ∈ t.instructions,
    i.vendor = t.vendor ∧ i.lanes = t.warpSize ∧ DescribesInstruction R as i

/-- No number is written that only its low bits would fit, and no shape that
holds three numbers and something else. -/
structure Exact (as : List Assignment) : Prop where
  short : ∀ a ∈ as, kind? a.sect a.key = some .short →
    ∀ n, Writes a.value.toList n → n < limit64 → n < limit32
  shape : ∀ a ∈ as, kind? a.sect a.key = some .shape →
    (numbers a.value).length = 3 → ∃ s, WritesShape a.value s

/-! ## Values -/

variable {as : List Assignment}

theorem mem_of_last? {value : String} (h : last? as sect key = some value) :
    ⟨sect, key, value⟩ ∈ as := by
  obtain ⟨a, ha, rfl⟩ := Option.map_eq_some_iff.mp h
  have hkey := List.find?_some ha
  obtain ⟨rfl, rfl⟩ := of_decide_eq_true hkey
  exact List.mem_reverse.mp (List.mem_of_find?_eq_some ha)

theorem worded_iff {w : String} :
    Worded as sect key w ↔ w = word as sect key := by
  unfold Worded word
  cases last? as sect key with
  | none => rfl
  | some value =>
      simp only [Option.map_some, Option.getD_some, unquote,
        ← stripWhile_eq_iff]
      constructor
      · intro h
        rw [h, String.ofList_toList]
      · rintro rfl
        rw [String.toList_ofList]

theorem passes_iff_fits (a : Assignment) : a.passes ↔ a.Fits .lenient := by
  unfold Assignment.passes Assignment.Fits
  cases kind? a.sect a.key with
  | none => exact ⟨fun _ => trivial, fun _ => rfl⟩
  | some kind =>
      cases kind with
      | word => exact ⟨fun _ => trivial, fun _ => rfl⟩
      | short =>
          simp only [Option.isSome_iff_exists, unsigned?_eq_some_iff,
            Reading.lenient]
          constructor
          · rintro ⟨m, hwrites, hlt⟩
            exact ⟨low32 m, m, hlt, hwrites, rfl⟩
          · rintro ⟨n, m, hlt, hwrites, rfl⟩
            exact ⟨m, hwrites, hlt⟩
      | long =>
          simp only [Option.isSome_iff_exists, unsigned?_eq_some_iff]
          exact exists_congr fun n => and_comm
      | shape =>
          simp only [Reading.lenient, beq_iff_eq]
          constructor
          · intro hlength
            obtain ⟨m, n, k, hthree⟩ := List.length_eq_three.mp hlength
            exact ⟨⟨m, n, k⟩, hthree⟩
          · rintro ⟨s, hthree⟩
            rw [hthree]
            rfl
      | type => exact Option.isSome_iff_exists

theorem numbered_iff
    {reads : List Char → Nat → Prop} {keep : Nat → Nat}
    (hvalue : ∀ value, last? as sect key = some value → ∃ m < limit64,
      Writes value.toList m ∧ ∀ n, reads value.toList n ↔ n = keep m)
    (default n : Nat) :
    Numbered reads as sect key default n ↔
      n = numeric keep as sect key default := by
  unfold Numbered numeric
  cases hlast : last? as sect key with
  | none => rfl
  | some value =>
      obtain ⟨m, hlt, hwrites, hreads⟩ := hvalue value hlast
      simp only [Option.map_some, Option.getD_some,
        unsigned?_eq_some_iff.mpr ⟨hwrites, hlt⟩]
      exact hreads n

theorem numbered_iff_long
    (hfits : ∀ a ∈ as, a.Fits .lenient) {sect key : String}
    (hkind : kind? sect key = some .long) (default n : Nat) :
    Numbered Writes as sect key default n ↔
      n = numeric id as sect key default := by
  apply numbered_iff
  intro value hlast
  have hvalue := hfits _ (mem_of_last? hlast)
  simp only [Assignment.Fits, hkind] at hvalue
  obtain ⟨m, hlt, hwrites⟩ := hvalue
  exact ⟨m, hlt, hwrites,
    fun n => ⟨fun h => h.unique hwrites, fun h => h ▸ hwrites⟩⟩

theorem numbered_iff_short
    (hfits : ∀ a ∈ as, a.Fits .lenient) {sect key : String}
    (hkind : kind? sect key = some .short) (default n : Nat) :
    Numbered Reading.lenient.short as sect key default n ↔
      n = numeric low32 as sect key default := by
  apply numbered_iff
  intro value hlast
  have hvalue := hfits _ (mem_of_last? hlast)
  simp only [Assignment.Fits, hkind] at hvalue
  obtain ⟨_, m, hlt, hwrites, -⟩ := hvalue
  refine ⟨m, hlt, hwrites, fun n => ⟨?_, fun h => ⟨m, hlt, hwrites, h⟩⟩⟩
  rintro ⟨m', -, hwrites', rfl⟩
  rw [hwrites'.unique hwrites]

theorem namesEngine_iff {w : String} {n : Nat} {bulk : Option BulkCopy} :
    NamesEngine w n bulk ↔ bulkCopy w n = .ok bulk := by
  constructor
  · intro h
    cases h <;> rfl
  · intro h
    unfold bulkCopy at h
    split at h
    · cases h
      exact .absent n
    · cases h
      exact .none n
    · cases h
      exact .tma n
    · cases h
      exact .cpAsync n
    · cases h
      exact .cpAsync_underscore n
    · cases h

/-! ## Instructions -/

theorem typed_iff {type : ElementType} :
    (∃ w, Worded as sect key w ∧ ElementType.parse? w = some type) ↔
      typeOf as sect key = some type := by
  simp only [worded_iff, exists_eq_left]
  unfold word typeOf
  cases last? as sect key with
  | none => exact ⟨nofun, nofun⟩
  | some value => rw [Option.map_some, Option.getD_some, Option.bind_some]

theorem entries_inj
    {s s' : GemmShape} (h : [s.m, s.n, s.k] = [s'.m, s'.n, s'.k]) : s = s' := by
  cases s
  cases s'
  simpa using h

theorem shape_ne_zero (h : i.violation? = none) : i.shape ≠ ⟨0, 0, 0⟩ := by
  intro hzero
  unfold MatrixInstruction.violation? at h
  split at h
  · cases h
  · split at h
    · simp only [hzero] at h
      split at h <;> cases h
    · simp only [hzero] at h
      split at h <;> cases h

theorem instruction_eq_ok_iff {d : InstructionDraft} :
    instruction d vendor lanes = .ok i ↔
      i.name = d.name ∧ i.vendor = vendor ∧ i.lanes = lanes ∧
      i.shape = d.shape ∧
        d.a = some i.a ∧ d.b = some i.b ∧ d.acc = some i.acc ∧
        i.violation? = none := by
  unfold instruction
  constructor
  · intro h
    split at h
    · next a b acc ha hb hacc =>
        dsimp only at h
        split at h
        · cases h
        · next hnone =>
            cases h
            exact ⟨rfl, rfl, rfl, rfl, ha, hb, hacc, hnone⟩
    · cases h
  · obtain ⟨name, vendor', shape, a, b, acc, lanes'⟩ := i
    rintro ⟨rfl, rfl, rfl, rfl, ha, hb, hacc, hnone⟩
    simp only [ha, hb, hacc, hnone]

theorem eq_shapeOf_iff
    (hfits : ∀ a ∈ as, a.Fits .lenient) {name : String} {s : GemmShape}
    (hs : s ≠ ⟨0, 0, 0⟩) :
    s = shapeOf as ("mma." ++ name) ↔
      ∃ value, last? as ("mma." ++ name) "shape" = some value ∧
        Reading.lenient.shape value s := by
  unfold shapeOf
  cases hlast : last? as ("mma." ++ name) "shape" with
  | none =>
      constructor
      · intro h
        exact absurd h hs
      · rintro ⟨_, ⟨⟩, _⟩
  | some value =>
      have hvalue := hfits _ (mem_of_last? hlast)
      have hsect : instruction? ("mma." ++ name) = some name :=
        instruction?_eq_some_iff.mpr rfl
      simp only [Assignment.Fits, kind?_instruction hsect, instructionKind?,
        Reading.lenient] at hvalue
      obtain ⟨s', hthree⟩ := hvalue
      simp only [Option.map_some, Option.getD_some, Option.some.injEq,
        exists_eq_left', Reading.lenient, hthree, ofNumbers]
      exact ⟨fun h => h ▸ rfl, fun h => (entries_inj h).symm⟩

theorem describesInstruction_iff (hfits : ∀ a ∈ as, a.Fits .lenient) :
    instruction (instructionDraft as i.name) vendor lanes = .ok i ↔
      i.vendor = vendor ∧ i.lanes = lanes ∧
      DescribesInstruction .lenient as i := by
  rw [instruction_eq_ok_iff]
  constructor
  · rintro ⟨-, hvendor, hlanes, hshapeOf, ha, hb, hacc, hnone⟩
    have hshape := (eq_shapeOf_iff hfits (shape_ne_zero hnone)).mp hshapeOf
    exact ⟨hvendor, hlanes, hshape, typed_iff.mpr ha, typed_iff.mpr hb,
      typed_iff.mpr hacc, hnone⟩
  · rintro ⟨hvendor, hlanes, hdescribes⟩
    have hzero := shape_ne_zero hdescribes.admissible
    exact ⟨rfl, hvendor, hlanes, (eq_shapeOf_iff hfits hzero).mpr
      hdescribes.shape, typed_iff.mp hdescribes.a, typed_iff.mp hdescribes.b,
      typed_iff.mp hdescribes.acc, hdescribes.admissible⟩

theorem mapM_instruction_eq_ok_iff {instructions : List MatrixInstruction} :
    (instructionDrafts as).mapM (instruction · vendor lanes) =
      .ok instructions ↔ instructions.map (·.name) = instructionNames as ∧
        ∀ i ∈ instructions,
          instruction (instructionDraft as i.name) vendor lanes = .ok i := by
  have hname : ∀ n i, instruction (instructionDraft as n) vendor lanes = .ok i →
      i.name = n :=
    fun n i h => (instruction_eq_ok_iff.mp h).1
  unfold instructionDrafts
  rw [List.mapM_map]
  constructor
  · intro h
    refine ⟨map_eq_of_mapM_eq_ok (fun n _ i hi => hname n i hi) h, ?_⟩
    intro i hi
    obtain ⟨n, _, hn⟩ := exists_of_mem_mapM h hi
    rw [hname n i hn]
    exact hn
  · rintro ⟨hnames, hall⟩
    have hmap := mapM_eq_ok_map (g := id) hall
    rw [List.map_id] at hmap
    rw [← hnames, List.mapM_map]
    exact hmap

/-! ## Accepted texts -/

theorem describes_lenient_iff :
    ((∀ a ∈ as, a.passes) ∧ Completes (draft as) t) ↔
      Describes .lenient as t := by
  simp only [passes_iff_fits]
  constructor
  · rintro ⟨hfits, hdraft⟩
    have hshort :=
      fun sect key hkind => @numbered_iff_short as hfits sect key hkind
    have hlong :=
      fun sect key hkind => @numbered_iff_long as hfits sect key hkind
    obtain ⟨hnames, hall⟩ := mapM_instruction_eq_ok_iff.mp hdraft.instructions
    have hshared := hdraft.shared
    have hname := hdraft.name
    exact {
      fits := hfits
      name := worded_iff.mpr hname
      named := hname ▸ hdraft.named
      displayName := ⟨_, worded_iff.mpr rfl, hname ▸ hdraft.displayName⟩
      vendor := worded_iff.mpr hdraft.vendor
      arch := ⟨_, worded_iff.mpr rfl, hname ▸ hdraft.arch⟩
      warpSize :=
        ⟨_, (hshort "target" "warp_size" rfl _ _).mpr rfl, hdraft.warpSize⟩
      vectorBytes :=
        (hshort "target" "vector_bytes" rfl _ _).mpr hdraft.vectorBytes
      maxThreads :=
        (hshort "target" "max_threads" rfl _ _).mpr hdraft.maxThreads
      banks := (hshort "shared_memory" "banks" rfl _ _).mpr
        (by rw [hshared]; rfl)
      bankBytes :=
        (hshort "shared_memory" "bank_bytes" rfl _ _).mpr (by rw [hshared]; rfl)
      capacityBytes := (hlong "shared_memory" "capacity_bytes" rfl _ _).mpr
        (by rw [hshared]; rfl)
      positive := by
        rw [hshared, hdraft.vectorBytes]
        exact hdraft.positive
      bulkCopy := ⟨_, _, worded_iff.mpr rfl,
        (hlong "bulk_copy" "min_bytes" rfl _ _).mpr rfl,
        namesEngine_iff.mpr hdraft.bulkCopy⟩
      instructionNames := hnames
      instructions :=
        fun i hi => (describesInstruction_iff hfits).mp (hall i hi) }
  · intro hdescribes
    have hfits := hdescribes.fits
    have hshort :=
      fun sect key hkind => @numbered_iff_short as hfits sect key hkind
    have hlong :=
      fun sect key hkind => @numbered_iff_long as hfits sect key hkind
    obtain ⟨display, hdisplay, hdisplayName⟩ := hdescribes.displayName
    obtain ⟨arch, harch, htargetArch⟩ := hdescribes.arch
    obtain ⟨warp, hwarp, hwarpSize⟩ := hdescribes.warpSize
    obtain ⟨engine, minBytes, hengine, hminBytes, hbulk⟩ := hdescribes.bulkCopy
    have hname : t.name = (draft as).name := worded_iff.mp hdescribes.name
    have hbanks : t.shared.banks = (draft as).banks :=
      (hshort _ _ rfl _ _).mp hdescribes.banks
    have hbank : t.shared.bankBytes = (draft as).bankBytes :=
      (hshort _ _ rfl _ _).mp hdescribes.bankBytes
    have hcapacity : t.shared.capacityBytes = (draft as).capacityBytes :=
      (hlong _ _ rfl _ _).mp hdescribes.capacityBytes
    have hvector : t.vectorBytes = (draft as).vectorBytes :=
      (hshort _ _ rfl _ _).mp hdescribes.vectorBytes
    refine ⟨hfits, ?_⟩
    exact {
      name := hname
      named := hname ▸ hdescribes.named
      displayName := by
        rw [hdisplayName, worded_iff.mp hdisplay, hname]
        rfl
      vendor := worded_iff.mp hdescribes.vendor
      arch := by
        rw [htargetArch, worded_iff.mp harch, hname]
        rfl
      warpSize := by
        rw [hwarpSize, (hshort _ _ rfl _ _).mp hwarp]
        rfl
      vectorBytes := hvector
      maxThreads :=
        (hshort "target" "max_threads" rfl _ _).mp hdescribes.maxThreads
      shared := by rw [← hbanks, ← hbank, ← hcapacity]
      positive := by
        rw [← hbanks, ← hbank, ← hcapacity, ← hvector]
        exact hdescribes.positive
      bulkCopy := by
        rw [worded_iff.mp hengine, (hlong _ _ rfl _ _).mp hminBytes] at hbulk
        exact namesEngine_iff.mp hbulk
      instructions :=
        mapM_instruction_eq_ok_iff.mpr ⟨hdescribes.instructionNames, fun i hi =>
          (describesInstruction_iff hfits).mpr (hdescribes.instructions i hi)⟩ }

theorem Numbered.mono
    {reads reads' : List Char → Nat → Prop} {default n : Nat}
    (hreads : ∀ value, ⟨sect, key, value⟩ ∈ as →
      ∀ n, reads value.toList n → reads' value.toList n)
    (h : Numbered reads as sect key default n) :
    Numbered reads' as sect key default n := by
  unfold Numbered at h ⊢
  cases hlast : last? as sect key with
  | none =>
      rw [hlast] at h
      exact h
  | some value =>
      rw [hlast] at h
      exact hreads value (mem_of_last? hlast) n h

theorem Describes.mono
    {R S : Reading}
    (hshort : ∀ a ∈ as, kind? a.sect a.key = some .short →
      ∀ n, R.short a.value.toList n → S.short a.value.toList n)
    (hshape : ∀ a ∈ as, kind? a.sect a.key = some .shape →
      ∀ s, R.shape a.value s → S.shape a.value s)
    (h : Describes R as t) : Describes S as t := by
  have hnumbered : ∀ {sect key default n}, kind? sect key = some .short →
      Numbered R.short as sect key default n →
      Numbered S.short as sect key default n :=
    fun hkind => Numbered.mono fun value hvalue => hshort _ hvalue hkind
  have hfits : ∀ a ∈ as, a.Fits S := by
    intro a ha
    have hfits := h.fits a ha
    unfold Assignment.Fits at hfits ⊢
    cases hkind : kind? a.sect a.key with
    | none => trivial
    | some kind =>
        rw [hkind] at hfits
        cases kind with
        | word => trivial
        | short =>
            obtain ⟨n, hn⟩ := hfits
            exact ⟨n, hshort a ha hkind n hn⟩
        | long => exact hfits
        | shape =>
            obtain ⟨s, hs⟩ := hfits
            exact ⟨s, hshape a ha hkind s hs⟩
        | type => exact hfits
  obtain ⟨warp, hwarp, hwarpSize⟩ := h.warpSize
  exact { h with
    fits := hfits
    warpSize := ⟨warp, hnumbered rfl hwarp, hwarpSize⟩
    vectorBytes := hnumbered rfl h.vectorBytes
    maxThreads := hnumbered rfl h.maxThreads
    banks := hnumbered rfl h.banks
    bankBytes := hnumbered rfl h.bankBytes
    instructions := by
      intro i hi
      obtain ⟨hvendor, hlanes, hdescribes⟩ := h.instructions i hi
      obtain ⟨value, hlast, hvalue⟩ := hdescribes.shape
      have hsect : instruction? ("mma." ++ i.name) = some i.name :=
        instruction?_eq_some_iff.mpr rfl
      have hkind := kind?_instruction hsect "shape"
      have hreads := hshape _ (mem_of_last? hlast) hkind i.shape hvalue
      exact ⟨hvendor, hlanes,
        { hdescribes with shape := ⟨value, hlast, hreads⟩ }⟩ }

theorem Describes.lenient (h : Describes .faithful as t) :
    Describes .lenient as t := by
  apply h.mono
  · rintro a - - n ⟨hlt, hwrites⟩
    exact ⟨n, hlt.trans (by decide), hwrites, (Nat.mod_eq_of_lt hlt).symm⟩
  · intro a _ _ s hs
    exact numbers_eq_of_writesShape hs

theorem Exact.describes_iff (h : Exact as) :
    Describes .lenient as t ↔ Describes .faithful as t := by
  refine ⟨fun hlenient => hlenient.mono ?_ ?_, Describes.lenient⟩
  · rintro a ha hkind n ⟨m, hlt, hwrites, rfl⟩
    have hfits := h.short a ha hkind m hwrites hlt
    rw [low32, Nat.mod_eq_of_lt hfits]
    exact ⟨hfits, hwrites⟩
  · intro a ha hkind s hthree
    have hlength : (numbers a.value).length = 3 := congrArg List.length hthree
    obtain ⟨s', hs'⟩ := h.shape a ha hkind hlength
    rw [← entries_inj ((numbers_eq_of_writesShape hs').symm.trans hthree)]
    exact hs'

/-- The assignments agree in all that matters: in the values of the known keys,
in the last of each, and in the order of the instructions. -/
structure SameReading (as bs : List Assignment) : Prop where
  mem_iff : ∀ a : Assignment, (kind? a.sect a.key).isSome → (a ∈ as ↔ a ∈ bs)
  last?_eq : ∀ sect key, (kind? sect key).isSome →
    last? as sect key = last? bs sect key
  instructionNames_eq : instructionNames as = instructionNames bs

theorem SameReading.symm (h : SameReading as bs) : SameReading bs as :=
  ⟨fun a ha => (h.mem_iff a ha).symm, fun sect key hkey =>
    (h.last?_eq sect key hkey).symm, h.instructionNames_eq.symm⟩

theorem SameReading.draft_eq (h : SameReading as bs) : draft as = draft bs := by
  have hinstruction : instructionDraft as = instructionDraft bs := by
    funext name
    have hsect : instruction? ("mma." ++ name) = some name :=
      instruction?_eq_some_iff.mpr rfl
    have hlast : ∀ key, (instructionKind? key).isSome →
        last? as ("mma." ++ name) key = last? bs ("mma." ++ name) key := by
      intro key hkey
      exact h.last?_eq _ key (kind?_instruction hsect key ▸ hkey)
    simp only [instructionDraft, shapeOf, typeOf, hlast "shape" rfl,
      hlast "a" rfl, hlast "b" rfl, hlast "acc" rfl]
  have hlast := fun sect key hkey => h.last?_eq sect key hkey
  simp only [draft, word, numeric, instructionDrafts, hinstruction,
    h.instructionNames_eq, hlast "target" "name" rfl,
    hlast "target" "display_name" rfl, hlast "target" "vendor" rfl,
    hlast "target" "arch" rfl, hlast "target" "warp_size" rfl,
    hlast "target" "vector_bytes" rfl, hlast "target" "max_threads" rfl,
    hlast "shared_memory" "banks" rfl, hlast "shared_memory" "bank_bytes" rfl,
    hlast "shared_memory" "capacity_bytes" rfl, hlast "bulk_copy" "engine" rfl,
    hlast "bulk_copy" "min_bytes" rfl]

theorem SameReading.passes
    (h : SameReading as bs) (hpasses : ∀ a ∈ as, a.passes) :
    ∀ a ∈ bs, a.passes := by
  intro a ha
  cases hkind : kind? a.sect a.key with
  | none =>
      unfold Assignment.passes
      rw [hkind]
  | some kind => exact hpasses a ((h.mem_iff a (by rw [hkind]; rfl)).mpr ha)

theorem SameReading.of_mem
    (hmem : ∀ a : Assignment, (kind? a.sect a.key).isSome → (a ∈ as ↔ a ∈ bs))
    (hlast : ∀ a ∈ as, (kind? a.sect a.key).isSome →
      last? as a.sect a.key = last? bs a.sect a.key)
    (hnames : instructionNames as = instructionNames bs) :
    SameReading as bs where
  mem_iff := hmem
  last?_eq := by
    intro sect key hkey
    cases hleft : last? as sect key with
    | some value => rw [← hleft, hlast _ (mem_of_last? hleft) hkey]
    | none =>
        cases hright : last? bs sect key with
        | none => rfl
        | some value =>
            have hmem : ⟨sect, key, value⟩ ∈ as :=
              (hmem _ hkey).mpr (mem_of_last? hright)
            rw [← hleft, ← hright, hlast _ hmem hkey]
  instructionNames_eq := hnames

theorem parse_eq_ok_iff_of_lists
    {text : String} (hlines : HasLines text ls) (has : Lists "" ls as)
    (target : Target) :
    parse text = .ok target ↔
      (∀ a ∈ as, a.passes) ∧ finish (draft as) = .ok target := by
  rw [parse_eq_ok_iff, (lists_iff hlines).mp has]

/-! ## Texts -/

def textOf (ls : List (List Char)) : String :=
  String.ofList (['\n'].intercalate ls)

/-- The lines are unbroken, and the assignments are read from them. -/
def Assigns (ls : List (List Char)) (as : List Assignment) : Prop :=
  ls ≠ [] ∧ (∀ l ∈ ls, '\n' ∉ l) ∧ assignments "" (ls.filterMap line?) = as

theorem Assigns.hasLines (h : Assigns ls as) : HasLines (textOf ls) ls :=
  ⟨String.toList_ofList, h.2.1, h.1⟩

theorem Assigns.lists (h : Assigns ls as) : Lists "" ls as :=
  h.2.2 ▸ lists_assignments "" ls

theorem Exact.of_read
    (hshort : ∀ a ∈ as, kind? a.sect a.key = some .short →
      ∀ n ∈ unsigned? limit64 a.value.toList, n < limit32)
    (hshape : ∀ a ∈ as, kind? a.sect a.key = some .shape →
      ∃ s, WritesShape a.value s) : Exact as where
  short a ha hkind n hwrites hlt :=
    hshort a ha hkind n (unsigned?_eq_some_iff.mpr ⟨hwrites, hlt⟩)
  shape a ha hkind _ := hshape a ha hkind

/-- Nothing but what every description has to say. -/
def leastLines : List (List Char) :=
  ["[target]".toList, "name = \"custom\"".toList, "vendor = \"nvidia\"".toList,
    "[shared_memory]".toList, "capacity_bytes = 65536".toList]

def leastTarget : Target where
  name := "custom"
  displayName := "custom"
  vendor := .nvidia
  arch := "custom"
  warpSize := 32
  shared := ⟨32, 4, 65536⟩
  vectorBytes := 16
  maxThreads := 1024
  bulkCopy := none
  instructions := []

/-- With an instruction, a key that is assigned twice, a comment, a blank line
and a key that means nothing. -/
def fullLines : List (List Char) :=
  leastLines ++
    ["# one part".toList, "[mma.m16n8k16]".toList, "shape = [16, 8, 16]".toList,
      "a = \"f16\"".toList, "b = half".toList, "note = 7".toList,
      "acc = f32".toList, "".toList, "[target]".toList,
      "max_threads = 256".toList, " max_threads = +512 ".toList]

def fullAssignments : List Assignment :=
  [⟨"target", "name", "\"custom\""⟩, ⟨"target", "vendor", "\"nvidia\""⟩,
    ⟨"shared_memory", "capacity_bytes", "65536"⟩,
    ⟨"mma.m16n8k16", "shape", "[16, 8, 16]"⟩, ⟨"mma.m16n8k16", "a", "\"f16\""⟩,
    ⟨"mma.m16n8k16", "b", "half"⟩, ⟨"mma.m16n8k16", "note", "7"⟩,
    ⟨"mma.m16n8k16", "acc", "f32"⟩, ⟨"target", "max_threads", "256"⟩,
    ⟨"target", "max_threads", "+512"⟩]

def fullTarget : Target :=
  { leastTarget with
    maxThreads := 512
    instructions := [⟨"m16n8k16", .nvidia, ⟨16, 8, 16⟩, .f16, .f16, .f32, 32⟩] }

/-- What matters of it, in another order. -/
def sortedLines : List (List Char) :=
  ["[mma.m16n8k16]".toList, "a = \"f16\"".toList, "acc = f32".toList,
    "b = half".toList, "shape = [16, 8, 16]".toList, "[shared_memory]".toList,
    "capacity_bytes = 65536".toList, "[target]".toList,
    "max_threads = 256".toList, "max_threads = +512".toList,
    "name = \"custom\"".toList, "vendor = \"nvidia\"".toList]

def sortedAssignments : List Assignment :=
  [⟨"mma.m16n8k16", "a", "\"f16\""⟩, ⟨"mma.m16n8k16", "acc", "f32"⟩,
    ⟨"mma.m16n8k16", "b", "half"⟩, ⟨"mma.m16n8k16", "shape", "[16, 8, 16]"⟩,
    ⟨"shared_memory", "capacity_bytes", "65536"⟩,
    ⟨"target", "max_threads", "256"⟩, ⟨"target", "max_threads", "+512"⟩,
    ⟨"target", "name", "\"custom\""⟩, ⟨"target", "vendor", "\"nvidia\""⟩]

theorem assigns_full : Assigns fullLines fullAssignments :=
  ⟨nofun, by decide, rfl⟩

theorem exact_full : Exact fullAssignments := by
  have hshape : ∀ a ∈ fullAssignments, kind? a.sect a.key = some .shape →
      a.value = "[16, 8, 16]" := by decide
  refine Exact.of_read (by decide) fun a ha hkind => ?_
  rw [hshape a ha hkind]
  refine ⟨⟨16, 8, 16⟩, "16".toList, " 8".toList, " 16".toList, [], ?_, ?_, ?_,
    .inl rfl, rfl⟩ <;> exact writesEntry_iff.mpr rfl

theorem describes_full : Describes .faithful fullAssignments fullTarget := by
  rw [← exact_full.describes_iff, ← describes_lenient_iff, ← finish_eq_ok_iff]
  exact ⟨by decide, rfl⟩

theorem assigns_sorted : Assigns sortedLines sortedAssignments :=
  ⟨nofun, by decide, rfl⟩

theorem sameReading_sorted : SameReading fullAssignments sortedAssignments := by
  have hfull : ∀ a ∈ fullAssignments, (kind? a.sect a.key).isSome →
      a ∈ sortedAssignments := by
    decide
  have hsorted : ∀ a ∈ sortedAssignments, a ∈ fullAssignments := by decide
  exact .of_mem (fun a ha => ⟨fun h => hfull a h ha, hsorted a⟩) (by decide)
    (by decide)

/-- The text is accepted as a target that its lines do not describe. -/
def Misread (text : String) (target : Target) : Prop :=
  parse text = .ok target ∧
    ∃ ls as, HasLines text ls ∧ Lists "" ls as ∧ ¬Describes .faithful as target

/-- A number of banks that needs 33 bits. -/
def wideLines : List (List Char) :=
  leastLines ++ ["banks = 4294967328".toList, "".toList]

def wideAssignments : List Assignment :=
  [⟨"target", "name", "\"custom\""⟩, ⟨"target", "vendor", "\"nvidia\""⟩,
    ⟨"shared_memory", "capacity_bytes", "65536"⟩,
    ⟨"shared_memory", "banks", "4294967328"⟩]

/-- A shape with four entries, one of which is no number. -/
def strayLines : List (List Char) :=
  leastLines ++
    ["[mma.m16n8k16]".toList, "shape = [16, 8, x, 16]".toList, "a = f16".toList,
      "b = f16".toList, "acc = f32".toList]

def strayAssignments : List Assignment :=
  [⟨"target", "name", "\"custom\""⟩, ⟨"target", "vendor", "\"nvidia\""⟩,
    ⟨"shared_memory", "capacity_bytes", "65536"⟩,
    ⟨"mma.m16n8k16", "shape", "[16, 8, x, 16]"⟩, ⟨"mma.m16n8k16", "a", "f16"⟩,
    ⟨"mma.m16n8k16", "b", "f16"⟩, ⟨"mma.m16n8k16", "acc", "f32"⟩]

theorem assigns_wide : Assigns wideLines wideAssignments :=
  ⟨nofun, by decide, rfl⟩

theorem assigns_stray : Assigns strayLines strayAssignments :=
  ⟨nofun, by decide, rfl⟩

theorem not_describes_wide
    {target : Target} (htarget : target.shared.banks < limit32) :
    ¬Describes .faithful wideAssignments target := by
  intro h
  have hlast : last? wideAssignments "shared_memory" "banks" =
      some "4294967328" := rfl
  have hbanks := h.banks
  unfold Numbered at hbanks
  rw [hlast] at hbanks
  have hwide : Writes "4294967328".toList 4294967328 :=
    ⟨[4, 2, 9, 4, 9, 6, 7, 3, 2, 8], by simp, by simp, by simp [Nat.ofDigits],
      .inl rfl⟩
  rw [hbanks.2.unique hwide] at htarget
  exact absurd htarget (by decide)

theorem not_describes_stray {target : Target} :
    ¬Describes .faithful strayAssignments target := by
  intro h
  have hfits := h.fits ⟨"mma.m16n8k16", "shape", "[16, 8, x, 16]"⟩
    (by simp [strayAssignments])
  have hsect : instruction? "mma.m16n8k16" = some "m16n8k16" :=
    instruction?_eq_some_iff.mpr rfl
  simp only [Assignment.Fits, kind?_instruction hsect, instructionKind?,
    Reading.faithful] at hfits
  obtain ⟨s, p, q, r, ending, hp, hq, hr, hending, hvalue⟩ := hfits
  have hentry : ∀ {piece n}, WritesEntry piece n → 'x' ∉ piece := fun h =>
    h.not_mem (by decide) (by decide) (by decide)
  have hend : 'x' ∉ ending := by
    rcases hending with rfl | ⟨blanks, rfl, hblanks⟩
    · exact List.not_mem_nil
    · have hx : 'x' ∉ blanks := not_mem_blanks hblanks (by decide)
      simp [hx]
  have hx : 'x' ∈ "[16, 8, x, 16]".toList := by simp
  rw [hvalue] at hx
  simp [hentry hp, hentry hq, hentry hr, hend] at hx

/-! ## Faithfulness -/

/-- What descriptors are read as.  The lines of a text spell assignments, and
the text is accepted exactly as the target that these describe; taken at their
word if they write what they mean.  Texts whose assignments agree in all that
matters are accepted alike, whatever comments, blank lines and unknown keys
stand between them and in whatever order they come. -/
theorem parse_iff_describes (text : String) :
    (∃ ls as, HasLines text ls ∧ Lists "" ls as) ∧
      ∀ ls as, HasLines text ls → Lists "" ls as →
        (∀ target, parse text = .ok target ↔ Describes .lenient as target) ∧
          (Exact as → ∀ target, parse text = .ok target ↔
            Describes .faithful as target) ∧
          ∀ other ls' bs, HasLines other ls' → Lists "" ls' bs →
            SameReading as bs →
            ∀ target, parse text = .ok target ↔ parse other = .ok target := by
  refine ⟨⟨_, _, hasLines_split text, lists_assignments "" _⟩,
    fun ls as hlines has => ?_⟩
  have hlenient : ∀ target, parse text = .ok target ↔
      Describes .lenient as target := by
    intro target
    rw [parse_eq_ok_iff_of_lists hlines has, finish_eq_ok_iff,
      describes_lenient_iff]
  refine ⟨hlenient, ?_, ?_⟩
  · intro hexact target
    rw [hlenient, hexact.describes_iff]
  · intro other ls' bs hother hbs hsame target
    rw [parse_eq_ok_iff_of_lists hlines has,
      parse_eq_ok_iff_of_lists hother hbs, hsame.draft_eq]
    exact and_congr_left fun _ => ⟨hsame.passes, hsame.symm.passes⟩

/-- The text is accepted as the target that it describes, and so is the one in
another order. -/
theorem parse_iff_describes_full :
    parse (textOf fullLines) = .ok fullTarget ∧
      parse (textOf sortedLines) = .ok fullTarget := by
  have hread := ((parse_iff_describes (textOf fullLines)).2 fullLines
    fullAssignments assigns_full.hasLines assigns_full.lists).2
  have hfull : parse (textOf fullLines) = .ok fullTarget :=
    (hread.1 exact_full fullTarget).mpr describes_full
  have hsorted := hread.2 (textOf sortedLines) sortedLines sortedAssignments
    assigns_sorted.hasLines assigns_sorted.lists sameReading_sorted fullTarget
  exact ⟨hfull, hsorted.mp hfull⟩

/-- Texts are accepted that say something else than what is read. -/
theorem misread_wide_stray :
    Misread (textOf wideLines) leastTarget ∧
      Misread (textOf strayLines) { fullTarget with maxThreads := 1024 } := by
  have hwide := assigns_wide
  have hstray := assigns_stray
  constructor
  · refine ⟨?_, wideLines, wideAssignments, hwide.hasLines, hwide.lists, ?_⟩
    · rw [parse_eq_ok_iff_of_lists hwide.hasLines hwide.lists]
      exact ⟨by decide, rfl⟩
    · exact not_describes_wide (by decide)
  · refine ⟨?_, strayLines, strayAssignments, hstray.hasLines, hstray.lists,
      not_describes_stray⟩
    rw [parse_eq_ok_iff_of_lists hstray.hasLines hstray.lists]
    exact ⟨by decide, rfl⟩

end Descriptor
end TileProgram
