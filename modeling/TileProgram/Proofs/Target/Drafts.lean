import TileProgram.Proofs.Lists
import TileProgram.Proofs.Outcome
import TileProgram.Proofs.Target.Lines

/-!
# Drafts of targets

The draft after some assignments holds, for every key, what the last of them
says.  One assignment takes the draft of the assignments before it to the draft
with it, exactly if its value passes; so a text is accepted if all its values
pass and its draft is complete.
-/

namespace TileProgram

open List

variable {sect : String} {a : Assignment} {d : TargetDraft}
  {as : List Assignment}

namespace Descriptor

open Text

/-! ## Assigned values -/

def last? (as : List Assignment) (sect key : String) : Option String :=
  (as.reverse.find? fun a => a.sect = sect ∧ a.key = key).map (·.value)

theorem last?_concat
    (as : List Assignment) (a : Assignment) (sect key : String) :
    last? (as ++ [a]) sect key =
      if a.sect = sect ∧ a.key = key then some a.value
        else last? as sect key := by
  unfold last?
  rw [reverse_append, reverse_singleton, singleton_append, find?_cons]
  split
  · next h => rw [if_pos (of_decide_eq_true h), Option.map_some]
  · next h => rw [if_neg (of_decide_eq_false h)]

def instruction? (sect : String) : Option String :=
  (after? "mma.".toList sect.toList).map String.ofList

theorem instruction?_eq_some_iff {name : String} :
    instruction? sect = some name ↔ sect = "mma." ++ name := by
  unfold instruction?
  rw [Option.map_eq_some_iff]
  constructor
  · rintro ⟨rest, hrest, rfl⟩
    rw [after?_eq_some_iff] at hrest
    apply String.toList_injective
    rw [hrest, String.toList_append, String.toList_ofList (l := rest)]
  · rintro rfl
    exact ⟨name.toList, after?_eq_some_iff.mpr (String.toList_append ..),
      String.ofList_toList⟩

/-- Names of the instructions that have a key, in the order in which they get
their first one. -/
def instructionNames (as : List Assignment) : List String :=
  (as.filterMap fun a => instruction? a.sect).eraseDups

/-! ## Drafts -/

def word (as : List Assignment) (sect key : String) : String :=
  ((last? as sect key).map unquote).getD ""

/-- What is kept of the number of 64 bits that a key is assigned last. -/
def numeric
    (keep : Nat → Nat) (as : List Assignment) (sect key : String)
    (default : Nat) : Nat :=
  ((last? as sect key).map fun v =>
    keep ((unsigned? limit64 v.toList).getD 0)).getD default

def ofNumbers : List Nat → GemmShape
  | [m, n, k] => ⟨m, n, k⟩
  | _ => ⟨0, 0, 0⟩

def shapeOf (as : List Assignment) (sect : String) : GemmShape :=
  ((last? as sect "shape").map fun v => ofNumbers (numbers v)).getD ⟨0, 0, 0⟩

def typeOf (as : List Assignment) (sect key : String) : Option ElementType :=
  (last? as sect key).bind fun v => ElementType.parse? (unquote v)

def instructionDraft (as : List Assignment) (name : String) :
    InstructionDraft where
  name := name
  shape := shapeOf as ("mma." ++ name)
  a := typeOf as ("mma." ++ name) "a"
  b := typeOf as ("mma." ++ name) "b"
  acc := typeOf as ("mma." ++ name) "acc"

def instructionDrafts (as : List Assignment) : List InstructionDraft :=
  (instructionNames as).map (instructionDraft as)

def draft (as : List Assignment) : TargetDraft where
  name := word as "target" "name"
  displayName := word as "target" "display_name"
  vendor := word as "target" "vendor"
  arch := word as "target" "arch"
  warpSize := numeric low32 as "target" "warp_size" 0
  vectorBytes := numeric low32 as "target" "vector_bytes" 16
  maxThreads := numeric low32 as "target" "max_threads" 1024
  banks := numeric low32 as "shared_memory" "banks" 32
  bankBytes := numeric low32 as "shared_memory" "bank_bytes" 4
  capacityBytes := numeric id as "shared_memory" "capacity_bytes" 0
  bulkEngine := word as "bulk_copy" "engine"
  bulkMinBytes := numeric id as "bulk_copy" "min_bytes" 1024
  instructions := instructionDrafts as

theorem draft_nil : draft [] = .initial := rfl

inductive ValueKind where
  | word
  | short
  | long
  | shape
  | type
  deriving DecidableEq, Repr

/-- The keys that mean something in the section of an instruction. -/
def instructionKind? : String → Option ValueKind
  | "shape" => some .shape
  | "a" | "b" | "acc" => some .type
  | _ => none

/-- The keys that mean something, by section. -/
def kind? (sect key : String) : Option ValueKind :=
  match sect, key with
  | "target", "name" | "target", "display_name" | "target", "vendor" | "target",
      "arch"
  | "bulk_copy", "engine" => some .word
  | "target", "warp_size" | "target", "vector_bytes" | "target", "max_threads"
  | "shared_memory", "banks" | "shared_memory", "bank_bytes" => some .short
  | "shared_memory", "capacity_bytes" | "bulk_copy", "min_bytes" => some .long
  | sect, key =>
      if (instruction? sect).isSome then instructionKind? key else none

/-- The value can be taken by its key. -/
def Assignment.passes (a : Assignment) : Bool :=
  match kind? a.sect a.key with
  | some .short | some .long => (unsigned? limit64 a.value.toList).isSome
  | some .shape => (numbers a.value).length == 3
  | some .type => (ElementType.parse? (unquote a.value)).isSome
  | _ => true

theorem read_eq_foldlM (sect : String) (d : TargetDraft) (ls : List Line) :
    read sect d ls = (assignments sect ls).foldlM
      (fun d a => assign d a.sect a.key a.value) d := by
  induction ls generalizing sect d with
  | nil => rfl
  | cons l rest ih =>
      cases l with
      | sect name => exact ih name d
      | assign key value =>
          rw [read, assignments, foldlM_cons]
          cases assign d sect key value with
          | error e => rfl
          | ok d' => exact ih sect d'

/-! ## One assignment -/

theorem word_concat
    (as : List Assignment) (a : Assignment) (sect key : String) :
    word (as ++ [a]) sect key =
      if a.sect = sect ∧ a.key = key then unquote a.value
        else word as sect key := by
  unfold word
  rw [last?_concat]
  split <;> rfl

theorem numeric_concat
    (keep : Nat → Nat) (as : List Assignment) (a : Assignment)
    (sect key : String) (default : Nat) :
    numeric keep (as ++ [a]) sect key default =
      if a.sect = sect ∧ a.key = key then
        keep ((unsigned? limit64 a.value.toList).getD 0)
      else numeric keep as sect key default := by
  unfold numeric
  rw [last?_concat]
  split <;> rfl

theorem ne_of_instruction?_eq_none
    (h : instruction? sect = none) (name : String) : sect ≠ "mma." ++ name := by
  intro hsect
  rw [instruction?_eq_some_iff.mpr hsect] at h
  cases h

theorem instructionDrafts_concat_of_none
    (h : instruction? a.sect = none) (as : List Assignment) :
    instructionDrafts (as ++ [a]) = instructionDrafts as := by
  have hlast : ∀ name key, last? (as ++ [a]) ("mma." ++ name) key =
      last? as ("mma." ++ name) key := by
    intro name key
    rw [last?_concat, if_neg fun hsame =>
      ne_of_instruction?_eq_none h name hsame.1]
  have hdraft : instructionDraft (as ++ [a]) = instructionDraft as := by
    funext name
    simp only [instructionDraft, shapeOf, typeOf, hlast]
  have hnames : instructionNames (as ++ [a]) = instructionNames as := by
    simp only [instructionNames, filterMap_append, filterMap_cons, h,
      filterMap_nil, append_nil]
  simp only [instructionDrafts, hdraft, hnames]

theorem ok_eq_ok_iff {d' : TargetDraft} :
    (.ok d : Except DescriptorError TargetDraft) = .ok d' ↔
      true = true ∧ d' = d := by
  rw [Except.ok.injEq, eq_self_iff_true, true_and, eq_comm]

theorem number_bind_eq_ok_iff {key value : String} {f : Nat → TargetDraft} :
    (number sect key value >>= fun n =>
      (pure (f n) : Except DescriptorError TargetDraft)) = .ok d ↔
      (unsigned? limit64 value.toList).isSome ∧
        d = f ((unsigned? limit64 value.toList).getD 0) := by
  unfold number
  cases unsigned? limit64 value.toList with
  | none => exact ⟨nofun, nofun⟩
  | some n => exact ⟨fun h => ⟨rfl, (Except.ok.inj h).symm⟩, fun h => h.2 ▸ rfl⟩

theorem short_bind_eq_ok_iff {key value : String} {f : Nat → TargetDraft} :
    (low32 <$> number sect key value >>= fun n =>
      (pure (f n) : Except DescriptorError TargetDraft)) = .ok d ↔
      (unsigned? limit64 value.toList).isSome ∧
        d = f (low32 ((unsigned? limit64 value.toList).getD 0)) := by
  rw [bind_map_left]
  exact number_bind_eq_ok_iff

theorem assign_scalar
    (h : instruction? a.sect = none) (as : List Assignment) (d : TargetDraft) :
    assign (draft as) a.sect a.key a.value = .ok d ↔
      a.passes ∧ d = draft (as ++ [a]) := by
  have hdrafts := instructionDrafts_concat_of_none h as
  have hafter : after? "mma.".toList a.sect.toList = none :=
    Option.map_eq_none_iff.mp h
  obtain ⟨sect, key, value⟩ := a
  simp only [Assignment.passes, draft, word_concat, numeric_concat, hdrafts]
  simp only at h hafter
  unfold assign
  split
  iterate 4 exact ok_eq_ok_iff
  iterate 5 exact short_bind_eq_ok_iff
  · exact number_bind_eq_ok_iff
  · exact ok_eq_ok_iff
  · exact number_bind_eq_ok_iff
  · next hname hdisplay hvendor harch hwarp hvector hthreads hbanks hbank
        hcapacity hengine hmin =>
      have hkind : kind? sect key = none := by
        unfold kind?
        split <;> simp_all
      rw [hkind, hafter, if_neg (not_and.mpr hname),
        if_neg (not_and.mpr hdisplay), if_neg (not_and.mpr hvendor),
        if_neg (not_and.mpr harch), if_neg (not_and.mpr hwarp),
        if_neg (not_and.mpr hvector), if_neg (not_and.mpr hthreads),
        if_neg (not_and.mpr hbanks), if_neg (not_and.mpr hbank),
        if_neg (not_and.mpr hcapacity), if_neg (not_and.mpr hengine),
        if_neg (not_and.mpr hmin)]
      exact ok_eq_ok_iff

/-! ## Sections of instructions -/

theorem kind?_instruction
    {name : String} (h : instruction? sect = some name) (key : String) :
    kind? sect key = instructionKind? key := by
  have hsome : (instruction? sect).isSome = true := by rw [h]; rfl
  unfold kind?
  split
  iterate 12 cases h
  rw [if_pos hsome]

theorem shapeOf_concat (as : List Assignment) (a : Assignment) (sect : String) :
    shapeOf (as ++ [a]) sect =
      if a.sect = sect ∧ a.key = "shape" then ofNumbers (numbers a.value)
        else shapeOf as sect := by
  unfold shapeOf
  rw [last?_concat]
  split <;> rfl

theorem typeOf_concat
    (as : List Assignment) (a : Assignment) (sect key : String) :
    typeOf (as ++ [a]) sect key =
      if a.sect = sect ∧ a.key = key then ElementType.parse? (unquote a.value)
      else typeOf as sect key := by
  unfold typeOf
  rw [last?_concat]
  split <;> rfl

theorem assignInstruction_eq_ok_iff
    {name key value : String} {i : InstructionDraft} :
    assignInstruction (instructionDraft as name) key value = .ok i ↔
      Assignment.passes ⟨"mma." ++ name, key, value⟩ ∧
        i = instructionDraft (as ++ [⟨"mma." ++ name, key, value⟩]) name := by
  have hsect : instruction? ("mma." ++ name) = some name :=
    instruction?_eq_some_iff.mpr rfl
  simp only [Assignment.passes, kind?_instruction hsect, instructionDraft,
    shapeOf_concat, typeOf_concat, true_and]
  unfold assignInstruction
  extract_lets type
  -- a type is taken if the word names one
  have htype : ∀ f : Option ElementType → InstructionDraft,
      (type >>= fun t => (pure (f t) : Except DescriptorError InstructionDraft))
        = .ok i ↔ (ElementType.parse? (unquote value)).isSome ∧
          i = f (ElementType.parse? (unquote value)) := by
    intro f
    simp only [type]
    cases ElementType.parse? (unquote value) with
    | none => exact ⟨nofun, nofun⟩
    | some t =>
        exact ⟨fun h => ⟨rfl, (Except.ok.inj h).symm⟩, fun h => h.2 ▸ rfl⟩
  clear_value type
  split
  · split
    · next m n k hnumbers =>
        rw [hnumbers]
        exact ⟨fun h => ⟨rfl, (Except.ok.inj h).symm⟩, fun h => h.2 ▸ rfl⟩
    · next hnumbers =>
        refine ⟨nofun, fun h => ?_⟩
        obtain ⟨m, n, k, hthree⟩ := length_eq_three.mp (eq_of_beq h.1)
        exact (hnumbers m n k hthree).elim
  · simp only [String.reduceEq, if_true, if_false]
    exact htype _
  · simp only [String.reduceEq, if_true, if_false]
    exact htype _
  · simp only [String.reduceEq, if_true, if_false]
    exact htype _
  · next hshape ha hb hacc =>
      have hkind : instructionKind? key = none := by
        unfold instructionKind?
        split <;> simp_all
      rw [hkind, if_neg hshape, if_neg ha, if_neg hb, if_neg hacc]
      exact ⟨fun h => ⟨rfl, (Except.ok.inj h).symm⟩, fun h => h.2 ▸ rfl⟩

section

variable {g : String → InstructionDraft} {name key value : String}

theorem assignNamed_of_mem
    (hg : ∀ n, (g n).name = n) {names : List String} (hnodup : names.Nodup)
    (hname : name ∈ names) :
    assignNamed name key value (names.map g) =
      (assignInstruction (g name) key value).map fun i =>
        names.map fun n => if n = name then i else g n := by
  induction names with
  | nil => cases hname
  | cons first rest ih =>
      obtain ⟨hfirst, hrest⟩ := nodup_cons.mp hnodup
      rw [map_cons, assignNamed, hg]
      by_cases hsame : first = name
      · subst hsame
        rw [if_pos rfl]
        cases assignInstruction (g first) key value with
        | error e => rfl
        | ok i =>
            have hkept : (rest.map fun n => if n = first then i else g n) =
                rest.map g := by
              apply map_congr_left
              intro n hn
              rw [if_neg fun heq : n = first => hfirst (heq ▸ hn)]
            show Except.ok (i :: rest.map g) = _
            simp only [Except.map, map_cons, if_true, hkept]
      · rw [if_neg hsame,
          ih hrest ((mem_cons.mp hname).resolve_left (Ne.symm hsame))]
        cases assignInstruction (g name) key value with
        | error e => rfl
        | ok i =>
            show Except.ok
              (g first :: rest.map fun n => if n = name then i else g n) = _
            simp only [Except.map, map_cons, if_neg hsame]

theorem assignNamed_of_not_mem
    (hg : ∀ n, (g n).name = n) {names : List String} (hname : name ∉ names) :
    assignNamed name key value (names.map g) =
      (assignInstruction ⟨name, ⟨0, 0, 0⟩, none, none, none⟩ key value).map
        fun i => names.map g ++ [i] := by
  induction names with
  | nil =>
      rw [map_nil, assignNamed]
      cases assignInstruction ⟨name, ⟨0, 0, 0⟩, none, none, none⟩ key
        value <;> rfl
  | cons first rest ih =>
      obtain ⟨hfirst, hrest⟩ := not_or.mp (mem_cons.not.mp hname)
      rw [map_cons, assignNamed, hg, if_neg (Ne.symm hfirst), ih hrest]
      cases assignInstruction ⟨name, ⟨0, 0, 0⟩, none, none, none⟩ key
        value <;> rfl

end

theorem mem_instructionNames {name : String} :
    name ∈ instructionNames as ↔ ∃ a ∈ as, a.sect = "mma." ++ name := by
  rw [instructionNames, mem_eraseDups, mem_filterMap]
  simp only [instruction?_eq_some_iff]

theorem instructionNames_concat {name : String} (h : a.sect = "mma." ++ name) :
    instructionNames (as ++ [a]) =
      if name ∈ instructionNames as then instructionNames as
      else instructionNames as ++ [name] := by
  have hmem : name ∈ instructionNames as ↔
      name ∈ as.filterMap fun a => instruction? a.sect := by
    rw [instructionNames, mem_eraseDups]
  rw [if_congr hmem rfl rfl]
  have hone : [a].filterMap (fun a => instruction? a.sect) = [name] :=
    filterMap_cons_some (instruction?_eq_some_iff.mpr h)
  unfold instructionNames
  rw [filterMap_append, eraseDups_append, hone]
  generalize as.filterMap (fun a => instruction? a.sect) = names
  split
  · next hin => simp [removeAll, hin]
  · next hnew => simp [removeAll, hnew, eraseDups_cons]

theorem last?_eq_none (h : ∀ a ∈ as, a.sect ≠ sect) (key : String) :
    last? as sect key = none := by
  unfold last?
  rw [Option.map_eq_none_iff, find?_eq_none]
  intro a ha
  simp [h a (mem_reverse.mp ha)]

theorem instructionDraft_of_not_mem
    {name : String} (h : name ∉ instructionNames as) :
    instructionDraft as name = ⟨name, ⟨0, 0, 0⟩, none, none, none⟩ := by
  have hnone : ∀ key, last? as ("mma." ++ name) key = none :=
    last?_eq_none fun a ha hsect => h (mem_instructionNames.mpr ⟨a, ha, hsect⟩)
  simp only [instructionDraft, shapeOf, typeOf, hnone]
  rfl

theorem instructionDraft_concat_of_ne
    {name : String} (h : a.sect ≠ "mma." ++ name) :
    instructionDraft (as ++ [a]) name = instructionDraft as name := by
  simp only [instructionDraft, shapeOf_concat, typeOf_concat,
    if_neg fun hsame => h (And.left hsame)]

/-- The drafts with that of one instruction replaced, or added at the end. -/
def replaced (as : List Assignment) (name : String) (i : InstructionDraft) :
    List InstructionDraft :=
  if name ∈ instructionNames as then
    (instructionNames as).map fun n =>
      if n = name then i else instructionDraft as n
  else (instructionNames as).map (instructionDraft as) ++ [i]

theorem assignNamed_drafts (as : List Assignment) (name key value : String) :
    assignNamed name key value (instructionDrafts as) =
      (assignInstruction (instructionDraft as name) key value).map
        (replaced as name) := by
  have hg : ∀ n, (instructionDraft as n).name = n := fun _ => rfl
  unfold instructionDrafts replaced
  by_cases hin : name ∈ instructionNames as
  · simp only [if_pos hin]
    exact assignNamed_of_mem hg (nodup_eraseDups _) hin
  · simp only [if_neg hin]
    rw [assignNamed_of_not_mem hg hin, instructionDraft_of_not_mem hin]

theorem instructionDrafts_concat
    (as : List Assignment) {name : String} (h : a.sect = "mma." ++ name) :
    instructionDrafts (as ++ [a]) =
      replaced as name (instructionDraft (as ++ [a]) name) := by
  have hothers : ∀ n ≠ name,
      instructionDraft (as ++ [a]) n = instructionDraft as n := by
    intro n hn
    apply instructionDraft_concat_of_ne
    rw [h]
    exact fun hsame => hn ((String.append_right_inj "mma.").mp hsame).symm
  unfold instructionDrafts replaced
  rw [instructionNames_concat h]
  split
  · apply map_congr_left
    intro n _
    split
    · next heq => rw [heq]
    · next hne => exact hothers n hne
  · next hnew =>
      rw [map_append, map_singleton]
      congr 1
      apply map_congr_left
      intro n hn
      exact hothers n fun heq => hnew (heq ▸ hn)

theorem assign_instruction
    {name : String} (h : instruction? a.sect = some name) (as : List Assignment)
    (d : TargetDraft) :
    assign (draft as) a.sect a.key a.value = .ok d ↔
      a.passes ∧ d = draft (as ++ [a]) := by
  obtain ⟨rest, hafter, rfl⟩ := Option.map_eq_some_iff.mp h
  have hsect := instruction?_eq_some_iff.mp h
  have hdrafts := instructionDrafts_concat as hsect
  obtain ⟨sect, key, value⟩ := a
  simp only at hsect hafter
  simp only [draft, word_concat, numeric_concat, hdrafts]
  unfold assign
  split
  iterate 12 cases hafter
  · next hname hdisplay hvendor harch hwarp hvector hthreads hbanks hbank
        hcapacity hengine hmin =>
      rw [hafter, if_neg (not_and.mpr hname), if_neg (not_and.mpr hdisplay),
        if_neg (not_and.mpr hvendor), if_neg (not_and.mpr harch),
        if_neg (not_and.mpr hwarp), if_neg (not_and.mpr hvector),
        if_neg (not_and.mpr hthreads), if_neg (not_and.mpr hbanks),
        if_neg (not_and.mpr hbank), if_neg (not_and.mpr hcapacity),
        if_neg (not_and.mpr hengine), if_neg (not_and.mpr hmin)]
      simp only
      rw [assignNamed_drafts]
      subst hsect
      constructor
      · intro hassign
        obtain ⟨drafts, hnamed, hassign⟩ := bind_eq_ok hassign
        obtain ⟨i, hi, rfl⟩ := map_eq_ok_iff.mp hnamed
        obtain ⟨hpasses, rfl⟩ := assignInstruction_eq_ok_iff.mp hi
        cases hassign
        exact ⟨hpasses, rfl⟩
      · rintro ⟨hpasses, rfl⟩
        rw [assignInstruction_eq_ok_iff.mpr ⟨hpasses, rfl⟩]
        rfl

theorem assign_eq_ok_iff
    (as : List Assignment) (a : Assignment) (d : TargetDraft) :
    assign (draft as) a.sect a.key a.value = .ok d ↔
      a.passes ∧ d = draft (as ++ [a]) := by
  cases h : instruction? a.sect with
  | none => exact assign_scalar h as d
  | some name => exact assign_instruction h as d

theorem foldlM_assign_eq_ok_iff (as rest : List Assignment) (d : TargetDraft) :
    rest.foldlM (fun d a => assign d a.sect a.key a.value) (draft as) = .ok d ↔
      (∀ a ∈ rest, a.passes) ∧ d = draft (as ++ rest) := by
  induction rest generalizing as with
  | nil =>
      rw [append_nil]
      exact ⟨fun h => ⟨nofun, (Except.ok.inj h).symm⟩, fun h => h.2 ▸ rfl⟩
  | cons a rest ih =>
      rw [foldlM_cons, bind_eq_ok_iff, forall_mem_cons, and_assoc]
      have hstep : ∀ d', assign (draft as) a.sect a.key a.value = .ok d' ↔
          a.passes ∧ d' = draft (as ++ [a]) := assign_eq_ok_iff as a
      constructor
      · rintro ⟨d', hassign, hrest⟩
        obtain ⟨hpasses, rfl⟩ := (hstep d').mp hassign
        rw [ih, append_assoc, singleton_append] at hrest
        exact ⟨hpasses, hrest⟩
      · rintro ⟨hpasses, hrest⟩
        refine ⟨_, (hstep _).mpr ⟨hpasses, rfl⟩, ?_⟩
        rwa [ih, append_assoc, singleton_append]

/-- A text is accepted if every value passes and the draft of all assignments is
complete. -/
theorem parse_eq_ok_iff {text : String} {target : Target} :
    parse text = .ok target ↔
      (∀ a ∈ assigned text, a.passes) ∧
      finish (draft (assigned text)) = .ok target := by
  unfold parse
  rw [read_eq_foldlM, ← draft_nil, bind_eq_ok_iff]
  constructor
  · rintro ⟨d, hread, hfinish⟩
    obtain ⟨hpasses, rfl⟩ := (foldlM_assign_eq_ok_iff [] _ d).mp hread
    exact ⟨hpasses, hfinish⟩
  · rintro ⟨hpasses, hfinish⟩
    exact ⟨_, (foldlM_assign_eq_ok_iff [] _ _).mpr ⟨hpasses, rfl⟩, hfinish⟩

/-! ## Complete drafts -/

structure Completes (d : TargetDraft) (t : Target) : Prop where
  name : t.name = d.name
  named : d.name ≠ ""
  displayName : t.displayName = if d.displayName = "" then d.name
    else d.displayName
  vendor : t.vendor.name = d.vendor
  arch : t.arch = if d.arch = "" then d.name else d.arch
  warpSize : t.warpSize = if d.warpSize = 0 then t.vendor.lanes else d.warpSize
  vectorBytes : t.vectorBytes = d.vectorBytes
  maxThreads : t.maxThreads = d.maxThreads
  shared : t.shared = ⟨d.banks, d.bankBytes, d.capacityBytes⟩
  positive : d.banks ≠ 0 ∧ d.bankBytes ≠ 0 ∧ d.capacityBytes ≠ 0 ∧
    d.vectorBytes ≠ 0
  bulkCopy : bulkCopy d.bulkEngine d.bulkMinBytes = .ok t.bulkCopy
  instructions : d.instructions.mapM (instruction · t.vendor t.warpSize) =
    .ok t.instructions

theorem ofName?_eq_some_iff {text : String} {vendor : Vendor} :
    Vendor.ofName? text = some vendor ↔ vendor.name = text := by
  constructor
  · intro h
    have hfound := find?_some h
    exact eq_of_beq hfound
  · rintro rfl
    cases vendor <;> rfl

theorem finish_eq_ok_iff {t : Target} : finish d = .ok t ↔ Completes d t := by
  unfold finish
  rw [check_eq_ok_iff]
  cases hvendor : Vendor.ofName? d.vendor with
  | none =>
      constructor
      · rintro ⟨-, hnone⟩
        cases hnone
      · intro h
        rw [ofName?_eq_some_iff.mpr h.vendor] at hvendor
        cases hvendor
  | some vendor =>
      have hspelled := ofName?_eq_some_iff.mp hvendor
      simp only [check_eq_ok_iff, bind_eq_ok_iff, String.isEmpty_iff]
      constructor
      · rintro ⟨hnamed, hbanks, hcapacity, hvector, bulk, hbulk, instructions,
          hinstructions, h⟩
        cases h
        exact ⟨rfl, hnamed, rfl, hspelled, rfl, rfl, rfl, rfl, rfl,
          ⟨fun h => hbanks (Or.inl h), fun h => hbanks (Or.inr h), hcapacity,
            hvector⟩, hbulk, hinstructions⟩
      · intro h
        have hsame : t.vendor = vendor := by
          have hother := ofName?_eq_some_iff.mpr h.vendor
          rw [hvendor] at hother
          exact (Option.some.inj hother).symm
        obtain ⟨_, displayName, _, arch, warpSize, shared, vectorBytes,
          maxThreads, _, _⟩ := t
        obtain ⟨hname, hnamed, hdisplay, -, harch, hwarp, hvectorBytes,
          hthreads, hshared, ⟨hbanks, hbank, hcapacity, hvector⟩, hbulk,
          hinstructions⟩ := h
        simp only
          at hsame hname hdisplay harch hwarp hvectorBytes hthreads hshared
        subst hsame hname hdisplay harch hwarp hvectorBytes hthreads hshared
        exact ⟨hnamed, not_or.mpr ⟨hbanks, hbank⟩, hcapacity, hvector, _, hbulk,
          _, hinstructions, rfl⟩

end Descriptor
end TileProgram
