import Mathlib.Data.List.Basic
import Mathlib.Data.List.TakeWhile
import Mathlib.Data.Nat.Digits.Defs
import Mathlib.Tactic.Ring
import TileProgram.Target.Descriptor

/-!
# Lines of target descriptors

How the parts of a descriptor are written: lines between line breaks, names
between blanks or quotes, section headers, assignments and decimal numbers.
Each reader of a part accepts exactly what is written that way.
-/

namespace TileProgram

open List

variable {p : Char → Bool} {cs core piece : List Char} {mark : Char}
  {ls : List (List Char)} {n : Nat}

namespace Text

/-! ## Ends of texts -/

/-- `core` is left of a text when the characters at both ends that pass the test
are taken off. -/
structure Trims (p : Char → Bool) (cs core : List Char) : Prop where
  parts : ∃ before after,
    cs = before ++ core ++ after ∧ (∀ c ∈ before, p c = true) ∧
    ∀ c ∈ after, p c = true
  head : ∀ c, core.head? = some c → p c = false
  last : ∀ c, core.getLast? = some c → p c = false

theorem head?_dropWhile_eq_false
    {c : Char} (h : (cs.dropWhile p).head? = some c) : p c = false := by
  have hnot := head?_dropWhile_not p cs
  rw [h] at hnot
  exact hnot

theorem dropWhile_eq_self (h : ∀ c, cs.head? = some c → p c = false) :
    cs.dropWhile p = cs := by
  cases cs with
  | nil => rfl
  | cons c rest => exact dropWhile_cons_of_neg (Bool.eq_false_iff.mp (h c rfl))

theorem trims_stripWhile (p : Char → Bool) (cs : List Char) :
    Trims p cs (stripWhile p cs) := by
  have hback : cs.dropWhile p =
      stripWhile p cs ++ ((cs.dropWhile p).reverse.takeWhile p).reverse := by
    rw [stripWhile, ← reverse_append, takeWhile_append_dropWhile,
      reverse_reverse]
  refine ⟨⟨cs.takeWhile p, ((cs.dropWhile p).reverse.takeWhile p).reverse, ?_,
    ?_, ?_⟩, ?_, ?_⟩
  · rw [append_assoc, ← hback, takeWhile_append_dropWhile]
  · exact fun c hc => mem_takeWhile_imp hc
  · exact fun c hc => mem_takeWhile_imp (mem_reverse.mp hc)
  · intro c hc
    have hhead : (cs.dropWhile p).head? = some c := by
      rw [hback, head?_append, hc]
      rfl
    exact head?_dropWhile_eq_false hhead
  · intro c hc
    rw [stripWhile, getLast?_reverse] at hc
    exact head?_dropWhile_eq_false hc

theorem Trims.stripWhile_eq (h : Trims p cs core) : stripWhile p cs = core := by
  obtain ⟨⟨before, after, rfl, hbefore, hafter⟩, hhead, hlast⟩ := h
  rw [stripWhile, append_assoc, dropWhile_append_of_pos hbefore]
  have hfront : (core ++ after).dropWhile p = if core = [] then []
      else core ++ after := by
    split
    · next hnil =>
        rw [hnil, nil_append]
        exact dropWhile_eq_nil_iff.mpr hafter
    · next hne =>
        apply dropWhile_eq_self
        intro c hc
        obtain ⟨first, rest, rfl⟩ := exists_cons_of_ne_nil hne
        exact hhead c hc
  rw [hfront]
  split
  · next hnil =>
      rw [hnil]
      rfl
  · have hafter' : ∀ c ∈ after.reverse, p c = true :=
      fun c hc => hafter c (mem_reverse.mp hc)
    rw [reverse_append, dropWhile_append_of_pos hafter', dropWhile_eq_self,
      reverse_reverse]
    intro c hc
    exact hlast c (head?_reverse ▸ hc)

theorem stripWhile_eq_iff : stripWhile p cs = core ↔ Trims p cs core :=
  ⟨fun h => h ▸ trims_stripWhile p cs, Trims.stripWhile_eq⟩

/-! ## Pieces -/

theorem cut?_eq_some_iff {before after : List Char} :
    cut? mark cs = some (before, after) ↔
      cs = before ++ mark :: after ∧ mark ∉ before := by
  induction cs generalizing before with
  | nil => simp [cut?]
  | cons c rest ih =>
      by_cases hc : c = mark
      · cases before with
        | nil => simp [cut?, hc]
        | cons b before =>
            simp only [cut?, if_pos hc, Option.some.injEq, Prod.mk.injEq,
              cons_append, cons.injEq, mem_cons, not_or]
            constructor
            · rintro ⟨⟨⟩, -⟩
            · rintro ⟨⟨rfl, -⟩, hne, -⟩
              exact absurd hc.symm hne
      · cases before with
        | nil => simp [cut?, hc]
        | cons b before =>
            simp only [cut?, if_neg hc, Option.map_eq_some_iff, Prod.exists,
              Prod.mk.injEq, cons.injEq, cons_append, mem_cons, not_or]
            constructor
            · rintro ⟨front, back, hcut, ⟨rfl, rfl⟩, rfl⟩
              obtain ⟨hrest, hfront⟩ := ih.mp hcut
              exact ⟨⟨rfl, hrest⟩, Ne.symm hc, hfront⟩
            · rintro ⟨⟨rfl, hrest⟩, -, hbefore⟩
              exact ⟨before, after, ih.mpr ⟨hrest, hbefore⟩, ⟨rfl, rfl⟩, rfl⟩

theorem cut?_eq_none_iff : cut? mark cs = none ↔ mark ∉ cs := by
  induction cs with
  | nil => simp [cut?]
  | cons c rest ih =>
      by_cases hc : c = mark
      · simp [cut?, hc]
      · simp [cut?, hc, ih, Ne.symm hc]

theorem split_append (h : mark ∉ piece) (rest : List Char) :
    split mark (piece ++ mark :: rest) = piece :: split mark rest := by
  induction piece with
  | nil => simp [split]
  | cons c piece ih =>
      obtain ⟨hc, hpiece⟩ := not_or.mp (mem_cons.not.mp h)
      rw [cons_append, split, if_neg (Ne.symm hc), ih hpiece]

theorem split_of_not_mem (h : mark ∉ piece) : split mark piece = [piece] := by
  induction piece with
  | nil => rfl
  | cons c piece ih =>
      obtain ⟨hc, hpiece⟩ := not_or.mp (mem_cons.not.mp h)
      rw [split, if_neg (Ne.symm hc), ih hpiece]

theorem split_intercalate
    {pieces : List (List Char)} (hne : pieces ≠ [])
    (h : ∀ piece ∈ pieces, mark ∉ piece) :
    split mark ([mark].intercalate pieces) = pieces := by
  induction pieces with
  | nil => exact absurd rfl hne
  | cons piece rest ih =>
      have hpiece := h piece mem_cons_self
      cases rest with
      | nil => simpa using split_of_not_mem hpiece
      | cons next rest =>
          rw [intercalate_cons_cons, append_assoc, singleton_append,
            split_append hpiece, ih (by simp) fun p hp =>
            h p (mem_cons_of_mem _ hp)]

/-- The text consists of these lines, with a line break between any two. -/
structure HasLines (text : String) (ls : List (List Char)) : Prop where
  joined : text.toList = ['\n'].intercalate ls
  unbroken : ∀ l ∈ ls, '\n' ∉ l
  ne_nil : ls ≠ []

theorem HasLines.split_eq {text : String} (h : HasLines text ls) :
    split '\n' text.toList = ls := by
  rw [h.joined]
  exact split_intercalate h.ne_nil h.unbroken

theorem exists_split_cons (mark : Char) (cs : List Char) :
    ∃ piece more, split mark cs = piece :: more := by
  induction cs with
  | nil => exact ⟨[], [], rfl⟩
  | cons c rest ih =>
      obtain ⟨piece, more, hrest⟩ := ih
      by_cases hc : c = mark
      · exact ⟨[], split mark rest, by rw [split, if_pos hc]⟩
      · exact ⟨c :: piece, more, by rw [split, if_neg hc, hrest]⟩

theorem intercalate_split (mark : Char) (cs : List Char) :
    [mark].intercalate (split mark cs) = cs := by
  induction cs with
  | nil => rfl
  | cons c rest ih =>
      obtain ⟨piece, more, hrest⟩ := exists_split_cons mark rest
      rw [hrest] at ih
      by_cases hc : c = mark
      · rw [split, if_pos hc, hrest, intercalate_cons_cons, ih, hc]
        rfl
      · rw [split, if_neg hc, hrest]
        cases more with
        | nil => simpa using ih
        | cons next more =>
            rw [intercalate_cons_cons] at ih ⊢
            rw [cons_append, cons_append, ih]

theorem not_mem_of_mem_split (h : piece ∈ split mark cs) : mark ∉ piece := by
  induction cs generalizing piece with
  | nil =>
      rw [split, mem_singleton] at h
      rw [h]
      exact not_mem_nil
  | cons c rest ih =>
      obtain ⟨first, more, hrest⟩ := exists_split_cons mark rest
      by_cases hc : c = mark
      · rw [split, if_pos hc] at h
        rcases mem_cons.mp h with rfl | hin
        · exact not_mem_nil
        · exact ih hin
      · rw [split, if_neg hc, hrest] at h
        rw [hrest] at ih
        rcases mem_cons.mp h with rfl | hin
        · intro hmark
          rcases mem_cons.mp hmark with heq | hmark
          · exact hc heq.symm
          · exact ih mem_cons_self hmark
        · exact ih (mem_cons_of_mem first hin)

theorem hasLines_split (text : String) :
    HasLines text (split '\n' text.toList) where
  joined := (intercalate_split '\n' text.toList).symm
  unbroken _ := not_mem_of_mem_split
  ne_nil := by
    obtain ⟨piece, more, hsplit⟩ := exists_split_cons '\n' text.toList
    rw [hsplit]
    exact cons_ne_nil piece more

theorem after?_eq_some_iff {beginning rest : List Char} :
    after? beginning cs = some rest ↔ cs = beginning ++ rest := by
  induction beginning generalizing cs with
  | nil => simp [after?, eq_comm]
  | cons b beginning ih =>
      cases cs with
      | nil => simp [after?]
      | cons c cs =>
          by_cases hc : b = c
          · simp [after?, hc, ih]
          · simp [after?, hc, Ne.symm hc]

/-! ## Numbers -/

/-- The text is the number in decimal digits, perhaps after a plus sign. -/
def Writes (cs : List Char) (n : Nat) : Prop :=
  ∃ digits : List Nat,
    digits ≠ [] ∧ (∀ d ∈ digits, d < 10) ∧ n = Nat.ofDigits 10 digits.reverse ∧
    (cs = digits.map Nat.digitChar ∨ cs = '+' :: digits.map Nat.digitChar)

theorem isDigit_iff {c : Char} :
    ('0' ≤ c ∧ c ≤ '9') ↔ ∃ d < 10, c = Nat.digitChar d := by
  have hdigits : ∀ d < 10, '0' ≤ Nat.digitChar d ∧ Nat.digitChar d ≤ '9' ∧
      (Nat.digitChar d).toNat = d + 48 := by decide
  constructor
  · rintro ⟨hlow, hhigh⟩
    have hlow : 48 ≤ c.toNat := hlow
    have hhigh : c.toNat ≤ 57 := hhigh
    refine ⟨c.toNat - 48, by omega, Char.toNat_inj.mp ?_⟩
    rw [(hdigits _ (by omega)).2.2]
    omega
  · rintro ⟨d, hd, rfl⟩
    exact ⟨(hdigits d hd).1, (hdigits d hd).2.1⟩

theorem digitChar_sub {d : Nat} (hd : d < 10) :
    (Nat.digitChar d).toNat - '0'.toNat = d := by
  have hdigits : ∀ d < 10, (Nat.digitChar d).toNat - '0'.toNat = d := by decide
  exact hdigits d hd

theorem digits?_eq_some_iff {acc : Nat} :
    digits? acc cs = some n ↔ ∃ digits : List Nat, (∀ d ∈ digits, d < 10) ∧
      cs = digits.map Nat.digitChar ∧
      n = Nat.ofDigits 10 digits.reverse + 10 ^ digits.length * acc := by
  induction cs generalizing acc with
  | nil =>
      constructor
      · rintro ⟨⟩
        exact ⟨[], by simp, rfl, by simp⟩
      · rintro ⟨digits, -, hnil, rfl⟩
        rw [map_eq_nil_iff.mp hnil.symm]
        simp [digits?]
  | cons c rest ih =>
      -- one more digit moves what was read before by a place
      have hplace : ∀ (d : Nat) (ds : List Nat),
          Nat.ofDigits 10 (d :: ds).reverse + 10 ^ (d :: ds).length * acc =
            Nat.ofDigits 10 ds.reverse + 10 ^ ds.length * (acc * 10 + d) := by
        intro d ds
        rw [reverse_cons, Nat.ofDigits_append, length_reverse,
          Nat.ofDigits_singleton, length_cons]
        ring
      rw [digits?]
      constructor
      · intro h
        split at h
        · next hdigit =>
            obtain ⟨d, hd, rfl⟩ := isDigit_iff.mp hdigit
            rw [digitChar_sub hd] at h
            obtain ⟨ds, hds, rfl, rfl⟩ := ih.mp h
            refine ⟨d :: ds, ?_, rfl, (hplace d ds).symm⟩
            exact forall_mem_cons.mpr ⟨hd, hds⟩
        · cases h
      · rintro ⟨digits, hdigits, hcs, rfl⟩
        cases digits with
        | nil => cases hcs
        | cons d ds =>
            obtain ⟨rfl, rfl⟩ := cons.inj hcs
            obtain ⟨hd, hds⟩ := forall_mem_cons.mp hdigits
            rw [if_pos (isDigit_iff.mpr ⟨d, hd, rfl⟩), digitChar_sub hd]
            exact ih.mpr ⟨ds, hds, rfl, hplace d ds⟩

theorem digitRow?_eq_some_iff :
    digitRow? cs = some n ↔
      ∃ digits : List Nat, digits ≠ [] ∧ (∀ d ∈ digits, d < 10) ∧
      n = Nat.ofDigits 10 digits.reverse ∧ cs = digits.map Nat.digitChar := by
  cases cs with
  | nil => simp [digitRow?, eq_comm]
  | cons c rest =>
      rw [digitRow?, digits?_eq_some_iff]
      · constructor
        · rintro ⟨digits, hdigits, hcs, rfl⟩
          refine ⟨digits, ?_, hdigits, by simp, hcs⟩
          rintro rfl
          cases hcs
        · rintro ⟨digits, -, hdigits, rfl, hcs⟩
          exact ⟨digits, hdigits, hcs, by simp⟩
      · exact nofun

theorem digitChar_ne_plus {d : Nat} (hd : d < 10) : Nat.digitChar d ≠ '+' := by
  have hdigits : ∀ d < 10, Nat.digitChar d ≠ '+' := by decide
  exact hdigits d hd

theorem unsigned?_eq_some_iff {bound : Nat} :
    unsigned? bound cs = some n ↔ Writes cs n ∧ n < bound := by
  have hbound : ∀ row : Option Nat,
      (row.bind fun n => if n < bound then some n else none) = some n ↔
        row = some n ∧ n < bound := by
    intro row
    rw [Option.bind_eq_some_iff]
    constructor
    · rintro ⟨m, rfl, hm⟩
      split at hm
      · next hlt =>
          cases hm
          exact ⟨rfl, hlt⟩
      · cases hm
    · rintro ⟨rfl, hlt⟩
      exact ⟨n, rfl, if_pos hlt⟩
  unfold unsigned?
  dsimp only [Option.bind_eq_bind]
  split
  · next rest =>
      rw [hbound, digitRow?_eq_some_iff]
      refine and_congr_left fun _ => ?_
      constructor
      · rintro ⟨digits, hne, hdigits, hn, rfl⟩
        exact ⟨digits, hne, hdigits, hn, Or.inr rfl⟩
      · rintro ⟨digits, hne, hdigits, hn, hplain | hplus⟩
        · cases digits with
          | nil => exact absurd rfl hne
          | cons d ds =>
              have hd := hdigits d mem_cons_self
              exact absurd (cons.inj hplain).1.symm (digitChar_ne_plus hd)
        · exact ⟨digits, hne, hdigits, hn, (cons.inj hplus).2⟩
  · next hunsigned =>
      rw [hbound, digitRow?_eq_some_iff]
      refine and_congr_left fun _ => ?_
      constructor
      · rintro ⟨digits, hne, hdigits, hn, hplain⟩
        exact ⟨digits, hne, hdigits, hn, Or.inl hplain⟩
      · rintro ⟨digits, hne, hdigits, hn, hplain | hplus⟩
        · exact ⟨digits, hne, hdigits, hn, hplain⟩
        · exact (hunsigned _ hplus).elim

theorem Writes.unique {m : Nat} (hm : Writes cs m) (hn : Writes cs n) :
    m = n := by
  have hread :=
    unsigned?_eq_some_iff.mpr ⟨hm, Nat.lt_succ_of_le (Nat.le_max_left m n)⟩
  rw [unsigned?_eq_some_iff.mpr ⟨hn, Nat.lt_succ_of_le (Nat.le_max_right m n)⟩]
    at hread
  exact (Option.some.inj hread).symm

end Text

/-! ## Lines -/

namespace Descriptor

open Text

def IsHeader (core : List Char) : Prop :=
  ∃ inner, core = '[' :: (inner ++ [']'])

/-- How a line is spelled, and what it says. -/
inductive Spells : List Char → Option Line → Prop where
  | blank {cs : List Char} (h : Trims isBlank cs []) : Spells cs none
  | comment {cs rest : List Char} (h : Trims isBlank cs ('#' :: rest)) :
      Spells cs none
  | header {cs inner name : List Char}
      (h : Trims isBlank cs ('[' :: (inner ++ [']'])))
      (hname : Trims isBlank inner name) :
      Spells cs (some (.sect (String.ofList name)))
  | assign {cs left right key value : List Char}
      (h : Trims isBlank cs (left ++ '=' :: right)) (hleft : '=' ∉ left)
      (hcomment : (left ++ '=' :: right).head? ≠ some '#')
      (hheader : ¬IsHeader (left ++ '=' :: right))
      (hkey : Trims isBlank left key) (hvalue : Trims isBlank right value) :
      Spells cs (some (.assign (String.ofList key) (String.ofList value)))
  | idle {cs core : List Char} (h : Trims isBlank cs core) (hmark : '=' ∉ core)
      (hheader : ¬IsHeader core) : Spells cs none

theorem sectionName?_eq_some_iff {name : String} :
    sectionName? core = some name ↔
      ∃ inner, core = '[' :: (inner ++ [']']) ∧
        name = String.ofList (trim inner) := by
  unfold sectionName?
  split
  · next rest =>
      constructor
      · intro h
        split at h
        · next hlast =>
            cases h
            exact ⟨rest.dropLast, by rw [dropLast_append_getLast? ']' hlast],
              rfl⟩
        · cases h
      · rintro ⟨inner, hcore, rfl⟩
        obtain ⟨-, rfl⟩ := cons.inj hcore
        simp
  · next hother =>
      constructor
      · exact nofun
      · rintro ⟨inner, rfl, -⟩
        exact (hother _ rfl).elim

theorem sectionName?_eq_none (h : ¬IsHeader core) :
    sectionName? core = none := by
  apply Option.eq_none_iff_forall_ne_some.mpr
  intro name hname
  obtain ⟨inner, hcore, -⟩ := sectionName?_eq_some_iff.mp hname
  exact h ⟨inner, hcore⟩

theorem line?_eq_of_spells {l : Option Line} (h : Spells cs l) :
    line? cs = l := by
  cases h with
  | blank h =>
      unfold line?
      rw [trim, h.stripWhile_eq]
  | comment h =>
      unfold line?
      rw [trim, h.stripWhile_eq]
      rfl
  | @header inner name h hname =>
      have hsect := sectionName?_eq_some_iff.mpr ⟨inner, rfl, rfl⟩
      unfold line?
      rw [trim, h.stripWhile_eq]
      split
      · next hnil => cases hnil
      · next hmark => cases hmark
      · simp only [hsect, trim, hname.stripWhile_eq]
  | @assign left right key value h hleft hcomment hheader hkey hvalue =>
      have hcut : cut? '=' (left ++ '=' :: right) = some (left, right) :=
        cut?_eq_some_iff.mpr ⟨rfl, hleft⟩
      unfold line?
      rw [trim, h.stripWhile_eq]
      split
      · next hnil => simp at hnil
      · next rest hmark => exact (hcomment (by rw [hmark]; rfl)).elim
      · simp only [sectionName?_eq_none hheader, hcut, Option.map_some, trim,
          hkey.stripWhile_eq, hvalue.stripWhile_eq]
  | idle h hmark hheader =>
      unfold line?
      rw [trim, h.stripWhile_eq]
      split
      · rfl
      · rfl
      · simp only [sectionName?_eq_none hheader, cut?_eq_none_iff.mpr hmark,
          Option.map_none]

theorem spells_line? (cs : List Char) : Spells cs (line? cs) := by
  have htrims : Trims isBlank cs (trim cs) := trims_stripWhile isBlank cs
  unfold line?
  generalize trim cs = core at htrims
  split
  · exact .blank htrims
  · exact .comment htrims
  · next hnil hcomment =>
      split
      · next name hname =>
          obtain ⟨inner, rfl, rfl⟩ := sectionName?_eq_some_iff.mp hname
          exact .header htrims (trims_stripWhile isBlank inner)
      · next hname =>
          have hheader : ¬IsHeader core := by
            rintro ⟨inner, rfl⟩
            rw [sectionName?_eq_some_iff.mpr ⟨inner, rfl, rfl⟩] at hname
            cases hname
          cases hcut : cut? '=' core with
          | none => exact .idle htrims (cut?_eq_none_iff.mp hcut) hheader
          | some parts =>
              obtain ⟨left, right⟩ := parts
              obtain ⟨rfl, hleft⟩ := cut?_eq_some_iff.mp hcut
              refine .assign htrims hleft ?_ hheader
                (trims_stripWhile isBlank left) (trims_stripWhile isBlank right)
              intro hhead
              obtain ⟨rest, hrest⟩ := head?_eq_some_iff.mp hhead
              exact hcomment rest hrest

/-! ## Assignments -/

structure Assignment where
  sect : String
  key : String
  value : String
  deriving DecidableEq, Repr

/-- What lines assign, each in the section named last before it. -/
def assignments : String → List Line → List Assignment
  | _, [] => []
  | _, .sect name :: rest => assignments name rest
  | sect, .assign key value :: rest =>
      ⟨sect, key, value⟩ :: assignments sect rest

def assigned (text : String) : List Assignment := assignments "" (lines text)

/-- The lines, under a section named before them, spell these assignments. -/
inductive Lists : String → List (List Char) → List Assignment → Prop where
  | nil (sect : String) : Lists sect [] []
  | silent {sect : String} {cs : List Char} {rest : List (List Char)}
      {as : List Assignment} (h : Spells cs none) (hrest : Lists sect rest as) :
      Lists sect (cs :: rest) as
  | header {sect name : String} {cs : List Char} {rest : List (List Char)}
      {as : List Assignment} (h : Spells cs (some (.sect name)))
      (hrest : Lists name rest as) : Lists sect (cs :: rest) as
  | assign {sect key value : String} {cs : List Char} {rest : List (List Char)}
      {as : List Assignment} (h : Spells cs (some (.assign key value)))
      (hrest : Lists sect rest as) :
      Lists sect (cs :: rest) (⟨sect, key, value⟩ :: as)

theorem Lists.eq_assignments
    {sect : String} {as : List Assignment} (h : Lists sect ls as) :
    as = assignments sect (ls.filterMap line?) := by
  induction h with
  | nil sect => rfl
  | silent h _ ih => rw [filterMap_cons_none (line?_eq_of_spells h), ih]
  | header h _ ih =>
      rw [filterMap_cons_some (line?_eq_of_spells h), ih, assignments]
  | assign h _ ih =>
      rw [filterMap_cons_some (line?_eq_of_spells h), ih, assignments]

theorem lists_assignments (sect : String) (ls : List (List Char)) :
    Lists sect ls (assignments sect (ls.filterMap line?)) := by
  induction ls generalizing sect with
  | nil => exact .nil sect
  | cons cs rest ih =>
      have hspells := spells_line? cs
      cases hline : line? cs with
      | none =>
          rw [hline] at hspells
          rw [filterMap_cons_none hline]
          exact .silent hspells (ih sect)
      | some l =>
          rw [hline] at hspells
          rw [filterMap_cons_some hline]
          cases l with
          | sect name => exact .header hspells (ih name)
          | assign key value => exact .assign hspells (ih sect)

theorem lists_iff
    {text : String} (h : HasLines text ls) {as : List Assignment} :
    Lists "" ls as ↔ as = assigned text := by
  rw [assigned, lines, h.split_eq]
  constructor
  · exact Lists.eq_assignments
  · rintro rfl
    exact lists_assignments "" ls

/-! ## Shapes -/

/-- The text is a number of 32 bits with blanks around it. -/
def WritesEntry (piece : List Char) (n : Nat) : Prop :=
  n < limit32 ∧ ∃ core, Trims isBlank piece core ∧ Writes core n

/-- The value is a list of exactly three numbers in brackets; a comma may follow
the last. -/
def WritesShape (value : String) (s : GemmShape) : Prop :=
  ∃ p q r ending : List Char,
    WritesEntry p s.m ∧ WritesEntry q s.n ∧ WritesEntry r s.k ∧
    (ending = [] ∨
      ∃ blanks, ending = ',' :: blanks ∧ ∀ c ∈ blanks, isBlank c = true) ∧
    value.toList = '[' :: (p ++ ',' :: (q ++ ',' :: (r ++ ending)) ++ [']'])

theorem not_mem_of_writes
    (h : Writes cs n) (hdigit : ¬('0' ≤ mark ∧ mark ≤ '9'))
    (hplus : mark ≠ '+') : mark ∉ cs := by
  obtain ⟨digits, -, hdigits, -, hcs⟩ := h
  have hrow : mark ∉ digits.map Nat.digitChar := by
    intro hmark
    obtain ⟨d, hd, rfl⟩ := mem_map.mp hmark
    exact hdigit (isDigit_iff.mpr ⟨d, hdigits d hd, rfl⟩)
  rcases hcs with rfl | rfl
  · exact hrow
  · intro hmark
    rcases mem_cons.mp hmark with heq | hmark
    · exact hplus heq
    · exact hrow hmark

theorem WritesEntry.not_mem
    (h : WritesEntry piece n) (hdigit : ¬('0' ≤ mark ∧ mark ≤ '9'))
    (hplus : mark ≠ '+') (hblank : isBlank mark = false) : mark ∉ piece := by
  obtain ⟨-, core, ⟨⟨before, after, rfl, hbefore, hafter⟩, -, -⟩, hwrites⟩ := h
  intro hmark
  rcases mem_append.mp hmark with hmark | hmark
  · rcases mem_append.mp hmark with hmark | hmark
    · rw [hbefore mark hmark] at hblank
      cases hblank
    · exact not_mem_of_writes hwrites hdigit hplus hmark
  · rw [hafter mark hmark] at hblank
    cases hblank

theorem writesEntry_iff :
    WritesEntry piece n ↔ unsigned? limit32 (trim piece) = some n := by
  rw [unsigned?_eq_some_iff]
  constructor
  · rintro ⟨hlt, core, htrims, hwrites⟩
    rw [trim, htrims.stripWhile_eq]
    exact ⟨hwrites, hlt⟩
  · rintro ⟨hwrites, hlt⟩
    exact ⟨hlt, trim piece, trims_stripWhile isBlank piece, hwrites⟩

theorem WritesEntry.isPlain (h : WritesEntry piece n) :
    ',' ∉ piece ∧ '[' ∉ piece ∧ ']' ∉ piece :=
  ⟨h.not_mem (by decide) (by decide) (by decide), h.not_mem (by decide)
    (by decide) (by decide), h.not_mem (by decide) (by decide) (by decide)⟩

theorem not_mem_blanks
    {blanks : List Char} (h : ∀ c ∈ blanks, isBlank c = true)
    (hmark : isBlank mark = false) : mark ∉ blanks := by
  intro hin
  rw [h mark hin] at hmark
  cases hmark

theorem unsigned?_blanks
    {blanks : List Char} (h : ∀ c ∈ blanks, isBlank c = true) :
    unsigned? limit32 (trim blanks) = none := by
  have htrims : Trims isBlank blanks [] :=
    ⟨⟨blanks, [], by simp, h, nofun⟩, nofun, nofun⟩
  rw [trim, htrims.stripWhile_eq]
  decide

theorem numbers_eq_of_brackets
    {value : String} {body : List Char} (hopen : '[' ∉ body)
    (hclose : ']' ∉ body) (hvalue : value.toList = '[' :: (body ++ [']'])) :
    numbers value = (split ',' body).filterMap fun piece =>
      unsigned? limit32 (trim piece) := by
  have hfront : ('[' :: (body ++ [']'])).dropWhile (· == '[') =
      body ++ [']'] := by
    rw [dropWhile_cons_of_pos (by decide)]
    apply dropWhile_eq_self
    intro c hc
    rw [beq_eq_false_iff_ne]
    rintro rfl
    have hin := mem_of_mem_head? hc
    simp [hopen] at hin
  have hback : ((body ++ [']']).reverse.dropWhile (· == ']')).reverse =
      body := by
    rw [reverse_append, reverse_singleton, singleton_append,
      dropWhile_cons_of_pos (by decide), dropWhile_eq_self, reverse_reverse]
    intro c hc
    rw [beq_eq_false_iff_ne]
    rintro rfl
    exact hclose (mem_reverse.mp (mem_of_mem_head? hc))
  simp only [numbers, hvalue, hfront, hback]

theorem numbers_eq_of_writesShape
    {value : String} {s : GemmShape} (h : WritesShape value s) :
    numbers value = [s.m, s.n, s.k] := by
  obtain ⟨p, q, r, ending, hp, hq, hr, hending, hvalue⟩ := h
  obtain ⟨hpComma, hpOpen, hpClose⟩ := hp.isPlain
  obtain ⟨hqComma, hqOpen, hqClose⟩ := hq.isPlain
  obtain ⟨hrComma, hrOpen, hrClose⟩ := hr.isPlain
  rcases hending with rfl | ⟨blanks, rfl, hblanks⟩
  · rw [numbers_eq_of_brackets (by simp [*]) (by simp [*]) hvalue, split_append
      hpComma, split_append hqComma, append_nil, split_of_not_mem hrComma]
    simp [writesEntry_iff.mp hp, writesEntry_iff.mp hq, writesEntry_iff.mp hr]
  · have hcomma : ',' ∉ blanks := not_mem_blanks hblanks (by decide)
    have hopen : '[' ∉ blanks := not_mem_blanks hblanks (by decide)
    have hclose : ']' ∉ blanks := not_mem_blanks hblanks (by decide)
    rw [numbers_eq_of_brackets (by simp [*]) (by simp [*]) hvalue,
      split_append hpComma, split_append hqComma, split_append hrComma,
      split_of_not_mem hcomma]
    simp [writesEntry_iff.mp hp, writesEntry_iff.mp hq, writesEntry_iff.mp hr,
      unsigned?_blanks hblanks]

end Descriptor
end TileProgram
