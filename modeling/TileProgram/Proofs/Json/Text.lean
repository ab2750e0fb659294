import TileProgram.Json.Printer
import TileProgram.Json.Reader
import TileProgram.Proofs.Decimal.Faithful

/-!
# Written values read back

The reader takes the indented text of a value for that value, whatever text
follows.  Integers have to fit a machine word, and a double has to be one whose
own text is read as that double: the reader scales in double precision, so it
does not find every double again.
-/

namespace TileProgram

open List

variable {blanks rest text after : List Char} {fuel : Nat} {j : Json}
  {x : Float}

namespace Json

/-- A value that a text can say, when the doubles it says are among `kept`. -/
inductive Writable (kept : Float → Prop) : Json → Prop
  | null : Writable kept .null
  | bool (b : Bool) : Writable kept (.bool b)
  | int {z : Int} (hlow : -0x8000000000000000 ≤ z) (hhigh : z < limit64) :
      Writable kept (.int z)
  | float {x : Float} (h : kept x) : Writable kept (.float x)
  | string (s : String) : Writable kept (.string s)
  | array {items : List Json} (h : ∀ j ∈ items, Writable kept j) :
      Writable kept (.array items)
  | object {fields : List (String × Json)}
      (h : ∀ f ∈ fields, Writable kept f.2) : Writable kept (.object fields)

namespace Reader

/-! ## Blanks -/

theorem skipBlanks_cons {c : Char} (h : isBlank c = false) (rest : List Char) :
    skipBlanks (c :: rest) = c :: rest := by
  simp [skipBlanks, h]

theorem skipBlanks_append
    (h : ∀ c ∈ blanks, isBlank c = true) (text : List Char) :
    skipBlanks (blanks ++ text) = skipBlanks text := by
  induction blanks with
  | nil => rfl
  | cons c blanks ih =>
      rw [forall_mem_cons] at h
      simp only [cons_append, skipBlanks, h.1, if_true]
      exact ih h.2

theorem skipBlanks_skipBlanks (text : List Char) :
    skipBlanks (skipBlanks text) = skipBlanks text := by
  induction text with
  | nil => rfl
  | cons c rest ih =>
      by_cases h : isBlank c = true
      · simpa [skipBlanks, h] using ih
      · simp [skipBlanks, h]

theorem value_skipBlanks (fuel : Nat) (text : List Char) :
    value fuel (skipBlanks text) = value fuel text := by
  cases fuel with
  | zero => rfl
  | succ fuel => simp only [value, skipBlanks_skipBlanks]

/-! ## Quoted text -/

theorem stringBody_escape_control
    {n : Nat} (h : n < 32) (fuel : Nat) (more : List Char)
    (acc : Option String) :
    stringBody (fuel + 1) ((escape (Char.ofNat n)).toList ++ more) acc
      = stringBody fuel more (acc.map (·.push (Char.ofNat n))) := by
  have hsome : ∀ c,
      (do return (← acc).push (← some c)) = acc.map (·.push c) := by
    intro c
    cases acc <;> rfl
  interval_cases n <;> exact congrArg (stringBody fuel more) (hsome _)

theorem stringBody_escape
    (fuel : Nat) (c : Char) (more : List Char) (acc : Option String) :
    stringBody (fuel + 1) ((escape c).toList ++ more) acc
      = stringBody fuel more (acc.map (·.push c)) := by
  by_cases hcontrol : c.toNat < 32
  · rw [← Char.ofNat_toNat c]
    exact stringBody_escape_control hcontrol fuel more acc
  by_cases hquote : c = '"'
  · subst hquote
    cases acc <;> rfl
  by_cases hslash : c = '\\'
  · subst hslash
    cases acc <;> rfl
  have hescape : escape c = c.toString := by
    unfold escape
    split
    · exact absurd rfl hquote
    · exact absurd rfl hslash
    · exact absurd (by decide) hcontrol
    · exact absurd (by decide) hcontrol
    · exact absurd (by decide) hcontrol
    · dsimp only
      rw [if_neg (by omega), if_neg (by omega), if_neg hcontrol]
  rw [hescape]
  simp [stringBody, hcontrol]

theorem stringBody_escapes
    {chars : List Char} (h : chars.length < fuel) (rest : List Char)
    (acc : String) :
    stringBody fuel (chars.flatMap (fun c => (escape c).toList) ++ '"' :: rest)
      (some acc) = some (some (acc ++ String.ofList chars), rest) := by
  induction chars generalizing fuel acc with
  | nil =>
      obtain ⟨fuel, rfl⟩ := Nat.exists_eq_succ_of_ne_zero (Nat.ne_of_gt h)
      simp [stringBody]
  | cons c chars ih =>
      obtain ⟨fuel, rfl⟩ :=
        Nat.exists_eq_succ_of_ne_zero (Nat.ne_of_gt (Nat.zero_lt_of_lt h))
      rw [length_cons] at h
      have hpush : acc.push c ++ String.ofList chars = acc ++
          String.ofList (c :: chars) := by
        rw [← String.toList_inj]
        simp
      rw [flatMap_cons, append_assoc, stringBody_escape, Option.map_some,
        ih (by omega), hpush]

theorem toList_quoted (s : String) :
    (quoted s).toList =
      '"' :: (s.toList.flatMap (fun c => (escape c).toList) ++ ['"']) := by
  have hfold : ∀ (chars : List Char) (acc : String),
      (chars.foldl (fun acc c => acc ++ escape c) acc).toList
        = acc.toList ++ chars.flatMap (fun c => (escape c).toList) := by
    intro chars
    induction chars with
    | nil => simp
    | cons c chars ih =>
        intro acc
        simp [ih]
  simp [quoted, hfold]

/-! ## Numerals -/

theorem isDigit_iff {c : Char} : c.isDigit = true ↔ '0' ≤ c ∧ c ≤ '9' := by
  simp [Char.isDigit, Char.le_def]

/-- A numeral before the text does not go on in it. -/
def EndsNumeral (rest : List Char) : Prop :=
  ∀ c ∈ rest.head?, c.isDigit = false ∧ c ≠ '.' ∧ c ≠ 'e' ∧ c ≠ 'E'

theorem endsNumeral_nil : EndsNumeral [] := by
  intro c hc
  cases hc

theorem digits_of_endsNumeral (h : EndsNumeral rest) :
    digits rest = ([], rest) := by
  cases rest with
  | nil => rfl
  | cons c rest =>
      have hc : ¬ ('0' ≤ c ∧ c ≤ '9') := by
        rw [← isDigit_iff, (h c rfl).1]
        decide
      simp [digits, hc]

theorem digits_append (text : List Char) (h : EndsNumeral rest) :
    digits (text ++ rest) = ((digits text).1, (digits text).2 ++ rest) := by
  induction text with
  | nil => exact digits_of_endsNumeral h
  | cons c text ih =>
      by_cases hc : '0' ≤ c ∧ c ≤ '9'
      · simp [digits, hc, ih]
      · simp [digits, hc]

theorem digits_eq_map (h : ∀ c ∈ text, c.isDigit = true) :
    digits text = (text.map fun c => c.toNat - 48, []) := by
  induction text with
  | nil => rfl
  | cons c text ih =>
      rw [forall_mem_cons, isDigit_iff] at h
      simp [digits, h.1, ih h.2]

theorem fractionPart_append
    {fraction : Option (List Nat)} (hends : EndsNumeral rest)
    (h : fractionPart text = some (fraction, after)) :
    fractionPart (text ++ rest) = some (fraction, after ++ rest) := by
  cases text with
  | nil =>
      obtain ⟨rfl, rfl⟩ : none = fraction ∧ [] = after := by
        simpa [fractionPart] using h
      rw [nil_append, fractionPart.eq_def]
      split
      · exact absurd rfl (hends '.' rfl).2.1
      · rfl
  | cons c text =>
      by_cases hpoint : c = '.'
      · subst hpoint
        rcases hdigits : digits text with ⟨_ | ⟨d, ds⟩, tail⟩
        · simp [fractionPart, hdigits] at h
        · simp only [fractionPart, hdigits, Option.some.injEq, Prod.mk.injEq]
            at h
          obtain ⟨rfl, rfl⟩ := h
          simp [fractionPart, digits_append text hends, hdigits]
      · obtain ⟨rfl, rfl⟩ : none = fraction ∧ c :: text = after := by
          simpa [fractionPart, hpoint] using h
        simp [fractionPart, hpoint]

theorem exponentSign_append (h : text ≠ []) (rest : List Char) :
    exponentSign (text ++ rest) =
      ((exponentSign text).1, (exponentSign text).2 ++ rest) := by
  obtain ⟨c, text, rfl⟩ := exists_cons_of_ne_nil h
  simp only [cons_append, exponentSign.eq_def]
  split <;> simp_all

theorem exponentPart_append
    {exponent : Option (Bool × List Nat)} (hends : EndsNumeral rest)
    (h : exponentPart text = some (exponent, after)) :
    exponentPart (text ++ rest) = some (exponent, after ++ rest) := by
  cases text with
  | nil =>
      obtain ⟨rfl, rfl⟩ : none = exponent ∧ [] = after := by
        simpa [exponentPart] using h
      cases rest with
      | nil => rfl
      | cons c rest =>
          obtain ⟨_, _, hsmall, hlarge⟩ := hends c rfl
          simp [exponentPart, hsmall, hlarge]
  | cons c text =>
      by_cases hmark : (c == 'e' || c == 'E') = true
      · simp only [exponentPart, hmark, if_true] at h
        -- A mark at the end of the text has no digits behind it.
        have hne : text ≠ [] := by
          rintro rfl
          simp [exponentSign, digits] at h
        rcases hdigits : digits (exponentSign text).2 with ⟨_ | ⟨d, ds⟩, tail⟩
        · simp [hdigits] at h
        · simp only [hdigits, Option.some.injEq, Prod.mk.injEq] at h
          obtain ⟨rfl, rfl⟩ := h
          simp [exponentPart, hmark, exponentSign_append hne,
            digits_append _ hends, hdigits]
      · obtain ⟨rfl, rfl⟩ : none = exponent ∧ c :: text = after := by
          simpa [exponentPart, hmark] using h
        simp [exponentPart, hmark]

theorem numeral_append
    {negative : Bool} (hends : EndsNumeral rest)
    (h : numeral negative text = some (j, after)) :
    numeral negative (text ++ rest) = some (j, after ++ rest) := by
  unfold numeral at h ⊢
  rw [digits_append text hends]
  dsimp only at h ⊢
  split at h
  · cases h
  · cases h
  · obtain ⟨⟨fraction, tail⟩, hfraction, h⟩ := Option.bind_eq_some_iff.mp h
    obtain ⟨⟨exponent, tail⟩, hexponent, h⟩ := Option.bind_eq_some_iff.mp h
    obtain ⟨rfl, rfl⟩ := Prod.mk.inj (Option.some.inj h)
    simp [fractionPart_append hends hfraction,
      exponentPart_append hends hexponent]

theorem eq_zero_of_repr_zero {n : Nat} (h : n.repr.toList = '0' :: rest) :
    n = 0 := by
  rw [Nat.toList_repr] at h
  induction n using Nat.strongRecOn generalizing rest with
  | _ n ih =>
      by_cases hsmall : n < 10
      · rw [Nat.toDigits_of_lt_base hsmall, cons.injEq, Nat.digitChar_eq_zero]
          at h
        exact h.1
      · rw [Nat.toDigits_of_base_le (by decide) (Nat.not_lt.mp hsmall)] at h
        obtain ⟨c, leading, hleading⟩ :=
          exists_cons_of_ne_nil (Nat.toDigits_ne_nil (n := n / 10) (b := 10))
        rw [hleading, cons_append, cons.injEq] at h
        rw [h.1] at hleading
        have hzero := ih (n / 10) (by omega) hleading
        omega

theorem ofDigits_repr (n : Nat) :
    Numeral.ofDigits (n.repr.toList.map fun c => c.toNat - 48) = n := by
  conv_rhs => rw [← Decimal.ofDigitChars_repr n]
  rw [Numeral.ofDigits, foldl_map, Nat.ofDigitChars]
  congr 1
  funext acc c
  rw [Nat.mul_comm]
  rfl

theorem numeral_repr (negative : Bool) (n : Nat) :
    numeral negative n.repr.toList =
      some (Numeral.toJson ⟨negative,
        n.repr.toList.map fun c => c.toNat - 48, none, none⟩, []) := by
  unfold numeral
  rw [digits_eq_map fun c hc => isDigit_of_mem_repr hc]
  dsimp only
  split
  · next hempty =>
      exact absurd (map_eq_nil_iff.mp hempty) (repr_toList_ne_nil n)
  · next head tail hzero =>
      -- A leading zero is the only digit of zero.
      obtain ⟨c, text, htext, hdigit⟩ := exists_repr_eq_cons n
      rw [htext, map_cons, cons.injEq] at hzero
      have hlow : 48 ≤ c.toNat := (isDigit_iff.mp hdigit).1
      have hc : c = '0' := Char.toNat_inj.mp (show c.toNat = 48 by omega)
      rw [hc] at htext
      have hn := eq_zero_of_repr_zero htext
      rw [hn, Nat.toList_repr, Nat.toDigits_zero, cons.injEq] at htext
      rw [← htext.2] at hzero
      cases hzero.2
  · rfl

theorem toJson_whole {whole : List Nat} (h : Numeral.ofDigits whole < limit64) :
    Numeral.toJson ⟨false, whole, none, none⟩ =
      .int (Numeral.ofDigits whole) := by
  simp [Numeral.toJson, h]

theorem toJson_negative
    {whole : List Nat} (hpos : 0 < Numeral.ofDigits whole)
    (hle : Numeral.ofDigits whole ≤ 0x8000000000000000) :
    Numeral.toJson ⟨true, whole, none, none⟩ =
      .int (-Numeral.ofDigits whole) := by
  simp only [Numeral.toJson, if_true]
  rw [if_neg (by omega)]

theorem value_digit
    {c : Char} (h : c.isDigit = true) (fuel : Nat) (rest : List Char) :
    value (fuel + 1) (c :: rest) = numeral false (c :: rest) := by
  have hblank : isBlank c = false := by
    by_contra hblank
    simp only [isBlank, Bool.not_eq_false, Bool.or_eq_true, beq_iff_eq]
      at hblank
    rcases hblank with ((rfl | rfl) | rfl) | rfl <;> exact absurd h (by decide)
  simp only [value, skipBlanks_cons hblank]
  split
  all_goals first | rfl | (rename_i heq; cases heq; exact absurd h (by decide))

theorem value_minus (fuel : Nat) (rest : List Char) :
    value (fuel + 1) ('-' :: rest) = numeral true rest :=
  rfl

/-! ## Texts of values -/

/-- The reader takes the text for the value, and goes on with what follows. -/
def Taken (text : List Char) (j : Json) : Prop :=
  ∀ fuel rest, 2 * text.length ≤ fuel → EndsNumeral rest →
    ∃ after, value (fuel + 1) (text ++ rest) = some (j, after) ∧
      skipBlanks after = skipBlanks rest

theorem Taken.int
    {z : Int} (hlow : -0x8000000000000000 ≤ z) (hhigh : z < limit64) :
    Taken z.repr.toList (.int z) := by
  intro fuel rest _ hends
  refine ⟨rest, ?_, rfl⟩
  cases z with
  | ofNat n =>
      have hn : n < limit64 := Int.ofNat_lt.mp hhigh
      have hread := numeral_append hends (numeral_repr false n)
      rw [toJson_whole (by rwa [ofDigits_repr]), ofDigits_repr, nil_append]
        at hread
      obtain ⟨c, text, htext, hdigit⟩ := exists_repr_eq_cons n
      change value _ (n.repr.toList ++ rest) = some (.int n, rest)
      rw [← hread, htext, cons_append, value_digit hdigit]
  | negSucc n =>
      have hread := numeral_append hends (numeral_repr true (n + 1))
      rw [toJson_negative (by rw [ofDigits_repr]; omega)
        (by rw [ofDigits_repr]; omega), ofDigits_repr, nil_append] at hread
      have htext : (Int.negSucc n).repr.toList =
          '-' :: (n + 1).repr.toList := by
        simp [Int.repr]
      rw [htext, cons_append, value_minus, hread]
      rfl

theorem Taken.null : Taken "null".toList .null := by
  intro _ rest _ _
  exact ⟨rest, rfl, rfl⟩

theorem Taken.bool (b : Bool) :
    Taken (if b then "true" else "false").toList (.bool b) := by
  intro _ rest _ _
  cases b <;> exact ⟨rest, rfl, rfl⟩

theorem escape_ne_nil (c : Char) : (escape c).toList ≠ [] := by
  unfold escape
  split <;> try simp
  split_ifs <;> simp

theorem length_le_escapes (chars : List Char) :
    chars.length ≤ (chars.flatMap fun c => (escape c).toList).length := by
  induction chars with
  | nil => simp
  | cons c chars ih =>
      have hpos := length_pos_iff.mpr (escape_ne_nil c)
      rw [flatMap_cons, length_append, length_cons]
      omega

theorem stringBody_quoted
    {s : String} (h : (quoted s).toList.length ≤ fuel) (rest : List Char) :
    ∃ body, (quoted s).toList ++ rest = '"' :: body ∧
      stringBody fuel body (some "") = some (some s, rest) := by
  rw [toList_quoted] at h ⊢
  have hlength := length_le_escapes s.toList
  simp only [length_cons, length_append, length_nil] at h
  refine ⟨_, cons_append, ?_⟩
  rw [append_assoc, singleton_append, stringBody_escapes (by omega),
    String.empty_append, String.ofList_toList]

theorem Taken.string (s : String) : Taken (quoted s).toList (.string s) := by
  intro fuel rest hfuel _
  have hroom : (quoted s).toList.length ≤ fuel + 1 := by omega
  obtain ⟨body, htext, hbody⟩ := stringBody_quoted hroom rest
  refine ⟨rest, ?_, rfl⟩
  rw [htext]
  simp [value, skipBlanks_cons, isBlank, hbody]

theorem skipBlanks_append_of_nil (h : skipBlanks text = []) (rest : List Char) :
    skipBlanks (text ++ rest) = skipBlanks rest := by
  induction text with
  | nil => rfl
  | cons c text ih =>
      by_cases hblank : isBlank c = true
      · simp only [cons_append, skipBlanks, hblank, if_true] at h ⊢
        exact ih h
      · simp [skipBlanks, hblank] at h

theorem skipBlanks_append_of_cons
    {tail : List Char} {c : Char} (h : skipBlanks text = c :: tail)
    (rest : List Char) :
    skipBlanks (text ++ rest) = c :: (tail ++ rest) := by
  induction text with
  | nil => cases h
  | cons d text ih =>
      by_cases hblank : isBlank d = true
      · simp only [cons_append, skipBlanks, hblank, if_true] at h ⊢
        exact ih h
      · simp only [skipBlanks, hblank] at h
        obtain ⟨rfl, rfl⟩ := cons.inj h
        simp [skipBlanks, hblank]

theorem isDigit_of_numeral
    {negative : Bool} {r : Json × List Char}
    (h : numeral negative text = some r) :
    ∃ c rest, text = c :: rest ∧ c.isDigit = true := by
  cases text with
  | nil => cases h
  | cons c rest =>
      refine ⟨c, rest, rfl, ?_⟩
      by_contra hdigit
      rw [isDigit_iff] at hdigit
      simp [numeral, digits, hdigit] at h

theorem numeral_of_value (h : value (fuel + 1) text = some (.float x, after)) :
    (∃ tail, skipBlanks text = '-' :: tail ∧
      numeral true tail = some (.float x, after)) ∨
      numeral false (skipBlanks text) = some (.float x, after) := by
  simp only [value] at h
  split at h
  case h_7 tail htext => exact .inl ⟨tail, htext, h⟩
  case h_8 => exact .inr h
  case h_5 =>
    split at h
    · cases h
    · obtain ⟨_, _, h⟩ := Option.bind_eq_some_iff.mp h
      cases h
  case h_6 =>
    split at h
    · cases h
    · obtain ⟨⟨_ | fields, _⟩, _, h⟩ := Option.bind_eq_some_iff.mp h <;> cases h
  case h_4 =>
    obtain ⟨⟨_ | s, _⟩, _, h⟩ := Option.bind_eq_some_iff.mp h <;> cases h
  all_goals
    obtain ⟨_, _, h⟩ := Option.bind_eq_some_iff.mp h
    cases h

theorem Taken.float {text : String} (h : read? text = some (.float x)) :
    Taken text.toList (.float x) := by
  obtain ⟨⟨j, tail⟩, hvalue, h⟩ := Option.bind_eq_some_iff.mp h
  dsimp only at h
  split at h
  case isFalse => cases h
  case isTrue hblank =>
    obtain rfl := Option.some.inj h
    rw [List.isEmpty_iff] at hblank
    intro fuel rest _ hends
    refine ⟨tail ++ rest, ?_, skipBlanks_append_of_nil hblank rest⟩
    rw [← value_skipBlanks]
    rcases numeral_of_value hvalue with ⟨digits, htext, hnumeral⟩ | hnumeral
    · rw [skipBlanks_append_of_cons htext, value_minus]
      exact numeral_append hends hnumeral
    · obtain ⟨c, digits, htext, hdigit⟩ := isDigit_of_numeral hnumeral
      rw [skipBlanks_append_of_cons htext, value_digit hdigit, ← cons_append,
        ← htext]
      exact numeral_append hends hnumeral

/-! ## Collections -/

theorem items_skipBlanks (fuel : Nat) (text : List Char) :
    items fuel (skipBlanks text) = items fuel text := by
  cases fuel with
  | zero => rfl
  | succ fuel => simp only [items, value_skipBlanks]

theorem fields_skipBlanks (fuel : Nat) (text : List Char) :
    fields fuel (skipBlanks text) = fields fuel text := by
  cases fuel with
  | zero => rfl
  | succ fuel => simp only [fields, skipBlanks_skipBlanks]

theorem value_array
    {values : List Json} (h : items fuel text = some (values, rest)) :
    value (fuel + 1) ('[' :: text) = some (.array values, rest) := by
  have hstart : ∀ tail, skipBlanks text ≠ ']' :: tail := by
    intro tail htail
    rw [← items_skipBlanks, htail] at h
    rcases fuel with _ | _ | fuel <;> cases h
  simp [value, skipBlanks_cons (show isBlank '[' = false by decide),
    items_skipBlanks, h]

theorem value_object
    {entries : List (String × Json)}
    (h : fields fuel text = some (some entries, rest)) :
    value (fuel + 1) ('\x7b' :: text) = some (.object entries, rest) := by
  have hstart : ∀ tail, skipBlanks text ≠ '\x7d' :: tail := by
    intro tail htail
    rw [← fields_skipBlanks, htail] at h
    cases fuel <;> cases h
  simp [value, skipBlanks_cons (show isBlank '\x7b' = false by decide),
    fields_skipBlanks, h]

/-- Blanks, commas and closing brackets, which follow the texts of values. -/
theorem endsNumeral_cons
    {c : Char} (h : c ∈ [' ', '\n', '\t', '\r', ',', ']', '\x7d'])
    (rest : List Char) : EndsNumeral (c :: rest) := by
  have hchars : ∀ d ∈ [' ', '\n', '\t', '\r', ',', ']', '\x7d'],
      d.isDigit = false ∧ d ≠ '.' ∧ d ≠ 'e' ∧ d ≠ 'E' := by
    rw [← forall_iff_forall_mem]
    decide
  intro d hd
  obtain rfl : c = d := by simpa using hd
  exact hchars c h

theorem endsNumeral_blanks
    (h : ∀ c ∈ blanks, isBlank c = true) {c : Char}
    (hc : c ∈ [',', ']', '\x7d']) (rest : List Char) :
    EndsNumeral (blanks ++ c :: rest) := by
  cases blanks with
  | nil =>
      exact endsNumeral_cons (mem_append_right [' ', '\n', '\t', '\r'] hc) rest
  | cons b blanks =>
      have hblank := h b mem_cons_self
      simp only [isBlank, Bool.or_eq_true, beq_iff_eq] at hblank
      exact endsNumeral_cons (by simp [← or_assoc, hblank]) _

def FieldTaken (line : List Char) (f : String × Json) : Prop :=
  ∃ text, line = (quoted f.1).toList ++ ':' :: ' ' :: text ∧ Taken text f.2

/-- The reader comes from the key of a field to what follows its value. -/
theorem fields_key
    {line : List Char} {f : String × Json} (h : FieldTaken line f)
    (hfuel : 2 * line.length ≤ fuel) (hends : EndsNumeral rest) :
    ∃ body tail after, skipBlanks (line ++ rest) = '"' :: body ∧
      stringBody (fuel + 2) body (some "") = some (some f.1, ':' :: tail) ∧
      value (fuel + 1) tail = some (f.2, after) ∧
      skipBlanks after = skipBlanks rest := by
  obtain ⟨text, rfl, htaken⟩ := h
  simp only [length_append, length_cons] at hfuel
  have hroom : (quoted f.1).toList.length ≤ fuel + 2 := by omega
  obtain ⟨body, htext, hbody⟩ :=
    stringBody_quoted hroom (':' :: ' ' :: (text ++ rest))
  obtain ⟨after, hvalue, hafter⟩ := htaken fuel rest (by omega) hends
  refine ⟨body, ' ' :: (text ++ rest), after, ?_, hbody, ?_, hafter⟩
  · rw [append_assoc, cons_append, cons_append, htext,
      skipBlanks_cons (by decide)]
  · rw [← hvalue, ← value_skipBlanks, skipBlanks, if_pos (by decide),
      value_skipBlanks]

/-- The reader of a collection, which it takes element by element up to the
closing bracket. -/
structure Collects
    {α β : Type} (Element : List Char → α → Prop) (bracket : Char)
    (read : Nat → List Char → Option (β × List Char))
    (collection : List α → β) : Prop where
  closes : bracket ∈ [',', ']', '\x7d']
  skipBlanks : ∀ fuel text, read fuel (skipBlanks text) = read fuel text
  last : ∀ {fuel text rest tail a}, Element text a → 2 * text.length ≤ fuel →
    EndsNumeral rest → Reader.skipBlanks rest = bracket :: tail →
      read (fuel + 2) (text ++ rest) = some (collection [a], tail)
  more : ∀ {fuel text rest tail after a more}, Element text a →
    2 * text.length ≤ fuel →
    EndsNumeral rest → Reader.skipBlanks rest = ',' :: tail →
    read (fuel + 1) tail = some (collection more, after) →
      read (fuel + 2) (text ++ rest) = some (collection (a :: more), after)

theorem items_collects : Collects Taken ']' items id where
  closes := by decide
  skipBlanks := items_skipBlanks
  last h hfuel hends hrest := by
    obtain ⟨after, hvalue, hafter⟩ := h _ _ hfuel hends
    rw [hrest] at hafter
    rw [items]
    simp [hvalue, hafter]
  more h hfuel hends hrest hmore := by
    obtain ⟨after, hvalue, hafter⟩ := h _ _ hfuel hends
    rw [hrest] at hafter
    rw [items]
    simp [hvalue, hafter, hmore]

theorem fields_collects : Collects FieldTaken '\x7d' fields some where
  closes := by decide
  skipBlanks := fields_skipBlanks
  last h hfuel hends hrest := by
    obtain ⟨body, colon, after, hstart, hbody, hvalue, hafter⟩ :=
      fields_key h hfuel hends
    rw [hrest] at hafter
    simp [fields, hstart, hbody, skipBlanks_cons, isBlank, hvalue, hafter]
  more h hfuel hends hrest hmore := by
    obtain ⟨body, colon, after, hstart, hbody, hvalue, hafter⟩ :=
      fields_key h hfuel hends
    rw [hrest] at hafter
    rw [fields]
    simp [hstart, hbody, skipBlanks_cons, isBlank, hvalue, hafter, hmore]

section

variable {α β : Type} {Element : List Char → α → Prop} {bracket : Char}
  {read : Nat → List Char → Option (β × List Char)} {collection : List α → β}
  (h : Collects Element bracket read collection)

include h

theorem Collects.skipBlanks_bracket (rest : List Char) :
    Reader.skipBlanks (bracket :: rest) = bracket :: rest := by
  have hchars : ∀ d ∈ [',', ']', '\x7d'], isBlank d = false := by
    rw [← forall_iff_forall_mem]
    decide
  exact skipBlanks_cons (hchars bracket h.closes) rest

theorem Collects.append_blanks
    (hblanks : ∀ c ∈ blanks, isBlank c = true) (fuel : Nat) (text : List Char) :
    read fuel (blanks ++ text) = read fuel text := by
  rw [← h.skipBlanks, skipBlanks_append hblanks, h.skipBlanks]

theorem Collects.intercalate
    {close : List Char} (hblanks : ∀ c ∈ blanks, isBlank c = true)
    (hclose : ∀ c ∈ close, isBlank c = true) {texts : List (List Char)}
    {elements : List α} (helements : Forall₂ Element texts elements)
    (hne : texts ≠ []) (rest : List Char)
    (hfuel : 2 * (((',' :: blanks).intercalate texts).length + 1) ≤ fuel) :
    read fuel ((',' :: blanks).intercalate texts ++ (close ++ bracket :: rest))
      = some (collection elements, rest) := by
  induction helements generalizing fuel with
  | nil => exact absurd rfl hne
  | @cons text a texts elements ha helements ih =>
      obtain ⟨fuel, rfl⟩ := Nat.exists_eq_add_of_le' (show 2 ≤ fuel by omega)
      cases helements with
      | nil =>
          rw [intercalate_singleton] at hfuel ⊢
          apply h.last ha (by omega) (endsNumeral_blanks hclose h.closes rest)
          rw [skipBlanks_append hclose, h.skipBlanks_bracket]
      | @cons text' a' texts elements ha' helements =>
          rw [intercalate_cons_cons, length_append, length_append,
            length_cons] at hfuel
          have hmore := ih (cons_ne_nil _ _) (show _ ≤ fuel + 1 by omega)
          rw [← h.append_blanks hblanks] at hmore
          rw [intercalate_cons_cons, append_assoc, append_assoc]
          exact h.more ha (by omega) (endsNumeral_cons (by decide) _)
            (skipBlanks_cons (by decide) _) hmore

end

def lineBreak (depth : Nat) : List Char := '\n' :: replicate (2 * depth) ' '

theorem isBlank_of_mem_lineBreak {depth : Nat} :
    ∀ c ∈ lineBreak depth, isBlank c = true := by
  intro c hc
  rcases mem_cons.mp hc with rfl | hc
  · decide
  · rw [eq_of_mem_replicate hc]
    decide

section

variable {opening closing : String} {o c : Char}
  (hopening : opening.toList = [o]) (hclosing : closing.toList = [c])
  (depth : Nat)

include hopening hclosing

theorem toList_bracketed_nil :
    (bracketed opening closing depth []).toList = [o, c] := by
  simp [bracketed, hopening, hclosing]

theorem toList_bracketed {lines : List String} (h : lines ≠ []) :
    (bracketed opening closing depth lines).toList
      = o :: (lineBreak (depth + 1)
        ++ ((',' :: lineBreak (depth + 1)).intercalate (lines.map String.toList)
          ++ (lineBreak depth ++ [c]))) := by
  have hempty : lines.isEmpty = false := by simpa using h
  simp [bracketed, hopening, hclosing, lineBreak, hempty, toList_pushn,
    String.toList_intercalate, Nat.mul_add, replicate_succ']

end

theorem Collects.bracketed
    {α β : Type} {Element : List Char → α → Prop} {o c : Char}
    {read : Nat → List Char → Option (β × List Char)} {collection : List α → β}
    (h : Collects Element c read collection) {opening closing : String}
    (hopening : opening.toList = [o]) (hclosing : closing.toList = [c])
    {depth : Nat} {lines : List String} {elements : List α}
    (helements : Forall₂ Element (lines.map String.toList) elements)
    (hne : lines ≠ [])
    (hfuel : 2 * (bracketed opening closing depth lines).toList.length ≤ fuel)
    (rest : List Char) :
    ∃ text, (bracketed opening closing depth lines).toList ++ rest = o :: text ∧
      read fuel text = some (collection elements, rest) := by
  rw [toList_bracketed hopening hclosing depth hne] at hfuel ⊢
  simp only [length_cons, length_append] at hfuel
  refine ⟨_, cons_append, ?_⟩
  rw [append_assoc, h.append_blanks isBlank_of_mem_lineBreak, append_assoc,
    append_assoc]
  exact h.intercalate isBlank_of_mem_lineBreak isBlank_of_mem_lineBreak
    helements (by simpa using hne) rest (by omega)

theorem Taken.array
    {texts : List String} {values : List Json}
    (h : Forall₂ Taken (texts.map String.toList) values) (depth : Nat) :
    Taken (bracketed "[" "]" depth texts).toList (.array values) := by
  intro fuel rest hfuel _
  refine ⟨rest, ?_, rfl⟩
  by_cases hempty : texts = []
  · subst hempty
    cases h
    rw [toList_bracketed_nil rfl rfl]
    rfl
  · obtain ⟨text, htext, hread⟩ :=
      items_collects.bracketed rfl rfl h hempty hfuel rest
    rw [htext]
    exact value_array hread

theorem Taken.object
    {lines : List String} {entries : List (String × Json)}
    (h : Forall₂ FieldTaken (lines.map String.toList) entries) (depth : Nat) :
    Taken (bracketed "\x7b" "\x7d" depth lines).toList (.object entries) := by
  intro fuel rest hfuel _
  refine ⟨rest, ?_, rfl⟩
  by_cases hempty : lines = []
  · subst hempty
    cases h
    rw [toList_bracketed_nil rfl rfl]
    rfl
  · obtain ⟨text, htext, hread⟩ :=
      fields_collects.bracketed rfl rfl h hempty hfuel rest
    rw [htext]
    exact value_object hread

end Reader

theorem prettyItems_eq_map (depth : Nat) (items : List Json) :
    prettyItems depth items = items.map (pretty depth) := by
  induction items with
  | nil => rfl
  | cons j items ih => rw [prettyItems, ih, map_cons]

theorem prettyFields_eq_map (depth : Nat) (fields : List (String × Json)) :
    prettyFields depth fields
      = fields.map fun f => quoted f.1 ++ ": " ++ f.2.pretty depth := by
  induction fields with
  | nil => rfl
  | cons f fields ih => rw [prettyFields, ih, map_cons]

/-- The text of the double is read as that double. -/
def ReadsBack (x : Float) : Prop := read? (floatText x) = some (.float x)

def bits? : Json → Option Nat
  | .float x => some x.toBits.toNat
  | _ => none

theorem readsBack_iff :
    ReadsBack x ↔ (read? (floatText x)).bind bits? = some x.toBits.toNat := by
  constructor
  · intro h
    rw [h]
    rfl
  · intro h
    obtain ⟨j, hread, hbits⟩ := Option.bind_eq_some_iff.mp h
    cases j with
    | float y =>
        rw [ReadsBack, hread, Decimal.eq_of_toBits (Option.some.inj hbits)]
    | _ => cases hbits

instance (x : Float) : Decidable (ReadsBack x) :=
  decidable_of_iff' _ readsBack_iff

theorem Writable.taken (h : j.Writable ReadsBack) (depth : Nat) :
    Reader.Taken (j.pretty depth).toList j := by
  induction h generalizing depth with
  | null => exact .null
  | bool b => exact .bool b
  | int hlow hhigh => exact .int hlow hhigh
  | float hx => exact .float hx
  | string s => exact .string s
  | @array items _ ih =>
      rw [pretty, prettyItems_eq_map]
      apply Reader.Taken.array
      rw [forall₂_map_left_iff, forall₂_map_left_iff, forall₂_same]
      exact fun j hj => ih j hj (depth + 1)
  | @object fields _ ih =>
      rw [pretty, prettyFields_eq_map]
      apply Reader.Taken.object
      rw [forall₂_map_left_iff, forall₂_map_left_iff, forall₂_same]
      exact fun f hf => ⟨_, by simp, ih f hf (depth + 1)⟩

theorem read?_pretty (h : j.Writable ReadsBack) (depth : Nat) :
    read? (j.pretty depth) = some j := by
  obtain ⟨after, hvalue, hafter⟩ := h.taken depth (2 *
    (j.pretty depth).toList.length + 1) [] (by omega) Reader.endsNumeral_nil
  rw [append_nil] at hvalue
  simp [read?, hvalue, hafter, Reader.skipBlanks]

end Json
end TileProgram
