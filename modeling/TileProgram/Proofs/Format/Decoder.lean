import Mathlib.Data.List.Nodup
import TileProgram.Format.Decoder
import TileProgram.Proofs.Json.Text

/-!
# Decoders that restore

A decoder restores a value from its written form when it finds that value again,
in whatever form the text arrives, exactly when as many brackets are allowed as
the written form nests.  Records and variants restore their parts one by one, in
the order in which the decoder asks for them.
-/

namespace TileProgram

open List

namespace Json

mutual
/-- Brackets that a value nests. -/
def nesting : Json → Nat
  | .array items => itemsNesting items + 1
  | .object fields => fieldsNesting fields + 1
  | _ => 0

def itemsNesting : List Json → Nat
  | [] => 0
  | item :: rest => max item.nesting (itemsNesting rest)

def fieldsNesting : List (String × Json) → Nat
  | [] => 0
  | (_, value) :: rest => max value.nesting (fieldsNesting rest)
end

theorem nesting_array_le_iff {items : List Json} {depth : Nat} :
    (array items).nesting ≤ depth + 1 ↔ ∀ j ∈ items, j.nesting ≤ depth := by
  rw [nesting, Nat.add_le_add_iff_right]
  induction items with
  | nil => simp [itemsNesting]
  | cons j rest ih => rw [itemsNesting, Nat.max_le, ih, forall_mem_cons]

theorem nesting_object_le_iff {fields : List (String × Json)} {depth : Nat} :
    (object fields).nesting ≤ depth + 1 ↔
      ∀ j ∈ fields.map Prod.snd, j.nesting ≤ depth := by
  rw [nesting, Nat.add_le_add_iff_right]
  induction fields with
  | nil => simp [fieldsNesting]
  | cons f rest ih =>
      rw [fieldsNesting, Nat.max_le, ih, map_cons, forall_mem_cons]

theorem nesting_tagged (tag : String) (payload : Json) :
    (tagged tag payload).nesting = payload.nesting + 1 := by
  simp [tagged, nesting, fieldsNesting]

theorem Writable.tagged
    {kept : Float → Prop} {payload : Json} (h : payload.Writable kept)
    (tag : String) :
    (tagged tag payload).Writable kept :=
  .object (by simpa using h)

theorem itemsReadable_iff {depth : Nat} {items : List Json} :
    itemsReadable depth items = true ↔
      ∀ j ∈ items, j.isReadable depth = true := by
  induction items with
  | nil => simp [itemsReadable]
  | cons j rest ih => rw [itemsReadable, Bool.and_eq_true, ih, forall_mem_cons]

theorem fieldsReadable_iff {depth : Nat} {fields : List (String × Json)} :
    fieldsReadable depth fields = true ↔
      ∀ f ∈ fields, f.2.isReadable depth = true := by
  induction fields with
  | nil => simp [fieldsReadable]
  | cons f rest ih => rw [fieldsReadable, Bool.and_eq_true, ih, forall_mem_cons]

theorem Writable.isReadable_iff
    {kept : Float → Prop} {j : Json} (h : j.Writable kept) {depth : Nat} :
    j.isReadable depth = true ↔ j.nesting ≤ depth := by
  induction h generalizing depth with
  | array _ ih =>
      cases depth with
      | zero => simp [isReadable, nesting]
      | succ depth =>
          rw [isReadable, itemsReadable_iff, nesting_array_le_iff]
          exact forall₂_congr fun j hj => ih j hj
  | object _ ih =>
      cases depth with
      | zero => simp [isReadable, nesting]
      | succ depth =>
          rw [isReadable, fieldsReadable_iff, nesting_object_le_iff,
            forall_mem_map]
          exact forall₂_congr fun f hf => ih f hf
  | _ => cases depth <;> simp [isReadable, nesting]

end Json

namespace Decoder

variable {α β : Type} {kept : Float → Prop}

/-- The decoder finds `a` in `j`, if it may go as deep as `j` does, and `j` can
be written. -/
structure Restores
    (kept : Float → Prop) (value : Decoder α) (j : Json) (a : α) : Prop where
  decode_eq : ∀ form depth,
    value form depth j = if j.nesting ≤ depth then some a else none
  writable : j.Writable kept

namespace Restores

variable {value : Decoder α} {j : Json} {a : α}

theorem leaf
    (h : ∀ form depth, value form depth j = some a)
    (hwritable : j.Writable kept) (hnesting : j.nesting = 0) :
    Restores kept value j a :=
  ⟨fun form depth => by rw [h, hnesting, if_pos (Nat.zero_le depth)], hwritable⟩

theorem map (h : Restores kept value j a) (f : α → β) :
    Restores kept (fun form depth j => (value form depth j).map f) j (f a) := by
  refine ⟨fun form depth => ?_, h.writable⟩
  simp only [h.decode_eq]
  split_ifs <;> rfl

theorem bind
    {f : α → Option β} {b : β} (h : Restores kept value j a)
    (hf : f a = some b := by rfl) :
    Restores kept (fun form depth j => value form depth j >>= f) j b := by
  refine ⟨fun form depth => ?_, h.writable⟩
  simp only [h.decode_eq]
  split_ifs
  · exact hf
  · rfl

end Restores

/-! ## Plain values -/

theorem bool_restores (b : Bool) : Restores kept bool (.bool b) b :=
  .leaf (fun _ _ => rfl) (.bool b) rfl

theorem string_restores (s : String) : Restores kept string (.string s) s :=
  .leaf (fun _ _ => rfl) (.string s) rfl

theorem below_restores
    {limit n : Nat} (h : n < limit) (hlimit : limit ≤ limit64) :
    Restores kept (below limit) (.nat n) n := by
  refine .leaf (fun _ _ => if_pos h) (.int ?_ ?_) rfl <;> omega

theorem word8_restores {n : Nat} (h : n < 256) :
    Restores kept word8 (.nat n) n :=
  below_restores h (by decide)

theorem word32_restores {n : Nat} (h : n < limit32) :
    Restores kept word32 (.nat n) n :=
  below_restores h (by decide)

theorem word64_restores {n : Nat} (h : n < limit64) :
    Restores kept word64 (.nat n) n :=
  below_restores h (Nat.le_refl _)

theorem int64_restores {z : Int} (h : IsInt64 z) :
    Restores kept int64 (.int z) z := by
  exact .leaf (fun _ _ => if_pos h)
    (.int h.1 (Int.lt_trans h.2 (by decide))) rfl

theorem float_restores
    {x : Float} (hfinite : x.isFinite = true) (hkept : kept x) :
    Restores kept float (.float x) x :=
  .leaf (fun _ _ => if_pos hfinite) (.float hkept) rfl

theorem name_restores
    {ofName? : String → Option α} {text : String} {a : α}
    (h : ofName? text = some a) :
    Restores kept (name ofName?) (.string text) a := by
  refine .leaf (fun _ _ => ?_) (.string text) rfl
  simp [name, Variant.ofJson?, Variant.unit?, h]

/-! ## Collections -/

theorem list_restores
    {item : Decoder α} {encode : α → Json} {items : List α}
    (h : ∀ a ∈ items, Restores kept item (encode a) a) :
    Restores kept (list item) (Json.list encode items) items := by
  refine ⟨fun form depth => ?_, .array ?_⟩
  · cases depth with
    | zero => simp [list, Json.list, Json.nesting]
    | succ depth =>
        simp only [list, Json.list, Json.nesting_array_le_iff]
        induction items with
        | nil => simp
        | cons a items ih =>
            rw [forall_mem_cons] at h
            simp only [map_cons, mapM_cons, forall_mem_cons, ite_and, ih h.2,
              h.1.decode_eq]
            split_ifs <;> rfl
  · simp only [forall_mem_map]
    exact fun a ha => (h a ha).writable

theorem pair_restores
    {first : Decoder α} {second : Decoder β} {j₁ j₂ : Json} {a : α} {b : β}
    (ha : Restores kept first j₁ a) (hb : Restores kept second j₂ b) :
    Restores kept (pair first second) (.array [j₁, j₂]) (a, b) := by
  refine ⟨fun form depth => ?_, .array (by simp [ha.writable, hb.writable])⟩
  cases depth with
  | zero => simp [pair, Json.nesting]
  | succ depth =>
      simp only [pair, Json.nesting_array_le_iff, forall_mem_cons, ite_and,
        ha.decode_eq, hb.decode_eq]
      split_ifs <;> simp_all

theorem triple_restores
    {item : Decoder α} {make : α → α → α → β} {j₁ j₂ j₃ : Json} {a b c : α}
    (ha : Restores kept item j₁ a) (hb : Restores kept item j₂ b)
    (hc : Restores kept item j₃ c) :
    Restores kept (triple item make) (.array [j₁, j₂, j₃]) (make a b c) := by
  refine ⟨fun form depth => ?_,
    .array (by simp [ha.writable, hb.writable, hc.writable])⟩
  cases depth with
  | zero => simp [triple, Json.nesting]
  | succ depth =>
      simp only [triple, Json.nesting_array_le_iff, forall_mem_cons, ite_and,
        ha.decode_eq, hb.decode_eq, hc.decode_eq]
      split_ifs <;> simp_all

theorem nullable_restores
    {value : Decoder α} {encode : α → Json} {o : Option α}
    (h : ∀ a ∈ o, Restores kept value (encode a) a)
    (hnull : ∀ a, encode a ≠ .null) :
    Restores kept (nullable value) (Json.option encode o) o := by
  cases o with
  | none => exact .leaf (fun _ _ => rfl) .null rfl
  | some a =>
      refine ⟨fun form depth => ?_, (h a rfl).writable⟩
      have hsome : nullable value form depth (encode a) =
          (value form depth (encode a)).map some := by
        unfold nullable
        split
        · next hj => exact absurd hj (hnull a)
        · rfl
      rw [show Json.option encode (some a) = encode a from rfl, hsome,
        (h a rfl).decode_eq]
      split_ifs <;> rfl

end Decoder

/-! ## Records -/

namespace Fields

variable {α β : Type} {kept : Float → Prop}

/-- A record with these entries is found to be `a`, and the values `read` are
what is looked at. -/
structure Give
    (kept : Float → Prop) (entries : List (String × Json))
    (make : Fields → Option α) (read : List Json) (a : α) : Prop where
  make_eq : ∀ form depth, make ⟨form, depth, entries⟩
    = if ∀ j ∈ read, j.nesting ≤ depth then some a else none
  writable : ∀ j ∈ read, j.Writable kept

namespace Give

variable {entries : List (String × Json)} {name : String} {value : Decoder α}
  {j : Json} {a : α} {b : β} {make : α → Fields → Option β} {read : List Json}

theorem pure (b : β) : Give kept entries (fun _ => pure b) [] b :=
  ⟨fun _ _ => by simp, by simp⟩

theorem required
    (hv : value.Restores kept j a) (hmake : Give kept entries (make a) read b)
    (h : entries.lookup name = some j := by rfl) :
    Give kept entries (fun f => f.required name value >>= fun a => make a f)
      (j :: read) b := by
  refine ⟨fun form depth => ?_,
    forall_mem_cons.mpr ⟨hv.writable, hmake.writable⟩⟩
  simp only [Fields.required, h, Option.bind_some, hv.decode_eq,
    forall_mem_cons, ite_and]
  split_ifs <;> simp_all [hmake.make_eq]

theorem last
    (hv : value.Restores kept j a)
    (h : entries.lookup name = some j := by rfl) :
    Give kept entries (fun f => f.required name value) [j] a :=
  ⟨fun form depth => by simp [Fields.required, h, hv.decode_eq],
    by simpa using hv.writable⟩

theorem withDefault
    {default : α} (hv : value.Restores kept j a)
    (hmake : Give kept entries (make a) read b)
    (h : entries.lookup name = some j := by rfl) :
    Give kept entries
      (fun f => f.withDefault name value default >>= fun a => make a f)
      (j :: read) b := by
  refine ⟨fun form depth => ?_,
    forall_mem_cons.mpr ⟨hv.writable, hmake.writable⟩⟩
  simp only [Fields.withDefault, h, hv.decode_eq, forall_mem_cons, ite_and]
  split_ifs <;> simp_all [hmake.make_eq]

theorem optional
    {encode : α → Json} {o : Option α} {make : Option α → Fields → Option β}
    (hv : ∀ a ∈ o, value.Restores kept (encode a) a)
    (hmake : Give kept entries (make o) read b)
    (h : entries.lookup name = some (Json.option encode o) := by rfl)
    (hnull : ∀ a, encode a ≠ .null := by exact fun _ => nofun) :
    Give kept entries (fun f => f.optional name value >>= fun o => make o f)
      (Json.option encode o :: read) b :=
  withDefault (Decoder.nullable_restores hv hnull) hmake h

end Give

theorem ofJson?_object
    {fields : List (String × Json)} (h : (fields.map Prod.fst).Nodup)
    (form : Form) (depth : Nat) :
    ofJson? (fields.map Prod.fst) form (depth + 1) (.object fields) =
      some ⟨form, depth, fields⟩ := by
  have hknown : fields.filter (fun f => (fields.map Prod.fst).contains f.1) =
      fields := by
    rw [filter_eq_self]
    intro f hf
    rw [contains_iff_mem]
    exact mem_map_of_mem hf
  have hsingle : ∀ f ∈ fields, fields.countP (·.1 == f.1) = 1 := by
    intro f hf
    have hcount := count_eq_one_of_mem h (mem_map_of_mem hf)
    rwa [count, countP_map] at hcount
  simp only [ofJson?, hknown]
  rw [if_pos (by simpa using hsingle)]

end Fields

namespace Decoder.Restores

variable {α β : Type} {kept : Float → Prop} {names : List String}
  {make : Fields → Option α} {fields : List (String × Json)} {read : List Json}
  {a : α}

theorem record
    (h : Fields.Give kept fields make read a)
    (hnodup : names.Nodup := by decide)
    (hnames : fields.map Prod.fst = names := by rfl)
    (hread : ∀ j, j ∈ read ↔
      j ∈ fields.map Prod.snd := by exact fun _ => Iff.rfl) :
    Restores kept
      (fun form depth j => Fields.ofJson? names form depth j >>= make)
      (.object fields) a := by
  subst hnames
  refine ⟨fun form depth => ?_, .object ?_⟩
  · cases depth with
    | zero => simp [Fields.ofJson?, Json.nesting]
    | succ depth =>
        rw [Fields.ofJson?_object hnodup]
        simp only [Json.nesting_object_le_iff, ← hread]
        exact h.make_eq form depth
  · intro f hf
    exact h.writable f.2 ((hread f.2).mpr (mem_map_of_mem hf))

/-! ## Variants -/

variable {ofVariant? : Variant → Option α} {tag : String} {payload : Json}

theorem tagged
    {value : Decoder α} (h : Restores kept value payload a)
    (hread : ∀ form depth,
      ofVariant? ⟨tag, form, depth, payload⟩ = value form depth payload) :
    Restores kept
      (fun form depth j => Variant.ofJson? form depth j >>= ofVariant?)
      (Json.tagged tag payload) a := by
  refine ⟨fun form depth => ?_, h.writable.tagged tag⟩
  rw [Json.nesting_tagged]
  cases depth with
  | zero => rfl
  | succ depth => simp [Json.tagged, Variant.ofJson?, hread, h.decode_eq]

theorem variant
    {value : Decoder β} {f : β → Option α} {b : β}
    (h : Restores kept value payload b) (hf : f b = some a := by rfl)
    (hvariant : ∀ form depth payload, ofVariant? ⟨tag, form, depth, payload⟩ =
      (value form depth payload >>= f) := by exact fun _ _ _ => rfl) :
    Restores kept
      (fun form depth j => Variant.ofJson? form depth j >>= ofVariant?)
      (Json.tagged tag payload) a :=
  tagged (h.bind hf) fun form depth => hvariant form depth payload

theorem recordVariant
    (hvariant : ∀ form depth payload, ofVariant? ⟨tag, form, depth, payload⟩ =
      ((⟨tag, form, depth, payload⟩ : Variant).record? names >>= make))
    (h : Fields.Give kept fields make read a)
    (hnodup : names.Nodup := by decide)
    (hnames : fields.map Prod.fst = names := by rfl)
    (hread : ∀ j, j ∈ read ↔
      j ∈ fields.map Prod.snd := by exact fun _ => Iff.rfl) :
    Restores kept
      (fun form depth j => Variant.ofJson? form depth j >>= ofVariant?)
      (Json.tagged tag (.object fields)) a := by
  refine tagged (record h hnodup hnames hread) fun form depth => ?_
  rw [hvariant]
  cases form <;> rfl

theorem unitVariant
    (h : ∀ form depth, ofVariant? ⟨tag, form, depth, .null⟩ =
      some a := by exact fun _ _ => rfl) :
    Restores kept
      (fun form depth j => Variant.ofJson? form depth j >>= ofVariant?)
      (.string tag) a :=
  .leaf (fun form depth => h form depth) (.string tag) rfl

end Decoder.Restores

end TileProgram
