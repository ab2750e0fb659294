import Mathlib.Tactic.MkIffOfInductiveProp
import TileProgram.Format.Kernel
import TileProgram.Proofs.Format.Decoder

/-!
# Layouts, schedules and strategies survive their files

What the passes attach to a kernel is found again in its written form, as long
as its numbers fit the words that the decoder expects.
-/

namespace TileProgram

open Decoder Fields

variable {kept : Float → Prop}

/-! ## Layouts -/

theorem ElementType.restores (t : ElementType) :
    ElementType.decode.Restores kept t.toJson t :=
  name_restores (by cases t <;> rfl)

theorem Scope.restores (s : Scope) : Scope.decode.Restores kept s.toJson s :=
  name_restores (by cases s <;> rfl)

abbrev WarpGrid.Fits (g : WarpGrid) : Prop :=
  g.rows < limit32 ∧ g.cols < limit32

theorem WarpGrid.restores {g : WarpGrid} (h : g.Fits) :
    WarpGrid.decode.Restores kept g.toJson g :=
  (pair_restores (word32_restores h.1) (word32_restores h.2)).bind

abbrev Swizzle.Fits (s : Swizzle) : Prop :=
  s.bits < limit32 ∧ s.base < limit32 ∧ s.shift < limit32

theorem Swizzle.restores {s : Swizzle} (h : s.Fits) :
    Swizzle.decode.Restores kept s.toJson s :=
  .record (.required (word32_restores h.1) (.required (word32_restores h.2.1)
    (.required (word32_restores h.2.2) (.pure _))))

def Atom.Fits : Atom → Prop
  | mmaA pack | mmaB pack => pack < limit32
  | mmaC => True
  | mfmaA m k => m < limit32 ∧ k < limit32
  | mfmaB n k => n < limit32 ∧ k < limit32
  | mfmaC m n => m < limit32 ∧ n < limit32

instance (a : Atom) : Decidable a.Fits :=
  match a with
  | .mmaA _ | .mmaB _ => inferInstanceAs (Decidable (_ < _))
  | .mmaC => inferInstanceAs (Decidable True)
  | .mfmaA _ _ | .mfmaB _ _ | .mfmaC _ _ => inferInstanceAs (Decidable (_ ∧ _))

theorem Atom.restores {a : Atom} (h : a.Fits) :
    Atom.decode.Restores kept a.toJson a := by
  cases a with
  | mmaA pack =>
      exact .recordVariant (fun _ _ _ => rfl)
        (.required (word32_restores h) (.pure _))
  | mmaB pack =>
      exact .recordVariant (fun _ _ _ => rfl)
        (.required (word32_restores h) (.pure _))
  | mmaC => exact .unitVariant
  | mfmaA m k | mfmaB n k | mfmaC m n =>
      exact .recordVariant (fun _ _ _ => rfl) (.required (word32_restores h.1)
        (.required (word32_restores h.2) (.pure _)))

def RegisterLayout.Fits : RegisterLayout → Prop
  | operand atom warps replicas _ => atom.Fits ∧ warps.Fits ∧ replicas < limit32
  | striped threads vector => threads < limit32 ∧ vector < limit32

instance (f : RegisterLayout) : Decidable f.Fits :=
  match f with
  | .operand .. | .striped .. => inferInstanceAs (Decidable (_ ∧ _))

theorem RegisterLayout.restores {f : RegisterLayout} (h : f.Fits) :
    RegisterLayout.decode.Restores kept f.toJson f := by
  cases f with
  | operand atom warps replicas transposed =>
      obtain ⟨hatom, hwarps, hreplicas⟩ := h
      exact .recordVariant (fun _ _ _ => rfl)
        (.required (Atom.restores hatom) (.required (WarpGrid.restores hwarps)
          (.required (word32_restores hreplicas)
            (.required (bool_restores transposed) (.pure _)))))
  | striped threads vector =>
      exact .recordVariant (fun _ _ _ => rfl) (.required (word32_restores h.1)
        (.required (word32_restores h.2) (.pure _)))

def LayoutKind.Fits : LayoutKind → Prop
  | rowMajor => True
  | padded pad => pad < limit32
  | swizzled s => s.Fits
  | fragment f => f.Fits

instance (l : LayoutKind) : Decidable l.Fits :=
  match l with
  | .rowMajor => inferInstanceAs (Decidable True)
  | .padded _ => inferInstanceAs (Decidable (_ < _))
  | .swizzled s => inferInstanceAs (Decidable s.Fits)
  | .fragment f => inferInstanceAs (Decidable f.Fits)

theorem LayoutKind.restores {l : LayoutKind} (h : l.Fits) :
    LayoutKind.decode.Restores kept l.toJson l := by
  cases l with
  | rowMajor => exact .unitVariant
  | padded pad =>
      exact .recordVariant (fun _ _ _ => rfl)
        (.required (word32_restores h) (.pure _))
  | swizzled s => exact .variant (Swizzle.restores h)
  | fragment f => exact .variant (RegisterLayout.restores h)

abbrev Shape.Fits (shape : Shape) : Prop := ∀ n ∈ shape, n < limit32

theorem Shape.restores {shape : Shape} (h : shape.Fits) :
    (Decoder.list word32).Restores kept (Json.nats shape) shape :=
  list_restores fun n hn => word32_restores (h n hn)

abbrev Layout.Fits (l : Layout) : Prop := l.shape.Fits ∧ l.kind.Fits

theorem Layout.restores {l : Layout} (h : l.Fits) :
    Layout.decode.Restores kept l.toJson l :=
  .record (.required (Shape.restores h.1)
    (.required (LayoutKind.restores h.2) (.pure _)))

/-! ## Schedules -/

abbrev TileId.Fits (id : TileId) : Prop := id.index < limit32

theorem TileId.restores {id : TileId} (h : id.Fits) :
    TileId.decode.Restores kept id.toJson id :=
  (word32_restores h).map TileId.mk

abbrev OpId.Fits (id : OpId) : Prop := id.number < limit32

theorem OpId.restores {id : OpId} (h : id.Fits) :
    OpId.decode.Restores kept id.toJson id :=
  (word32_restores h).map OpId.mk

def Iteration.Fits : Iteration → Prop
  | fixed iter => iter < limit64
  | relative distance => IsInt64 distance

instance (i : Iteration) : Decidable i.Fits :=
  match i with
  | .fixed _ => inferInstanceAs (Decidable (_ < _))
  | .relative _ => inferInstanceAs (Decidable (_ ∧ _))

theorem Iteration.restores {i : Iteration} (h : i.Fits) :
    Iteration.decode.Restores kept i.toJson i := by
  cases i with
  | fixed iter => exact .variant (word64_restores h)
  | relative distance => exact .variant (int64_restores h)

theorem StageRole.restores (r : StageRole) :
    StageRole.decode.Restores kept (.string r.name) r :=
  name_restores (by cases r <;> rfl)

theorem WaitKind.restores (k : WaitKind) :
    WaitKind.decode.Restores kept (.string k.name) k :=
  name_restores (by cases k <;> rfl)

def Action.Fits : Action → Prop
  | issue op _ iter => op.Fits ∧ iter.Fits
  | wait _ iter => iter.Fits

instance (a : Action) : Decidable a.Fits :=
  match a with
  | .issue .. => inferInstanceAs (Decidable (_ ∧ _))
  | .wait _ iter => inferInstanceAs (Decidable iter.Fits)

theorem Action.restores {a : Action} (h : a.Fits) :
    Action.decode.Restores kept a.toJson a := by
  cases a with
  | issue op role iter =>
      exact .recordVariant (fun _ _ _ => rfl)
        (.required (OpId.restores h.1) (.required (StageRole.restores role)
          (.required (Iteration.restores h.2) (.pure _))))
  | wait kind iter =>
      exact .recordVariant (fun _ _ _ => rfl)
        (.required (WaitKind.restores kind)
          (.required (Iteration.restores h) (.pure _)))

theorem Action.step_restores
    {actions : List Action} (h : ∀ a ∈ actions, a.Fits) :
    Action.decodeStep.Restores kept (Action.stepToJson actions) actions :=
  .record (.last (list_restores fun a ha => Action.restores (h a ha)))

abbrev SteadyState.Fits (s : SteadyState) : Prop :=
  s.first < limit64 ∧ s.last < limit64 ∧ ∀ a ∈ s.actions, a.Fits

theorem SteadyState.restores {s : SteadyState} (h : s.Fits) :
    SteadyState.decode.Restores kept s.toJson s :=
  .record (.required (word64_restores h.1) (.required (word64_restores h.2.1)
    (.required (Action.step_restores h.2.2) (.pure _))))

abbrev RotatedBuffer.Fits (r : RotatedBuffer) : Prop :=
  r.logical.Fits ∧ ∀ slot ∈ r.slots.toList, slot.Fits

theorem RotatedBuffer.restores {r : RotatedBuffer} (h : r.Fits) :
    RotatedBuffer.decode.Restores kept r.toJson r :=
  .record (.required (TileId.restores h.1)
    (.required
      (list_restores fun slot hslot => TileId.restores (h.2 slot hslot))
      (.pure _)))

@[mk_iff]
structure StagedLoop.Fits (l : StagedLoop) : Prop where
  region : l.region.Fits
  tripCount : l.tripCount < limit64
  requestedStages : l.requestedStages < limit32
  stages : l.stages < limit32
  producers : ∀ id ∈ l.producers, id.Fits
  consumers : ∀ id ∈ l.consumers, id.Fits
  rotation : ∀ r ∈ l.rotation, r.Fits
  prologue : ∀ actions ∈ l.prologue, ∀ a ∈ actions, a.Fits
  steady : ∀ s ∈ l.steady, s.Fits
  epilogue : ∀ actions ∈ l.epilogue, ∀ a ∈ actions, a.Fits

instance (l : StagedLoop) : Decidable l.Fits :=
  decidable_of_iff' _ (StagedLoop.fits_iff l)

theorem StagedLoop.restores {l : StagedLoop} (h : l.Fits) :
    StagedLoop.decode.Restores kept l.toJson l := by
  have hops : ∀ {ids : List OpId}, (∀ id ∈ ids, id.Fits) →
      (Decoder.list OpId.decode).Restores kept
        (Json.list OpId.toJson ids) ids :=
    fun h => list_restores fun id hid => OpId.restores (h id hid)
  have hsteps : ∀ {steps : List (List Action)},
      (∀ actions ∈ steps, ∀ a ∈ actions, a.Fits) →
      (Decoder.list Action.decodeStep).Restores kept
        (Json.list Action.stepToJson steps) steps :=
    fun h => list_restores fun actions hactions =>
      Action.step_restores (h actions hactions)
  refine .record ?_
  refine .required (OpId.restores h.region) ?_
  refine .required (string_restores l.var) ?_
  refine .required (word64_restores h.tripCount) ?_
  refine .required (word32_restores h.requestedStages) ?_
  refine .required (word32_restores h.stages) ?_
  refine .required (hops h.producers) ?_
  refine .required (hops h.consumers) ?_
  refine .required
    (list_restores fun r hr => RotatedBuffer.restores (h.rotation r hr)) ?_
  refine .required (hsteps h.prologue) ?_
  refine .optional (fun s hs => SteadyState.restores (h.steady s hs)) ?_
  exact .required (hsteps h.epilogue) (.pure _)

/-! ## Strategies -/

abbrev GemmShape.Fits (s : GemmShape) : Prop :=
  s.m < limit32 ∧ s.n < limit32 ∧ s.k < limit32

theorem GemmShape.restores {s : GemmShape} (h : s.Fits) :
    GemmShape.decode.Restores kept s.toJson s :=
  triple_restores (word32_restores h.1) (word32_restores h.2.1)
    (word32_restores h.2.2)

theorem BulkEngine.restores (e : BulkEngine) :
    BulkEngine.decode.Restores kept e.toJson e :=
  name_restores (by cases e <;> rfl)

namespace Strategy

def Fits : Strategy → Prop
  | bulk _ bytes => bytes < limit64
  | vector width => width < limit32
  | matrix _ shape warps repeats => shape.Fits ∧ warps.Fits ∧ repeats.Fits
  | scalar => True

instance (s : Strategy) : Decidable s.Fits :=
  match s with
  | .bulk _ _ | .vector _ => inferInstanceAs (Decidable (_ < _))
  | .matrix _ _ _ _ => inferInstanceAs (Decidable (_ ∧ _))
  | .scalar => inferInstanceAs (Decidable True)

theorem restores_of_give
    {kind : String} {fields : List (String × Json)} {names : List String}
    {make : Fields → Option Strategy} {read : List Json} {s : Strategy}
    (hdecode : ∀ form depth,
      decode form depth (.object (("kind", .string kind) :: fields)) =
      if !(Json.object (("kind", .string kind) :: fields)).isReadable depth then
      none else Fields.ofJson? names .setAside depth (.object fields) >>= make)
    (h : Fields.Give kept fields make read s)
    (hnodup : names.Nodup := by decide)
    (hnames : fields.map Prod.fst = names := by rfl)
    (hread : ∀ j, j ∈ read ↔
      j ∈ fields.map Prod.snd := by exact fun _ => Iff.rfl) :
    decode.Restores kept (.object (("kind", .string kind) :: fields)) s := by
  have hrecord := Restores.record h hnodup hnames hread
  have hwritable : (Json.object (("kind", .string kind) :: fields)).Writable
      kept := by
    cases hrecord.writable with
    | object hfields =>
        exact .object (List.forall_mem_cons.mpr ⟨.string kind, hfields⟩)
  refine ⟨fun form depth => ?_, hwritable⟩
  have hnesting : (Json.object (("kind", .string kind) :: fields)).nesting
      = (Json.object fields).nesting := by
    simp [Json.nesting, Json.fieldsNesting]
  rw [hdecode, hrecord.decode_eq]
  simp only [Bool.not_eq_true', ← Bool.not_eq_true, hwritable.isReadable_iff,
    hnesting]
  split_ifs <;> rfl

theorem restores {s : Strategy} (h : s.Fits) :
    decode.Restores kept s.toJson s := by
  cases s with
  | bulk engine bytes =>
      exact restores_of_give (fun _ _ => rfl)
        (.required (BulkEngine.restores engine)
          (.required (word64_restores h) (.pure _)))
  | vector width =>
      exact restores_of_give (fun _ _ => rfl)
        (.required (word32_restores h) (.pure _))
  | matrix instruction shape warps repeats =>
      obtain ⟨hshape, hwarps, hrepeats⟩ := h
      exact restores_of_give (fun _ _ => rfl)
        (.required (string_restores instruction)
          (.required (GemmShape.restores hshape)
            (.required (WarpGrid.restores hwarps)
              (.required (GemmShape.restores hrepeats) (.pure _)))))
  | scalar => exact restores_of_give (fun _ _ => rfl) (.pure _)

end Strategy

end TileProgram
