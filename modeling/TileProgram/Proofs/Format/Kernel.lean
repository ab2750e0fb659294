import TileProgram.Compile
import TileProgram.Proofs.Format.Annotations
import TileProgram.Proofs.Outcome

/-!
# Kernels survive their files

A kernel whose numbers fit their words is found again in its written form,
however deep its loops and expressions nest.  Its file is read only down to a
fixed number of brackets, so a load gives the kernel back exactly when its
written form keeps to that number.
-/

namespace TileProgram

open Decoder Fields List

variable {kept : Float → Prop}

/-! ## Operations -/

def Var.Fits : Var → Prop
  | loop _ => True
  | block axis => axis < 256

instance (v : Var) : Decidable v.Fits :=
  match v with
  | .loop _ => inferInstanceAs (Decidable True)
  | .block _ => inferInstanceAs (Decidable (_ < _))

theorem Var.restores {v : Var} (h : v.Fits) :
    Var.decode.Restores kept v.toJson v := by
  cases v with
  | loop name => exact .variant (string_restores name)
  | block axis => exact .variant (word8_restores h)

abbrev Affine.Fits (a : Affine) : Prop :=
  IsInt64 a.constant ∧ ∀ term ∈ a.terms, term.1.Fits ∧ IsInt64 term.2

theorem Affine.restores {a : Affine} (h : a.Fits) :
    Affine.decode.Restores kept a.toJson a :=
  .record (.required (int64_restores h.1)
    (.withDefault
      (list_restores fun term hterm =>
        pair_restores (Var.restores (h.2 term hterm).1)
          (int64_restores (h.2 term hterm).2))
      (.pure _)))

abbrev Region.Fits (r : Region) : Prop :=
  r.tile.Fits ∧ (∀ o ∈ r.offsets, o.Fits) ∧ r.extents.Fits

theorem Region.restores {r : Region} (h : r.Fits) :
    Region.decode.Restores kept r.toJson r :=
  .record (.required (TileId.restores h.1)
    (.required (list_restores fun o ho => Affine.restores (h.2.1 o ho))
      (.required (Shape.restores h.2.2) (.pure _))))

abbrev Access.Fits (a : Access) : Prop := a.tile.Fits ∧ ∀ i ∈ a.indices, i.Fits

theorem Access.restores {a : Access} (h : a.Fits) :
    Access.decode.Restores kept a.toJson a :=
  .record (.required (TileId.restores h.1) (.required (list_restores fun i hi =>
    Affine.restores (h.2 i hi)) (.pure _)))

namespace Expr

def constants : Expr → List Float
  | load _ => []
  | const c => [c]
  | unary _ x | cast _ x => x.constants
  | binary _ l r => l.constants ++ r.constants

section

variable {α : Type} {tag : String} {payload : Json} {e : Expr}

theorem restores_operator
    {items : List Json} (hitems : ∀ j ∈ items, j.Writable kept)
    (hshallow : ∀ form, decode form 0 (Json.tagged tag (.array items)) = none ∧
      decode form 1 (Json.tagged tag (.array items)) = none)
    (hdeep : ∀ form depth,
      decode form (depth + 2) (Json.tagged tag (.array items)) =
      if ∀ j ∈ items, j.nesting ≤ depth then some e else none) :
    decode.Restores kept (Json.tagged tag (.array items)) e := by
  refine ⟨fun form depth => ?_, (Json.Writable.array hitems).tagged tag⟩
  rw [Json.nesting_tagged]
  rcases depth with _ | _ | depth
  · exact (hshallow form).1
  · rw [(hshallow form).2, Json.nesting, if_neg (by omega)]
  · rw [hdeep]
    simp only [Nat.add_le_add_iff_right, Json.nesting_array_le_iff]

theorem restores_leaf
    {value : Decoder α} {wrap : α → Expr} {a : α}
    (h : value.Restores kept payload a)
    (hshallow : ∀ form, decode form 0 (Json.tagged tag payload) = none)
    (hdeep : ∀ form depth, decode form (depth + 1) (Json.tagged tag payload) =
      (value form depth payload >>= fun a => pure (wrap a))) :
    decode.Restores kept (Json.tagged tag payload) (wrap a) := by
  refine ⟨fun form depth => ?_, h.writable.tagged tag⟩
  rw [Json.nesting_tagged]
  cases depth with
  | zero => exact hshallow form
  | succ depth =>
      rw [hdeep, h.decode_eq]
      simp only [Nat.add_le_add_iff_right]
      split_ifs <;> rfl

end

theorem restores
    {e : Expr} (hloads : ∀ a ∈ e.loads, a.Fits)
    (hconstants : ∀ x ∈ e.constants, x.isFinite = true ∧ kept x) :
    decode.Restores kept e.toJson e := by
  induction e with
  | load a =>
      exact restores_leaf (Access.restores (hloads a mem_cons_self))
        (fun _ => rfl) (fun _ depth => by cases depth <;> rfl)
  | const c =>
      obtain ⟨hfinite, hkept⟩ := hconstants c mem_cons_self
      exact restores_leaf (float_restores hfinite hkept) (fun _ => rfl)
        (fun _ depth => by cases depth <;> rfl)
  | unary op x ih =>
      have hop : (name UnaryOp.ofName?).Restores kept (.string op.name) op :=
        name_restores (by cases op <;> rfl)
      have hx := ih hloads hconstants
      refine restores_operator (by simp [hop.writable, hx.writable])
        (fun _ => ⟨rfl, rfl⟩) ?_
      intro form depth
      simp only [Json.tagged, decode, hop.decode_eq, hx.decode_eq,
        forall_mem_cons, ite_and]
      split_ifs <;> simp_all
  | binary op l r ihl ihr =>
      simp only [loads, constants, forall_mem_append] at hloads hconstants
      have hop : (name BinaryOp.ofName?).Restores kept (.string op.name) op :=
        name_restores (by cases op <;> rfl)
      have hl := ihl hloads.1 hconstants.1
      have hr := ihr hloads.2 hconstants.2
      refine restores_operator (by simp [hop.writable, hl.writable,
        hr.writable]) (fun _ => ⟨rfl, rfl⟩) ?_
      intro form depth
      simp only [Json.tagged, decode, hop.decode_eq, hl.decode_eq, hr.decode_eq,
        forall_mem_cons, ite_and]
      split_ifs <;> simp_all
  | cast type x ih =>
      have htype : ElementType.decode.Restores kept type.toJson type :=
        ElementType.restores type
      have hx := ih hloads hconstants
      refine restores_operator (by simp [htype.writable, hx.writable])
        (fun _ => ⟨rfl, rfl⟩) ?_
      intro form depth
      simp only [Json.tagged, decode, htype.decode_eq, hx.decode_eq,
        forall_mem_cons, ite_and]
      split_ifs <;> simp_all

end Expr

abbrev Assign.Fits (a : Assign) : Prop :=
  a.dst.Fits ∧ ∀ l ∈ a.value.loads, l.Fits

theorem Assign.restores
    {a : Assign} (h : a.Fits)
    (hconstants : ∀ x ∈ a.value.constants, x.isFinite = true ∧ kept x) :
    Assign.decode.Restores kept a.toJson a :=
  .record (.required (Access.restores h.1)
    (.required (Expr.restores h.2 hconstants) (.pure _)))

theorem ReduceKind.restores (k : ReduceKind) :
    ReduceKind.decode.Restores kept (.string k.name) k :=
  name_restores (by cases k <;> rfl)

namespace TileOp

def Fits : TileOp → Prop
  | alloc tile => tile.Fits
  | copy src dst width => src.Fits ∧ dst.Fits ∧ ∀ w ∈ width, w < limit32
  | fill tile _ => tile.Fits
  | parallel _ extents body => extents.Fits ∧ ∀ a ∈ body, a.Fits
  | gemm a b c _ _ _ => a.Fits ∧ b.Fits ∧ c.Fits
  | reduce src dst axis _ _ => src.Fits ∧ dst.Fits ∧ axis < limit64
  | relayout src dst => src.Fits ∧ dst.Fits

instance (op : TileOp) : Decidable op.Fits :=
  match op with
  | .alloc tile | .fill tile _ => inferInstanceAs (Decidable tile.Fits)
  | .copy .. | .parallel .. | .gemm .. | .reduce .. | .relayout .. =>
      inferInstanceAs (Decidable (_ ∧ _))

def constants : TileOp → List Float
  | fill _ value => [value]
  | parallel _ _ body => body.flatMap (·.value.constants)
  | _ => []

theorem restores
    {op : TileOp} (h : op.Fits)
    (hconstants : ∀ x ∈ op.constants, x.isFinite = true ∧ kept x) :
    Restores kept
      (fun form depth j => Variant.ofJson? form depth j >>= ofVariant?)
      op.toJson op := by
  cases op with
  | alloc tile =>
      exact .recordVariant (fun _ _ _ => rfl)
        (.required (TileId.restores h) (.pure _))
  | copy src dst width =>
      obtain ⟨hsrc, hdst, hwidth⟩ := h
      exact .recordVariant (fun _ _ _ => rfl)
        (.required (Region.restores hsrc) (.required (Region.restores hdst)
          (.optional (fun w hw => word32_restores (hwidth w hw)) (.pure _))))
  | fill tile value =>
      obtain ⟨hfinite, hkept⟩ := hconstants value mem_cons_self
      exact .recordVariant (fun _ _ _ => rfl) (.required (TileId.restores h)
        (.required (float_restores hfinite hkept) (.pure _)))
  | parallel vars extents body =>
      have hbody : ∀ a ∈ body, Assign.decode.Restores kept a.toJson a :=
        fun a ha =>
        Assign.restores (h.2 a ha) fun x hx =>
          hconstants x (mem_flatMap.mpr ⟨a, ha, hx⟩)
      exact .recordVariant (fun _ _ _ => rfl)
        (.required (list_restores fun name _ => string_restores name)
          (.required (Shape.restores h.1)
            (.required (list_restores hbody) (.pure _))))
  | gemm a b c transposeA transposeB clear =>
      obtain ⟨ha, hb, hc⟩ := h
      exact .recordVariant (fun _ _ _ => rfl)
        (.required (TileId.restores ha) (.required (TileId.restores hb)
          (.required (TileId.restores hc)
            (.withDefault (bool_restores transposeA)
              (.withDefault (bool_restores transposeB)
                (.withDefault (bool_restores clear) (.pure _)))))))
  | reduce src dst axis kind clear =>
      obtain ⟨hsrc, hdst, haxis⟩ := h
      exact .recordVariant (fun _ _ _ => rfl)
        (.required (TileId.restores hsrc) (.required (TileId.restores hdst)
          (.required (word64_restores haxis)
            (.required (ReduceKind.restores kind)
              (.withDefault (bool_restores clear) (.pure _))))))
  | relayout src dst =>
      exact .recordVariant (fun _ _ _ => rfl) (.required (TileId.restores h.1)
        (.required (TileId.restores h.2) (.pure _)))

end TileOp

/-! ## Bodies -/

abbrev Step.Fits (s : Step) : Prop :=
  s.id.Fits ∧ s.op.Fits ∧ ∀ t ∈ s.strategy, t.Fits

@[mk_iff]
structure Loop.Fits (l : Loop) : Prop where
  id : l.id.Fits
  tripCount : l.tripCount < limit64
  stages : l.stages < limit32
  schedule : ∀ s ∈ l.schedule, s.Fits
  strategy : ∀ s ∈ l.strategy, s.Fits

instance (l : Loop) : Decidable l.Fits :=
  decidable_of_iff' _ (Loop.fits_iff l)

namespace Op

def Fits : Op → Prop
  | step s => s.Fits
  | loop head _ => head.Fits

instance (op : Op) : Decidable op.Fits :=
  match op with
  | .step s => inferInstanceAs (Decidable s.Fits)
  | .loop head _ => inferInstanceAs (Decidable head.Fits)

def constants : Op → List Float
  | step s => s.op.constants
  | loop _ _ => []

def toJson : Op → Json
  | step s => opToJson s.id s.op.toJson s.strategy
  | loop head body =>
      opToJson head.id (head.kindToJson body.toJson) head.strategy

end Op

namespace Body

theorem toJson_eq_map (body : Body) :
    body.toJson = body.entries.map Op.toJson := by
  induction body with
  | done => rfl
  | step s rest ih => rw [toJson, ih]; rfl
  | loop head body rest _ ih => rw [toJson, ih]; rfl

theorem ofEntries_entries (body : Body) : ofEntries body.entries = body := by
  induction body with
  | done => rfl
  | step s rest ih => rw [entries, ofEntries, ih]
  | loop head body rest _ ih => rw [entries, ofEntries, ih]

section

variable {id : OpId} {strategy : Option Strategy} {tag : String}
  {payload : Json}

theorem nesting_opToJson_le_iff {depth : Nat} :
    (opToJson id (Json.tagged tag payload) strategy).nesting ≤ depth + 2 ↔
      (Json.option Strategy.toJson strategy).nesting ≤ depth + 1 ∧
      payload.nesting ≤ depth := by
  rw [opToJson, Json.nesting_object_le_iff]
  simp [Json.nesting_tagged, OpId.toJson, Json.nat, Json.nesting, and_comm]

theorem nesting_opToJson_pos :
    2 ≤ (opToJson id (Json.tagged tag payload) strategy).nesting := by
  rw [opToJson, Json.nesting, Json.fieldsNesting, Json.fieldsNesting,
    Json.nesting_tagged]
  omega

theorem strategy_restores (h : ∀ s ∈ strategy, s.Fits) :
    (nullable Strategy.decode).Restores kept
      (Json.option Strategy.toJson strategy) strategy :=
  nullable_restores (fun s hs => Strategy.restores (h s hs))
    (by rintro (_ | _ | _ | _) <;> nofun)

theorem decodeEnvelope_shallow (form : Form) {depth : Nat} (h : depth < 2) :
    decodeEnvelope form depth (opToJson id (Json.tagged tag payload) strategy) =
      none := by
  obtain rfl | rfl : depth = 0 ∨ depth = 1 := by omega
  · rfl
  · have hparts :
        decodeEnvelope form 1 (opToJson id (Json.tagged tag payload) strategy) =
        (OpId.decode form 0 id.toJson >>= fun _ => none) :=
      rfl
    rw [hparts]
    cases OpId.decode form 0 id.toJson <;> rfl

theorem decodeEnvelope_eq
    (hid : id.Fits) (hstrategy : ∀ s ∈ strategy, s.Fits) (form : Form)
    (depth : Nat) :
    decodeEnvelope form (depth + 2)
      (opToJson id (Json.tagged tag payload) strategy) =
        if (Json.option Strategy.toJson strategy).nesting ≤ depth + 1 then
          some ⟨id, ⟨tag, form, depth, payload⟩, strategy⟩
        else none := by
  have hparts : decodeEnvelope form (depth + 2)
      (opToJson id (Json.tagged tag payload) strategy) = (do
          let id ← OpId.decode form (depth + 1) id.toJson
          let strategy ← nullable Strategy.decode form (depth + 1)
            (Json.option Strategy.toJson strategy)
          return ⟨id, ⟨tag, form, depth, payload⟩, strategy⟩) :=
    rfl
  have hid : OpId.decode form (depth + 1) id.toJson = some id :=
    congrArg (Option.map OpId.mk) (if_pos hid)
  have hstrategy : (nullable Strategy.decode).Restores (fun _ => True) _
      strategy :=
    strategy_restores hstrategy
  rw [hparts, hid, hstrategy.decode_eq]
  split_ifs <;> rfl

theorem op_restores
    {contents : Envelope → Option Op} {op : Op} (hid : id.Fits)
    (hstrategy : ∀ s ∈ strategy, s.Fits)
    (hkind : Restores kept
      (fun form depth j => Variant.ofJson? form depth j >>= fun v =>
        contents ⟨id, v, strategy⟩)
      (Json.tagged tag payload) op) :
    Restores kept (fun form depth j => decodeEnvelope form depth j >>= contents)
      (opToJson id (Json.tagged tag payload) strategy) op := by
  refine ⟨fun form depth => ?_, .object ?_⟩
  · by_cases hshallow : depth < 2
    · have hnesting : 2 ≤
          (opToJson id (Json.tagged tag payload) strategy).nesting :=
        nesting_opToJson_pos
      rw [decodeEnvelope_shallow form hshallow, if_neg (by omega)]
      rfl
    · obtain ⟨depth, rfl⟩ := Nat.exists_eq_add_of_le' (Nat.not_lt.mp hshallow)
      have hcontents := hkind.decode_eq form (depth + 1)
      simp only [Json.nesting_tagged, Nat.add_le_add_iff_right] at hcontents
      simp only [nesting_opToJson_le_iff, ite_and,
        decodeEnvelope_eq hid hstrategy, ← hcontents]
      split_ifs <;> rfl
  · simp only [forall_mem_cons]
    exact ⟨(OpId.restores hid).writable, hkind.writable,
      (strategy_restores hstrategy).writable, forall_mem_nil _⟩

end

theorem step_restores
    {s : Step} (h : s.Fits)
    (hconstants : ∀ x ∈ s.op.constants, x.isFinite = true ∧ kept x)
    (inner : Decoder Op) :
    (decodeOpWith inner).Restores kept (Op.toJson (.step s)) (.step s) := by
  obtain ⟨hid, hop, hstrategy⟩ := h
  have hop := (TileOp.restores hop hconstants).bind
    (f := fun op => some (Op.step ⟨s.id, op, s.strategy⟩)) rfl
  obtain ⟨tag, payload, htag, hjson⟩ :
      ∃ tag payload,
        tag ≠ "pipelined" ∧ s.op.toJson = Json.tagged tag payload := by
    cases s.op <;> exact ⟨_, _, by decide, rfl⟩
  rw [Op.toJson, hjson]
  rw [hjson] at hop
  refine op_restores hid hstrategy ⟨fun form depth => ?_, hop.writable⟩
  rw [← hop.decode_eq form depth]
  cases depth with
  | zero => rfl
  | succ depth => simp [Json.tagged, Variant.ofJson?, htag]

/-- The operations of a loop stand four brackets below it: its own, that of its
tag, that of its record and that of the list. -/
theorem decodeOpWith_congr
    {inner inner' : Decoder Op} {head : Loop} {body : Body} (h : head.Fits)
    {form : Form} {depth : Nat}
    (hinner : ∀ d, depth = d + 4 → inner form d = inner' form d) :
    decodeOpWith inner form depth (Op.toJson (.loop head body))
      = decodeOpWith inner' form depth (Op.toJson (.loop head body)) := by
  unfold decodeOpWith
  by_cases hshallow : depth < 2
  · rw [Op.toJson, Loop.kindToJson, decodeEnvelope_shallow form hshallow]
    rfl
  · obtain ⟨depth, rfl⟩ := Nat.exists_eq_add_of_le' (Nat.not_lt.mp hshallow)
    rw [Op.toJson, Loop.kindToJson, decodeEnvelope_eq h.id h.strategy]
    split_ifs
    · rcases depth with _ | _ | depth
      · cases form <;> rfl
      · cases form <;> rfl
      · cases form <;>
          exact congrArg (body.toJson.mapM · >>= _) (hinner depth rfl)
    · rfl

theorem exists_decodeOp_eq (form : Form) (depth : Nat) :
    ∃ inner : Decoder Op, decodeOp form depth = decodeOpWith inner form depth ∧
      ∀ d, depth = d + 4 → inner form d = decodeOp form d := by
  rcases depth with _ | _ | _ | _ | depth
  · exact ⟨fun _ _ _ => none, rfl, nofun⟩
  · exact ⟨fun _ _ _ => none, rfl, fun d hd => by omega⟩
  · exact ⟨fun _ _ _ => none, rfl, fun d hd => by omega⟩
  · exact ⟨fun _ _ _ => none, rfl, fun d hd => by omega⟩
  · refine ⟨fun form _ => decodeOp form depth, rfl, fun d hd => ?_⟩
    obtain rfl : d = depth := by omega
    rfl

theorem loop_restores
    {head : Loop} {body : Body} (h : head.Fits)
    (hbody : ∀ op ∈ body.entries, decodeOp.Restores kept op.toJson op) :
    (decodeOpWith decodeOp).Restores kept (Op.toJson (.loop head body))
      (.loop head body) := by
  have hentries : (Decoder.list decodeOp).Restores kept (.array body.toJson)
      body.entries := by
    rw [toJson_eq_map]
    exact list_restores hbody
  have hrestores : (decodeOpWith decodeOp).Restores kept
      (Op.toJson (.loop head body)) (.loop head (ofEntries body.entries)) := by
    refine op_restores h.id h.strategy ?_
    dsimp only
    refine .recordVariant (fun _ _ _ => if_pos rfl)
      (.required hentries (.required (string_restores head.var)
        (.required (word64_restores h.tripCount)
          (.required (word32_restores h.stages) (.optional (fun s hs =>
            StagedLoop.restores (h.schedule s hs)) (.pure _))))))
      (by decide) rfl ?_
    -- The body is asked for first.
    intro j
    simp only [map_cons, map_nil, mem_cons]
    tauto
  rwa [ofEntries_entries] at hrestores

theorem entries_restore
    {body : Body} (hfits : ∀ op ∈ body.ops, op.Fits)
    (hconstants : ∀ op ∈ body.ops,
      ∀ x ∈ op.constants, x.isFinite = true ∧ kept x) :
    ∀ op ∈ body.entries, decodeOp.Restores kept op.toJson op := by
  induction body with
  | done => exact forall_mem_nil _
  | step s rest ih =>
      simp only [ops, forall_mem_cons] at hfits hconstants
      refine forall_mem_cons.mpr ⟨?_, ih hfits.2 hconstants.2⟩
      have hstep : ∀ inner,
          (decodeOpWith inner).Restores kept (Op.toJson (.step s)) (.step s) :=
        step_restores hfits.1 hconstants.1
      refine ⟨fun form depth => ?_, (hstep decodeOp).writable⟩
      obtain ⟨inner, heq, _⟩ := exists_decodeOp_eq form depth
      rw [heq, (hstep inner).decode_eq]
  | loop head body rest ihbody ihrest =>
      simp only [ops, forall_mem_cons, forall_mem_append] at hfits hconstants
      refine forall_mem_cons.mpr ⟨?_, ihrest hfits.2.2 hconstants.2.2⟩
      have hhead : head.Fits := hfits.1
      have hloop := loop_restores hhead (ihbody hfits.2.1 hconstants.2.1)
      refine ⟨fun form depth => ?_, hloop.writable⟩
      obtain ⟨inner, heq, hinner⟩ := exists_decodeOp_eq form depth
      rw [heq, decodeOpWith_congr hhead hinner, hloop.decode_eq]

theorem restores
    {body : Body} (hfits : ∀ op ∈ body.ops, op.Fits)
    (hconstants : ∀ op ∈ body.ops,
      ∀ x ∈ op.constants, x.isFinite = true ∧ kept x) :
    decode.Restores kept (.array body.toJson) body := by
  have hentries :=
    (list_restores (entries_restore hfits hconstants)).map ofEntries
  rw [ofEntries_entries] at hentries
  rw [toJson_eq_map]
  exact hentries

end Body

/-! ## Kernels -/

@[mk_iff]
structure Tile.Fits (t : Tile) : Prop where
  shape : t.shape.Fits
  declared : ∀ l ∈ t.declared, l.Fits
  layout : ∀ l ∈ t.layout, l.Fits

instance (t : Tile) : Decidable t.Fits :=
  decidable_of_iff' _ (Tile.fits_iff t)

theorem Tile.restores {t : Tile} (h : t.Fits) :
    Tile.decode.Restores kept t.toJson t :=
  .record (.required (string_restores t.name)
    (.required (Shape.restores h.shape)
      (.required (ElementType.restores t.type)
        (.required (Scope.restores t.scope)
          (.optional (fun l hl => Layout.restores (h.declared l hl))
            (.optional (fun l hl => Layout.restores (h.layout l hl))
              (.pure _)))))))

abbrev Rasterization.Fits (r : Rasterization) : Prop := r.panelSize < limit32

theorem Rasterization.restores {r : Rasterization} (h : r.Fits) :
    Rasterization.decode.Restores kept r.toJson r :=
  .record (.required (word32_restores h)
    (.required (bool_restores r.enable) (.pure _)))

abbrev Dim3.Fits (d : Dim3) : Prop :=
  d.x < limit32 ∧ d.y < limit32 ∧ d.z < limit32

theorem Dim3.restores {d : Dim3} (h : d.Fits) :
    Dim3.decode.Restores kept d.toJson d :=
  triple_restores (word32_restores h.1) (word32_restores h.2.1)
    (word32_restores h.2.2)

namespace Kernel

/-- Every number of the kernel fits its machine word. -/
@[mk_iff]
structure Fits (k : Kernel) : Prop where
  grid : k.grid.Fits
  threads : k.threads.Fits
  tiles : ∀ t ∈ k.tiles.toList, t.Fits
  ops : ∀ op ∈ k.ops, op.Fits
  rasterization : ∀ r ∈ k.rasterization, r.Fits
  nextOp : k.nextOp < limit32

instance (k : Kernel) : Decidable k.Fits :=
  decidable_of_iff' _ (fits_iff k)

def constants (k : Kernel) : List Float := k.ops.flatMap Op.constants

theorem restores
    {k : Kernel} (h : k.Fits)
    (hconstants : ∀ x ∈ k.constants, x.isFinite = true ∧ kept x) :
    decode.Restores kept k.toJson k := by
  have hbody : Body.decode.Restores kept (.array k.body.toJson) k.body :=
    Body.restores h.ops fun op hop x hx =>
      hconstants x (mem_flatMap.mpr ⟨op, hop, hx⟩)
  exact .record
    (.required (string_restores k.name)
      (.required (Dim3.restores h.grid) (.required (Dim3.restores h.threads)
        (.required (list_restores fun t ht =>
          Tile.restores (h.tiles t ht)) (.required hbody
          (.optional (fun r hr => Rasterization.restores (h.rasterization r hr))
            (.withDefault (word32_restores h.nextOp) (.pure _))))))))

theorem ofText?_toText
    {k : Kernel} (h : k.Fits)
    (hconstants : ∀ x ∈ k.constants, x.isFinite = true ∧ Json.ReadsBack x) :
    ofText? k.toText =
      if k.toJson.nesting ≤ fileDepth then some k else none := by
  have hrestores := restores h hconstants
  rw [ofText?, toText, Json.read?_pretty hrestores.writable, Option.bind_some,
    hrestores.decode_eq]

/-- The written form gives the kernel back to a decoder that goes deep enough.
If its constants are read as they are written, its file gives it back exactly
when it keeps to the depth of files, with the same listing and the same
fingerprint. -/
theorem survives_file
    {k : Kernel} (hfits : k.Fits)
    (hfinite : ∀ x ∈ k.constants, x.isFinite = true) :
    (∀ form depth, decode form depth k.toJson
        = if k.toJson.nesting ≤ depth then some k else none) ∧
      ((∀ x ∈ k.constants, Json.ReadsBack x) →
        ofText? k.toText =
          (if k.toJson.nesting ≤ fileDepth then some k else none) ∧
          ∀ loaded, ofText? k.toText = some loaded →
            loaded.listing = k.listing ∧
            loaded.fingerprint = k.fingerprint) := by
  have hvalue : decode.Restores (fun _ => True) k.toJson k :=
    restores hfits fun x hx => ⟨hfinite x hx, trivial⟩
  refine ⟨hvalue.decode_eq, fun hkept => ?_⟩
  have hload := ofText?_toText hfits fun x hx => ⟨hfinite x hx, hkept x hx⟩
  refine ⟨hload, fun loaded hloaded => ?_⟩
  have hsame : loaded = k := by
    rw [hload] at hloaded
    split_ifs at hloaded
    exact (Option.some.inj hloaded).symm
  rw [hsame]
  exact ⟨rfl, rfl⟩

/-- A pipelined loop that copies, with what is negative cut off. -/
def rectified : Kernel :=
  let part : Affine := ⟨0, [(.loop "k", 2)]⟩
  let element : Access := ⟨⟨3⟩, [⟨0, [(.loop "i", 1)]⟩]⟩
  { Kernel.empty "rectified" with
    threads := ⟨1, 1, 1⟩
    tiles := #[.plain "g" [4] .f32 .global, .plain "h" [4] .f32 .global,
      .plain "x" [2] .f32 .shared, .plain "y" [2] .f32 .fragment]
    body := .step ⟨⟨0⟩, .fill ⟨3⟩ 0, none⟩
      (.loop ⟨⟨5⟩, "k", 2, 2, none, none⟩
        (.step ⟨⟨1⟩, .copy ⟨⟨0⟩, [part], [2]⟩ (.full ⟨2⟩ [2]) none, none⟩
          (.step ⟨⟨2⟩, .copy (.full ⟨2⟩ [2]) (.full ⟨3⟩ [2]) none, none⟩
            (.step ⟨⟨3⟩, .parallel ["i"] [2]
                [⟨element, .binary .max (.load element) (.const (-0.0))⟩], none⟩
              (.step ⟨⟨4⟩,
                .copy (.full ⟨3⟩ [2]) ⟨⟨1⟩, [part], [2]⟩ none, none⟩ .done))))
              .done)
    rasterization := some ⟨10, true⟩
    nextOp := 6 }

theorem survives_file_rectified :
    ∃ compiled, rectified.compile .sm80 = .ok compiled ∧
      ofText? compiled.kernel.toText = some compiled.kernel := by
  have hcompute : (rectified.compile .sm80).toOption.map
      (fun c => decide (c.kernel.Fits ∧
      (∀ x ∈ c.kernel.constants, x.isFinite = true) ∧
      (∀ x ∈ c.kernel.constants, Json.ReadsBack x) ∧
      c.kernel.toJson.nesting ≤ fileDepth)) = some true := by
    decide +kernel
  obtain ⟨compiled, hcompile, hfacts⟩ := Option.map_eq_some_iff.mp hcompute
  rw [toOption_eq_some_iff] at hcompile
  obtain ⟨hfits, hfinite, hkept, hnesting⟩ := of_decide_eq_true hfacts
  refine ⟨compiled, hcompile, ?_⟩
  rw [((survives_file hfits hfinite).2 hkept).1, if_pos hnesting]

/-- Loops, each of them the only operation of the one around it. -/
def nestedLoops : Nat → Body
  | 0 => .done
  | n + 1 => .loop ⟨⟨n⟩, "i", 1, 1, none, none⟩ (nestedLoops n) .done

/-- Thirty-two loops are written with more brackets than a file may have, so the
file is refused, although the written form itself still decodes. -/
theorem not_survives_file_nestedLoops :
    let k : Kernel :=
  { Kernel.empty "nested" with body := nestedLoops 32, nextOp := 32 }
    k.Fits ∧ k.constants = [] ∧ decode .built 130 k.toJson = some k ∧
      ofText? k.toText = none := by
  intro k
  have hfits : k.Fits := by decide +kernel
  have hconstants : k.constants = [] := rfl
  have hnesting : k.toJson.nesting = 130 := by decide +kernel
  have hrestores : decode.Restores Json.ReadsBack k.toJson k :=
    restores hfits (by rw [hconstants]; exact forall_mem_nil _)
  refine ⟨hfits, hconstants, ?_, ?_⟩
  · rw [hrestores.decode_eq, if_pos (Nat.le_of_eq hnesting)]
  · rw [ofText?_toText hfits (by rw [hconstants]; exact forall_mem_nil _),
      hnesting]
    rfl

end Kernel

end TileProgram
