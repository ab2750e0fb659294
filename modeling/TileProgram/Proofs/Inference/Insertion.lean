import TileProgram.Proofs.Inference.Result

/-!
# What inference inserts

Inference changes a body in two ways: operations are redirected to twins, and
relayouts stand around the redirected operations.  Both can be undone.  Without
the recorded relayouts, and with every twin renamed to the tile it stands for,
the inferred body is the body that was given.

The records follow the numbers of the relayouts.  A redirection gives out the
number of its load and then that of its store, so the store of one tile is
recorded before the load of the next one, which stands before it in the program.
-/

namespace TileProgram

open Inference List

variable {s : Step} {own : List Redirect} {record : RelayoutRecord}
  {r : Redirect} {n : Nat} {id : OpId}

/-! ## Bodies -/

def RelayoutRecord.step (record : RelayoutRecord) : Step :=
  ⟨record.op, .relayout record.src record.dst, none⟩

def recordSteps (records : List RelayoutRecord) : List Step :=
  records.map RelayoutRecord.step

namespace Body

def without (ids : List OpId) : Body → Body
  | done => done
  | step s rest =>
      if s.id ∈ ids then rest.without ids else step s (rest.without ids)
  | loop head body rest => loop head (body.without ids) (rest.without ids)

def mapTiles (f : TileId → TileId) : Body → Body
  | done => done
  | step s rest => step { s with op := s.op.mapTiles f } (rest.mapTiles f)
  | loop head body rest => loop head (body.mapTiles f) (rest.mapTiles f)

/-- The body itself and the bodies of the loops in it, at any depth. -/
def bodies (body : Body) : List Body :=
  body :: body.ops.filterMap fun
    | .loop _ inner => some inner
    | .step _ => none

theorem without_prepend
    {ids : List OpId} {steps : List Step} (h : ∀ s ∈ steps, s.id ∈ ids)
    (body : Body) :
    (prepend steps body).without ids = body.without ids := by
  induction steps with
  | nil => rfl
  | cons s rest ih =>
      have hs : s.id ∈ ids := h s mem_cons_self
      show (Body.step s (prepend rest body)).without ids = body.without ids
      simp only [without, if_pos hs]
      exact ih fun s' hs' => h s' (mem_cons_of_mem s hs')

theorem mem_bodies {body inner : Body} :
    inner ∈ body.bodies ↔
      inner = body ∨ ∃ head, Op.loop head inner ∈ body.ops := by
  unfold bodies
  rw [mem_cons, mem_filterMap]
  constructor
  · rintro (heq | ⟨op, hop, hinner⟩)
    · exact Or.inl heq
    · cases op with
      | step s => cases hinner
      | loop head body =>
          cases hinner
          exact Or.inr ⟨head, hop⟩
  · rintro (heq | ⟨head, hloop⟩)
    · exact Or.inl heq
    · exact Or.inr ⟨_, hloop, rfl⟩

end Body

theorem Expr.mapTiles_congr
    {f g : TileId → TileId} {e : Expr}
    (h : ∀ a ∈ e.loads, f a.tile = g a.tile) : e.mapTiles f = e.mapTiles g := by
  induction e with
  | load a => simp only [Expr.mapTiles, h a (by simp [Expr.loads])]
  | const c => rfl
  | unary op x ih => simp only [Expr.mapTiles, ih h]
  | binary op l r ihl ihr =>
      have hl := ihl fun a ha => h a (mem_append_left _ ha)
      have hr := ihr fun a ha => h a (mem_append_right _ ha)
      simp only [Expr.mapTiles, hl, hr]
  | cast type x ih => simp only [Expr.mapTiles, ih h]

theorem Step.mapTiles_congr
    {f g : TileId → TileId} (h : ∀ t ∈ (Op.step s).mentions, f t = g t) :
    s.op.mapTiles f = s.op.mapTiles g := by
  have htiles : ∀ t ∈ s.op.tiles, f t = g t :=
    fun t ht => h t (Step.mem_mentions ht)
  rcases s with ⟨id, op, strategy⟩
  cases op with
  | alloc tile => simp only [TileOp.mapTiles, h tile (by simp [Op.mentions])]
  | copy src dst width =>
      simp only [TileOp.mapTiles, htiles src.tile (by simp),
        htiles dst.tile (by simp)]
  | fill tile value => simp only [TileOp.mapTiles, htiles tile (by simp)]
  | parallel vars extents body =>
      simp only [TileOp.mapTiles, TileOp.parallel.injEq, true_and]
      apply map_congr_left
      intro assign hassign
      have hdst := htiles _ (TileOp.mem_tiles_of_access hassign mem_cons_self)
      have hvalue : assign.value.mapTiles f = assign.value.mapTiles g := by
        apply Expr.mapTiles_congr
        exact fun a ha =>
          htiles _ (TileOp.mem_tiles_of_access hassign (mem_cons_of_mem _ ha))
      rw [hdst, hvalue]
  | gemm a b c transposeA transposeB clear =>
      simp only [TileOp.mapTiles, htiles a (by simp), htiles b (by simp),
        htiles c (by simp)]
  | reduce src dst axis kind clear =>
      simp only [TileOp.mapTiles, htiles src (by simp), htiles dst (by simp)]
  | relayout src dst =>
      simp only [TileOp.mapTiles, htiles src (by simp), htiles dst (by simp)]

/-! ## Numbers of the relayouts -/

def Redirect.loadAt (r : Redirect) (next : Nat) : List RelayoutRecord :=
  if r.read then [⟨⟨next⟩, r.op, r.tile, r.twin⟩] else []

def Redirect.storeAt (r : Redirect) (next : Nat) : List RelayoutRecord :=
  if r.write then [⟨⟨next + r.read.toNat⟩, r.op, r.twin, r.tile⟩] else []

def Redirect.count (r : Redirect) : Nat := r.read.toNat + r.write.toNat

/-- Records of redirections whose numbers start at `next`, those that `part`
picks from each. -/
def recordsFrom (part : Redirect → Nat → List RelayoutRecord) :
    Nat → List Redirect → List RelayoutRecord
  | _, [] => []
  | next, r :: rest => part r next ++ recordsFrom part (next + r.count) rest

def Redirect.bothAt (r : Redirect) (next : Nat) : List RelayoutRecord :=
  r.loadAt next ++ r.storeAt next

theorem mem_recordsFrom
    {part : Redirect → Nat → List RelayoutRecord} {next : Nat}
    (h : record ∈ recordsFrom part next own) :
    ∃ r ∈ own, ∃ n, record ∈ part r n := by
  induction own generalizing next with
  | nil => cases h
  | cons r rest ih =>
      rcases mem_append.mp h with hin | hin
      · exact ⟨r, mem_cons_self, next, hin⟩
      · rcases ih hin with ⟨r', hr', hspec⟩
        exact ⟨r', mem_cons_of_mem r hr', hspec⟩

theorem Redirect.mem_loadAt (h : record ∈ r.loadAt n) :
    r.read = true ∧ record.serves = r.op ∧ record.src = r.tile ∧
      record.dst = r.twin := by
  unfold Redirect.loadAt at h
  split at h
  · rename_i hread
    rw [mem_singleton.mp h]
    exact ⟨hread, rfl, rfl, rfl⟩
  · cases h

theorem Redirect.mem_storeAt (h : record ∈ r.storeAt n) :
    r.write = true ∧ record.serves = r.op ∧ record.src = r.twin ∧
      record.dst = r.tile := by
  unfold Redirect.storeAt at h
  split at h
  · rename_i hwrite
    rw [mem_singleton.mp h]
    exact ⟨hwrite, rfl, rfl, rfl⟩
  · cases h

theorem perm_recordsFrom (next : Nat) (own : List Redirect) :
    (recordsFrom Redirect.bothAt next own).Perm
      (recordsFrom Redirect.loadAt next own ++
        recordsFrom Redirect.storeAt next own) := by
  induction own generalizing next with
  | nil => exact Perm.refl _
  | cons r rest ih =>
      simp only [recordsFrom, Redirect.bothAt, append_assoc]
      apply Perm.append_left
      have hrest := (ih (next + r.count)).append_left (r.storeAt next)
      apply hrest.trans
      rw [← append_assoc, ← append_assoc]
      exact Perm.append_right _ perm_append_comm

theorem Redirect.numbers_bothAt (r : Redirect) (next : Nat) :
    (r.bothAt next).map (·.op.number) = range' next r.count := by
  cases hread : r.read <;> cases hwrite : r.write <;>
    simp [Redirect.bothAt, Redirect.loadAt, Redirect.storeAt, Redirect.count,
      hread, hwrite, range']

theorem numbers_recordsFrom (next : Nat) (own : List Redirect) :
    (recordsFrom Redirect.bothAt next own).map (·.op.number) =
      range' next (own.map Redirect.count).sum := by
  induction own generalizing next with
  | nil => rfl
  | cons r rest ih =>
      simp only [recordsFrom, map_append, r.numbers_bothAt, ih, map_cons,
        sum_cons]
      rw [range'_append_1]

theorem Spliced.foldlM_redirect_eq_ok
    {s s' : Spliced} (h : own.foldlM Spliced.redirect s = .ok s') :
    s' =
      { op := s.op.mapTiles (rerouted own)
        before := s.before ++
          recordSteps (recordsFrom Redirect.loadAt s.nextOp own)
        after := s.after ++
          recordSteps (recordsFrom Redirect.storeAt s.nextOp own)
        records := s.records ++ recordsFrom Redirect.bothAt s.nextOp own
        nextOp := s.nextOp + (own.map Redirect.count).sum } := by
  induction own generalizing s with
  | nil =>
      cases h
      simp only [recordsFrom, recordSteps, map_nil, append_nil, sum_nil,
        Nat.add_zero]
      rw [show rerouted [] = id from rfl, TileOp.mapTiles_id]
  | cons r rest ih =>
      rw [foldlM_cons] at h
      obtain ⟨mid, hmid, h⟩ := bind_eq_ok h
      have hmid := Spliced.redirect_eq_ok hmid
      have hloads :
          (if r.read then [(⟨⟨s.nextOp⟩, r.load, none⟩ : Step)] else []) =
          recordSteps (r.loadAt s.nextOp) := by
        cases hread : r.read <;>
          simp [recordSteps, Redirect.loadAt, RelayoutRecord.step,
            Redirect.load, hread]
      have hstores : (if r.write then
          [(⟨⟨s.nextOp + r.read.toNat⟩, r.store, none⟩ : Step)] else []) =
          recordSteps (r.storeAt s.nextOp) := by
        cases hwrite : r.write <;>
          simp [recordSteps, Redirect.storeAt, RelayoutRecord.step,
            Redirect.store, hwrite]
      have hop : (s.op.replaceTile r.tile r.twin).mapTiles (rerouted rest) =
          s.op.mapTiles (rerouted (r :: rest)) := TileOp.mapTiles_mapTiles _ _ _
      rw [ih h, hmid]
      simp only [hloads, hstores, hop, recordsFrom, recordSteps, map_append,
        append_assoc, map_cons, sum_cons, Redirect.bothAt, Redirect.loadAt,
        Redirect.storeAt, Redirect.count, Nat.add_assoc]

/-! ## The spliced body -/

/-- A body, the body that splicing makes of it and the records it leaves. -/
inductive Inserts (redirects : List Redirect) :
    Body → Body → List RelayoutRecord → Prop where
  | done : Inserts redirects .done .done []
  | step {s : Step} {rest rest' : Body} {later : List RelayoutRecord}
      (next : Nat) (hrest : Inserts redirects rest rest' later) :
      Inserts redirects (.step s rest)
        (prepend (recordSteps
            (recordsFrom Redirect.loadAt next (redirectsOf redirects s.id)))
          (.step { s with
              op := s.op.mapTiles (rerouted (redirectsOf redirects s.id)) }
            (prepend (recordSteps
              (recordsFrom Redirect.storeAt next (redirectsOf redirects s.id)))
              rest')))
        (recordsFrom Redirect.bothAt next (redirectsOf redirects s.id) ++ later)
  | loop {head : Loop} {body body' rest rest' : Body}
      {inner later : List RelayoutRecord}
      (hbody : Inserts redirects body body' inner)
      (hrest : Inserts redirects rest rest' later) :
      Inserts redirects (.loop head body rest) (.loop head body' rest')
        (inner ++ later)

theorem inserts_of_splice
    {redirects : List Redirect} {body body' : Body} {next next' : Nat}
    {records : List RelayoutRecord}
    (h : splice redirects body next = .ok (body', records, next')) :
    Inserts redirects body body' records ∧
      ∃ count, records.map (·.op.number) = range' next count := by
  have hnumbers : ∃ count, next' = next + count ∧
      records.map (·.op.number) = range' next count ∧
      Inserts redirects body body' records := by
    induction body generalizing next body' records next' with
    | done =>
        cases h
        exact ⟨0, rfl, rfl, .done⟩
    | step s rest ih =>
        simp only [splice] at h
        obtain ⟨spliced, hspliced, h⟩ := bind_eq_ok h
        obtain ⟨⟨rest', later, last⟩, hrest, h⟩ := bind_eq_ok h
        cases h
        have hown : spliced =
            ⟨s.op.mapTiles (rerouted (redirectsOf redirects s.id)),
              recordSteps
                (recordsFrom Redirect.loadAt next (redirectsOf redirects s.id)),
              recordSteps (recordsFrom Redirect.storeAt
                next (redirectsOf redirects s.id)),
              recordsFrom Redirect.bothAt next (redirectsOf redirects s.id),
              next + ((redirectsOf redirects s.id).map Redirect.count).sum⟩ :=
          Spliced.foldlM_redirect_eq_ok hspliced
        subst hown
        rcases ih hrest with ⟨count, hlast, hlater, hinserts⟩
        refine ⟨((redirectsOf redirects s.id).map Redirect.count).sum + count,
          ?_, ?_, Inserts.step next hinserts⟩
        · rw [hlast]
          exact Nat.add_assoc _ _ _
        · rw [map_append, hlater, numbers_recordsFrom]
          exact range'_append_1
    | loop head body rest ihbody ihrest =>
        simp only [splice] at h
        obtain ⟨⟨inner, first, mid⟩, hbody, h⟩ := bind_eq_ok h
        obtain ⟨⟨rest', later, last⟩, hrest, h⟩ := bind_eq_ok h
        cases h
        rcases ihbody hbody with ⟨count, hmid, hfirst, hinner⟩
        rcases ihrest hrest with ⟨count', hlast, hlater, hinserts⟩
        refine ⟨count + count', ?_, ?_, Inserts.loop hinner hinserts⟩
        · rw [hlast, hmid, Nat.add_assoc]
        · rw [map_append, hfirst, hlater, hmid]
          exact range'_append_1
  rcases hnumbers with ⟨count, _, hmap, hinserts⟩
  exact ⟨hinserts, count, hmap⟩

theorem serves_of_mem_own
    {redirects : List Redirect}
    (h : record ∈ recordsFrom Redirect.bothAt n (redirectsOf redirects id)) :
    record.serves = id := by
  rcases mem_recordsFrom h with ⟨r, hr, m, hin⟩
  have hop : r.op = id := (mem_redirectsOf.mp hr).2
  rcases mem_append.mp hin with hload | hstore
  · exact (Redirect.mem_loadAt hload).2.1.trans hop
  · exact (Redirect.mem_storeAt hstore).2.1.trans hop

section

variable {redirects : List Redirect} {body body' : Body}
  {records : List RelayoutRecord}

theorem Inserts.exists_served
    (h : Inserts redirects body body' records) (hrecord : record ∈ records) :
    ∃ s, Op.step s ∈ body.ops ∧ s.id = record.serves := by
  induction h with
  | done => cases hrecord
  | step next _ ih =>
      rcases mem_append.mp hrecord with hin | hin
      · exact ⟨_, mem_cons_self, (serves_of_mem_own hin).symm⟩
      · obtain ⟨s, hs, hid⟩ := ih hin
        exact ⟨s, mem_cons_of_mem _ hs, hid⟩
  | loop _ _ ihbody ihrest =>
      rcases mem_append.mp hrecord with hin | hin
      · obtain ⟨s, hs, hid⟩ := ihbody hin
        exact ⟨s, mem_cons_of_mem _ (mem_append_left _ hs), hid⟩
      · obtain ⟨s, hs, hid⟩ := ihrest hin
        exact ⟨s, mem_cons_of_mem _ (mem_append_right _ hs), hid⟩

theorem Inserts.serves_mem
    (h : Inserts redirects body body' records) (hrecord : record ∈ records) :
    record.serves ∈ body.ops.map Op.id := by
  obtain ⟨s, hs, hid⟩ := h.exists_served hrecord
  exact mem_map.mpr ⟨.step s, hs, hid⟩

theorem Inserts.restored
    (h : Inserts redirects body body' records) {ids : List OpId}
    (hrecords : ∀ record ∈ records, record.op ∈ ids)
    (hkept : ∀ op ∈ body.ops, op.id ∉ ids) {original : TileId → TileId}
    (horiginal : ∀ op ∈ body.ops, ∀ t ∈ op.mentions,
      ∀ id, original (rerouted (redirectsOf redirects id) t) = t) :
    (body'.without ids).mapTiles original = body := by
  induction h with
  | done => rfl
  | @step s rest rest' later next hrest ih =>
      have hown : ∀ record ∈
          recordsFrom Redirect.bothAt next (redirectsOf redirects s.id),
          record.op ∈ ids :=
        fun record hin => hrecords record (mem_append_left _ hin)
      have hperm := perm_recordsFrom next (redirectsOf redirects s.id)
      have hloads : ∀ step ∈ recordSteps
          (recordsFrom Redirect.loadAt next (redirectsOf redirects s.id)),
          step.id ∈ ids := by
        intro step hstep
        rcases mem_map.mp hstep with ⟨record, hrecord, rfl⟩
        exact hown record (hperm.mem_iff.mpr (mem_append_left _ hrecord))
      have hstores : ∀ step ∈ recordSteps
          (recordsFrom Redirect.storeAt next (redirectsOf redirects s.id)),
          step.id ∈ ids := by
        intro step hstep
        rcases mem_map.mp hstep with ⟨record, hrecord, rfl⟩
        exact hown record (hperm.mem_iff.mpr (mem_append_right _ hrecord))
      have hs : s.id ∉ ids := hkept (.step s) mem_cons_self
      have hop :
          (s.op.mapTiles (rerouted (redirectsOf redirects s.id))).mapTiles
            original = s.op := by
        rw [TileOp.mapTiles_mapTiles]
        have hid := Step.mapTiles_congr (s := s) (g := id)
          fun t ht => horiginal (.step s) mem_cons_self t ht s.id
        rw [hid]
        exact TileOp.mapTiles_id s.op
      rw [Body.without_prepend hloads]
      simp only [Body.without, if_neg hs, Body.mapTiles]
      rw [Body.without_prepend hstores, hop]
      congr 1
      exact ih (fun record hin => hrecords record (mem_append_right _ hin))
        (fun op hin => hkept op (mem_cons_of_mem _ hin))
        fun op hin => horiginal op (mem_cons_of_mem _ hin)
  | @loop head body body' rest rest' inner later hbody hrest ihbody ihrest =>
      simp only [Body.without, Body.mapTiles]
      congr 1
      · exact ihbody (fun record hin => hrecords record (mem_append_left _ hin))
          (fun op hin => hkept op (mem_cons_of_mem _ (mem_append_left _ hin)))
          fun op hin => horiginal op (mem_cons_of_mem _ (mem_append_left _ hin))
      · exact ihrest (fun record hin =>
          hrecords record (mem_append_right _ hin)) (fun op hin =>
          hkept op (mem_cons_of_mem _ (mem_append_right _ hin))) fun op hin =>
          horiginal op (mem_cons_of_mem _ (mem_append_right _ hin))

/-- A test that fails on the numbers of the body and holds on the recorded ones
finds the recorded relayouts. -/
theorem Inserts.filter_ops_perm
    (h : Inserts redirects body body' records) {test : OpId → Bool}
    (hrecords : ∀ record ∈ records, test record.op = true)
    (hkept : ∀ op ∈ body.ops, test op.id = false) :
    (body'.ops.filter fun op => test op.id).Perm
      ((recordSteps records).map Op.step) := by
  induction h with
  | done => exact Perm.refl _
  | @step s rest rest' later next hrest ih =>
      have hown := perm_recordsFrom next (redirectsOf redirects s.id)
      have hall : ∀ part : List RelayoutRecord,
          part ⊆ recordsFrom Redirect.bothAt next (redirectsOf redirects s.id) →
          ((recordSteps part).map Op.step).filter (fun op => test op.id) =
            (recordSteps part).map Op.step := by
        intro part hpart
        apply filter_eq_self.mpr
        intro op hop
        rcases mem_map.mp hop with ⟨step, hstep, rfl⟩
        rcases mem_map.mp hstep with ⟨record, hrecord, rfl⟩
        exact hrecords record (mem_append_left _ (hpart hrecord))
      have hs : ∀ op, test (Op.step { s with op := op }).id = false :=
        fun _ => hkept (.step s) mem_cons_self
      have hrest :=
        ih (fun record hin => hrecords record (mem_append_right _ hin))
          fun op hin => hkept op (mem_cons_of_mem _ hin)
      have hloads :=
        hall (recordsFrom Redirect.loadAt next (redirectsOf redirects s.id))
          fun record hin => hown.mem_iff.mpr (mem_append_left _ hin)
      have hstores :=
        hall (recordsFrom Redirect.storeAt next (redirectsOf redirects s.id))
          fun record hin => hown.mem_iff.mpr (mem_append_right _ hin)
      have hsteps := (hown.map RelayoutRecord.step).map Op.step
      simp only [ops_prepend, Body.ops, filter_append, filter_cons, hs, hloads,
        hstores, Bool.false_eq_true, if_false]
      simp only [recordSteps, map_append, ← append_assoc] at hsteps hrest ⊢
      exact hsteps.symm.append hrest
  | @loop head body body' rest rest' inner later hbody hrest ihbody ihrest =>
      have hhead : test (Op.loop head body').id = false :=
        hkept (.loop head body) mem_cons_self
      simp only [Body.ops, filter_cons, filter_append, hhead,
        Bool.false_eq_true, if_false, recordSteps, map_append]
      apply Perm.append
      · exact ihbody (fun record hin => hrecords record (mem_append_left _ hin))
          fun op hin => hkept op (mem_cons_of_mem _ (mem_append_left _ hin))
      · exact ihrest
          (fun record hin => hrecords record (mem_append_right _ hin))
          fun op hin => hkept op (mem_cons_of_mem _ (mem_append_right _ hin))

end

/-! ## Records of each operation -/

/-- Records by the operation that they serve, in the order of the operations. -/
def recordsByOp (ops : List Op) (records : List RelayoutRecord) :
    List RelayoutRecord :=
  ops.flatMap fun op => records.filter (·.serves == op.id)

theorem filter_serves_eq_nil
    {records : List RelayoutRecord}
    (h : ∀ record ∈ records, record.serves ≠ id) :
    records.filter (·.serves == id) = [] := by
  apply filter_eq_nil_iff.mpr
  intro record hrecord heq
  exact h record hrecord (by simpa using heq)

theorem filter_serves_eq_self
    {records : List RelayoutRecord}
    (h : ∀ record ∈ records, record.serves = id) :
    records.filter (·.serves == id) = records := by
  apply filter_eq_self.mpr
  intro record hrecord
  simpa using h record hrecord

theorem recordsByOp_append
    {ops ops' : List Op} {records records' : List RelayoutRecord}
    (hserves : ∀ record ∈ records, record.serves ∈ ops.map Op.id)
    (hserves' : ∀ record ∈ records', record.serves ∈ ops'.map Op.id)
    (hdistinct : ((ops ++ ops').map Op.id).Nodup) :
    recordsByOp (ops ++ ops') (records ++ records') =
      recordsByOp ops records ++ recordsByOp ops' records' := by
  rw [map_append] at hdistinct
  have hdisjoint := disjoint_of_nodup_append hdistinct
  unfold recordsByOp
  rw [flatMap_append]
  congr 1
  · apply flatMap_congr
    intro op hop
    have hnone : ∀ record ∈ records', record.serves ≠ op.id :=
      fun record hin heq =>
      hdisjoint (mem_map_of_mem hop) (heq ▸ hserves' record hin)
    rw [filter_append, filter_serves_eq_nil hnone, append_nil]
  · apply flatMap_congr
    intro op hop
    have hnone : ∀ record ∈ records, record.serves ≠ op.id :=
      fun record hin heq =>
      hdisjoint (heq ▸ hserves record hin) (mem_map_of_mem hop)
    rw [filter_append, filter_serves_eq_nil hnone, nil_append]

/-- The loads and the stores of a step stand right before it and right after it
in one of the bodies. -/
def Flanked
    (body : Body) (loads : List RelayoutRecord) (s : Step)
    (stores : List RelayoutRecord) : Prop :=
  ∃ region ∈ body.bodies, ∃ front back,
    region.entries = front ++ ((recordSteps loads).map Op.step ++
      Op.step s :: (recordSteps stores).map Op.step) ++ back

theorem Flanked.of_suffix
    {body rest : Body} {loads stores : List RelayoutRecord} {s : Step}
    (h : Flanked rest loads s stores) {front : List Op}
    (hentries : body.entries = front ++ rest.entries)
    (hops : rest.ops ⊆ body.ops) : Flanked body loads s stores := by
  rcases h with ⟨region, hregion, before, back, heq⟩
  rcases Body.mem_bodies.mp hregion with rfl | ⟨head, hloop⟩
  · refine ⟨body, mem_cons_self, front ++ before, back, ?_⟩
    rw [hentries, heq]
    simp only [append_assoc]
  · exact ⟨region, Body.mem_bodies.mpr (Or.inr ⟨head, hops hloop⟩), before,
      back, heq⟩

theorem Flanked.of_loop
    {body inner : Body} {head : Loop} {loads stores : List RelayoutRecord}
    (h : Flanked inner loads s stores) (hloop : Op.loop head inner ∈ body.ops)
    (hops : inner.ops ⊆ body.ops) : Flanked body loads s stores := by
  rcases h with ⟨region, hregion, front, back, heq⟩
  rcases Body.mem_bodies.mp hregion with rfl | ⟨head', hloop'⟩
  · exact ⟨region, Body.mem_bodies.mpr (Or.inr ⟨head, hloop⟩), front, back, heq⟩
  · exact ⟨region, Body.mem_bodies.mpr (Or.inr ⟨head', hops hloop'⟩), front,
      back, heq⟩

section

variable {redirects : List Redirect} {body body' : Body}
  {records : List RelayoutRecord}

theorem Inserts.recordsByOp_eq
    (h : Inserts redirects body body' records)
    (hdistinct : (body.ops.map Op.id).Nodup) :
    recordsByOp body.ops records = records := by
  induction h with
  | done => rfl
  | @step s rest rest' later next hrest ih =>
      have hserves : ∀ record ∈
          recordsFrom Redirect.bothAt next (redirectsOf redirects s.id),
          record.serves = s.id :=
        fun record hin => serves_of_mem_own hin
      have hfirst : ∀ record ∈
          recordsFrom Redirect.bothAt next (redirectsOf redirects s.id),
          record.serves ∈ [Op.step s].map Op.id :=
        fun record hin => mem_singleton.mpr (hserves record hin)
      have hsplit := recordsByOp_append hfirst
        (fun record hin => hrest.serves_mem hin) hdistinct
      have hown : recordsByOp [.step s]
          (recordsFrom Redirect.bothAt next (redirectsOf redirects s.id)) =
            recordsFrom Redirect.bothAt next (redirectsOf redirects s.id) := by
        simp only [recordsByOp, flatMap_singleton]
        exact filter_serves_eq_self hserves
      exact hsplit.trans (by rw [hown, ih (nodup_cons.mp hdistinct).2])
  | @loop head body body' rest rest' inner later hbody hrest ihbody ihrest =>
      have hin : ∀ record ∈ inner ++ later,
          record.serves ∈ (body.ops ++ rest.ops).map Op.id := by
        intro record hrecord
        rw [map_append]
        rcases mem_append.mp hrecord with hin | hin
        · exact mem_append_left _ (hbody.serves_mem hin)
        · exact mem_append_right _ (hrest.serves_mem hin)
      have hnone : ∀ record ∈ ([] : List RelayoutRecord),
          record.serves ∈ [Op.loop head body].map Op.id :=
        fun record hrecord => by cases hrecord
      have hhead := recordsByOp_append hnone hin hdistinct
      have hdistinct := (nodup_cons.mp hdistinct).2
      have hsplit := recordsByOp_append (fun record hin => hbody.serves_mem hin)
        (fun record hin => hrest.serves_mem hin) hdistinct
      rw [map_append] at hdistinct
      have hbodyDistinct := (nodup_append.mp hdistinct).1
      have hrestDistinct := (nodup_append.mp hdistinct).2.1
      exact hhead.trans
        (by rw [hsplit, ihbody hbodyDistinct, ihrest hrestDistinct]; rfl)

theorem Inserts.flanked
    (h : Inserts redirects body body' records)
    (hdistinct : (body.ops.map Op.id).Nodup) (hs : Op.step s ∈ body.ops) :
    ∃ next,
      Flanked body'
        (recordsFrom Redirect.loadAt next (redirectsOf redirects s.id))
          { s with op := s.op.mapTiles (rerouted (redirectsOf redirects s.id)) }
        (recordsFrom Redirect.storeAt next (redirectsOf redirects s.id)) ∧
      records.filter (·.serves == s.id) =
        recordsFrom Redirect.bothAt next (redirectsOf redirects s.id) := by
  induction h with
  | done => cases hs
  | @step first rest rest' later next hrest ih =>
      have hfirst : ∀ record ∈
          recordsFrom Redirect.bothAt next (redirectsOf redirects first.id),
          record.serves = first.id :=
        fun record hin => serves_of_mem_own hin
      have hnew : first.id ∉ rest.ops.map Op.id := (nodup_cons.mp hdistinct).1
      rcases mem_cons.mp hs with heq | hin
      · cases heq
        refine ⟨next, ⟨_, mem_cons_self, [], rest'.entries, ?_⟩, ?_⟩
        · simp only [entries_prepend, Body.entries, nil_append, append_assoc,
            cons_append]
        · rw [filter_append, filter_serves_eq_self hfirst, filter_serves_eq_nil,
            append_nil]
          intro record hin heq
          exact hnew (heq ▸ hrest.serves_mem hin)
      · rcases ih (nodup_cons.mp hdistinct).2 hin with ⟨n, hflanked, hrecords⟩
        refine ⟨n, ?_, ?_⟩
        · let front : List Op :=
            (recordSteps (recordsFrom Redirect.loadAt next
              (redirectsOf redirects first.id))).map Op.step ++
              Op.step { first with
                op := first.op.mapTiles
                  (rerouted (redirectsOf redirects first.id)) } ::
              (recordSteps (recordsFrom Redirect.storeAt next
                (redirectsOf redirects first.id))).map Op.step
          refine @Flanked.of_suffix _ _ _ _ _ hflanked front ?_ ?_
          · simp only [front, entries_prepend, Body.entries, append_assoc,
              cons_append]
          · intro op hop
            simp only [ops_prepend, Body.ops, mem_append, mem_cons]
            exact Or.inr (Or.inr (Or.inr hop))
        · rw [filter_append, filter_serves_eq_nil, nil_append, hrecords]
          intro record hrecord heq
          rw [hfirst record hrecord] at heq
          exact hnew (heq ▸ mem_map_of_mem (f := Op.id) hin)
  | @loop head body body' rest rest' inner later hbody hrest ihbody ihrest =>
      have hdistinct := (nodup_cons.mp hdistinct).2
      rw [map_append] at hdistinct
      have hdisjoint := disjoint_of_nodup_append hdistinct
      have hin : Op.step s ∈ body.ops ∨ Op.step s ∈ rest.ops := by
        simpa [Body.ops] using hs
      rcases hin with hin | hin
      · rcases ihbody (nodup_append.mp hdistinct).1 hin with
          ⟨n, hflanked, hrecords⟩
        have hloop : Op.loop head body' ∈ (Body.loop head body' rest').ops :=
          mem_cons_self
        have hnone : ∀ record ∈ later, record.serves ≠ s.id := by
          intro record hrecord heq
          have hserves := hrest.serves_mem hrecord
          rw [heq] at hserves
          exact hdisjoint (mem_map_of_mem (f := Op.id) hin) hserves
        refine ⟨n, hflanked.of_loop hloop ?_, ?_⟩
        · exact fun op hop => mem_cons_of_mem _ (mem_append_left _ hop)
        · rw [filter_append, filter_serves_eq_nil hnone, append_nil, hrecords]
      · rcases ihrest (nodup_append.mp hdistinct).2.1 hin with
          ⟨n, hflanked, hrecords⟩
        have hentries : (Body.loop head body' rest').entries =
            [Op.loop head body'] ++ rest'.entries := rfl
        have hnone : ∀ record ∈ inner, record.serves ≠ s.id := by
          intro record hrecord heq
          have hserves := hbody.serves_mem hrecord
          rw [heq] at hserves
          exact hdisjoint hserves (mem_map_of_mem (f := Op.id) hin)
        refine ⟨n, hflanked.of_suffix hentries ?_, ?_⟩
        · exact fun op hop => mem_cons_of_mem _ (mem_append_right _ hop)
        · rw [filter_append, filter_serves_eq_nil hnone, nil_append, hrecords]

end

/-! ## Twins and their tiles -/

/-- The tile that an entry stands for, in a table of `size` tiles with the twins
after them. -/
def originalOf (size : Nat) (planned : List PlannedTile) (t : TileId) :
    TileId :=
  if t.index < size then t else (originals planned)[t.index - size]?.getD t

theorem originalOf_of_lt
    {size : Nat} {planned : List PlannedTile} {t : TileId}
    (h : t.index < size) :
    originalOf size planned t = t := if_pos h

theorem originalOf_twin
    {size : Nat} {planned : List PlannedTile}
    (h : r ∈ allRedirects size planned) :
    originalOf size planned r.twin = r.tile := by
  have hlow := le_twin_of_mem_allRedirects h
  unfold originalOf
  rw [if_neg (by omega), originals_twin h, Option.getD_some]

theorem exists_original_of_twinTiles
    {planned : List PlannedTile} {j : Nat} {twin : Tile}
    (h : (planned.flatMap (·.twinTiles))[j]? = some twin) :
    ∃ p ∈ planned,
      (originals planned)[j]? = some p.id ∧ ∃ (n : Nat) (l : Layout),
        twin = { Tile.plain s!"{p.tile.name}_relayout{n}" p.tile.shape
        p.tile.type p.tile.scope with
        layout := some l } := by
  induction planned generalizing j with
  | nil => simp at h
  | cons p rest ih =>
      have hlength : p.twinTiles.length = p.plan.twins.length := by
        simp [PlannedTile.twinTiles]
      rw [flatMap_cons] at h
      unfold originals
      rw [flatMap_cons]
      by_cases hj : j < p.plan.twins.length
      · rw [getElem?_append_left (by omega)] at h
        rw [getElem?_append_left (by simpa using hj),
          getElem?_replicate_of_lt hj]
        refine ⟨p, mem_cons_self, rfl, ?_⟩
        rcases mem_map.mp (mem_of_getElem? h) with ⟨⟨planned, n⟩, _, rfl⟩
        exact ⟨n, planned.layout, rfl⟩
      · rw [getElem?_append_right (by omega), hlength] at h
        rw [getElem?_append_right (by simp; omega), length_replicate]
        rcases ih h with ⟨p', hp', hspec⟩
        exact ⟨p', mem_cons_of_mem p hp', hspec⟩

/-! ## The order of the records -/

/-- Records of one operation go through its tiles in the order of the table, the
load of a tile before its store. -/
def TileByTile (original : TileId → TileId) (x y : RelayoutRecord) : Prop :=
  (original x.src).index < (original y.src).index ∨
    original x.src = x.src ∧ y.src = x.dst ∧ y.dst = x.src

section

variable {size : Nat} {redirects : List Redirect} {original : TileId → TileId}

theorem original_src_of_mem_bothAt
    (htile : original r.tile = r.tile) (htwin : original r.twin = r.tile)
    (h : record ∈ r.bothAt n) : original record.src = r.tile := by
  rcases mem_append.mp h with hload | hstore
  · rw [(Redirect.mem_loadAt hload).2.2.1, htile]
  · rw [(Redirect.mem_storeAt hstore).2.2.1, htwin]

theorem tileByTile_own
    (hsorted : own.Pairwise fun r r' => r.tile.index < r'.tile.index)
    (htile : ∀ r ∈ own, original r.tile = r.tile)
    (htwin : ∀ r ∈ own, original r.twin = r.tile) (next : Nat) :
    (recordsFrom Redirect.bothAt next own).Pairwise (TileByTile original) := by
  induction own generalizing next with
  | nil => exact Pairwise.nil
  | cons r rest ih =>
      rw [pairwise_cons] at hsorted
      have htile' := fun r' hr' => htile r' (mem_cons_of_mem r hr')
      have htwin' := fun r' hr' => htwin r' (mem_cons_of_mem r hr')
      have hr := htile r mem_cons_self
      apply pairwise_append.mpr
      refine ⟨?_, ih hsorted.2 htile' htwin' _, ?_⟩
      · -- at most a load and then a store
        cases hread : r.read <;> cases hwrite : r.write <;>
          simp [Redirect.bothAt, Redirect.loadAt, Redirect.storeAt, hread,
            hwrite, TileByTile, hr]
      · intro x hx y hy
        left
        rcases mem_recordsFrom hy with ⟨r', hr', m, hy⟩
        rw [original_src_of_mem_bothAt hr (htwin r mem_cons_self) hx,
          original_src_of_mem_bothAt (htile' r' hr') (htwin' r' hr') hy]
        exact hsorted.1 r' hr'

theorem Inserts.tileByTile
    {body body' : Body} {records : List RelayoutRecord}
    (h : Inserts redirects body body' records)
    (hdistinct : (body.ops.map Op.id).Nodup)
    (hsorted : redirects.Pairwise fun r r' => r.op = r'.op →
      r.tile.index < r'.tile.index)
    (htile : ∀ r ∈ redirects, original r.tile = r.tile)
    (htwin : ∀ r ∈ redirects, original r.twin = r.tile) :
    records.Pairwise fun x y => x.serves = y.serves →
      TileByTile original x y := by
  have hown : ∀ id next,
      (recordsFrom Redirect.bothAt next (redirectsOf redirects id)).Pairwise
      fun x y => x.serves = y.serves → TileByTile original x y := by
    intro id next
    have hfilter : (redirectsOf redirects id).Pairwise fun r r' =>
        r.tile.index < r'.tile.index := by
      have hsame := hsorted.filter (·.op == id)
      apply hsame.imp_of_mem
      intro r r' hr hr' hlt
      exact hlt
        ((mem_redirectsOf.mp hr).2.trans (mem_redirectsOf.mp hr').2.symm)
    have hordered :=
      tileByTile_own hfilter (fun r hr => htile r (mem_redirectsOf.mp hr).1)
        (fun r hr => htwin r (mem_redirectsOf.mp hr).1) next
    apply hordered.imp
    intro x y horder _
    exact horder
  induction h with
  | done => exact Pairwise.nil
  | @step s rest rest' later next hrest ih =>
      apply pairwise_append.mpr
      refine ⟨hown s.id next, ih (nodup_cons.mp hdistinct).2, ?_⟩
      intro x hx y hy heq
      have hserves := hrest.serves_mem hy
      rw [← heq, serves_of_mem_own hx] at hserves
      exact ((nodup_cons.mp hdistinct).1 hserves).elim
  | @loop head body body' rest rest' inner later hbody hrest ihbody ihrest =>
      have hdistinct := (nodup_cons.mp hdistinct).2
      rw [map_append] at hdistinct
      apply pairwise_append.mpr
      refine ⟨ihbody (nodup_append.mp hdistinct).1,
        ihrest (nodup_append.mp hdistinct).2.1, ?_⟩
      intro x hx y hy heq
      have hserves := hbody.serves_mem hx
      rw [heq] at hserves
      exact (disjoint_of_nodup_append hdistinct hserves
        (hrest.serves_mem hy)).elim

end

/-! ## Inference -/

/-- A kernel and what inference adds to it; `original` gives the tile that a
twin stands for. -/
structure OnlyAdds
    (k : Kernel) (inferred : Inferred) (original : TileId → TileId) : Prop where
  /-- The tiles keep their places and get layouts. -/
  tiles : ∀ i tile, k.tiles[i]? = some tile → original ⟨i⟩ = ⟨i⟩ ∧
    ∃ l, inferred.kernel.tiles[i]? = some { tile with layout := some l }
  /-- Every further entry is a twin. -/
  twins : ∀ i twin, k.tiles.size ≤ i → inferred.kernel.tiles[i]? = some twin →
    ∃ (tile : Tile) (n : Nat) (l : Layout),
      k.tiles[(original ⟨i⟩).index]? = some tile ∧
      twin = { Tile.plain s!"{tile.name}_relayout{n}"
        tile.shape tile.type tile.scope with layout := some l }
  /-- Without the recorded relayouts, and with the twins renamed, the body is as
  it was. -/
  restored :
    (inferred.kernel.body.without (inferred.relayouts.map (·.op))).mapTiles
      original = k.body
  /-- The relayouts that serve a step stand right around it; it reads what they
  load and writes what they store. -/
  flanked : ∀ s, Op.step s ∈ k.ops → ∃ loads served stores,
    Flanked inferred.kernel.body loads served stores ∧
    served.id = s.id ∧ served.op.mapTiles original = s.op ∧
    (inferred.relayouts.filter (·.serves == s.id)).Perm (loads ++ stores) ∧
    (∀ r ∈ loads, k.tiles.size ≤ r.dst.index ∧ original r.dst = r.src ∧
      r.src ∈ s.op.reads) ∧
    ∀ r ∈ stores, k.tiles.size ≤ r.src.index ∧ original r.src = r.dst ∧
      r.dst ∈ s.op.writes
  /-- The operations with new numbers are the recorded ones. -/
  inserted :
    (inferred.kernel.ops.filter fun op =>
      !(k.ops.map Op.id).contains op.id).Perm
      ((recordSteps inferred.relayouts).map Op.step)
  /-- Every record serves a step of the kernel. -/
  serves : ∀ r ∈ inferred.relayouts, ∃ s, Op.step s ∈ k.ops ∧ s.id = r.serves
  /-- Records follow the program by the operations that they serve. -/
  byOp : recordsByOp k.ops inferred.relayouts = inferred.relayouts
  byTile : inferred.relayouts.Pairwise fun x y => x.serves = y.serves →
    TileByTile original x y
  byNumber : inferred.relayouts.Pairwise fun x y => x.op.number < y.op.number
  distinct : (inferred.kernel.ops.map Op.id).Nodup
  below : ∀ op ∈ inferred.kernel.ops, op.id.number < inferred.kernel.nextOp

section

variable {k : Kernel} {target : Target} {all : List TileUse}
  {planned : List PlannedTile} {inferred : Inferred}

theorem InfersBy.originalOf_rerouted
    (h : InfersBy k target all planned inferred) (id : OpId) {t : TileId}
    (ht : k.Has t) :
    originalOf k.tiles.size planned
        (rerouted (redirectsOf (allRedirects k.tiles.size planned) id) t) =
      t := by
  rcases h.redirections.rerouted_cases id t with
    ⟨hsame, _⟩ | ⟨r, hr, htile, htwin⟩
  · rw [hsame]
    exact originalOf_of_lt ht
  · rw [htwin, originalOf_twin (mem_redirectsOf.mp hr).1, htile]

theorem InfersBy.twin_of_le
    (h : InfersBy k target all planned inferred) {i : Nat} {twin : Tile}
    (hi : k.tiles.size ≤ i) (htwin : inferred.kernel.tiles[i]? = some twin) :
    ∃ (tile : Tile) (n : Nat) (l : Layout),
      k.tiles[(originalOf k.tiles.size planned ⟨i⟩).index]? = some tile ∧
      twin = { Tile.plain s!"{tile.name}_relayout{n}" tile.shape tile.type
        tile.scope with
        layout := some l } := by
  rw [h.tiles, getElem?_toArray,
    getElem?_append_right (by simpa [h.plans.length_eq] using hi), length_map,
    h.plans.length_eq] at htwin
  rcases exists_original_of_twinTiles htwin with ⟨p, hp, horiginal, n, l, heq⟩
  refine ⟨p.tile, n, l, ?_, heq⟩
  have hid : originalOf k.tiles.size planned ⟨i⟩ = p.id := by
    unfold originalOf
    rw [if_neg (Nat.not_lt.mpr hi), horiginal, Option.getD_some]
  rw [hid]
  exact h.plans.getElem?_id hp

theorem InfersBy.redirects_sorted (h : InfersBy k target all planned inferred) :
    (allRedirects k.tiles.size planned).Pairwise fun r r' =>
      r.op = r'.op → r.tile.index < r'.tile.index := by
  apply allRedirects_pairwise (R := fun t t' => t.index < t'.index)
  · have hids := pairwise_lt_range (n := k.tiles.size)
    rw [← h.plans.ids, pairwise_map] at hids
    exact pairwise_map.mpr hids
  · exact fun p hp => (planTile_eq_ok (h.plans.plan p hp).2).1

theorem InfersBy.flanked
    (h : InfersBy k target all planned inferred)
    (hinserts : Inserts (allRedirects k.tiles.size planned) k.body
      inferred.kernel.body inferred.relayouts)
    (hs : Op.step s ∈ k.ops) :
    ∃ loads served stores,
      Flanked inferred.kernel.body loads served stores ∧
      served.id = s.id ∧
      served.op.mapTiles (originalOf k.tiles.size planned) = s.op ∧
      (inferred.relayouts.filter (·.serves == s.id)).Perm (loads ++ stores) ∧
      (∀ r ∈ loads, k.tiles.size ≤ r.dst.index ∧
        originalOf k.tiles.size planned r.dst = r.src ∧ r.src ∈ s.op.reads) ∧
      ∀ r ∈ stores, k.tiles.size ≤ r.src.index ∧
        originalOf k.tiles.size planned r.src = r.dst ∧
        r.dst ∈ s.op.writes := by
  rcases hinserts.flanked h.wellFormed.distinct hs with
    ⟨next, hflanked, hrecords⟩
  have hperm :=
    perm_recordsFrom next (redirectsOf (allRedirects k.tiles.size planned) s.id)
  refine ⟨_, _, _, hflanked, rfl, ?_, hrecords ▸ hperm, ?_, ?_⟩
  · have hid := Step.mapTiles_congr (s := s) (g := id)
      (f := fun t => originalOf k.tiles.size planned
        (rerouted (redirectsOf (allRedirects k.tiles.size planned) s.id) t))
      fun t ht => h.originalOf_rerouted s.id (h.references _ hs t ht)
    rw [TileOp.mapTiles_mapTiles, hid]
    exact TileOp.mapTiles_id s.op
  · intro record hrecord
    rcases mem_recordsFrom hrecord with ⟨r, hr, n, hload⟩
    have hin := (mem_redirectsOf.mp hr).1
    rcases Redirect.mem_loadAt hload with ⟨hread, -, hsrc, hdst⟩
    rw [hsrc, hdst]
    exact ⟨h.redirections.le_twin r hin, originalOf_twin hin,
      (h.redirections.reads s hs r hr).mp hread⟩
  · intro record hrecord
    rcases mem_recordsFrom hrecord with ⟨r, hr, n, hstore⟩
    have hin := (mem_redirectsOf.mp hr).1
    rcases Redirect.mem_storeAt hstore with ⟨hwrite, -, hsrc, hdst⟩
    rw [hsrc, hdst]
    exact ⟨h.redirections.le_twin r hin, originalOf_twin hin,
      (h.redirections.writes s hs r hr).mp hwrite⟩

end

/-- Inference changes a kernel only by adding twins and relayouts. -/
theorem infer_only_adds
    {k : Kernel} {target : Target} {inferred : Inferred}
    (h : k.infer target = .ok inferred) :
    ∃ original, OnlyAdds k inferred original := by
  obtain ⟨all, planned, hby⟩ := infersBy_of_infer h
  obtain ⟨next, hbelow, hsplice⟩ := hby.splice_eq
  obtain ⟨hinserts, count, hnumbers⟩ := inserts_of_splice hsplice
  obtain ⟨fresh, hids, hfresh⟩ := (spliceResult_of_splice hsplice).ids
  -- the inserted operations have numbers from `next` on, the others are below
  have hnew : ∀ record ∈ inferred.relayouts, next ≤ record.op.number := by
    intro record hrecord
    have hin : record.op.number ∈ inferred.relayouts.map (·.op.number) :=
      mem_map_of_mem hrecord
    rw [hnumbers] at hin
    exact (mem_range'_1.mp hin).1
  have hold : ∀ op ∈ k.ops, op.id ∉ inferred.relayouts.map (·.op) := by
    intro op hop hin
    rcases mem_map.mp hin with ⟨record, hrecord, heq⟩
    have hlow := hbelow op hop
    have hhigh := hnew record hrecord
    rw [heq] at hhigh
    omega
  refine ⟨originalOf k.tiles.size planned, ?_⟩
  constructor
  · intro i tile htile
    exact ⟨originalOf_of_lt (Array.getElem?_eq_some_iff.mp htile).1,
      hby.tile_kept htile⟩
  · exact fun i twin hi htwin => hby.twin_of_le hi htwin
  · apply hinserts.restored (fun record hin => mem_map_of_mem hin) hold
    exact fun op hop t ht id =>
      hby.originalOf_rerouted id (hby.references op hop t ht)
  · exact fun s hs => hby.flanked hinserts hs
  · refine @Inserts.filter_ops_perm _ _ _ _ hinserts
      (fun id => !(k.ops.map Op.id).contains id) ?_ ?_
    · intro record hrecord
      simp only [Bool.not_eq_true', contains_eq_mem, decide_eq_false_iff_not]
      intro hin
      rcases mem_map.mp hin with ⟨op, hop, heq⟩
      exact hold op hop (heq ▸ mem_map_of_mem (f := fun r => r.op) hrecord)
    · intro op hop
      simpa using ⟨op, hop, rfl⟩
  · exact fun r hr => hinserts.exists_served hr
  · exact hinserts.recordsByOp_eq hby.wellFormed.distinct
  · exact hinserts.tileByTile hby.wellFormed.distinct hby.redirects_sorted
      (fun r hr => originalOf_of_lt (hby.redirections.tile_lt r hr)) fun r hr =>
      originalOf_twin hr
  · have hsorted : (inferred.relayouts.map (·.op.number)).Pairwise (· < ·) := by
      rw [hnumbers]
      exact pairwise_lt_range'
    exact pairwise_map.mp hsorted
  · exact (infers_of_infer h).wellFormed_kernel.distinct
  · intro op hop
    have hin : op.id ∈ k.ops.map Op.id ++ fresh :=
      hids.mem_iff.mp (mem_map_of_mem hop)
    rcases mem_append.mp hin with hkept | hnumbered
    · rcases mem_map.mp hkept with ⟨op', hop', heq⟩
      have hlow := hbelow op' hop'
      have hle := hfresh.le
      rw [heq] at hlow
      omega
    · exact (hfresh.range _ hnumbered).2

/-- Two register tiles filled in runs of three and then one copied to the other
in runs of two, in a loop.  The last copy is redirected on both sides, and its
destination comes first in the table. -/
def backwardCopy : Kernel :=
  { Kernel.empty "backward_copy" with
    threads := ⟨2, 1, 1⟩
    tiles := #[.plain "y" [6] .f32 .fragment, .plain "x" [6] .f32 .fragment,
      .plain "g" [6] .f32 .global]
    body := .loop ⟨⟨3⟩, "i", 2, 1, none, none⟩
      (.step ⟨⟨5⟩, .copy (.full ⟨2⟩ [6]) (.full ⟨1⟩ [6]) (some 3), none⟩
        (.step ⟨⟨6⟩, .copy (.full ⟨2⟩ [6]) (.full ⟨0⟩ [6]) (some 3), none⟩
          (.step ⟨⟨7⟩, .copy (.full ⟨1⟩ [6]) (.full ⟨0⟩ [6]) (some 2),
            none⟩ .done))) .done }

theorem infer_only_adds_backwardCopy :
    ∃ inferred original, backwardCopy.infer .sm70 = .ok inferred ∧
      OnlyAdds backwardCopy inferred original ∧
      inferred.relayouts = [⟨⟨8⟩, ⟨7⟩, ⟨3⟩, ⟨0⟩⟩, ⟨⟨9⟩, ⟨7⟩, ⟨1⟩, ⟨4⟩⟩] := by
  have hcompute : ((backwardCopy.infer .sm70).toOption.map (·.relayouts)) =
      some [⟨⟨8⟩, ⟨7⟩, ⟨3⟩, ⟨0⟩⟩, ⟨⟨9⟩, ⟨7⟩, ⟨1⟩, ⟨4⟩⟩] := by
    decide +kernel
  obtain ⟨inferred, hinfer, hrelayouts⟩ := Option.map_eq_some_iff.mp hcompute
  rw [toOption_eq_some_iff] at hinfer
  obtain ⟨original, hadds⟩ := infer_only_adds hinfer
  exact ⟨inferred, original, hinfer, hadds, hrelayouts⟩

/-- The store of `y` is recorded before the load of `x`, which stands before it
in the body. -/
theorem infer_records_ne_program_order_backwardCopy :
    ∃ inferred, backwardCopy.infer .sm70 = .ok inferred ∧
      inferred.relayouts.map (·.op) = [⟨8⟩, ⟨9⟩] ∧
      (inferred.kernel.ops.filter fun op =>
        !(backwardCopy.ops.map Op.id).contains op.id).map Op.id =
        [⟨9⟩, ⟨8⟩] := by
  have hcompute : ((backwardCopy.infer .sm70).toOption.map fun inferred =>
      (inferred.relayouts.map (·.op),
        (inferred.kernel.ops.filter fun op =>
          !(backwardCopy.ops.map Op.id).contains op.id).map Op.id)) =
          some ([⟨8⟩, ⟨9⟩], [⟨9⟩, ⟨8⟩]) := by
    decide +kernel
  obtain ⟨inferred, hinfer, horders⟩ := Option.map_eq_some_iff.mp hcompute
  rw [toOption_eq_some_iff] at hinfer
  exact ⟨inferred, hinfer, congrArg Prod.fst horders, congrArg Prod.snd horders⟩

end TileProgram
