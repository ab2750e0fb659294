import TileProgram.Proofs.Operands
import TileProgram.Staged.Role

/-!
# What a division into producers and consumers guarantees

`RunsAhead` is what the analysis of a loop body establishes: producers are
copies that fill their buffers completely from tiles the loop never writes, and
an earlier consumer shares no tile with a later producer that either of them
writes.  Only the direct dependences of the analysis are needed for that.
-/

namespace TileProgram

open Kernel List

variable {deps : List Dependence} {op : OpId} {a b : Effect} {t : TileId}
  {s : Step} {steps : List Step} {r r' roles : Roles}

/-- Neither operation writes a tile that the other touches. -/
structure Independent (a b : TileOp) : Prop where
  flow : ∀ t ∈ a.writes, t ∉ b.reads
  output : ∀ t ∈ a.writes, t ∉ b.writes
  anti : ∀ t ∈ a.reads, t ∉ b.writes

namespace Dependence

/-! ## Direct dependences are found -/

theorem mem_grow_of_mem {reached : List OpId} (h : op ∈ reached) :
    op ∈ grow deps reached := by
  unfold grow
  exact mem_eraseDups.mpr (mem_append_left _ h)

theorem mem_reach_of_mem
    (rounds : Nat) {reached : List OpId} (h : op ∈ reached) :
    op ∈ reach deps rounds reached := by
  induction rounds generalizing reached with
  | zero => exact h
  | succ rounds ih =>
      simp only [reach]
      split
      · exact h
      · exact ih (mem_grow_of_mem h)

theorem dependsOn_of_mem
    {d : Dependence} (hd : d ∈ deps) (hcarried : d.carried = false)
    (hne : d.source ≠ d.sink) :
    dependsOn deps d.source d.sink = true := by
  have hsink : d.sink ∈ grow deps [d.source] := by
    unfold grow
    apply mem_eraseDups.mpr
    apply mem_append_right
    exact mem_filterMap.mpr ⟨d, hd, by simp [hcarried]⟩
  have hsource : d.source ∈ grow deps [d.source] :=
    mem_grow_of_mem (mem_singleton.mpr rfl)
  have hlarger : (grow deps [d.source]).length ≠ 1 := by
    intro hone
    obtain ⟨op, hop⟩ := length_eq_one_iff.mp hone
    rw [hop, mem_singleton] at hsink hsource
    exact hne (hsource.trans hsink.symm)
  obtain ⟨rounds, hrounds⟩ : ∃ rounds, deps.length = rounds + 1 :=
    Nat.exists_eq_succ_of_ne_zero (length_pos_of_mem hd).ne'
  have hreach : d.sink ∈ reach deps deps.length [d.source] := by
    rw [hrounds]
    simp only [reach]
    rw [length_singleton, if_neg hlarger]
    exact mem_reach_of_mem rounds hsink
  unfold dependsOn
  simp [hne, hreach]

theorem mem_among
    {effects : List Effect} {i j : Nat} {d : Dependence}
    (ha : effects[i]? = some a) (hb : effects[j]? = some b) (hlt : i < j)
    (hd : d ∈ within a b) : d ∈ among effects := by
  unfold among
  refine mem_flatMap.mpr ⟨(a, i), mem_zipIdx_iff_getElem?.mpr ha, ?_⟩
  refine mem_flatMap.mpr ⟨(b, j), mem_zipIdx_iff_getElem?.mpr hb, ?_⟩
  simp only [if_pos hlt]
  exact hd

theorem flow_mem_within (ha : t ∈ a.writes) (hb : t ∈ b.reads) :
    ⟨a.op, b.op, .flow, t, false⟩ ∈ within a b := by
  apply mem_append_left
  refine mem_flatMap.mpr ⟨t, ha, ?_⟩
  simp [hb]

theorem output_mem_within (ha : t ∈ a.writes) (hb : t ∈ b.writes) :
    ⟨a.op, b.op, .output, t, false⟩ ∈ within a b := by
  apply mem_append_left
  refine mem_flatMap.mpr ⟨t, ha, ?_⟩
  simp [hb]

theorem anti_mem_within (ha : t ∈ a.reads) (hb : t ∈ b.writes) :
    ⟨a.op, b.op, .anti, t, false⟩ ∈ within a b := by
  apply mem_append_right
  refine mem_flatMap.mpr ⟨t, ha, ?_⟩
  simp [hb]

theorem effect_eq_ok
    {k : Kernel} {e : Effect} (h : effect k (.step s) = .ok e) :
    e.op = s.id ∧ (∀ t, t ∈ e.reads ↔ t ∈ s.op.reads) ∧ ∀ t, t ∈ e.writes ↔
      t ∈ s.op.writes := by
  obtain ⟨_, _, h⟩ := bind_eq_ok h
  cases h
  exact ⟨rfl, fun t => mem_eraseDups, fun t => mem_eraseDups⟩

theorem independent_of_not_dependsOn
    {k : Kernel} (h : ofBody k (steps.map Op.step) = .ok deps) {i j : Nat}
    {a b : Step} (ha : steps[i]? = some a) (hb : steps[j]? = some b)
    (hlt : i < j) (hne : a.id ≠ b.id)
    (hfree : dependsOn deps a.id b.id = false) : Independent a.op b.op := by
  obtain ⟨effects, heffects, hdeps⟩ := bind_eq_ok h
  cases hdeps
  obtain ⟨ea, hea, heffectA⟩ := getElem?_of_mapM_eq_ok heffects
    (show (steps.map Op.step)[i]? = some (.step a) by simp [ha])
  obtain ⟨eb, heb, heffectB⟩ := getElem?_of_mapM_eq_ok heffects
    (show (steps.map Op.step)[j]? = some (.step b) by simp [hb])
  obtain ⟨hopA, hreadsA, hwritesA⟩ := effect_eq_ok heffectA
  obtain ⟨hopB, hreadsB, hwritesB⟩ := effect_eq_ok heffectB
  have hnone : ∀ d, d ∈ within ea eb → d.source = ea.op → d.sink = eb.op →
      d.carried = false → False := by
    intro d hd hsource hsink hcarried
    have hdepends := dependsOn_of_mem (mem_among hea heb hlt hd) hcarried
      (by rw [hsource, hsink, hopA, hopB]; exact hne)
    rw [hsource, hsink, hopA, hopB, hfree] at hdepends
    cases hdepends
  constructor
  · intro t hta htb
    exact hnone _ (flow_mem_within ((hwritesA t).mpr hta) ((hreadsB t).mpr htb))
      rfl rfl rfl
  · intro t hta htb
    exact hnone _
      (output_mem_within ((hwritesA t).mpr hta) ((hwritesB t).mpr htb))
      rfl rfl rfl
  · intro t hta htb
    exact hnone _ (anti_mem_within ((hreadsA t).mpr hta) ((hwritesB t).mpr htb))
      rfl rfl rfl

end Dependence

/-! ## The two sides of a body -/

def Step.isProducer (k : Kernel) (s : Step) : Bool :=
  match s.op with
  | .copy src dst _ =>
      (k.tile? src.tile).any (·.scope == .global) &&
        (k.tile? dst.tile).any (·.scope.isOnChip)
  | _ => false

/-- What lets the producers of a body run ahead of its consumers. -/
structure RunsAhead (k : Kernel) (steps : List Step) : Prop where
  /-- A producer is a copy that fills its buffer. -/
  fills : ∀ s ∈ steps, s.isProducer k →
    ∃ src dst width shape, s.op = .copy src dst width ∧
    k.shapeOf dst.tile = .ok shape ∧ dst.covers shape
  /-- No step writes what a producer reads. -/
  sources : ∀ s ∈ steps, s.isProducer k →
    ∀ t ∈ s.op.reads, ∀ o ∈ steps, t ∉ o.op.writes
  /-- A producer is independent of the consumers that stand before it. -/
  ahead : steps.Pairwise fun a b =>
    ¬ a.isProducer k → b.isProducer k → Independent a.op b.op

namespace Roles

variable {k : Kernel} {region : OpId} {body : List Op}

theorem refuse_ne_ok
    {α : Type} (reader writer : OpId) (tile : TileId) (reason : String)
    (a : α) :
    refuse k region reader writer tile reason ≠ .ok a := by
  unfold refuse
  intro h
  obtain ⟨t, _, h⟩ := bind_eq_ok h
  cases h

theorem checkProducer_eq_ok
    {src dst : Region} {p : Producer}
    (h : checkProducer k region body op src dst = .ok p) :
    p = ⟨op, dst.tile⟩ ∧ (∀ o ∈ body, o.id ≠ op → src.tile ∉ o.writes) ∧
      ∃ shape, k.shapeOf dst.tile = .ok shape ∧ dst.covers shape := by
  unfold checkProducer at h
  cases hwriter : body.find? fun o =>
    o.id != op && o.writes.contains src.tile with
  | some writer =>
      simp only [hwriter] at h
      obtain ⟨_, hfail, _⟩ := bind_eq_ok h
      exact (refuse_ne_ok _ _ _ _ _ hfail).elim
  | none =>
      simp only [hwriter] at h
      obtain ⟨tile, htile, h⟩ := bind_eq_ok h
      have htile := lift_eq_ok_iff.mp htile
      by_cases hcovers : dst.covers tile.shape
      · rw [if_neg (by simp [hcovers])] at h
        refine ⟨(Except.ok.inj h).symm, ?_, tile.shape,
          shapeOf_eq_ok.mpr ⟨tile, htile, rfl⟩, hcovers⟩
        intro o ho hne hwrites
        have hnone := find?_eq_none.mp hwriter o ho
        simp [hne, hwrites] at hnone
      · rw [if_pos (by simp [hcovers])] at h
        obtain ⟨_, hfail, _⟩ := bind_eq_ok h
        exact (refuse_ne_ok _ _ _ _ _ hfail).elim

theorem add_eq_ok (h : add k region body r (.step s) = .ok r') :
    if s.isProducer k then
      ∃ src dst width, s.op = .copy src dst width ∧ src.tile ≠ dst.tile ∧
        checkProducer k region body s.id src dst = .ok ⟨s.id, dst.tile⟩ ∧
        r' = { r with producers := r.producers ++ [⟨s.id, dst.tile⟩] }
    else r' = { r with consumers := r.consumers ++ [s.id] } := by
  obtain ⟨id, op, strategy⟩ := s
  cases op with
  | copy src dst width =>
      simp only [add] at h
      obtain ⟨source, hsource, h⟩ := bind_eq_ok h
      obtain ⟨buffer, hbuffer, h⟩ := bind_eq_ok h
      have hsource := tile_eq_ok_iff.mp (lift_eq_ok_iff.mp hsource)
      have hbuffer := tile_eq_ok_iff.mp (lift_eq_ok_iff.mp hbuffer)
      have hside : Step.isProducer k ⟨id, .copy src dst width, strategy⟩ =
          (source.scope == .global && buffer.scope.isOnChip) := by
        simp [Step.isProducer, hsource, hbuffer]
      by_cases hscopes : source.scope = .global ∧ buffer.scope.isOnChip
      · rw [if_pos hscopes] at h
        rw [if_pos (by rw [hside]; simpa using hscopes)]
        obtain ⟨p, hp, h⟩ := bind_eq_ok h
        obtain ⟨rfl, _⟩ := checkProducer_eq_ok hp
        refine ⟨src, dst, width, rfl, ?_, hp, (Except.ok.inj h).symm⟩
        intro hsame
        rw [hsame, hbuffer] at hsource
        cases hsource
        rw [hscopes.1] at hscopes
        cases hscopes.2
      · rw [if_neg hscopes] at h
        rw [if_neg (by rw [hside]; simpa using hscopes)]
        exact (Except.ok.inj h).symm
  | alloc tile => exact (Except.ok.inj h).symm
  | fill tile value => exact (Except.ok.inj h).symm
  | parallel vars extents assigns => exact (Except.ok.inj h).symm
  | gemm a b c transposeA transposeB clear => exact (Except.ok.inj h).symm
  | reduce src dst axis kind clear => exact (Except.ok.inj h).symm
  | relayout src dst => exact (Except.ok.inj h).symm

/-- The roles are the two sides of the steps, in their order. -/
structure SidesOf (k : Kernel) (steps : List Step) (r : Roles) : Prop where
  producers : r.producers.map (·.op) =
    (steps.filter (·.isProducer k)).map (·.id)
  buffers : r.producers.map (·.buffer) =
    (steps.filter (·.isProducer k)).flatMap (·.op.writes)
  consumers : r.consumers = (steps.filter (!·.isProducer k)).map (·.id)

theorem sidesOf_concat
    (hr : SidesOf k steps r) (h : add k region body r (.step s) = .ok r') :
    SidesOf k (steps ++ [s]) r' := by
  have hadd := add_eq_ok h
  by_cases hside : s.isProducer k
  · rw [if_pos hside] at hadd
    obtain ⟨src, dst, width, hop, _, _, rfl⟩ := hadd
    constructor
    · simp [hr.producers, hside]
    · simp [hr.buffers, hside, hop, TileOp.writes]
    · simp [hr.consumers, hside]
  · rw [if_neg hside] at hadd
    subst hadd
    constructor
    · simp [hr.producers, hside]
    · simp [hr.buffers, hside]
    · simp [hr.consumers, hside]

theorem foldlM_add_eq_ok
    {before rest : List Step} (hr : SidesOf k before r)
    (h : (rest.map Op.step).foldlM (add k region body) r = .ok r') :
    SidesOf k (before ++ rest) r' ∧
      ∀ s ∈ rest, s.isProducer k → ∃ src dst width, s.op = .copy src dst width ∧
        src.tile ≠ dst.tile ∧
        checkProducer k region body s.id src dst = .ok ⟨s.id, dst.tile⟩ := by
  induction rest generalizing before r with
  | nil =>
      cases h
      exact ⟨by simpa using hr, by simp⟩
  | cons first rest ih =>
      rw [map_cons, foldlM_cons] at h
      obtain ⟨middle, hfirst, hrest⟩ := bind_eq_ok h
      obtain ⟨hsides, hchecks⟩ := ih (sidesOf_concat hr hfirst) hrest
      refine ⟨by simpa using hsides, ?_⟩
      intro s hs hside
      rcases mem_cons.mp hs with rfl | hin
      · have hadd := add_eq_ok hfirst
        rw [if_pos hside] at hadd
        obtain ⟨src, dst, width, hop, hne, hcheck, _⟩ := hadd
        exact ⟨src, dst, width, hop, hne, hcheck⟩
      · exact hchecks s hin hside

theorem checkAhead_eq_ok
    (h : checkAhead k region r deps = .ok ()) {p : Producer}
    (hp : p ∈ r.producers) {c : OpId} (hc : c ∈ r.consumers) :
    Dependence.dependsOn deps c p.op = false := by
  have hcheck := forM_eq_ok h hp
  cases hfind : r.consumers.find? (Dependence.dependsOn deps · p.op) with
  | some consumer =>
      rw [hfind] at hcheck
      exact (refuse_ne_ok _ _ _ _ _ hcheck).elim
  | none => simpa using find?_eq_none.mp hfind c hc

theorem ofBody_inv (h : ofBody k region (steps.map Op.step) = .ok roles) :
    ∃ deps, Dependence.ofBody k (steps.map Op.step) = .ok deps ∧
      SidesOf k steps roles ∧
      (∀ s ∈ steps, s.isProducer k →
        ∃ src dst width, s.op = .copy src dst width ∧ src.tile ≠ dst.tile ∧
        checkProducer k region (steps.map Op.step) s.id src dst =
          .ok ⟨s.id, dst.tile⟩) ∧
      checkAhead k region roles deps = .ok () := by
  unfold ofBody at h
  obtain ⟨deps, hdeps, h⟩ := bind_eq_ok h
  obtain ⟨r, hadd, h⟩ := bind_eq_ok h
  obtain ⟨_, hahead, h⟩ := bind_eq_ok h
  obtain ⟨_, _, h⟩ := bind_eq_ok h
  cases h
  obtain ⟨hsides, hchecks⟩ :=
    foldlM_add_eq_ok (show SidesOf k [] ⟨[], []⟩ from ⟨rfl, rfl, rfl⟩) hadd
  exact ⟨deps, lift_eq_ok_iff.mp hdeps, hsides, hchecks, hahead⟩

theorem mem_rotated_iff (h : SidesOf k steps roles) :
    t ∈ roles.rotated ↔ ∃ s ∈ steps, s.isProducer k ∧ t ∈ s.op.writes := by
  rw [rotated, mem_eraseDups, h.buffers, mem_flatMap]
  simp only [mem_filter, and_assoc]

theorem rotated_lt_size (h : ofBody k region (steps.map Op.step) = .ok roles) :
    ∀ t ∈ roles.rotated, k.Has t := by
  obtain ⟨deps, _, hsides, hchecks, _⟩ := ofBody_inv h
  intro t ht
  obtain ⟨s, hs, hside, ht⟩ := (mem_rotated_iff hsides).mp ht
  obtain ⟨src, dst, width, hop, _, hcheck⟩ := hchecks s hs hside
  obtain ⟨_, _, shape, hshape, _⟩ := checkProducer_eq_ok hcheck
  rw [hop, TileOp.writes, mem_singleton] at ht
  rw [ht]
  exact lt_of_shapeOf hshape

theorem ofBody_eq_ok
    (hdistinct : (steps.map (·.id)).Nodup)
    (h : ofBody k region (steps.map Op.step) = .ok roles) :
    SidesOf k steps roles ∧ RunsAhead k steps := by
  obtain ⟨deps, hdeps, hsides, hchecks, hahead⟩ := ofBody_inv h
  refine ⟨hsides, ?_, ?_, ?_⟩
  · intro s hs hside
    obtain ⟨src, dst, width, hop, _, hcheck⟩ := hchecks s hs hside
    obtain ⟨_, _, shape, hshape, hcovers⟩ := checkProducer_eq_ok hcheck
    exact ⟨src, dst, width, shape, hop, hshape, hcovers⟩
  · intro s hs hside t ht o ho
    obtain ⟨src, dst, width, hop, hne, hcheck⟩ := hchecks s hs hside
    obtain ⟨_, hother, _⟩ := checkProducer_eq_ok hcheck
    rw [hop, TileOp.reads, mem_singleton] at ht
    subst ht
    by_cases hsame : o = s
    · subst hsame
      rw [hop, TileOp.writes, mem_singleton]
      exact hne
    · have hid : o.id ≠ s.id := fun heq =>
        hsame (inj_on_of_nodup_map hdistinct ho hs heq)
      have hwrites := hother (.step o) (mem_map_of_mem ho) hid
      intro hin
      exact hwrites (mem_eraseDups.mpr hin)
  · rw [pairwise_iff_getElem]
    intro i j hi hj hlt hconsumer hproducer
    have hid : steps[i].id ≠ steps[j].id := by
      have hnodup :=
        nodup_iff_getElem?_ne_getElem?.mp hdistinct i j hlt (by simpa using hj)
      simpa [hi, hj] using hnodup
    have hp : steps[j].id ∈ roles.producers.map (·.op) := by
      rw [hsides.producers]
      exact mem_map_of_mem (mem_filter.mpr ⟨getElem_mem hj, hproducer⟩)
    have hc : steps[i].id ∈ roles.consumers := by
      rw [hsides.consumers]
      exact mem_map_of_mem
        (mem_filter.mpr ⟨getElem_mem hi, by simpa using hconsumer⟩)
    obtain ⟨p, hin, hop⟩ := mem_map.mp hp
    have hfree := checkAhead_eq_ok hahead hin hc
    rw [hop] at hfree
    exact Dependence.independent_of_not_dependsOn hdeps (getElem?_eq_getElem hi)
      (getElem?_eq_getElem hj) hlt hid hfree

end Roles

end TileProgram
