import TileProgram.Inference.Basic
import TileProgram.Proofs.Checked
import TileProgram.Proofs.Footprint

/-!
# Redirected bodies

Splicing redirects operations to twins and puts relayouts around them.
`Rerouted` describes the body it makes without the counting: every step sees its
tiles under its own redirections, between relayouts that load the twins it reads
and relayouts that store the twins it writes.  The operations keep their numbers
and the relayouts have fresh ones.
-/

namespace TileProgram

open Inference List

variable {redirects : List Redirect} {r : Redirect} {s s' : Spliced}

/-! ## Redirections of one operation -/

/-- The tile that an operation sees in place of `t`. -/
def rerouted (redirects : List Redirect) (t : TileId) : TileId :=
  redirects.foldl (fun t r => if t = r.tile then r.twin else t) t

def Redirect.load (r : Redirect) : TileOp := .relayout r.tile r.twin

def Redirect.store (r : Redirect) : TileOp := .relayout r.twin r.tile

def loadsOf (redirects : List Redirect) : List TileOp :=
  (redirects.filter (·.read)).map Redirect.load

def storesOf (redirects : List Redirect) : List TileOp :=
  (redirects.filter (·.write)).map Redirect.store

def redirectsOf (redirects : List Redirect) (id : OpId) : List Redirect :=
  redirects.filter (·.op == id)

theorem mem_redirectsOf {id : OpId} :
    r ∈ redirectsOf redirects id ↔ r ∈ redirects ∧ r.op = id := by
  simp [redirectsOf]

/-- Redirections whose twins are not themselves redirected send a tile to a twin
of it, or leave it alone. -/
theorem rerouted_cases
    (htwins : ∀ r ∈ redirects, ∀ r' ∈ redirects, r.twin ≠ r'.tile)
    (t : TileId) :
    (rerouted redirects t = t ∧ ∀ r ∈ redirects, r.tile ≠ t) ∨
      ∃ r ∈ redirects, r.tile = t ∧ rerouted redirects t = r.twin := by
  have hstays : ∀ (rest : List Redirect) (u : TileId),
      (∀ r ∈ rest, r.tile ≠ u) → rerouted rest u = u := by
    intro rest
    induction rest with
    | nil =>
        intro u _
        rfl
    | cons r rest ih =>
        intro u hu
        have hhead : u ≠ r.tile := (hu r mem_cons_self).symm
        simp only [rerouted, foldl_cons, if_neg hhead]
        exact ih u fun r' hr' => hu r' (mem_cons_of_mem r hr')
  induction redirects with
  | nil => exact Or.inl ⟨rfl, by simp⟩
  | cons r rest ih =>
      by_cases ht : t = r.tile
      · right
        refine ⟨r, mem_cons_self, ht.symm, ?_⟩
        simp only [rerouted, foldl_cons, if_pos ht]
        apply hstays rest
        intro r' hr' heq
        exact htwins r mem_cons_self r' (mem_cons_of_mem r hr') heq.symm
      · have hskip : rerouted (r :: rest) t = rerouted rest t := by
          simp only [rerouted, foldl_cons, if_neg ht]
        have hrest := ih fun r' hr' r'' hr'' =>
          htwins r' (mem_cons_of_mem r hr') r'' (mem_cons_of_mem r hr'')
        rw [hskip]
        rcases hrest with ⟨hsame, hnone⟩ | ⟨r', hr', htile, htwin⟩
        · refine Or.inl ⟨hsame, ?_⟩
          intro r' hr'
          rcases mem_cons.mp hr' with rfl | hin
          · exact fun heq => ht heq.symm
          · exact hnone r' hin
        · exact Or.inr ⟨r', mem_cons_of_mem r hr', htile, htwin⟩

theorem Expr.mapTiles_mapTiles (f g : TileId → TileId) (e : Expr) :
    (e.mapTiles f).mapTiles g = e.mapTiles fun t => g (f t) := by
  induction e with
  | load a => rfl
  | const c => rfl
  | unary op x ih => simp only [Expr.mapTiles, ih]
  | binary op l r ihl ihr => simp only [Expr.mapTiles, ihl, ihr]
  | cast type x ih => simp only [Expr.mapTiles, ih]

theorem TileOp.mapTiles_mapTiles (f g : TileId → TileId) (op : TileOp) :
    (op.mapTiles f).mapTiles g = op.mapTiles fun t => g (f t) := by
  cases op with
  | parallel vars extents body =>
      simp only [TileOp.mapTiles, List.map_map]
      congr 1
      apply map_congr_left
      intro assign _
      simp only [Function.comp_apply, Expr.mapTiles_mapTiles]
  | _ => rfl

/-! ## Fresh numbers -/

/-- Distinct numbers from `lo` on and below `hi`. -/
structure Fresh (lo hi : Nat) (ids : List OpId) : Prop where
  le : lo ≤ hi
  nodup : ids.Nodup
  range : ∀ id ∈ ids, lo ≤ id.number ∧ id.number < hi

theorem Fresh.append
    {lo mid hi : Nat} {ids ids' : List OpId} (h : Fresh lo mid ids)
    (h' : Fresh mid hi ids') : Fresh lo hi (ids ++ ids') := by
  refine ⟨Nat.le_trans h.le h'.le, ?_, ?_⟩
  · apply Nodup.append h.nodup h'.nodup
    intro id hid hid'
    have hlow := h.range id hid
    have hhigh := h'.range id hid'
    omega
  · intro id hid
    have hle := h.le
    have hle' := h'.le
    rcases mem_append.mp hid with hin | hin
    · have hlow := h.range id hin
      omega
    · have hhigh := h'.range id hin
      omega

/-- The numbers of `old`, in some order, with fresh ones among them. -/
def AddsFresh (lo hi : Nat) (old new : List OpId) : Prop :=
  ∃ fresh, new.Perm (old ++ fresh) ∧ Fresh lo hi fresh

namespace AddsFresh

variable {lo mid hi : Nat} {old new old' new' : List OpId}

theorem refl (lo : Nat) (ids : List OpId) : AddsFresh lo lo ids ids :=
  ⟨[], by simp, Nat.le_refl lo, nodup_nil, by simp⟩

theorem perm_right (h : AddsFresh lo hi old new) (hperm : new'.Perm new) :
    AddsFresh lo hi old new' := by
  obtain ⟨fresh, hnew, hfresh⟩ := h
  exact ⟨fresh, hperm.trans hnew, hfresh⟩

theorem append
    (h : AddsFresh lo mid old new) (h' : AddsFresh mid hi old' new') :
    AddsFresh lo hi (old ++ old') (new ++ new') := by
  obtain ⟨fresh, hnew, hfresh⟩ := h
  obtain ⟨fresh', hnew', hfresh'⟩ := h'
  refine ⟨fresh ++ fresh', ?_, hfresh.append hfresh'⟩
  apply (hnew.append hnew').trans
  rw [append_assoc, append_assoc]
  apply Perm.append_left
  rw [← append_assoc, ← append_assoc]
  exact Perm.append_right fresh' perm_append_comm

theorem trans
    {newest : List OpId} (h : AddsFresh lo mid old new)
    (h' : AddsFresh mid hi new newest) : AddsFresh lo hi old newest := by
  obtain ⟨fresh, hnew, hfresh⟩ := h
  obtain ⟨fresh', hnewest, hfresh'⟩ := h'
  refine ⟨fresh ++ fresh', ?_, hfresh.append hfresh'⟩
  rw [← append_assoc]
  exact hnewest.trans (hnew.append_right fresh')

theorem one (lo : Nat) (ids : List OpId) :
    AddsFresh lo (lo + 1) ids (ids ++ [⟨lo⟩]) :=
  ⟨[⟨lo⟩], Perm.refl _, by omega, by simp, by simp⟩

theorem nodup
    (h : AddsFresh lo hi old new) (hold : old.Nodup)
    (hbelow : ∀ id ∈ old, id.number < lo) : new.Nodup := by
  obtain ⟨fresh, hnew, hfresh⟩ := h
  rw [hnew.nodup_iff]
  apply Nodup.append hold hfresh.nodup
  intro id hid hin
  have hlow := hbelow id hid
  have hhigh := hfresh.range id hin
  omega

end AddsFresh

/-! ## Splicing -/

def Recorded
    (records : List RelayoutRecord) (serves : OpId) (src dst : TileId) : Prop :=
  ∃ id, (⟨id, serves, src, dst⟩ : RelayoutRecord) ∈ records

/-- What redirections do to an operation and to the relayouts around it. -/
structure Redirected (own : List Redirect) (s s' : Spliced) : Prop where
  op : s'.op = s.op.mapTiles (rerouted own)
  before : s'.before.map (·.op) = s.before.map (·.op) ++ loadsOf own
  after : s'.after.map (·.op) = s.after.map (·.op) ++ storesOf own
  ids : AddsFresh s.nextOp s'.nextOp ((s.before ++ s.after).map (·.id))
    ((s'.before ++ s'.after).map (·.id))
  earlier : s.records ⊆ s'.records
  loads : ∀ r ∈ own, r.read → Recorded s'.records r.op r.tile r.twin
  stores : ∀ r ∈ own, r.write → Recorded s'.records r.op r.twin r.tile

theorem Redirected.nil (s : Spliced) : Redirected [] s s := by
  refine ⟨?_, ?_, ?_, AddsFresh.refl _ _, fun _ h => h, ?_, ?_⟩
  · exact (TileOp.mapTiles_id s.op).symm
  · simp [loadsOf]
  · simp [storesOf]
  · simp
  · simp

theorem Redirected.append
    {own own' : List Redirect} {s'' : Spliced} (h : Redirected own s s')
    (h' : Redirected own' s' s'') : Redirected (own ++ own') s s'' := by
  constructor
  · rw [h'.op, h.op, TileOp.mapTiles_mapTiles]
    congr 1
    funext t
    simp only [rerouted, foldl_append]
  · rw [h'.before, h.before, append_assoc]
    simp [loadsOf]
  · rw [h'.after, h.after, append_assoc]
    simp [storesOf]
  · exact h.ids.trans h'.ids
  · exact fun _ hin => h'.earlier (h.earlier hin)
  · intro r hr hread
    rcases mem_append.mp hr with hin | hin
    · obtain ⟨id, hid⟩ := h.loads r hin hread
      exact ⟨id, h'.earlier hid⟩
    · exact h'.loads r hin hread
  · intro r hr hwrite
    rcases mem_append.mp hr with hin | hin
    · obtain ⟨id, hid⟩ := h.stores r hin hwrite
      exact ⟨id, h'.earlier hid⟩
    · exact h'.stores r hin hwrite

theorem Spliced.redirect_eq_ok (h : s.redirect r = .ok s') :
    let stored := s.nextOp + r.read.toNat
    s' =
      { op := s.op.replaceTile r.tile r.twin
        before := s.before ++
          if r.read then [⟨⟨s.nextOp⟩, r.load, none⟩] else []
        after := s.after ++ if r.write then [⟨⟨stored⟩, r.store, none⟩] else []
        records := s.records ++
          (if r.read then [⟨⟨s.nextOp⟩, r.op, r.tile, r.twin⟩] else []) ++
          if r.write then [⟨⟨stored⟩, r.op, r.twin, r.tile⟩] else []
        nextOp := stored + r.write.toNat } := by
  unfold Spliced.redirect at h
  obtain ⟨op, tile, twin, read, write⟩ := r
  cases read with
  | false =>
      cases write with
      | false =>
          cases h
          simp
      | true =>
          obtain ⟨_, ⟨⟩, h⟩ := bind_eq_ok h
          obtain ⟨next, hnext, h⟩ := bind_eq_ok h
          have hnext := (Checked.word32_settles _).of_eq_ok hnext
          subst hnext
          cases h
          simp [Redirect.store]
  | true =>
      obtain ⟨next, hnext, h⟩ := bind_eq_ok h
      have hnext := (Checked.word32_settles _).of_eq_ok hnext
      subst hnext
      cases write with
      | false =>
          cases h
          simp [Redirect.load]
      | true =>
          obtain ⟨_, ⟨⟩, h⟩ := bind_eq_ok h
          obtain ⟨last, hlast, h⟩ := bind_eq_ok h
          have hlast := (Checked.word32_settles _).of_eq_ok hlast
          subst hlast
          cases h
          simp [Redirect.load, Redirect.store]

theorem redirected_one (h : s.redirect r = .ok s') : Redirected [r] s s' := by
  obtain rfl := Spliced.redirect_eq_ok h
  constructor
  · rfl
  · cases hread : r.read <;> simp [loadsOf, hread]
  · cases hwrite : r.write <;> simp [storesOf, hwrite]
  · have hloads : AddsFresh s.nextOp (s.nextOp + r.read.toNat)
        (s.before.map (·.id)) ((s.before ++ if r.read then
          [(⟨⟨s.nextOp⟩, r.load, none⟩ : Step)] else []).map (·.id)) := by
      cases r.read with
      | false => simpa using AddsFresh.refl _ _
      | true => simpa using AddsFresh.one _ _
    have hstores : ∀ lo, AddsFresh lo (lo + r.write.toNat) (s.after.map (·.id))
        ((s.after ++ if r.write then [(⟨⟨lo⟩, r.store, none⟩ : Step)]
          else []).map (·.id)) := by
      intro lo
      cases r.write with
      | false => simpa using AddsFresh.refl _ _
      | true => simpa using AddsFresh.one _ _
    rw [map_append, map_append]
    exact hloads.append (hstores _)
  · intro record hrecord
    exact mem_append_left _ (mem_append_left _ hrecord)
  · intro r' hr' hread
    rw [mem_singleton.mp hr'] at hread ⊢
    exact ⟨⟨s.nextOp⟩, by simp [hread]⟩
  · intro r' hr' hwrite
    rw [mem_singleton.mp hr'] at hwrite ⊢
    exact ⟨⟨s.nextOp + r.read.toNat⟩, by simp [hwrite]⟩

theorem redirected_of_foldlM
    {own : List Redirect} (h : own.foldlM Spliced.redirect s = .ok s') :
    Redirected own s s' := by
  induction own generalizing s with
  | nil =>
      cases h
      exact Redirected.nil _
  | cons r rest ih =>
      rw [foldlM_cons] at h
      obtain ⟨mid, hmid, h⟩ := bind_eq_ok h
      exact (redirected_one hmid).append (ih h)

inductive Rerouted (redirects : List Redirect) : Body → Body → Prop where
  | done : Rerouted redirects .done .done
  | step {s : Step} {rest rest' : Body} {before after : List Step}
      (hbefore : before.map (·.op) = loadsOf (redirectsOf redirects s.id))
      (hafter : after.map (·.op) = storesOf (redirectsOf redirects s.id))
      (hrest : Rerouted redirects rest rest') :
      Rerouted redirects (.step s rest)
        (prepend before
          (.step { s with
              op := s.op.mapTiles (rerouted (redirectsOf redirects s.id)) }
            (prepend after rest')))
  | loop {head : Loop} {body body' rest rest' : Body}
      (hbody : Rerouted redirects body body')
      (hrest : Rerouted redirects rest rest') :
      Rerouted redirects (.loop head body rest) (.loop head body' rest')

structure SpliceResult
    (redirects : List Redirect) (body : Body) (next : Nat) (body' : Body)
    (records : List RelayoutRecord) (next' : Nat) : Prop where
  rerouted : Rerouted redirects body body'
  ids : AddsFresh next next' (body.ops.map Op.id) (body'.ops.map Op.id)
  recorded : ∀ s, Op.step s ∈ body.ops → ∀ r ∈ redirectsOf redirects s.id,
    (r.read → Recorded records r.op r.tile r.twin) ∧
      (r.write → Recorded records r.op r.twin r.tile)

theorem Recorded.mono
    {records records' : List RelayoutRecord} (hsubset : records ⊆ records')
    {serves : OpId} {src dst : TileId} (h : Recorded records serves src dst) :
    Recorded records' serves src dst := by
  obtain ⟨id, hid⟩ := h
  exact ⟨id, hsubset hid⟩

theorem ops_prepend (steps : List Step) (body : Body) :
    (prepend steps body).ops = steps.map Op.step ++ body.ops := by
  induction steps with
  | nil => rfl
  | cons s rest ih =>
      show Op.step s :: (prepend rest body).ops = _
      rw [ih]
      rfl

theorem entries_prepend (steps : List Step) (body : Body) :
    (prepend steps body).entries = steps.map Op.step ++ body.entries := by
  induction steps with
  | nil => rfl
  | cons s rest ih =>
      show Op.step s :: (prepend rest body).entries = _
      rw [ih]
      rfl

theorem Rerouted.filterMap_entries
    {β : Type} {f : Op → Option β} {body body' : Body}
    (h : Rerouted redirects body body') (hstep : ∀ s, f (.step s) = none)
    (hloop : ∀ head inner inner',
      f (.loop head inner) = f (.loop head inner')) :
    body'.entries.filterMap f = body.entries.filterMap f := by
  have hsteps : ∀ steps : List Step, (steps.map Op.step).filterMap f = [] := by
    intro steps
    simp [filterMap_map, hstep]
  induction h with
  | done => rfl
  | step _ _ _ ih =>
      simp [entries_prepend, Body.entries, hsteps, hstep, ih]
  | loop _ _ _ ih =>
      simp only [Body.entries, filterMap_cons, ih]
      rw [hloop]

theorem spliceResult_of_splice
    {body body' : Body} {next next' : Nat} {records : List RelayoutRecord}
    (h : splice redirects body next = .ok (body', records, next')) :
    SpliceResult redirects body next body' records next' := by
  induction body generalizing next body' records next' with
  | done =>
      cases h
      exact ⟨.done, AddsFresh.refl _ _, fun s hs => by cases hs⟩
  | step s rest ih =>
      simp only [splice] at h
      obtain ⟨spliced, hspliced, h⟩ := bind_eq_ok h
      obtain ⟨⟨rest', later, last⟩, hrest, h⟩ := bind_eq_ok h
      cases h
      have hrest := ih hrest
      have hown : Redirected (redirectsOf redirects s.id)
          ⟨s.op, [], [], [], next⟩ spliced :=
        redirected_of_foldlM hspliced
      refine ⟨?_, ?_, ?_⟩
      · rw [hown.op]
        exact Rerouted.step hown.before hown.after hrest.rerouted
      · have hids :=
          (AddsFresh.refl next [s.id]).append (hown.ids.append hrest.ids)
        apply hids.perm_right
        simp only [Body.ops, ops_prepend, map_append, map_cons, List.map_map]
        have hstep : Op.id ∘ Op.step = Step.id := rfl
        rw [hstep]
        simp only [Op.id, append_assoc, cons_append]
        exact perm_middle
      · intro o ho r hr
        rcases mem_cons.mp ho with heq | hin
        · cases heq
          exact ⟨fun hread =>
            (hown.loads r hr hread).mono (subset_append_left _ _), fun hwrite =>
            (hown.stores r hr hwrite).mono (subset_append_left _ _)⟩
        · obtain ⟨hloads, hstores⟩ := hrest.recorded o hin r hr
          exact ⟨fun hread => (hloads hread).mono (subset_append_right _ _),
            fun hwrite => (hstores hwrite).mono (subset_append_right _ _)⟩
  | loop head body rest ihbody ihrest =>
      simp only [splice] at h
      obtain ⟨⟨inner, first, mid⟩, hbody, h⟩ := bind_eq_ok h
      obtain ⟨⟨rest', later, last⟩, hrest, h⟩ := bind_eq_ok h
      cases h
      have hbody := ihbody hbody
      have hrest := ihrest hrest
      refine ⟨Rerouted.loop hbody.rerouted hrest.rerouted, ?_, ?_⟩
      · have hids :=
          (AddsFresh.refl next [head.id]).append (hbody.ids.append hrest.ids)
        simpa [Body.ops, Op.id] using hids
      · intro o ho r hr
        have hin : Op.step o ∈ body.ops ∨ Op.step o ∈ rest.ops := by
          simpa [Body.ops] using ho
        rcases hin with hin | hin
        · obtain ⟨hloads, hstores⟩ := hbody.recorded o hin r hr
          exact ⟨fun hread => (hloads hread).mono (subset_append_left _ _),
            fun hwrite => (hstores hwrite).mono (subset_append_left _ _)⟩
        · obtain ⟨hloads, hstores⟩ := hrest.recorded o hin r hr
          exact ⟨fun hread => (hloads hread).mono (subset_append_right _ _),
            fun hwrite => (hstores hwrite).mono (subset_append_right _ _)⟩

end TileProgram
