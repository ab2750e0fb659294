import TileProgram.Kernel.Builder
import TileProgram.Proofs.Operands
import Mathlib.Data.List.Intervals

/-!
# Built kernels

A script hands out operation numbers and tile identifiers while it runs.  Here
is what the kernel looks like afterwards: its operations, taken in the order in
which they are complete, are numbered from zero on; each stands in the body of
the block that issued it, in the place of its call; and each tile identifier
names the tile that its call declares.

The tables change as a script runs, so what one call does is first said about
the tables right after it.  Tiles are only added and only their pinned layouts
change (`Kernel.KeepsTiles`), which carries it to the tables at the end.
-/

namespace TileProgram

open Kernel List

variable {body : Body} {op : TileOp} {script rest : Script} {replies : Replies}

/-! ## Order of completion -/

namespace Body

/-- All operations in the order in which they are complete; a loop stands after
its body. -/
def completion : Body → List Op
  | done => []
  | step s rest => .step s :: rest.completion
  | loop head body rest => body.completion ++ .loop head body :: rest.completion

theorem completion_perm_ops (body : Body) : body.completion.Perm body.ops := by
  induction body with
  | done => exact .refl _
  | step s rest ih => exact ih.cons _
  | loop head body rest ihBody ihRest =>
      exact perm_middle.trans ((ihBody.append ihRest).cons _)

theorem entries_sublist_completion (body : Body) :
    body.entries.Sublist body.completion := by
  induction body with
  | done => exact .refl _
  | step s rest ih => exact ih.cons_cons _
  | loop head body rest _ ih =>
      exact (ih.cons_cons _).trans (sublist_append_right _ _)

theorem completion_sublist_of_loop
    {inner : Body} {head : Loop} (h : Op.loop head inner ∈ body.ops) :
    (inner.completion ++ [Op.loop head inner]).Sublist body.completion := by
  induction body with
  | done => cases h
  | step s rest ih =>
      rcases mem_cons.mp h with heq | hrest
      · cases heq
      · exact (ih hrest).cons _
  | loop outer body rest ihBody ihRest =>
      rcases mem_cons.mp h with heq | hin
      · cases heq
        exact (Sublist.refl _).append ((nil_sublist _).cons_cons _)
      · rcases mem_append.mp hin with hbody | hrest
        · exact (ihBody hbody).trans (sublist_append_left _ _)
        · exact ((ihRest hrest).cons _).trans (sublist_append_right _ _)

/-- The body and the bodies of its loops at every depth. -/
def Within (outer : Body) (body : Body) : Prop :=
  body = outer ∨ ∃ head, Op.loop head body ∈ outer.ops

/-- The operations have ascending numbers in the order in which they are
complete. -/
def Ascending (body : Body) : Prop :=
  body.completion.Pairwise (·.id.number < ·.id.number)

theorem Ascending.entries
    {outer : Body} (h : outer.Ascending) (hbody : outer.Within body) :
    body.entries.Pairwise (·.id.number < ·.id.number) := by
  apply Pairwise.sublist body.entries_sublist_completion
  rcases hbody with rfl | ⟨head, hloop⟩
  · exact h
  · have hinner :=
      (sublist_append_left _ _).trans (completion_sublist_of_loop hloop)
    exact h.sublist hinner

theorem Ascending.lt_loop
    {outer : Body} {head : Loop} (h : outer.Ascending)
    (hloop : Op.loop head body ∈ outer.ops) {op : Op} (hop : op ∈ body.ops) :
    op.id.number < head.id.number := by
  have hpairs := h.sublist (completion_sublist_of_loop hloop)
  have hin : op ∈ body.completion := body.completion_perm_ops.mem_iff.mpr hop
  exact (pairwise_append.mp hpairs).2.2 op hin (.loop head body)
    (mem_singleton_self _)

end Body

/-! ## What a call does -/

namespace Kernel

/-- Every tile is still there under its identifier; only its pinned layout may
differ. -/
def KeepsTiles (k k' : Kernel) : Prop :=
  ∀ id t, k.tile? id = some t →
    ∃ declared, k'.tile? id = some { t with declared := declared }

namespace KeepsTiles

variable {k k' k'' : Kernel}

theorem refl (k : Kernel) : k.KeepsTiles k := fun _ t ht => ⟨t.declared, ht⟩

theorem trans (h : k.KeepsTiles k') (h' : k'.KeepsTiles k'') :
    k.KeepsTiles k'' := by
  intro id t ht
  obtain ⟨_, ht'⟩ := h id t ht
  obtain ⟨declared, ht''⟩ := h' id _ ht'
  exact ⟨declared, ht''⟩

theorem push (k : Kernel) (t : Tile) :
    k.KeepsTiles { k with tiles := k.tiles.push t } := by
  intro id old hold
  have hlt : k.Has id := (Array.getElem?_eq_some_iff.mp hold).1
  refine ⟨old.declared, ?_⟩
  simpa [tile?, Array.getElem?_push, hlt.ne] using hold

theorem pinned (k : Kernel) (tile : TileId) (layout : Layout) :
    k.KeepsTiles
      (k.modifyTile tile fun t => { t with declared := some layout }) := by
  intro id old hold
  by_cases heq : tile.index = id.index
  · refine ⟨some layout, ?_⟩
    simp [tile?, modifyTile, Array.getElem?_modify, heq,
      show k.tiles[id.index]? = _ from hold]
  · refine ⟨old.declared, ?_⟩
    simpa [tile?, modifyTile, Array.getElem?_modify, heq] using hold

theorem region_eq
    {w : Window} {r : Region} (h : k.KeepsTiles k') (hr : k.region w = .ok r) :
    k'.region w = .ok r := by
  cases w with
  | region _ => exact hr
  | full tile =>
      obtain ⟨t, ht, hr⟩ := bind_eq_ok hr
      obtain ⟨declared, ht'⟩ := h tile t (tile_eq_ok_iff.mp ht)
      exact bind_eq_ok_iff.mpr ⟨_, tile_eq_ok_iff.mpr ht', hr⟩

end KeepsTiles

theorem freshOp_eq_ok_iff {k k' : Kernel} {id : OpId} :
    k.freshOp = .ok (id, k') ↔
      k.nextOp + 1 < limit32 ∧ id = ⟨k.nextOp⟩ ∧
      k' = { k with nextOp := k.nextOp + 1 } := by
  unfold freshOp
  rw [Checked.word32_bind]
  split <;> rename_i h
  · simp only [pure, Except.pure, Except.ok.injEq, Prod.mk.injEq, h, true_and]
    exact and_congr eq_comm eq_comm
  · simp [h]

end Kernel

/-- What a call answers and what it issues, told from the tables `k` that the
script leaves.  A call that issues an operation answers its number, but a
declaration answers the tile. -/
inductive Call.Answers (k : Kernel) : Call → Reply → Option Step → Prop where
  | global {name shape type scope id declared} (hscope : scope.isOnChip = false)
      (hid : k.tile? id =
        some { Tile.plain name shape type scope with declared := declared }) :
      Answers k (.tile name shape type scope) (.tile id) none
  | onChip {name shape type scope id declared op}
      (hscope : scope.isOnChip = true) (hid : k.tile? id =
        some { Tile.plain name shape type scope with declared := declared }) :
      Answers k (.tile name shape type scope) (.tile id)
        (some ⟨op, .alloc id, none⟩)
  | declare {tile layout} : Answers k (.declare tile layout) .nothing none
  | shape {tile t} (ht : k.tile? tile = some t) :
      Answers k (.shape tile) (.shape t.shape) none
  | copy {src dst width source target op} (hsrc : k.region src = .ok source)
      (hdst : k.region dst = .ok target) :
      Answers k (.copy src dst width) (.op op)
        (some ⟨op, .copy source target width, none⟩)
  | parallel {extents body op} :
      Answers k (.parallel extents body) (.op op)
        (some ⟨op, .parallel ((range extents.length).map pointVar) extents body,
          none⟩)
  | issue {content op} : Answers k (.issue content) (.op op)
      (some ⟨op, content, none⟩)
  | rasterize {panelSize enable} :
      Answers k (.rasterize panelSize enable) .nothing none

def Reply.tiles : Reply → List TileId
  | tile id => [id]
  | _ => []

namespace Window

def mentions : Window → List TileId
  | full tile => [tile]
  | region _ => []

end Window

namespace Call

/-- The tiles that a call looks up. -/
def mentions : Call → List TileId
  | declare id _ => [id]
  | shape id => [id]
  | copy src dst _ => src.mentions ++ dst.mentions
  | _ => []

def declares : Call → Nat
  | tile .. => 1
  | _ => 0

def issues : Call → Nat
  | tile _ _ _ scope => if scope.isOnChip then 1 else 0
  | copy .. => 1
  | parallel .. => 1
  | issue _ => 1
  | _ => 0

theorem Answers.mono
    {k k' : Kernel} {c : Call} {reply : Reply} {issued : Option Step}
    (h : c.Answers k reply issued) (hkeeps : k.KeepsTiles k') :
    c.Answers k' reply issued := by
  cases h with
  | global hscope hid =>
      obtain ⟨_, hid'⟩ := hkeeps _ _ hid
      exact .global hscope hid'
  | onChip hscope hid =>
      obtain ⟨_, hid'⟩ := hkeeps _ _ hid
      exact .onChip hscope hid'
  | declare => exact .declare
  | shape ht =>
      obtain ⟨_, ht'⟩ := hkeeps _ _ ht
      exact (Answers.shape ht' :)
  | copy hsrc hdst =>
      exact .copy (hkeeps.region_eq hsrc) (hkeeps.region_eq hdst)
  | parallel => exact .parallel
  | issue => exact .issue
  | rasterize => exact .rasterize

/-- What answering a call leaves: the numbers and identifiers that it takes are
those that come next. -/
structure Answered
    (k k' : Kernel) (c : Call) (reply : Reply) (issued : Option Step) :
    Prop where
  keeps : k.KeepsTiles k'
  answers : c.Answers k' reply issued
  nextOp : k'.nextOp = k.nextOp + c.issues
  size : k'.tiles.size = k.tiles.size + c.declares
  numbers : issued.toList.map (·.id.number) = Ico k.nextOp k'.nextOp
  tiles : reply.tiles.map (·.index) = Ico k.tiles.size k'.tiles.size

namespace Answered

variable {k k' : Kernel} {c : Call} {reply : Reply} {issued : Option Step}

theorem nextOp_le (h : c.Answered k k' reply issued) : k.nextOp ≤ k'.nextOp :=
  h.nextOp ▸ Nat.le_add_right ..

theorem size_le (h : c.Answered k k' reply issued) :
    k.tiles.size ≤ k'.tiles.size :=
  h.size ▸ Nat.le_add_right ..

end Answered

end Call

namespace Kernel

theorem issue_eq_ok_iff {k : Kernel} {result : Reply × Option Step × Kernel} :
    k.issue op = .ok result ↔ k.nextOp + 1 < limit32 ∧ result =
      (.op ⟨k.nextOp⟩, some ⟨⟨k.nextOp⟩, op, none⟩,
        { k with nextOp := k.nextOp + 1 }) := by
  unfold issue
  rw [bind_eq_ok_iff]
  constructor
  · rintro ⟨⟨id, k'⟩, hfresh, hresult⟩
    obtain ⟨hlt, rfl, rfl⟩ := freshOp_eq_ok_iff.mp hfresh
    exact ⟨hlt, (Except.ok.inj hresult).symm⟩
  · rintro ⟨hlt, rfl⟩
    exact ⟨_, freshOp_eq_ok_iff.mpr ⟨hlt, rfl, rfl⟩, rfl⟩

theorem answered_of_issue
    {k k' : Kernel} {c : Call} {reply : Reply} {issued : Option Step}
    (h : k.issue op = .ok (reply, issued, k')) (hissues : c.issues = 1)
    (hdeclares : c.declares = 0)
    (hanswers : ∀ id, c.Answers k (.op id) (some ⟨id, op, none⟩)) :
    c.Answered k k' reply issued := by
  obtain ⟨_, heq⟩ := issue_eq_ok_iff.mp h
  cases heq
  have hkeeps : k.KeepsTiles { k with nextOp := k.nextOp + 1 } :=
    KeepsTiles.refl k
  exact {
    keeps := hkeeps
    answers := (hanswers _).mono hkeeps
    nextOp := by rw [hissues]
    size := by rw [hdeclares]; rfl
    numbers := Ico.succ_singleton.symm
    tiles := Ico.self_empty.symm }

theorem answered_of_silent
    {k k' : Kernel} {c : Call} {reply : Reply} (hkeeps : k.KeepsTiles k')
    (hnext : k'.nextOp = k.nextOp) (hsize : k'.tiles.size = k.tiles.size)
    (hissues : c.issues = 0) (hdeclares : c.declares = 0)
    (htiles : reply.tiles = []) (hanswers : c.Answers k' reply none) :
    c.Answered k k' reply none where
  keeps := hkeeps
  answers := hanswers
  nextOp := by rw [hnext, hissues]; rfl
  size := by rw [hsize, hdeclares]; rfl
  numbers := by rw [hnext, Ico.self_empty]; rfl
  tiles := by rw [hsize, htiles, Ico.self_empty]; rfl

theorem answered_of_eq_ok
    {k k' : Kernel} {c : Call} {reply : Reply} {issued : Option Step}
    (h : k.answer c = .ok (reply, issued, k')) :
    c.Answered k k' reply issued := by
  cases c with
  | tile name shape type scope =>
      obtain ⟨_, hadd, h⟩ := bind_eq_ok h
      obtain ⟨_, rfl⟩ := addTile_eq_ok_iff.mp hadd
      have hkeeps := KeepsTiles.push k (.plain name shape type scope)
      have hlast :
          (k.tiles.push (.plain name shape type scope))[k.tiles.size]? =
          some (.plain name shape type scope) := Array.getElem?_push_size
      cases hscope : scope.isOnChip with
      | false =>
          simp only [hscope] at h
          cases h
          exact {
            keeps := hkeeps
            answers := .global hscope hlast
            nextOp := by simp [Call.issues, hscope]
            size := by simp [Call.declares]
            numbers := Ico.self_empty.symm
            tiles := by simp [Reply.tiles] }
      | true =>
          simp only [hscope] at h
          obtain ⟨⟨op, k₁⟩, hfresh, hresult⟩ := bind_eq_ok h
          obtain ⟨_, rfl, rfl⟩ := freshOp_eq_ok_iff.mp hfresh
          cases hresult
          exact {
            keeps := hkeeps
            answers := .onChip hscope hlast
            nextOp := by simp [Call.issues, hscope]
            size := by simp [Call.declares]
            numbers := Ico.succ_singleton.symm
            tiles := by simp [Reply.tiles] }
  | declare tile layout =>
      obtain ⟨_, _, hresult⟩ := bind_eq_ok h
      cases hresult
      exact answered_of_silent (KeepsTiles.pinned k tile layout)
        rfl Array.size_modify rfl rfl rfl .declare
  | shape tile =>
      obtain ⟨t, ht, hresult⟩ := bind_eq_ok h
      cases hresult
      exact answered_of_silent (KeepsTiles.refl k) rfl rfl rfl rfl rfl
        (.shape (tile_eq_ok_iff.mp ht))
  | copy src dst width =>
      obtain ⟨source, hsrc, h⟩ := bind_eq_ok h
      obtain ⟨target, hdst, h⟩ := bind_eq_ok h
      exact answered_of_issue h rfl rfl fun _ => .copy hsrc hdst
  | parallel extents body =>
      exact answered_of_issue h rfl rfl fun _ => .parallel
  | issue op => exact answered_of_issue h rfl rfl fun _ => .issue
  | rasterize panelSize enable =>
      cases h
      exact answered_of_silent (KeepsTiles.refl k)
        rfl rfl rfl rfl rfl .rasterize

end Kernel

/-! ## What a script does -/

namespace Script

/-- The body holds what the script issues, told from the tables `k` that the
script leaves: one operation for each call that issues one, in the place of the
call, and for each block a loop with the operations issued inside. -/
inductive Lays (k : Kernel) : Script → Replies → Body → Prop where
  | done : Lays k .done .done .done
  | silent {c rest reply replies body} (hcall : c.Answers k reply none)
      (hrest : Lays k rest replies body) :
      Lays k (.call c rest) (.call reply replies) body
  | issuing {c rest reply replies s body} (hcall : c.Answers k reply (some s))
      (hrest : Lays k rest replies body) :
      Lays k (.call c rest) (.call reply replies) (.step s body)
  | pipelined
      {var tripCount stages inner rest id innerReplies replies innerBody body}
        (hinner : Lays k inner innerReplies innerBody)
        (hrest : Lays k rest replies body) :
      Lays k (.pipelined var tripCount stages inner rest)
        (.pipelined id innerReplies replies)
        (.loop ⟨id, var, tripCount, stages, none, none⟩ innerBody body)

theorem Lays.mono
    {k k' : Kernel} (h : Lays k script replies body)
    (hkeeps : k.KeepsTiles k') : Lays k' script replies body := by
  induction h with
  | done => exact .done
  | silent hcall _ ih => exact .silent (hcall.mono hkeeps) ih
  | issuing hcall _ ih => exact .issuing (hcall.mono hkeeps) ih
  | pipelined _ _ ihInner ihRest => exact .pipelined ihInner ihRest

def declares : Script → Nat
  | done => 0
  | call c rest => c.declares + rest.declares
  | pipelined _ _ _ inner rest => inner.declares + rest.declares

/-- Number of operations that a script issues; a block issues its loop. -/
def issues : Script → Nat
  | done => 0
  | call c rest => c.issues + rest.issues
  | pipelined _ _ _ inner rest => inner.issues + 1 + rest.issues

end Script

/-- The tiles that a script is handed, call by call. -/
def Replies.tiles : Replies → List TileId
  | done => []
  | call reply rest => reply.tiles ++ rest.tiles
  | pipelined _ inner rest => inner.tiles ++ rest.tiles

namespace Script

/-- What running a script leaves. -/
structure Ran
    (k k' : Kernel) (script : Script) (replies : Replies) (body : Body) :
    Prop where
  keeps : k.KeepsTiles k'
  lays : script.Lays k' replies body
  nextOp : k'.nextOp = k.nextOp + script.issues
  size : k'.tiles.size = k.tiles.size + script.declares
  numbers : body.completion.map (·.id.number) = Ico k.nextOp k'.nextOp
  tiles : replies.tiles.map (·.index) = Ico k.tiles.size k'.tiles.size

namespace Ran

theorem nextOp_le {k k' : Kernel} (h : Ran k k' script replies body) :
    k.nextOp ≤ k'.nextOp :=
  h.nextOp ▸ Nat.le_add_right ..

theorem size_le {k k' : Kernel} (h : Ran k k' script replies body) :
    k.tiles.size ≤ k'.tiles.size :=
  h.size ▸ Nat.le_add_right ..

theorem done (k : Kernel) : Ran k k .done .done .done where
  keeps := .refl k
  lays := .done
  nextOp := rfl
  size := rfl
  numbers := Ico.self_empty.symm
  tiles := Ico.self_empty.symm

theorem call
    {k k₁ k' : Kernel} {c : Call} {reply : Reply} {issued : Option Step}
    (hcall : c.Answered k k₁ reply issued)
    (hrest : Ran k₁ k' rest replies body) :
    Ran k k' (.call c rest) (.call reply replies)
      (issued.elim body (.step · body)) where
  keeps := hcall.keeps.trans hrest.keeps
  lays := by
    have hanswers := hcall.answers.mono hrest.keeps
    cases issued with
    | none => exact .silent hanswers hrest.lays
    | some s => exact .issuing hanswers hrest.lays
  nextOp := by rw [hrest.nextOp, hcall.nextOp, issues, Nat.add_assoc]
  size := by rw [hrest.size, hcall.size, declares, Nat.add_assoc]
  numbers := by
    rw [← Ico.append_consecutive hcall.nextOp_le hrest.nextOp_le,
      ← hcall.numbers, ← hrest.numbers]
    cases issued <;> rfl
  tiles := by
    rw [Replies.tiles, map_append, hcall.tiles, hrest.tiles,
      Ico.append_consecutive hcall.size_le hrest.size_le]

theorem pipelined
    {k k₁ k' : Kernel} {var : String} {tripCount stages : Nat} {inner : Script}
    {innerReplies : Replies} {innerBody : Body}
    (hinner : Ran k k₁ inner innerReplies innerBody)
    (hrest : Ran { k₁ with nextOp := k₁.nextOp + 1 } k' rest replies body) :
    Ran k k' (.pipelined var tripCount stages inner rest)
      (.pipelined ⟨k₁.nextOp⟩ innerReplies replies)
      (.loop ⟨⟨k₁.nextOp⟩, var, tripCount, stages, none,
        none⟩ innerBody body) where
  keeps := hinner.keeps.trans hrest.keeps
  lays := .pipelined (hinner.lays.mono hrest.keeps) hrest.lays
  nextOp := by
    have hthen : k'.nextOp = k₁.nextOp + 1 + rest.issues := hrest.nextOp
    rw [hthen, hinner.nextOp, issues, Nat.add_assoc, Nat.add_assoc,
      Nat.add_assoc]
  size := by rw [hrest.size, hinner.size, declares, Nat.add_assoc]
  numbers := by
    have hthen : k₁.nextOp + 1 ≤ k'.nextOp := hrest.nextOp_le
    rw [Body.completion, map_append, map_cons, hinner.numbers, hrest.numbers,
      ← Ico.append_consecutive hinner.nextOp_le (Nat.le_of_succ_le hthen),
      Ico.eq_cons hthen]
    rfl
  tiles := by
    rw [Replies.tiles, map_append, hinner.tiles, hrest.tiles,
      Ico.append_consecutive hinner.size_le hrest.size_le]

end Ran

theorem ran_of_eq_ok
    {k k' : Kernel} (h : script.run k = .ok (body, replies, k')) :
    Ran k k' script replies body := by
  induction script generalizing k k' replies body with
  | done =>
      cases h
      exact .done k
  | call c rest ih =>
      obtain ⟨⟨reply, issued, k₁⟩, hanswer, hthen⟩ := bind_eq_ok h
      obtain ⟨⟨restBody, restReplies, k₂⟩, hrest, hresult⟩ := bind_eq_ok hthen
      cases hresult
      have hran := Ran.call (answered_of_eq_ok hanswer) (ih hrest)
      cases issued <;> exact hran
  | pipelined var tripCount stages inner rest ihInner ihRest =>
      obtain ⟨⟨innerBody, innerReplies, k₁⟩, hinner, hloop⟩ := bind_eq_ok h
      obtain ⟨⟨id, k₂⟩, hfresh, hthen⟩ := bind_eq_ok hloop
      obtain ⟨⟨restBody, restReplies, k₃⟩, hrest, hresult⟩ := bind_eq_ok hthen
      obtain ⟨_, rfl, rfl⟩ := freshOp_eq_ok_iff.mp hfresh
      cases hresult
      exact .pipelined (ihInner hinner) (ihRest hrest)

end Script

/-! ## When a script runs -/

namespace Kernel

/-- The table and the operations of the kernel are counted in words. -/
def InWords (k : Kernel) : Prop := k.tiles.size < limit32 ∧ k.nextOp < limit32

theorem returns_tile_iff {k : Kernel} {id : TileId} :
    Returns (k.tile id) ↔ k.Has id := by
  constructor
  · rintro ⟨t, ht⟩
    exact (Array.getElem?_eq_some_iff.mp (tile_eq_ok_iff.mp ht)).1
  · intro hlt
    exact ⟨_, tile_eq_ok_iff.mpr (Array.getElem?_eq_getElem hlt)⟩

theorem returns_region_iff {k : Kernel} {w : Window} :
    Returns (k.region w) ↔ ∀ t ∈ w.mentions, k.Has t := by
  cases w with
  | region r => exact iff_of_true (.ok r) fun _ ht => absurd ht not_mem_nil
  | full tile =>
      simp only [region, bind_pure_eq_map, Returns.map_iff, returns_tile_iff,
        Window.mentions, forall_mem_singleton]

theorem returns_freshOp_iff {k : Kernel} :
    Returns k.freshOp ↔ k.nextOp + 1 < limit32 := by
  constructor
  · rintro ⟨⟨id, k'⟩, h⟩
    exact (freshOp_eq_ok_iff.mp h).1
  · intro hlt
    exact ⟨_, freshOp_eq_ok_iff.mpr ⟨hlt, rfl, rfl⟩⟩

theorem returns_issue_iff {k : Kernel} :
    Returns (k.issue op) ↔ k.nextOp + 1 < limit32 := by
  simp only [issue, bind_pure_eq_map, Returns.map_iff, returns_freshOp_iff]

/-- A call is answered where the tiles it looks up are known and words are left
for what it declares and issues. -/
theorem returns_answer_iff {k : Kernel} {c : Call} (h : k.InWords) :
    Returns (k.answer c) ↔ (∀ t ∈ c.mentions, k.Has t) ∧
      k.tiles.size + c.declares < limit32 ∧ k.nextOp + c.issues < limit32 := by
  have hsize : k.tiles.size + 0 < limit32 := h.1
  have hnext : k.nextOp + 0 < limit32 := h.2
  cases c with
  | tile name shape type scope =>
      simp only [answer, Returns.bind_iff, addTile_eq_ok_iff, Call.mentions,
        Call.declares, Call.issues, not_mem_nil, false_implies, implies_true,
        true_and]
      cases hscope : scope.isOnChip with
      | false =>
          constructor
          · rintro ⟨_, ⟨hlt, _⟩, _⟩
            exact ⟨hlt, hnext⟩
          · rintro ⟨hlt, _⟩
            exact ⟨_, ⟨hlt, rfl⟩, .ok _⟩
      | true =>
          simp only [if_true, bind_pure_eq_map, Returns.map_iff,
            returns_freshOp_iff]
          constructor
          · rintro ⟨_, ⟨hlt, rfl⟩, hfresh⟩
            exact ⟨hlt, hfresh⟩
          · rintro ⟨hlt, hfresh⟩
            exact ⟨_, ⟨hlt, rfl⟩, hfresh⟩
  | declare tile layout =>
      simp only [answer, bind_pure_eq_map, Returns.map_iff, returns_tile_iff,
        Call.mentions, forall_mem_singleton, Call.issues, Call.declares]
      exact (and_iff_left ⟨hsize, hnext⟩).symm
  | shape tile =>
      simp only [answer, bind_pure_eq_map, Returns.map_iff, returns_tile_iff,
        Call.mentions, forall_mem_singleton, Call.issues, Call.declares]
      exact (and_iff_left ⟨hsize, hnext⟩).symm
  | copy src dst width =>
      have hparts : Returns (k.answer (.copy src dst width)) ↔
          Returns (k.region src) ∧ Returns (k.region dst) ∧
          k.nextOp + 1 < limit32 := by
        simp only [answer, Returns.bind_iff, returns_issue_iff]
        constructor
        · rintro ⟨source, hsrc, target, hdst, hlt⟩
          exact ⟨⟨source, hsrc⟩, ⟨target, hdst⟩, hlt⟩
        · rintro ⟨⟨source, hsrc⟩, ⟨target, hdst⟩, hlt⟩
          exact ⟨source, hsrc, target, hdst, hlt⟩
      rw [hparts, returns_region_iff, returns_region_iff]
      simp only [Call.mentions, forall_mem_append, Call.declares, Call.issues,
        and_assoc, and_iff_right hsize]
  | parallel extents body =>
      simp [answer, Call.mentions, Call.declares, Call.issues,
        returns_issue_iff, h.1]
  | issue op =>
      simp [answer, Call.mentions, Call.declares, Call.issues,
        returns_issue_iff, h.1]
  | rasterize panelSize enable =>
      exact iff_of_true (.ok _)
        ⟨fun _ ht => absurd ht not_mem_nil, hsize, hnext⟩

end Kernel

namespace Script

/-- Each call looks up only tiles that the `n` there are before the script, or
the calls before it, declare. -/
def Known : Script → Nat → Prop
  | done, _ => True
  | call c rest, n =>
      (∀ t ∈ c.mentions, t.index < n) ∧ rest.Known (n + c.declares)
  | pipelined _ _ _ inner rest, n =>
      inner.Known n ∧ rest.Known (n + inner.declares)

theorem returns_run_call_iff {c : Call} {k : Kernel} :
    Returns ((call c rest).run k) ↔
      ∃ reply issued k₁,
        k.answer c = .ok (reply, issued, k₁) ∧ Returns (rest.run k₁) := by
  simp only [run, Returns.bind_iff, bind_pure_eq_map, Returns.map_iff,
    Prod.exists]

theorem returns_run_pipelined_iff
    {var : String} {tripCount stages : Nat} {inner : Script} {k : Kernel} :
    Returns ((pipelined var tripCount stages inner rest).run k) ↔
      ∃ body replies k₁,
        inner.run k = .ok (body, replies, k₁) ∧ k₁.nextOp + 1 < limit32 ∧
        Returns (rest.run { k₁ with nextOp := k₁.nextOp + 1 }) := by
  simp only [run, Returns.bind_iff, bind_pure_eq_map, Returns.map_iff,
    Prod.exists, freshOp_eq_ok_iff]
  constructor
  · rintro ⟨body, replies, k₁, hinner, _, _, ⟨hlt, rfl, rfl⟩, hrest⟩
    exact ⟨body, replies, k₁, hinner, hlt, hrest⟩
  · rintro ⟨body, replies, k₁, hinner, hlt, hrest⟩
    exact ⟨body, replies, k₁, hinner, _, _, ⟨hlt, rfl, rfl⟩, hrest⟩

/-- A script runs where each call looks up known tiles and there are words for
all that it declares and issues. -/
theorem returns_run_iff {k : Kernel} (h : k.InWords) :
    Returns (script.run k) ↔ script.Known k.tiles.size ∧
      k.tiles.size + script.declares < limit32 ∧
      k.nextOp + script.issues < limit32 := by
  induction script generalizing k with
  | done => exact iff_of_true (.ok _) ⟨trivial, h⟩
  | call c rest ih =>
      rw [returns_run_call_iff]
      constructor
      · rintro ⟨reply, issued, k₁, hanswer, hrest⟩
        have hcall := answered_of_eq_ok hanswer
        obtain ⟨hmentions, hsize, hnext⟩ :=
          (returns_answer_iff h).mp ⟨_, hanswer⟩
        rw [ih ⟨hcall.size ▸ hsize, hcall.nextOp ▸ hnext⟩, hcall.size,
          hcall.nextOp, Nat.add_assoc, Nat.add_assoc] at hrest
        exact ⟨⟨hmentions, hrest.1⟩, hrest.2⟩
      · rintro ⟨⟨hmentions, hknown⟩, hsize, hnext⟩
        rw [declares, ← Nat.add_assoc] at hsize
        rw [issues, ← Nat.add_assoc] at hnext
        have hsize₁ : k.tiles.size + c.declares < limit32 := by omega
        have hnext₁ : k.nextOp + c.issues < limit32 := by omega
        obtain ⟨⟨reply, issued, k₁⟩, hanswer⟩ :=
          (returns_answer_iff h).mpr ⟨hmentions, hsize₁, hnext₁⟩
        have hcall := answered_of_eq_ok hanswer
        refine ⟨reply, issued, k₁, hanswer, ?_⟩
        rw [ih ⟨hcall.size ▸ hsize₁, hcall.nextOp ▸ hnext₁⟩, hcall.size,
          hcall.nextOp]
        exact ⟨hknown, hsize, hnext⟩
  | pipelined var tripCount stages inner rest ihInner ihRest =>
      rw [returns_run_pipelined_iff, declares, issues]
      constructor
      · rintro ⟨body, replies, k₁, hinner, hloop, hrest⟩
        have hran := ran_of_eq_ok hinner
        obtain ⟨hknown, hsize, _⟩ := (ihInner h).mp ⟨_, hinner⟩
        obtain ⟨hknown', hsize', hnext⟩ :=
          (ihRest ⟨hran.size ▸ hsize, hloop⟩).mp hrest
        simp only [hran.size, hran.nextOp] at hknown' hsize' hnext
        exact ⟨⟨hknown, hknown'⟩, by omega, by omega⟩
      · rintro ⟨⟨hknown, hknown'⟩, hsize, hnext⟩
        obtain ⟨⟨body, replies, k₁⟩, hinner⟩ :=
          (ihInner h).mpr ⟨hknown, by omega, by omega⟩
        have hran := ran_of_eq_ok hinner
        have hloop : k₁.nextOp + 1 < limit32 := by
          rw [hran.nextOp]
          omega
        refine ⟨body, replies, k₁, hinner, hloop, ?_⟩
        rw [ihRest ⟨by rw [hran.size]; omega, hloop⟩]
        simp only [hran.size, hran.nextOp]
        exact ⟨hknown', by omega, by omega⟩

theorem returns_build_iff {name : String} {grid threads : Dim3} :
    Returns (script.build name grid threads) ↔
      script.Known 0 ∧ script.declares < limit32 ∧ script.issues < limit32 := by
  simp only [build, bind_pure_eq_map, Returns.map_iff]
  refine (returns_run_iff ?_).trans ?_
  · simp [Kernel.empty, Kernel.InWords]
  · simp [Kernel.empty]

/-! ## What a build leaves -/

/-- What holds of a kernel that a script builds. -/
structure Built (script : Script) (replies : Replies) (k : Kernel) : Prop where
  /-- The numbers of the operations are those below the next one, each used
  once. -/
  numbers : (k.ops.map (·.id.number)).Perm (range k.nextOp)
  /-- They are handed out as operations are complete. -/
  completion : k.body.completion.map (·.id.number) = range k.nextOp
  /-- There are as many as the script issues. -/
  nextOp : k.nextOp = script.issues
  /-- Each operation stands in the body of its block, in the place of its call,
  and each identifier handed out names the tile that its call declares. -/
  placed : script.Lays k replies k.body
  /-- Numbers ascend along each body. -/
  entries : ∀ body, k.body.Within body →
    body.entries.Pairwise (·.id.number < ·.id.number)
  /-- A loop has a larger number than all of its body. -/
  loops : ∀ head body, Op.loop head body ∈ k.ops →
    ∀ op ∈ body.ops, op.id.number < head.id.number
  /-- The identifiers handed out are those of the table, in order. -/
  tiles : replies.tiles.map (·.index) = range k.tiles.size
  /-- There are as many as the script declares. -/
  size : k.tiles.size = script.declares

theorem Ran.built
    {start k : Kernel} (h : Ran start k script replies body)
    (hnext : start.nextOp = 0) (hsize : start.tiles.size = 0) :
    script.Built replies { k with body := body } := by
  have hnumbers : body.completion.map (·.id.number) = range k.nextOp := by
    rw [h.numbers, hnext, Ico.zero_bot]
  have hascending : body.Ascending := by
    rw [Body.Ascending, ← pairwise_map, hnumbers]
    exact pairwise_lt_range
  exact {
    numbers := hnumbers ▸ (body.completion_perm_ops.symm.map _)
    completion := hnumbers
    nextOp := by rw [h.nextOp, hnext, Nat.zero_add]
    placed := h.lays.mono (Kernel.KeepsTiles.refl k)
    entries := fun inner hinner => hascending.entries hinner
    loops := fun head inner hloop op hop => hascending.lt_loop hloop hop
    tiles := by rw [h.tiles, hsize, Ico.zero_bot]
    size := by rw [h.size, hsize, Nat.zero_add] }

/-- A script builds a kernel exactly where its calls look up declared tiles and
there are fewer tiles and fewer operations than words to name them, and the
kernel keeps the numbers, the blocks and the tiles of the script. -/
theorem build_keeps_numbers_and_blocks
    (script : Script) (name : String) (grid threads : Dim3) :
    (Returns (script.build name grid threads) ↔
      script.Known 0 ∧ script.declares < limit32 ∧ script.issues < limit32) ∧
      ∀ k replies, script.build name grid threads = .ok (k, replies) →
        script.Built replies k := by
  refine ⟨returns_build_iff, ?_⟩
  intro k replies h
  obtain ⟨⟨body, replies', k'⟩, hrun, hresult⟩ := bind_eq_ok h
  cases hresult
  exact (ran_of_eq_ok hrun).built rfl rfl

/-- Two nested blocks with tiles declared before, inside and after them. -/
def nestedBlocks : Script :=
  .call (.tile "A" [64, 64] .f16 .global) <|
  .call (.tile "As" [16, 64] .f16 .shared) <|
  .pipelined "i" 4 2
    (.call (.copy (.region ⟨⟨0⟩, [.ofVar (.loop "i"), .ofInt 0], [16, 64]⟩)
      (.full ⟨1⟩) none) <|
      .pipelined "j" 2 1 (.call (.tile "acc" [16, 16] .f32 .fragment) .done) <|
        .call (.issue (.fill ⟨2⟩ 0)) .done) <|
  .call (.tile "Bs" [64, 16] .f16 .shared) .done

theorem build_keeps_numbers_and_blocks_nestedBlocks :
    ∃ k replies,
      nestedBlocks.build "nested" ⟨4, 1, 1⟩ ⟨128, 1, 1⟩ = .ok (k, replies) ∧
      nestedBlocks.Built replies k ∧
      k.ops.map (·.id.number) = [0, 5, 1, 3, 2, 4, 6] ∧
      replies.tiles.map (·.index) = [0, 1, 2, 3] :=
  ⟨_, _, rfl, (build_keeps_numbers_and_blocks nestedBlocks "nested" _ _).2 _ _
    rfl, rfl, rfl⟩

end Script

end TileProgram
