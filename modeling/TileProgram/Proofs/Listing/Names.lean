import TileProgram.Proofs.Listing.Spans
import TileProgram.Proofs.Staged.Capacity

/-!
# Names of the tiles of a compiled kernel

Inference names twins after their tiles, and scheduling names slots after their
buffers.  A derived name tells what it was derived from, so the names of a
compiled kernel are distinct if none of the names it was given is a derived one
and no buffer is given slots by two loops.  Where they are distinct, the listing
of the compiled kernel has a span for every tile.
-/

namespace TileProgram

open Inference Kernel List

def twinName (name : String) (n : Nat) : String := s!"{name}_relayout{n}"

def slotName (name : String) (n : Nat) : String := s!"{name}@{n}"

/-- The names that the passes derive from the name of a tile: of its twins, of
its slots and of the slots of its twins. -/
inductive DerivedName (name : String) : String → Prop where
  | twin (n : Nat) : DerivedName name (twinName name n)
  | slot (n : Nat) : DerivedName name (slotName name n)
  | twinSlot (n i : Nat) : DerivedName name (slotName (twinName name n) i)

/-- No tile has a name that the passes could derive from the name of a tile. -/
def Kernel.FreeNames (k : Kernel) : Prop :=
  ∀ name ∈ k.names, ∀ other ∈ k.names, ¬ DerivedName name other

/-! ## Numbered names -/

theorem eq_of_append_repr
    {s t : List Char} {n m : Nat} (hs : ∀ c ∈ s.getLast?, ¬ c.isDigit)
    (ht : ∀ c ∈ t.getLast?, ¬ c.isDigit)
    (h : s ++ n.repr.toList = t ++ m.repr.toList) : s = t ∧ n = m := by
  have hdigits : ∀ n : Nat, ∀ c ∈ n.repr.toList.reverse, c.isDigit = true :=
    fun n c hc => isDigit_of_mem_repr (mem_reverse.mp hc)
  have hreverse := congrArg reverse h
  rw [reverse_append, reverse_append] at hreverse
  rw [← head?_reverse] at hs ht
  obtain ⟨hnumber, hname⟩ :=
    append_inj_of_head (hdigits n) (hdigits m) hs ht hreverse
  exact ⟨reverse_inj.mp hname,
    Nat.repr_inj.mp (String.toList_inj.mp (reverse_inj.mp hnumber))⟩

theorem toList_twinName (name : String) (n : Nat) :
    (twinName name n).toList = (name.toList ++ "_relayout".toList) ++
      n.repr.toList := by
  simp [twinName, toString]

theorem toList_slotName (name : String) (n : Nat) :
    (slotName name n).toList = (name.toList ++ ['@']) ++ n.repr.toList := by
  simp [slotName, toString]

theorem twinName_inj
    {name name' : String} {n n' : Nat}
    (h : twinName name n = twinName name' n') : name = name' ∧ n = n' := by
  have hlist := congrArg String.toList h
  rw [toList_twinName, toList_twinName] at hlist
  obtain ⟨hname, hn⟩ := eq_of_append_repr (by simp) (by simp) hlist
  exact ⟨String.toList_inj.mp (append_cancel_right hname), hn⟩

theorem slotName_inj
    {name name' : String} {n n' : Nat}
    (h : slotName name n = slotName name' n') : name = name' ∧ n = n' := by
  have hlist := congrArg String.toList h
  rw [toList_slotName, toList_slotName] at hlist
  obtain ⟨hname, hn⟩ := eq_of_append_repr (by simp) (by simp) hlist
  exact ⟨String.toList_inj.mp (append_cancel_right hname), hn⟩

theorem slotName_ne_twinName (name name' : String) (n n' : Nat) :
    slotName name n ≠ twinName name' n' := by
  intro h
  have hlist := congrArg String.toList h
  rw [toList_slotName, toList_twinName] at hlist
  obtain ⟨hmarks, _⟩ := eq_of_append_repr (by simp) (by simp) hlist
  have hlast := congrArg getLast? hmarks
  simp at hlast

theorem DerivedName.isDigit_getLast
    {name other : String} (h : DerivedName name other) :
    ∃ c ∈ other.toList.getLast?, c.isDigit := by
  have hlast : ∀ (s : List Char) (n : Nat),
      ∃ c ∈ (s ++ n.repr.toList).getLast?, c.isDigit := by
    intro s n
    have hne := repr_toList_ne_nil n
    refine ⟨n.repr.toList.getLast hne, ?_,
      isDigit_of_mem_repr (getLast_mem hne)⟩
    rw [getLast?_append_of_ne_nil _ hne, getLast?_eq_some_getLast hne]
    rfl
  cases h with
  | twin n => simpa only [toList_twinName] using hlast _ n
  | slot n => simpa only [toList_slotName] using hlast _ n
  | twinSlot n i => simpa only [toList_slotName] using hlast _ i

/-! ## Names derived from distinct names -/

theorem nodup_numbered
    {A : Type} {number : String → Nat → String}
    (hinj : ∀ {name name' : String} {n n' : Nat},
      number name n = number name' n' → name = name' ∧ n = n')
    {items : List A} {name : A → String} (count : A → Nat)
    (hnodup : (items.map name).Nodup) :
    (items.flatMap fun a => (range (count a)).map (number (name a))).Nodup := by
  rw [nodup_flatMap]
  constructor
  · intro a _
    apply Nodup.map _ nodup_range
    exact fun n n' h => (hinj h).2
  · have hpairwise := pairwise_map.mp hnodup
    apply hpairwise.imp
    intro a b hne x hx hx'
    obtain ⟨n, _, rfl⟩ := mem_map.mp hx
    obtain ⟨n', _, heq⟩ := mem_map.mp hx'
    exact hne (hinj heq.symm).1

/-! ## Twins -/

section

variable {k : Kernel} {target : Target} {all : List TileUse}
  {planned : List PlannedTile} {inferred : Inferred}

theorem InfersBy.names_eq (h : InfersBy k target all planned inferred) :
    inferred.kernel.names = k.names ++ planned.flatMap fun p =>
      (List.range p.plan.twins.length).map (twinName p.tile.name) := by
  have hresolved : (planned.map (·.resolved)).map (·.name) = k.names := by
    unfold Kernel.names
    rw [← h.plans.tiles, List.map_map, List.map_map]
    rfl
  have htwins : ∀ p : PlannedTile, p.twinTiles.map (·.name) =
      (List.range p.plan.twins.length).map (twinName p.tile.name) := by
    intro p
    unfold PlannedTile.twinTiles
    rw [List.map_map]
    apply ext_getElem
    · simp
    · intro n _ _
      simp [twinName, Tile.plain]
  unfold Kernel.names at hresolved ⊢
  rw [h.tiles, toList_toArray, map_append, hresolved, map_flatMap]
  simp only [htwins]

theorem InfersBy.name_cases
    (h : InfersBy k target all planned inferred) {name : String}
    (hname : name ∈ inferred.kernel.names) :
    name ∈ k.names ∨ ∃ given ∈ k.names, ∃ n, name = twinName given n := by
  rw [h.names_eq, mem_append] at hname
  rcases hname with hgiven | htwin
  · exact Or.inl hgiven
  · obtain ⟨p, hp, hin⟩ := mem_flatMap.mp htwin
    obtain ⟨n, _, rfl⟩ := mem_map.mp hin
    refine Or.inr ⟨p.tile.name, ?_, n, rfl⟩
    unfold Kernel.names
    rw [← h.plans.tiles, List.map_map]
    exact mem_map_of_mem hp

theorem InfersBy.nodup_names
    (h : InfersBy k target all planned inferred) (hnames : k.names.Nodup)
    (hfree : k.FreeNames) : inferred.kernel.names.Nodup := by
  have hplanned : planned.map (·.tile.name) = k.names := by
    unfold Kernel.names
    rw [← h.plans.tiles, List.map_map]
    rfl
  rw [h.names_eq]
  apply Nodup.append hnames
  · exact nodup_numbered twinName_inj _ (hplanned ▸ hnames)
  · intro name hgiven htwin
    obtain ⟨p, hp, hin⟩ := mem_flatMap.mp htwin
    obtain ⟨n, _, rfl⟩ := mem_map.mp hin
    exact hfree p.tile.name (hplanned ▸ mem_map_of_mem hp) _ hgiven (.twin n)

end

/-! ## Slots -/

namespace Kernel

theorem getElem?_names (k : Kernel) {t : TileId} (ht : k.Has t) :
    k.names[t.index]? = some (k.tileName t) :=
  k.tileName_eq_some ht

theorem length_names (k : Kernel) : k.names.length = k.tiles.size := by
  simp [names]

theorem SlotsAdded.names_eq
    {k k' : Kernel} {stages : Nat} {buffers : List TileId}
    {rotation : List RotatedBuffer}
    (h : k.SlotsAdded stages buffers rotation k') (hstages : 1 < stages)
    (hbuffers : ∀ t ∈ buffers, k.Has t) :
    k'.names = k.names ++ buffers.flatMap fun t =>
      (range stages).map (slotName (k.tileName t)) := by
  unfold names
  rw [h.appended hstages, Array.toList_append, map_append, slotTiles,
    map_flatMap]
  congr 1
  apply flatMap_congr
  intro t ht
  obtain ⟨tile, htile⟩ := exists_tile? (hbuffers t ht)
  simp only [tileName, htile, Option.map_some, Option.getD_some, List.map_map]
  rfl

/-- Buffers with the slots that they were given, in a kernel and the kernel with
the slots. -/
structure Slotted (k k' : Kernel) (given : List (TileId × Nat)) : Prop where
  names : k'.names = k.names ++ given.flatMap fun g =>
    (range g.2).map (slotName (k.tileName g.1))
  inTable : ∀ g ∈ given, g.1.index < k.tiles.size
  retired : k'.retired.Perm (given.map (·.1) ++ k.retired)

theorem Slotted.refl (k : Kernel) : k.Slotted k [] :=
  ⟨by simp, by simp, by simp⟩

theorem Slotted.tileName_eq
    {k k' : Kernel} {given : List (TileId × Nat)} (h : k.Slotted k' given)
    {t : TileId} (ht : k.Has t) : k'.tileName t = k.tileName t := by
  have hlt : k'.Has t := by
    have hlength := congrArg length h.names
    rw [length_append, length_names, length_names] at hlength
    omega
  have hentry := k'.getElem?_names hlt
  rw [h.names, getElem?_append_left (by rwa [length_names]),
    k.getElem?_names ht] at hentry
  exact (Option.some.inj hentry).symm

theorem Slotted.trans
    {k k' k'' : Kernel} {given given' : List (TileId × Nat)}
    (h : k.Slotted k' given) (h' : k'.Slotted k'' given')
    (hold : ∀ g ∈ given', g.1.index < k.tiles.size) :
    k.Slotted k'' (given ++ given') := by
  refine ⟨?_, ?_, ?_⟩
  · rw [h'.names, h.names, append_assoc, flatMap_append]
    congr 2
    apply flatMap_congr
    intro g hg
    rw [h.tileName_eq (hold g hg)]
  · intro g hg
    rcases mem_append.mp hg with hfirst | hlater
    · exact h.inTable g hfirst
    · exact hold g hlater
  · have hperm := h'.retired.trans (h.retired.append_left _)
    rw [← append_assoc] at hperm
    rw [map_append]
    exact hperm.trans (perm_append_comm.append_right _)

theorem slotted_of_scheduleRegion
    {k k' : Kernel} {region : OpId} {target : Target} {l : StagedLoop}
    (hpending : k.Pending region)
    (h : k.scheduleRegion region target = .ok (l, k')) :
    ∃ given, k.Slotted k' given ∧
      (∀ g ∈ given, ∃ s, Op.step s ∈ k.ops ∧ g.1 ∈ s.op.writes) ∧
      ∀ head body, Op.loop head body ∈ k'.ops →
        head.id = region ∧ head.schedule = some l ∨
        ∃ inner, Op.loop head inner ∈ k.ops := by
  obtain ⟨head, body, steps, roles, k₁, hfound, hentries, hroles, _, hpos,
      hadded, htiles, hretires, hloops⟩ := retires_of_scheduleRegion h
  have hretired := hretires hpending
  have hbuffers := Roles.rotated_lt_size hroles
  have hnames : k'.names = k₁.names := by
    unfold names
    rw [htiles]
  have hwritten : ∀ t ∈ roles.rotated,
      ∃ s, Op.step s ∈ k.ops ∧ t ∈ s.op.writes := by
    intro t ht
    obtain ⟨_, _, hsides, _⟩ := Roles.ofBody_inv hroles
    obtain ⟨s, hs, _, hwrites⟩ := (Roles.mem_rotated_iff hsides).mp ht
    refine ⟨s, ?_, hwrites⟩
    apply (Body.ops_sublist_of_loop hfound).subset
    apply (Body.entries_sublist_ops body).subset
    rw [hentries]
    exact mem_map_of_mem hs
  rcases hpos.eq_or_lt with hone | hmany
  · have hnone := hadded.replaced_of_one hone.symm
    refine ⟨[], ⟨?_, by simp, ?_⟩, by simp, hloops⟩
    · unfold names
      rw [htiles, (hadded.one hone.symm).1]
      simp
    · simpa [hnone] using hretired
  · -- with several stages, every rotated buffer is replaced
    have hall := hadded.replaced_of_lt hmany
    refine ⟨roles.rotated.map fun t => (t, l.stages), ⟨?_, ?_, ?_⟩, ?_, hloops⟩
    · rw [hnames, hadded.names_eq hmany hbuffers, flatMap_map]
    · intro g hg
      obtain ⟨t, ht, rfl⟩ := mem_map.mp hg
      exact hbuffers t ht
    · rw [List.map_map]
      simpa [Function.comp_def, hall] using hretired
    · intro g hg
      obtain ⟨t, ht, rfl⟩ := mem_map.mp hg
      exact hwritten t ht

theorem slotted_of_scheduleEach
    {base scheduled : Kernel} {target : Target} {regions : List OpId}
    (hwf : base.WellFormed) {k : Kernel} {given : List (TileId × Nat)}
    (hcopies : base.Copies k) (hslotted : base.Slotted k given)
    (hpending : ∀ region ∈ regions, k.Pending region) (hnodup : regions.Nodup)
    (h : k.scheduleEach regions target = .ok scheduled) :
    ∃ given, base.Slotted scheduled given := by
  induction regions generalizing k given with
  | nil =>
      cases h
      exact ⟨given, hslotted⟩
  | cons region rest ih =>
      obtain ⟨l, k', hregion, hrest⟩ := scheduleEach_cons_eq_ok h
      obtain ⟨more, hstep, hwritten, hloops⟩ :=
        slotted_of_scheduleRegion (hpending region mem_cons_self) hregion
      have hold : ∀ g ∈ more, g.1.index < base.tiles.size := by
        intro g hg
        obtain ⟨s, hs, hwrites⟩ := hwritten g hg
        exact (hwf.fitting s (hcopies.step_mem.mp hs)).lt_size g.1
          (mem_append_right _ hwrites)
      have hlater : ∀ region' ∈ rest, k'.Pending region' := by
        intro region' hregion' head body hin hid
        rcases hloops head body hin with ⟨hsame, _⟩ | ⟨inner, hinner⟩
        · rw [hid] at hsame
          exact absurd (hsame ▸ hregion') (nodup_cons.mp hnodup).1
        · exact hpending region' (mem_cons_of_mem _ hregion') head inner
            hinner hid
      exact ih (hcopies.trans (copies_of_scheduleRegion hregion))
        (hslotted.trans hstep hold) hlater (nodup_cons.mp hnodup).2 hrest

theorem pendingRegions_sublist (k : Kernel) :
    k.pendingRegions.Sublist (k.ops.map Op.id) := by
  have hentries : k.pendingRegions.Sublist (k.body.entries.map Op.id) := by
    unfold pendingRegions
    induction k.body.entries with
    | nil => exact Sublist.slnil
    | cons op rest ih =>
        cases op with
        | step s => exact ih.cons _
        | loop head body =>
            rw [filterMap_cons, map_cons]
            by_cases hnone : head.schedule.isNone
            · simpa [hnone, Op.id] using ih
            · simpa [hnone, Op.id] using ih.cons head.id
  exact hentries.trans ((Body.entries_sublist_ops k.body).map _)

theorem pending_of_mem_pendingRegions
    {k : Kernel} (hdistinct : (k.ops.map Op.id).Nodup) {region : OpId}
    (h : region ∈ k.pendingRegions) : k.Pending region := by
  intro head body hin hid
  obtain ⟨op, hop, hsome⟩ := mem_filterMap.mp h
  cases op with
  | step s => cases hsome
  | loop head' body' =>
      simp only [Option.ite_none_right_eq_some, Option.some.injEq,
        Option.isNone_iff_eq_none] at hsome
      have hops := (Body.entries_sublist_ops k.body).subset hop
      have heq :=
        inj_on_of_nodup_map hdistinct hin hops (hid.trans hsome.2.symm)
      cases heq
      exact hsome.1

theorem slotted_of_schedule
    {k scheduled : Kernel} {target : Target} (hwf : k.WellFormed)
    (h : k.schedule target = .ok scheduled) :
    ∃ given, k.Slotted scheduled given :=
  slotted_of_scheduleEach hwf (Copies.refl k) (Slotted.refl k)
    (fun _ hregion => pending_of_mem_pendingRegions hwf.distinct hregion)
    (k.pendingRegions_sublist.nodup hwf.distinct) h

theorem tileName_inj
    {k : Kernel} (hnames : k.names.Nodup) {t u : TileId} (ht : k.Has t)
    (hu : k.Has u) (h : k.tileName t = k.tileName u) : t = u := by
  have hentry : k.names[t.index]? = k.names[u.index]? := by
    rw [k.getElem?_names ht, k.getElem?_names hu, h]
  have hindex := (getElem?_inj (by rwa [length_names]) hnames).mp hentry
  cases t
  cases hindex
  rfl

theorem Slotted.nodup_names
    {k k' : Kernel} {given : List (TileId × Nat)} (h : k.Slotted k' given)
    (hnames : k.names.Nodup) (honce : (given.map (·.1)).Nodup)
    (hfree : ∀ t, k.Has t → ∀ n, slotName (k.tileName t) n ∉ k.names) :
    k'.names.Nodup := by
  have hdistinct : (given.map fun g => k.tileName g.1).Nodup := by
    rw [show (given.map fun g => k.tileName g.1) =
      (given.map (·.1)).map k.tileName by simp]
    apply Nodup.map_on _ honce
    intro t ht u hu heq
    obtain ⟨g, hg, rfl⟩ := mem_map.mp ht
    obtain ⟨g', hg', rfl⟩ := mem_map.mp hu
    exact tileName_inj hnames (h.inTable g hg) (h.inTable g' hg') heq
  rw [h.names]
  apply Nodup.append hnames (nodup_numbered slotName_inj _ hdistinct)
  intro name hold hslot
  obtain ⟨g, hg, hin⟩ := mem_flatMap.mp hslot
  obtain ⟨n, _, rfl⟩ := mem_map.mp hin
  exact hfree g.1 (h.inTable g hg) n hold

end Kernel

theorem InfersBy.slotName_free
    {k : Kernel} {target : Target} {all : List TileUse}
    {planned : List PlannedTile} {inferred : Inferred}
    (h : InfersBy k target all planned inferred) (hfree : k.FreeNames)
    {t : TileId} (ht : inferred.kernel.Has t) (n : Nat) :
    slotName (inferred.kernel.tileName t) n ∉ inferred.kernel.names := by
  intro hslot
  have hin := mem_of_getElem? (inferred.kernel.getElem?_names ht)
  rcases h.name_cases hslot with hgiven | ⟨_, _, _, htwin⟩
  · rcases h.name_cases hin with hname | ⟨name, hname, i, heq⟩
    · exact hfree _ hname _ hgiven (.slot n)
    · rw [heq] at hgiven
      exact hfree name hname _ hgiven (.twinSlot i n)
  · exact slotName_ne_twinName _ _ _ _ htwin

/-! ## Compiled kernels -/

theorem Reselected.ids_and_retired {k k' : Kernel} (h : Reselected k k') :
    k'.ops.map Op.id = k.ops.map Op.id ∧ k'.retired = k.retired := by
  have hops := h.ops
  have hretired : ∀ op : Op, op.unselected.retired = op.retired := by
    intro op
    cases op <;> rfl
  constructor
  · simpa [Function.comp_def, Op.id_unselected] using congrArg (map Op.id) hops
  · rw [retired_eq, retired_eq]
    simpa [flatMap_map, hretired] using congrArg (flatMap Op.retired) hops

theorem compiled_ids_nodup
    {k : Kernel} {target : Target} {compiled : Compiled}
    (h : k.compile target = .ok compiled) :
    (compiled.kernel.ops.map Op.id).Nodup := by
  obtain ⟨inferred, scheduled, hinfer, hschedule, hselect⟩ := compile_eq_ok h
  rw [(reselected_of_selectAll hselect).ids_and_retired.1,
    (copies_of_schedule hschedule).ids]
  exact (infers_of_infer hinfer).wellFormed_kernel.distinct

theorem compiled_names_nodup
    {k : Kernel} {target : Target} {compiled : Compiled}
    (hnames : k.names.Nodup) (hfree : k.FreeNames)
    (h : k.compile target = .ok compiled)
    (honce : compiled.kernel.retired.Nodup) : compiled.kernel.names.Nodup := by
  obtain ⟨inferred, scheduled, hinfer, hschedule, hselect⟩ := compile_eq_ok h
  have hreselected := reselected_of_selectAll hselect
  obtain ⟨all, planned, hby⟩ := infersBy_of_infer hinfer
  obtain ⟨given, hslotted⟩ :=
    slotted_of_schedule (infers_of_infer hinfer).wellFormed_kernel hschedule
  rw [hreselected.ids_and_retired.2, hslotted.retired.nodup_iff] at honce
  have hscheduled := hslotted.nodup_names (hby.nodup_names hnames hfree)
    (Nodup.of_append_left honce) fun t ht n => hby.slotName_free hfree ht n
  unfold Kernel.names at hscheduled ⊢
  rwa [hreselected.tiles]

/-- The listing of a compiled kernel has a span for the header and for every
operation, and the text there is the line of the operation.  It has a span for
every tile exactly if the tiles have distinct names, and then the text there is
the line of the tile.  The names are distinct if no tile was named like a twin
or a slot and no buffer is given slots by two loops. -/
theorem compiled_listing_spans
    {k : Kernel} {target : Target} {compiled : Compiled}
    (hnames : k.names.Nodup) (hcompile : k.compile target = .ok compiled) :
    (k.FreeNames → compiled.kernel.retired.Nodup →
      compiled.kernel.names.Nodup) ∧
    ∃ listing, compiled.kernel.listing = .ok listing ∧
      (listing.spans.size = 1 + compiled.kernel.tiles.size +
        compiled.kernel.ops.length ↔ compiled.kernel.names.Nodup) ∧
      (listing.text.utf8ByteSize < limit32 →
        listing.textAt? .kernel = some compiled.kernel.headerLine.text ∧
        (∀ op ∈ compiled.kernel.ops,
          listing.textAt? (.op op.id) = some (compiled.kernel.lineText op)) ∧
        (compiled.kernel.names.Nodup → ∀ t ∈ compiled.kernel.tiles,
          listing.textAt? (.tile t.name) = some t.text)) := by
  refine ⟨fun hfree honce =>
    compiled_names_nodup hnames hfree hcompile honce, ?_⟩
  obtain ⟨listing, hlisting⟩ := compiled_listing hcompile
  obtain ⟨lines, rfl, hsites, hheader, htiles, hops⟩ :=
    exists_lines_of_listing hlisting
  have hids := compiled_ids_nodup hcompile
  refine ⟨_, hlisting, ?_, fun hsize => ⟨?_, ?_, ?_⟩⟩
  · rw [size_spans_eq_iff hlisting]
    exact and_iff_left hids
  · exact Listing.textAt?_of_count hheader (by simp [Kernel.headerLine])
      (by simp [hsites, Kernel.sites, Kernel.headerLine, count_eq_zero]) hsize
  · intro op hop
    obtain ⟨line, hline, hsite, htext⟩ := hops op hop
    rw [← hsite, ← htext]
    apply Listing.textAt?_of_count hline (by simp [hsite]) _ hsize
    rw [hsites, hsite]
    exact count_op_sites_le hids op.id
  · intro hdistinct t ht
    apply Listing.textAt?_of_count (htiles t ht) (by simp) _ hsize
    rw [hsites]
    exact nodup_iff_count_le_one.mp
      (compiled.kernel.nodup_sites_iff.mpr ⟨hdistinct, hids⟩) _

/-- Two loops of two stages that take `g` to `h`, through the first and the last
of the buffers. -/
def stagedTwice (buffers : List String) : Kernel :=
  let half (t : TileId) : Region := ⟨t, [⟨0, [(.loop "k", 2)]⟩], [2]⟩
  let copies (id : Nat) (buffer : TileId) : Body :=
    .step ⟨⟨id⟩, .copy (half ⟨0⟩) (.full buffer [2]) none, none⟩
      (.step ⟨⟨id + 1⟩, .copy (.full buffer [2]) (half ⟨1⟩) none, none⟩ .done)
  { Kernel.empty "staged_twice" with
    threads := ⟨1, 1, 1⟩
    tiles := (Tile.plain "g" [4] .f32 .global ::
      Tile.plain "h" [4] .f32 .global ::
      buffers.map fun name => Tile.plain name [2] .f32 .shared).toArray
    body := .loop ⟨⟨2⟩, "k", 2, 2, none, none⟩ (copies 0 ⟨2⟩)
      (.loop ⟨⟨5⟩, "k", 2, 2, none, none⟩ (copies 3 ⟨1 + buffers.length⟩) .done)
    nextOp := 6 }

/-- Through two buffers, every one of the eight tiles and six operations has its
span. -/
theorem compiled_listing_spans_twoBuffers :
    ∃ compiled listing, (stagedTwice ["x", "y"]).compile .sm80 = .ok compiled ∧
      compiled.kernel.listing = .ok listing ∧ listing.spans.size = 1 + 8 + 6 ∧
      (∀ op ∈ compiled.kernel.ops,
        listing.textAt? (.op op.id) = some (compiled.kernel.lineText op)) ∧
      ∀ t ∈ compiled.kernel.tiles,
        listing.textAt? (.tile t.name) = some t.text := by
  have hcompute :
      (((stagedTwice ["x", "y"]).compile .sm80).toOption.bind fun compiled =>
      compiled.kernel.listing.toOption.map fun listing =>
        (decide (listing.text.utf8ByteSize < limit32),
          compiled.kernel.tiles.size, compiled.kernel.ops.length,
          decide compiled.kernel.retired.Nodup)) =
      some (true, 8, 6, true) := by
    decide +kernel
  simp only [Option.bind_eq_some_iff, Option.map_eq_some_iff,
    toOption_eq_some_iff, Prod.mk.injEq, decide_eq_true_eq] at hcompute
  obtain ⟨compiled, hcompile, listing, hlisting, hsize, htiles, hops, honce⟩ :=
    hcompute
  have hfree : (stagedTwice ["x", "y"]).FreeNames := by
    intro name _ other hother hderived
    obtain ⟨c, hc, hdigit⟩ := hderived.isDigit_getLast
    have hlast : ∀ other ∈ (stagedTwice ["x", "y"]).names,
        other.toList.getLast?.any Char.isDigit = false := by
      decide
    have hnone := hlast other hother
    rw [hc, Option.any_some, hdigit] at hnone
    cases hnone
  obtain ⟨hnames, listing', hlisting', hcount, htexts⟩ :=
    compiled_listing_spans (by decide) hcompile
  cases hlisting.symm.trans hlisting'
  obtain ⟨_, hopTexts, htileTexts⟩ := htexts hsize
  refine ⟨compiled, listing, hcompile, hlisting, ?_, hopTexts,
    htileTexts (hnames hfree honce)⟩
  rw [hcount.mpr (hnames hfree honce), htiles, hops]

/-- Through one buffer, both loops name their slots `x@0` and `x@1`: seven tiles
and six operations, but twelve spans. -/
theorem compiled_listing_spans_oneBuffer :
    (stagedTwice ["x"]).names.Nodup ∧
      ∃ compiled listing, (stagedTwice ["x"]).compile .sm80 = .ok compiled ∧
        compiled.kernel.listing = .ok listing ∧
        listing.text.utf8ByteSize < limit32 ∧
        compiled.kernel.names = ["g", "h", "x", "x@0", "x@1", "x@0", "x@1"] ∧
        compiled.kernel.ops.length = 6 ∧ listing.spans.size = 12 := by
  have hcompute :
      (((stagedTwice ["x"]).compile .sm80).toOption.bind fun compiled =>
      compiled.kernel.listing.toOption.map fun listing =>
        (decide (listing.text.utf8ByteSize < limit32), compiled.kernel.names,
          compiled.kernel.ops.length, compiled.kernel.sites.toFinset.card)) =
      some (true, ["g", "h", "x", "x@0", "x@1", "x@0", "x@1"], 6, 12) := by
    decide +kernel
  simp only [Option.bind_eq_some_iff, Option.map_eq_some_iff,
    toOption_eq_some_iff, Prod.mk.injEq, decide_eq_true_eq] at hcompute
  obtain ⟨compiled, hcompile, listing, hlisting, hsize, hnames, hops, hcard⟩ :=
    hcompute
  exact ⟨by decide, compiled, listing, hcompile, hlisting, hsize, hnames, hops,
    (size_spans hlisting).trans hcard⟩

end TileProgram
