import TileProgram.Proofs.Listing.Bodies
import TileProgram.Proofs.Selection

/-!
# The listing identifies the program

Where tiles have names of their own and names hold no marks, the text of the
listing says which program a kernel is: kernels with one text have the same
grid, threads and tiles and do the same in sequence.  A name that two tiles
share makes the text say less.
-/

namespace TileProgram

open Kernel List

/-- Every name can be read back, and no two tiles have the same. -/
structure Kernel.WellNamed (k : Kernel) : Prop where
  name : IsPlain k.name
  tiles : ∀ t ∈ k.tiles.toList, IsPlain t.name
  distinct : (k.tiles.toList.map Tile.name).Nodup
  ops : ∀ op ∈ k.ops, op.IsNamed

instance (k : Kernel) : Decidable k.WellNamed :=
  decidable_of_iff (IsPlain k.name ∧ (∀ t ∈ k.tiles.toList, IsPlain t.name) ∧
      (k.tiles.toList.map Tile.name).Nodup ∧ ∀ op ∈ k.ops, op.IsNamed)
    ⟨fun h => ⟨h.1, h.2.1, h.2.2.1, h.2.2.2⟩,
      fun h => ⟨h.name, h.tiles, h.distinct, h.ops⟩⟩

/-! ## Tiles -/

theorem Scope.name_injective : Function.Injective Scope.name := by
  intro scope scope' h
  cases scope <;> cases scope' <;> first | rfl | exact absurd h (by decide)

theorem Scope.name_legible (scope scope' : Scope) :
    Legible (StopsAt [' ']) scope.name.toList scope'.name.toList
      (scope = scope') := by
  refine Legible.names (fun scope => ?_) Scope.name_injective scope scope'
  cases scope <;> decide

theorem Tile.toList_text (t : Tile) :
    t.text.toList = "tile ".toList ++
      (t.name.toList ++ ':' :: ([' '] ++ (t.scope.name.toList ++
      ' ' :: ([] ++ (t.type.name.toList ++ '[' :: ([] ++
        ([',', ' '].intercalate (t.shape.map fun n => n.repr.toList) ++
          ']' :: ' ' :: t.layoutText.toList))))))) := by
  unfold Tile.text
  simp [Shape.text, Function.comp_def]

theorem Tile.eq_of_text
    {t t' : Tile} (ht : IsPlain t.name) (ht' : IsPlain t'.name)
    (h : t.text = t'.text) :
    t.name = t'.name ∧ t.form = t'.form := by
  have hshape : Legible (StopsAt [']'])
      ([',', ' '].intercalate (t.shape.map fun n => n.repr.toList))
      ([',', ' '].intercalate (t'.shape.map fun n => n.repr.toList))
      (t.shape = t'.shape) :=
    Legible.nats (by decide) (by decide) t.shape t'.shape
  have hname : Legible (StopsAt [':']) t.name.toList t'.name.toList _ :=
    Legible.word (ht.lacks (by decide)) (ht'.lacks (by decide))
  have htype :=
    Legible.append_mark (mem_cons_of_mem '>' (mem_singleton_self '['))
      [] (ElementType.name_legible t.type t'.type) hshape
  have hread :=
    Legible.literal "tile ".toList (Legible.append_mark (mem_singleton_self ':')
      [' '] hname (Legible.append_mark (mem_singleton_self ' ') []
        (Scope.name_legible t.scope t'.scope) htype))
  have hchars := congrArg String.toList h
  rw [toList_text, toList_text] at hchars
  rcases hread (']' :: ' ' :: t.layoutText.toList)
    (']' :: ' ' :: t'.layoutText.toList) (stopsAt_cons mem_cons_self _)
    (stopsAt_cons mem_cons_self _) (by simpa using hchars) with
    ⟨⟨hname, hscope, htype, hshape⟩, _⟩
  refine ⟨String.toList_inj.mp hname, ?_⟩
  unfold Tile.form
  rw [hscope, htype, hshape]

theorem Tile.tidy_line {t : Tile} (h : IsPlain t.name) :
    Line.Tidy ⟨1, .tile t.name, t.text⟩ := by
  constructor
  · have hname : '\n' ∉ t.name.toList := h.oneLine
    have hshape : OneLine (", ".intercalate (t.shape.map Nat.repr)) := by
      apply oneLine_intercalate (by simp [OneLine])
      intro s hs
      rcases mem_map.mp hs with ⟨n, _, rfl⟩
      simp [OneLine]
    have hlayout : OneLine t.layoutText := by
      unfold Tile.layoutText
      split
      · exact Layout.oneLine_text _
      · exact oneLine_append (by simp [OneLine]) (Layout.oneLine_text _)
      · simp [OneLine]
    have hscope : '\n' ∉ t.scope.name.toList := by cases t.scope <;> decide
    have htype : '\n' ∉ t.type.name.toList := by cases t.type <;> decide
    have hhead :
        OneLine (s!"tile {t.name}: {t.scope.name} {t.type.name}" ++ "[") := by
      simp [OneLine, hname, hscope, htype]
    have hwhole := oneLine_append (oneLine_append (oneLine_append hhead hshape)
      (by simp [OneLine] : OneLine "] ")) hlayout
    unfold OneLine at hwhole ⊢
    unfold Tile.text
    simpa [Shape.text] using hwhole
  · rw [toList_text]
    exact ⟨'t', _, rfl, by decide⟩

/-! ## The header -/

theorem Kernel.panelText_injective : Function.Injective panelText := by
  intro p p' h
  have hchars : ∀ width, (panelText (some width)).toList =
      " raster=panel(".toList ++ (width.repr.toList ++ ')' :: ([] ++ [])) := by
    intro width
    unfold panelText
    simp
  have hnone : (panelText none).toList = [] := String.toList_empty
  match p, p', congrArg String.toList h with
  | none, none, _ => rfl
  | some width, none, h => rw [hchars, hnone] at h; exact absurd h (by simp)
  | none, some width', h => rw [hchars, hnone] at h; exact absurd h (by simp)
  | some width, some width', h =>
      have hread := Legible.literal " raster=panel(".toList
        (Legible.append_mark (mem_singleton_self ')') []
          (Legible.nat (by decide) width width')
          (Legible.nil fun _ => True))
      rw [hchars, hchars] at h
      have hwidth := (hread [] [] trivial trivial (by simpa using h)).1.1
      rw [hwidth]

theorem LaunchOrder.block_of_panel? (k : Kernel) (n : Nat) :
    block { k with rasterization := k.panel?.map fun width => ⟨width, true⟩ }
      n = block k n := by
  unfold block plane Kernel.panel?
  dsimp only
  rcases k.rasterization with _ | ⟨width, enable⟩
  · rfl
  · cases enable <;> rfl

theorem LaunchOrder.block_eq_of_panel?
    {k k' : Kernel} (hgrid : k.grid = k'.grid) (hpanel : k.panel? = k'.panel?)
    (n : Nat) : block k n = block k' n := by
  rw [← block_of_panel? k, ← block_of_panel? k', hpanel]
  apply block_congr
  · exact hgrid
  · rfl

theorem Shape.toList_text (s : Shape) :
    (Shape.text s).toList
      = '[' :: ([',', ' '].intercalate (s.map fun n => n.repr.toList) ++
        [']']) := by
  simp [Shape.text, Function.comp_def]

theorem Kernel.headerLine_text (k : Kernel) :
    k.headerLine.text = "kernel " ++ k.name ++ " grid=" ++
      Shape.text k.grid.toList ++ " threads=" ++
      Shape.text k.threads.toList ++ panelText k.panel? := by
  rfl

theorem Kernel.toList_headerLine (k : Kernel) :
    k.headerLine.text.toList = "kernel ".toList ++
      (k.name.toList ++ ' ' :: ("grid=[".toList ++
        ([',', ' '].intercalate (k.grid.toList.map fun n => n.repr.toList) ++
        ']' :: (" threads=[".toList ++
        ([',', ' '].intercalate (k.threads.toList.map fun n => n.repr.toList) ++
        ']' :: ([] ++ (panelText k.panel?).toList)))))) := by
  rw [headerLine_text]
  simp only [String.toList_append, Shape.toList_text]
  simp

theorem Dim3.toList_injective : Function.Injective Dim3.toList := by
  rintro ⟨x, y, z⟩ ⟨x', y', z'⟩ h
  cases h
  rfl

theorem Kernel.eq_of_headerLine
    {k k' : Kernel} (hk : IsPlain k.name) (hk' : IsPlain k'.name)
    (h : k.headerLine.text = k'.headerLine.text) :
    k.grid = k'.grid ∧ k.threads = k'.threads ∧ k.panel? = k'.panel? := by
  have hsizes : ∀ d d' : Dim3, Legible (StopsAt [']'])
      ([',', ' '].intercalate (d.toList.map fun n => n.repr.toList))
      ([',', ' '].intercalate (d'.toList.map fun n => n.repr.toList))
      (d.toList = d'.toList) :=
    fun d d' => Legible.nats (by decide) (by decide) d.toList d'.toList
  have hname : Legible (StopsAt [' ']) k.name.toList k'.name.toList _ :=
    Legible.word (hk.lacks (by decide)) (hk'.lacks (by decide))
  have hthreads := Legible.append_mark (mem_singleton_self ']') []
    (hsizes k.threads k'.threads) (Legible.nil fun _ => True)
  have hgrid := Legible.append_mark (mem_singleton_self ']') " threads=[".toList
    (hsizes k.grid k'.grid) hthreads
  have hread := Legible.literal "kernel ".toList
    (Legible.append_mark (mem_singleton_self ' ') "grid=[".toList hname hgrid)
  have hchars := congrArg String.toList h
  rw [toList_headerLine, toList_headerLine] at hchars
  rcases hread (panelText k.panel?).toList (panelText k'.panel?).toList
    trivial trivial (by simpa using hchars) with
    ⟨⟨_, hgrid, hthreads, _⟩, hpanel⟩
  exact ⟨Dim3.toList_injective hgrid, Dim3.toList_injective hthreads,
    panelText_injective (String.toList_inj.mp hpanel)⟩

theorem Kernel.tidy_headerLine {k : Kernel} (h : IsPlain k.name) :
    k.headerLine.Tidy := by
  constructor
  · have hname : '\n' ∉ k.name.toList := h.oneLine
    unfold headerLine
    cases k.panel? <;> simp [panelText, Shape.text, Dim3.toList, OneLine, hname]
  · rw [toList_headerLine]
    exact ⟨'k', _, rfl, by decide⟩

/-! ## The table of tiles -/

def Tile.label (t : Tile) : String × Shape × ElementType × Scope :=
  (t.name, t.form)

theorem Tile.labels_eq
    {ts ts' : List Tile} (h : ∀ t ∈ ts, IsPlain t.name)
    (h' : ∀ t ∈ ts', IsPlain t.name)
    (heq : ts.map Tile.text = ts'.map Tile.text) :
    ts.map Tile.label = ts'.map Tile.label := by
  refine map_eq_map_of_map_eq (fun t ht t' ht' htext => ?_) heq
  rcases eq_of_text (h t ht) (h' t' ht') htext with ⟨hname, hform⟩
  rw [label, label, hname, hform]

section

variable {k k' : Kernel}

theorem Kernel.map_getElem?_eq
    (h : k.tiles.toList.map Tile.label = k'.tiles.toList.map Tile.label)
    {A : Type} (f : String × Shape × ElementType × Scope → A) (i : Nat) :
    k.tiles[i]?.map (f ∘ Tile.label) = k'.tiles[i]?.map (f ∘ Tile.label) := by
  have hentry : k.tiles[i]?.map Tile.label = k'.tiles[i]?.map Tile.label := by
    simpa using congrArg (fun l => l[i]?) h
  rw [← Option.map_map, ← Option.map_map, hentry]

theorem Kernel.tileName_eq_some (k : Kernel) {t : TileId} (ht : k.Has t) :
    (k.tiles.toList.map Tile.name)[t.index]? = some (k.tileName t) := by
  simp [tileName, tile?, ht]

theorem Kernel.WellNamed.tileName
    (h : k.WellNamed) {t : TileId} (ht : k.Has t) : IsPlain (k.tileName t) := by
  have hmem := mem_of_getElem? (k.tileName_eq_some ht)
  rcases mem_map.mp hmem with ⟨tile, htile, hname⟩
  rw [← hname]
  exact h.tiles tile htile

theorem Kernel.sameTable_of_labels
    (hk : k.WellNamed) (hk' : k'.WellNamed)
    (h : k.tiles.toList.map Tile.label = k'.tiles.toList.map Tile.label) :
    k.SameTable k' where
  plain _ ht := hk.tileName ht
  plain' _ ht := hk'.tileName ht
  place t t' ht ht' heq := by
    have hnames : k.tiles.toList.map Tile.name =
        k'.tiles.toList.map Tile.name := by
      simpa [Function.comp_def, Tile.label] using congrArg (map Prod.fst) h
    have hfirst := k.tileName_eq_some ht
    have hsecond := k'.tileName_eq_some ht'
    rw [← hnames, ← heq] at hsecond
    have hindex : t.index = t'.index :=
      (getElem?_inj (by simpa using ht) hk.distinct).mp
        (hfirst.trans hsecond.symm)
    cases t
    cases hindex
    rfl
  shape t := by
    rw [shapeOf_eq_map_form, shapeOf_eq_map_form]
    have hform := map_getElem?_eq h Prod.snd t.index
    simp only [Function.comp_def, Tile.label] at hform
    rw [hform]

/-! ## Runs -/

theorem Memory.resetOnChip_eq
    {α : Type} [Element α]
    (h : k.tiles.toList.map Tile.label = k'.tiles.toList.map Tile.label)
    (m : Memory α) :
    m.resetOnChip k = m.resetOnChip k' := by
  have hreset : ∀ k : Kernel, m.resetOnChip k = ⟨m.tiles.mapIdx fun i data =>
      if k.tiles[i]?.map ((·.2.2.2.isOnChip) ∘ Tile.label) = some true then
        data.map fun _ => Element.zero
      else data⟩ := by
    intro k
    unfold resetOnChip
    congr 2
    funext i data
    rcases k.tiles[i]? with _ | t
    · rfl
    · simp [Tile.label, Tile.form]
  rw [hreset, hreset]
  simp only [map_getElem?_eq h]

theorem Kernel.run_eq_of_labels
    {α : Type} [Element α] (hgrid : k.grid = k'.grid)
    (hpanel : k.panel? = k'.panel?)
    (h : k.tiles.toList.map Tile.label = k'.tiles.toList.map Tile.label)
    (hbody : ∀ m : Machine α,
      k.body.run k .sequential m = k'.body.run k' .sequential m)
    (limit : Option Nat) (m : Memory α) :
    k.run .sequential limit m = k'.run .sequential limit m := by
  have hblock : ∀ (m : Memory α) block,
      k.runBlock .sequential m block = k'.runBlock .sequential m block := by
    intro m block
    unfold runBlock
    rw [Memory.resetOnChip_eq h, hbody]
  unfold run blockCount numBlocks
  simp only [hblock, LaunchOrder.upTo_congr hgrid.symm,
    LaunchOrder.block_eq_of_panel? hgrid hpanel, hgrid]

theorem Kernel.simulate_eq_of_labels
    (hgrid : k.grid = k'.grid) (hpanel : k.panel? = k'.panel?)
    (h : k.tiles.toList.map Tile.label = k'.tiles.toList.map Tile.label)
    (hbody : ∀ m : Machine Float,
      k.body.run k .sequential m = k'.body.run k' .sequential m)
    (opts : RunOptions) :
    k.simulate .sequential opts = k'.simulate .sequential opts := by
  have hforms : k.tiles.toList.map Tile.form =
      k'.tiles.toList.map Tile.form := by
    simpa [Function.comp_def, Tile.label] using congrArg (map Prod.snd) h
  unfold simulate Memory.initial
  simp only [Memory.supply_congr _ hforms,
    run_eq_of_labels hgrid hpanel h hbody]

/-! ## The whole listing -/

theorem Kernel.listing_eq_ok {listing : Listing} (h : k.listing = .ok listing) :
    ∃ body, k.bodyLines 1 k.body = .ok body ∧
      listing = Listing.ofLines (k.headerLine ::
        (k.tiles.toList.map (fun t => ⟨1, .tile t.name, t.text⟩) ++ body)) := by
  rcases bind_eq_ok h with ⟨lines, hlines, h⟩
  rcases bind_eq_ok hlines with ⟨body, hbody, hlines⟩
  cases h
  cases hlines
  exact ⟨body, hbody, rfl⟩

theorem Kernel.head_of_bodyLines
    {depth : Nat} {body : Body} {lines : List Line}
    (h : k.bodyLines depth body = .ok lines) :
    ∀ e ∈ (lines.map Line.entry).head?, e.2.toList.head? = some '%' := by
  intro e he
  cases body with
  | done =>
      cases h
      cases he
  | step s rest =>
      rcases bind_eq_ok h with ⟨after, _, h⟩
      cases h
      cases he
      exact head?_stepLine depth s
  | loop head body rest =>
      rcases bodyLines_loop_eq_ok h with ⟨inner, schedule, after, _, _, _, rfl⟩
      cases he
      exact head?_loopLine depth head

/-- The text of a listing tells its header, its tiles and its body apart. -/
theorem Kernel.parts_eq_of_listing
    (hk : k.WellNamed) (hk' : k'.WellNamed) {body body' : List Line}
    (hbody : k.bodyLines 1 k.body = .ok body)
    (hbody' : k'.bodyLines 1 k'.body = .ok body')
    (h : (Listing.ofLines (k.headerLine ::
      (k.tiles.toList.map (fun t => ⟨1, .tile t.name, t.text⟩) ++ body))).text =
      (Listing.ofLines (k'.headerLine :: (k'.tiles.toList.map (fun t =>
        ⟨1, .tile t.name, t.text⟩) ++ body'))).text) :
    k.headerLine.text = k'.headerLine.text ∧
      k.tiles.toList.map Tile.text = k'.tiles.toList.map Tile.text ∧
      body.map Line.entry = body'.map Line.entry := by
  have htidy : ∀ {k : Kernel} {body : List Line}, k.WellNamed →
      k.bodyLines 1 k.body = .ok body →
      ∀ l ∈ k.headerLine ::
        (k.tiles.toList.map (fun t => ⟨1, .tile t.name, t.text⟩) ++ body),
        l.Tidy := by
    intro k body hk hbody l hl
    simp only [mem_cons, mem_append, mem_map] at hl
    rcases hl with rfl | ⟨t, ht, rfl⟩ | hl
    · exact tidy_headerLine hk.name
    · exact Tile.tidy_line (hk.tiles t ht)
    · exact tidy_of_bodyLines (fun _ ht => hk.tileName ht) hk.ops hbody l hl
  have hentries := Listing.entries_eq (htidy hk hbody) (htidy hk' hbody') h
  rw [map_cons, map_cons, List.cons.injEq, map_append, map_append,
    List.map_map, List.map_map] at hentries
  -- a line of the table begins with a letter, a line of the body with its
  -- number
  have htile : ∀ k : Kernel,
      ∀ e ∈ k.tiles.toList.map
        (Line.entry ∘ fun t => ⟨1, .tile t.name, t.text⟩),
        e.2.toList.head? = some 't' := by
    intro k e he
    rcases mem_map.mp he with ⟨t, _, rfl⟩
    change t.text.toList.head? = _
    rw [Tile.toList_text]
    rfl
  have hop : ∀ {k : Kernel} {body : List Line},
      k.bodyLines 1 k.body = .ok body →
      ∀ e ∈ (body.map Line.entry).head?, ¬ e.2.toList.head? = some 't' := by
    intro k body hbody e he hfirst
    rw [head_of_bodyLines hbody e he] at hfirst
    cases hfirst
  rcases append_inj_of_head (htile k) (htile k') (hop hbody) (hop hbody')
    hentries.2
    with ⟨htiles, hlines⟩
  refine ⟨congrArg Prod.snd hentries.1, ?_, hlines⟩
  simpa [Function.comp_def, Line.entry] using congrArg (map Prod.snd) htiles

theorem compiled_listing
    {target : Target} {compiled : Compiled}
    (h : k.compile target = .ok compiled) :
    ∃ listing, compiled.kernel.listing = .ok listing := by
  unfold Kernel.compile at h
  rcases bind_eq_ok h with ⟨inferred, _, h⟩
  rcases bind_eq_ok h with ⟨scheduled, _, h⟩
  rcases bind_eq_ok h with ⟨selected, _, h⟩
  rcases bind_eq_ok h with ⟨fingerprint, hfingerprint, h⟩
  cases h
  rcases bind_eq_ok (lift_eq_ok_iff.mp hfingerprint) with ⟨listing, hlisting, _⟩
  exact ⟨listing, hlisting⟩

/-- Compiled kernels with one listing have the same grid and threads, and every
run in sequence leaves the same memory. -/
theorem simulate_eq_of_listing
    {target target' : Target} {compiled compiled' : Compiled}
    (hcompile : k.compile target = .ok compiled)
    (hcompile' : k'.compile target' = .ok compiled')
    (hnamed : compiled.kernel.WellNamed) (hnamed' : compiled'.kernel.WellNamed)
    (htext : compiled.kernel.listing.map Listing.text =
      compiled'.kernel.listing.map Listing.text) :
    compiled.kernel.grid = compiled'.kernel.grid ∧
      compiled.kernel.threads = compiled'.kernel.threads ∧
      ∀ opts, compiled.kernel.simulate .sequential opts
        = compiled'.kernel.simulate .sequential opts := by
  rcases compiled_listing hcompile with ⟨listing, hlisting⟩
  rcases compiled_listing hcompile' with ⟨listing', hlisting'⟩
  rw [hlisting, hlisting'] at htext
  rcases listing_eq_ok hlisting with ⟨lines, hlines, rfl⟩
  rcases listing_eq_ok hlisting' with ⟨lines', hlines', rfl⟩
  rcases parts_eq_of_listing hnamed hnamed' hlines hlines' (Except.ok.inj htext)
    with ⟨hheader, htiles, hbody⟩
  rcases eq_of_headerLine hnamed.name hnamed'.name hheader with
    ⟨hgrid, hthreads, hpanel⟩
  have hlabels := Tile.labels_eq hnamed.tiles hnamed'.tiles htiles
  have htable := sameTable_of_labels hnamed hnamed' hlabels
  have hrun :=
    htable.run_eq_of_bodyLines (α := Float) ⟨compiled_closed hcompile,
      hnamed.ops⟩ ⟨compiled_closed hcompile', hnamed'.ops⟩ hlines hlines'
      (endsBody_nil 1) (endsBody_nil 1) (by rw [hbody])
  exact ⟨hgrid, hthreads, simulate_eq_of_labels hgrid hpanel hlabels hrun.1⟩

end

/-- Each block copies a row; the axis of the blocks is the third or one past
it. -/
def copyOfRows (axis : Nat) : Kernel :=
  { Kernel.empty "copy_rows" with
    grid := ⟨1, 1, 2⟩
    tiles := #[Tile.plain "src" [2, 4] .f32 .global,
      Tile.plain "dst" [2, 4] .f32 .global]
    body := .step ⟨⟨0⟩, .copy ⟨⟨0⟩, [.ofVar (.block axis), .ofInt 0], [1, 4]⟩
      ⟨⟨1⟩, [.ofVar (.block axis), .ofInt 0], [1, 4]⟩ none, none⟩ .done
    nextOp := 1 }

def copyOfRowsText : String :=
  "kernel copy_rows grid=[1, 1, 2] threads=[128, 1, 1]\n" ++
  "  tile src: global f32[2, 4] row_major\n" ++
  "  tile dst: global f32[2, 4] row_major\n" ++
  "  %0 copy src[bz, 0 +: 1x4] -> dst[bz, 0 +: 1x4]  ; vector[4]\n"

theorem simulate_eq_of_listing_copyOfRows :
    ∃ compiled compiled', (copyOfRows 2).compile .sm80 = .ok compiled ∧
      (copyOfRows 3).compile .sm80 = .ok compiled' ∧
      compiled.kernel.listing.map Listing.text = .ok copyOfRowsText ∧
      compiled.kernel.simulate .sequential .standard
        = compiled'.kernel.simulate .sequential .standard := by
  have hcompiles : ∀ axis ∈ [2, 3],
      ((copyOfRows axis).compile .sm80).toOption.any (fun compiled =>
      decide compiled.kernel.WellNamed &&
        (compiled.kernel.listing.map Listing.text).toOption ==
          some copyOfRowsText) = true := by
    decide +kernel
  have hresult : ∀ axis ∈ [2, 3],
      ∃ compiled, (copyOfRows axis).compile .sm80 = .ok compiled ∧
      compiled.kernel.WellNamed ∧
      compiled.kernel.listing.map Listing.text = .ok copyOfRowsText := by
    intro axis haxis
    rcases (Option.any_eq_true _ _).mp (hcompiles axis haxis) with
      ⟨compiled, hcompile, hresult⟩
    rw [Bool.and_eq_true, decide_eq_true_eq, beq_iff_eq, toOption_eq_some_iff]
      at hresult
    exact ⟨compiled, toOption_eq_some_iff.mp hcompile, hresult⟩
  rcases hresult 2 (by decide) with ⟨compiled, hcompile, hnamed, htext⟩
  rcases hresult 3 (by decide) with ⟨compiled', hcompile', hnamed', htext'⟩
  exact ⟨compiled, compiled', hcompile, hcompile', htext,
    (simulate_eq_of_listing hcompile hcompile' hnamed hnamed'
      (htext.trans htext'.symm)).2.2 _⟩

/-- One of two tiles of the same name is filled. -/
def twinNames (tile : TileId) : Kernel :=
  { Kernel.empty "twin_names" with
    threads := ⟨1, 1, 1⟩
    tiles := #[Tile.plain "g" [2] .f32 .global, Tile.plain "g" [2] .f32 .global]
    body := .step ⟨⟨0⟩, .fill tile 0, none⟩ .done
    nextOp := 1 }

/-- The listing does not say which of the two tiles is filled. -/
theorem simulate_ne_of_listing_twinNames :
    ∃ compiled compiled' m m', (twinNames ⟨0⟩).compile .sm80 = .ok compiled ∧
      (twinNames ⟨1⟩).compile .sm80 = .ok compiled' ∧
      compiled.kernel.listing.map Listing.text =
        compiled'.kernel.listing.map Listing.text ∧
      compiled.kernel.simulate .sequential ⟨.one, 0, none⟩ = .ok m ∧
      compiled'.kernel.simulate .sequential ⟨.one, 0, none⟩ = .ok m' ∧
      m.tile ⟨0⟩ ≠ m'.tile ⟨0⟩ := by
  have hcompute : ∀ tile : Fin 2,
      (((twinNames ⟨tile⟩).compile .sm80).toOption.bind fun compiled =>
        (compiled.kernel.simulate .sequential ⟨.one, 0, none⟩).toOption.map
          fun m =>
            ((compiled.kernel.listing.map Listing.text).toOption,
              ((m.tile ⟨0⟩).map fun data =>
                data.toList.map Float.toBits).toOption)) =
      some (some ("kernel twin_names grid=[1, 1, 1] threads=[1, 1, 1]\n" ++
          "  tile g: global f32[2] row_major\n" ++
          "  tile g: global f32[2] row_major\n" ++
          "  %0 fill g = 0  ; vector[2]\n"),
        some ((if tile = 0 then [0, 0] else [1, 1]).map Float.toBits)) := by
    decide +kernel
  rcases Option.bind_eq_some_iff.mp (hcompute 0) with
    ⟨compiled, hcompile, hcomputed⟩
  rcases Option.map_eq_some_iff.mp hcomputed with ⟨m, hm, hresult⟩
  rcases Option.bind_eq_some_iff.mp (hcompute 1) with
    ⟨compiled', hcompile', hcomputed'⟩
  rcases Option.map_eq_some_iff.mp hcomputed' with ⟨m', hm', hresult'⟩
  rw [Prod.mk.injEq, toOption_eq_some_iff] at hresult hresult'
  refine ⟨compiled, compiled', m, m', toOption_eq_some_iff.mp hcompile,
    toOption_eq_some_iff.mp hcompile', hresult.1.trans hresult'.1.symm,
    toOption_eq_some_iff.mp hm, toOption_eq_some_iff.mp hm', ?_⟩
  intro heq
  rw [heq] at hresult
  exact absurd (hresult.2.symm.trans hresult'.2) (by decide +kernel)

end TileProgram
