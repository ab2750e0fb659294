import TileProgram.Proofs.Listing.Identity
import Mathlib.Data.Finset.Card

/-!
# Spans of a listing

A listing records one span for each site that its lines have, and a later line
of a site takes the place of an earlier one.  The bytes in the span of the last
line of a site are the text of that line.
-/

namespace TileProgram

open List

variable {line : Line} {lines : List Line} {depth : Nat} {listing : Listing}

/-- The text in the span that is recorded for a site. -/
def Listing.textAt? (l : Listing) (site : Site) : Option String :=
  (l.spans.get? site).bind fun span =>
    String.fromUTF8? (l.text.toUTF8.extract span.first span.last)

/-- The sites of the lines whose spans are recorded. -/
def Line.sites (lines : List Line) : List Site :=
  (lines.map (·.site)).filter (· ≠ .nowhere)

theorem Line.sites_append (lines lines' : List Line) :
    sites (lines ++ lines') = sites lines ++ sites lines' := by
  unfold sites
  rw [map_append, filter_append]

theorem Line.sites_cons (h : line.site ≠ .nowhere) (lines : List Line) :
    sites (line :: lines) = line.site :: sites lines := by
  unfold sites
  rw [map_cons, filter_cons_of_pos (by simpa using h)]

theorem Line.mem_sites {site : Site} :
    site ∈ sites lines ↔
      site ≠ .nowhere ∧ ∃ line ∈ lines, line.site = site := by
  unfold sites
  rw [mem_filter, mem_map, decide_eq_true_iff, and_comm]

/-! ## Lines that are pushed -/

namespace Listing

theorem push_text (l : Listing) (line : Line) :
    (l.push line).text =
      l.text ++ (String.ofList (replicate (2 * line.depth) ' ') ++
        (line.text ++ "\n")) := by
  rw [← String.toList_inj]
  simp [push, toList_pushn]

theorem get?_push (l : Listing) (line : Line) (site : Site) :
    (l.push line).spans.get? site =
      if line.site = site ∧ site ≠ .nowhere then
        some ⟨low32 (l.text.utf8ByteSize + 2 * line.depth),
          low32 (l.text.utf8ByteSize + 2 * line.depth + line.text.utf8ByteSize)⟩
      else l.spans.get? site := by
  simp only [push, SpanMap.get?]
  by_cases hnowhere : line.site = .nowhere
  · rw [if_pos hnowhere, if_neg]
    rintro ⟨rfl, hne⟩
    exact hne hnowhere
  · rw [if_neg hnowhere, SpanMap.insert, Std.HashMap.getElem?_insert]
    by_cases hsite : line.site = site
    · subst hsite
      simp [hnowhere]
    · simp [hsite]

theorem ofLines_append_singleton (lines : List Line) (line : Line) :
    ofLines (lines ++ [line]) = (ofLines lines).push line := by
  unfold ofLines
  rw [foldl_append]
  rfl

theorem recorded_ofLines (lines : List Line) (site : Site) :
    ((ofLines lines).spans.get? site).isSome ↔ site ∈ Line.sites lines := by
  induction lines using reverseRecOn with
  | nil => simp [ofLines, empty, SpanMap.get?, SpanMap.empty, Line.sites]
  | append_singleton lines line ih =>
      rw [ofLines_append_singleton, get?_push, Line.sites_append, mem_append,
        ← ih]
      by_cases h : line.site = site ∧ site ≠ .nowhere
      · have hlast : site ∈ Line.sites [line] :=
          Line.mem_sites.mpr ⟨h.2, line, mem_singleton_self _, h.1⟩
        simp [h, hlast]
      · have hlast : site ∉ Line.sites [line] := by
          intro hin
          obtain ⟨hne, line', hline', hsite⟩ := Line.mem_sites.mp hin
          rw [mem_singleton.mp hline'] at hsite
          exact h ⟨hsite, hne⟩
        rw [if_neg h]
        simp [hlast]

theorem size_spans_ofLines (lines : List Line) :
    (ofLines lines).spans.size = (Line.sites lines).toFinset.card := by
  induction lines using reverseRecOn with
  | nil => simp [ofLines, empty, SpanMap.size, SpanMap.empty, Line.sites]
  | append_singleton lines line ih =>
      rw [ofLines_append_singleton, Line.sites_append]
      by_cases hnowhere : line.site = .nowhere
      · simp [push, hnowhere, ih, Line.sites]
      · have hold : line.site ∈ (ofLines lines).spans.entries ↔
            line.site ∈ Line.sites lines := by
          rw [← recorded_ofLines, SpanMap.get?,
            ← Std.HashMap.mem_iff_isSome_getElem?]
        have hlast : Line.sites [line] = [line.site] := by
          simp [Line.sites, hnowhere]
        rw [hlast, toFinset_append, Finset.union_comm]
        simp only [toFinset_cons, toFinset_nil, insert_empty_eq,
          ← Finset.insert_eq]
        by_cases hin : line.site ∈ Line.sites lines
        · rw [Finset.insert_eq_self.mpr (by simpa using hin), ← ih]
          simp only [push, if_neg hnowhere, SpanMap.size, SpanMap.insert,
            Std.HashMap.size_insert, hold, if_pos hin]
        · rw [Finset.card_insert_of_notMem (by simpa using hin), ← ih]
          simp only [push, if_neg hnowhere, SpanMap.size, SpanMap.insert,
            Std.HashMap.size_insert, hold, if_neg hin]

theorem text_foldl_push (lines : List Line) (l : Listing) :
    ∃ rest, (lines.foldl push l).text = l.text ++ rest := by
  induction lines generalizing l with
  | nil => exact ⟨"", by simp⟩
  | cons line lines ih =>
      obtain ⟨rest, hrest⟩ := ih (l.push line)
      rw [foldl_cons, hrest, push_text, String.append_assoc]
      exact ⟨_, rfl⟩

theorem get?_foldl_push
    {site : Site} (h : site ∉ Line.sites lines) (l : Listing) :
    (lines.foldl push l).spans.get? site = l.spans.get? site := by
  induction lines generalizing l with
  | nil => rfl
  | cons line lines ih =>
      have hlater : site ∉ Line.sites lines := by
        intro hin
        obtain ⟨hne, other, hother, hsite⟩ := Line.mem_sites.mp hin
        exact h (Line.mem_sites.mpr ⟨hne, other, mem_cons_of_mem _ hother,
          hsite⟩)
      have hhere : ¬ (line.site = site ∧ site ≠ .nowhere) := by
        rintro ⟨hsite, hne⟩
        exact h (Line.mem_sites.mpr ⟨hne, line, mem_cons_self, hsite⟩)
      rw [foldl_cons, ih hlater, get?_push, if_neg hhere]

theorem fromUTF8?_extract_append (before part after : String) :
    String.fromUTF8?
      ((before ++ (part ++ after)).toUTF8.extract before.utf8ByteSize
        (before.utf8ByteSize + part.utf8ByteSize)) = some part := by
  have hpart : (before ++ (part ++ after)).toUTF8.extract before.utf8ByteSize
      (before.utf8ByteSize + part.utf8ByteSize) = part.toByteArray := by
    rw [String.toUTF8_eq_toByteArray, String.toByteArray_append,
      String.toByteArray_append,
      ← String.size_toByteArray, ← String.size_toByteArray,
      show before.toByteArray.size = before.toByteArray.size + 0 from rfl,
      Nat.add_assoc, ByteArray.extract_append_size_add, Nat.zero_add]
    exact ByteArray.extract_append_eq_left rfl
  unfold String.fromUTF8?
  rw [hpart, dif_pos part.isValidUTF8]
  rfl

theorem utf8ByteSize_blanks (n : Nat) :
    (String.ofList (replicate n ' ')).utf8ByteSize = n := by
  induction n with
  | zero => rfl
  | succ n ih =>
      rw [replicate_succ', String.ofList_append, String.utf8ByteSize_append, ih]
      rfl

theorem textAt?_of_last
    {before after : List Line} (hsite : line.site ≠ .nowhere)
    (hlast : line.site ∉ Line.sites after)
    (hsize : (ofLines (before ++ line :: after)).text.utf8ByteSize < limit32) :
    (ofLines (before ++ line :: after)).textAt? line.site = some line.text := by
  have hfold : ofLines (before ++ line :: after) =
      after.foldl push ((ofLines before).push line) := by
    unfold ofLines
    rw [foldl_append, foldl_cons]
  obtain ⟨rest, hrest⟩ := text_foldl_push after ((ofLines before).push line)
  rw [push_text, ← hfold] at hrest
  have htext : (ofLines (before ++ line :: after)).text =
      ((ofLines before).text ++
        String.ofList (replicate (2 * line.depth) ' ')) ++
        (line.text ++ ("\n" ++ rest)) := by
    rw [hrest]
    simp only [String.append_assoc]
  have hfirst : ((ofLines before).text ++
      String.ofList (replicate (2 * line.depth) ' ')).utf8ByteSize =
      (ofLines before).text.utf8ByteSize + 2 * line.depth := by
    rw [String.utf8ByteSize_append, utf8ByteSize_blanks]
  rw [htext, String.utf8ByteSize_append, hfirst, String.utf8ByteSize_append]
    at hsize
  unfold textAt?
  rw [hfold, get?_foldl_push hlast, get?_push, if_pos ⟨rfl, hsite⟩, ← hfold,
    htext]
  simp only [Option.bind_some, low32]
  rw [Nat.mod_eq_of_lt (by omega), Nat.mod_eq_of_lt (by omega), ← hfirst,
    fromUTF8?_extract_append]

theorem textAt?_of_count
    (hin : line ∈ lines) (hsite : line.site ≠ .nowhere)
    (honce : (Line.sites lines).count line.site ≤ 1)
    (hsize : (ofLines lines).text.utf8ByteSize < limit32) :
    (ofLines lines).textAt? line.site = some line.text := by
  obtain ⟨before, after, rfl⟩ := append_of_mem hin
  apply textAt?_of_last hsite _ hsize
  intro hagain
  have hpos := count_pos_iff.mpr hagain
  rw [Line.sites_append, Line.sites_cons hsite, count_append, count_cons_self]
    at honce
  omega

end Listing

/-! ## The lines of a kernel -/

def Kernel.lineText (k : Kernel) : Op → String
  | .step s => (k.stepLine 0 s).text
  | .loop head _ => (Kernel.loopLine 0 head).text

def Kernel.names (k : Kernel) : List String := k.tiles.toList.map (·.name)

variable {k : Kernel}

theorem Kernel.sites_scheduleLines
    {schedule : Option StagedLoop}
    (h : scheduleLines depth schedule = .ok lines) : Line.sites lines = [] := by
  cases schedule with
  | none =>
      cases h
      rfl
  | some l =>
      obtain ⟨texts, _, h⟩ := bind_eq_ok h
      cases h
      simp [Line.sites]

theorem Kernel.sites_bodyLines
    {body : Body} (h : k.bodyLines depth body = .ok lines) :
    Line.sites lines = body.ops.map fun op => .op op.id := by
  induction body generalizing depth lines with
  | done =>
      cases h
      rfl
  | step s rest ih =>
      obtain ⟨after, hafter, h⟩ := bind_eq_ok h
      cases h
      rw [Line.sites_cons (by simp [stepLine]), ih hafter]
      rfl
  | loop head body rest ihbody ihrest =>
      obtain ⟨inner, schedule, after, hinner, hschedule, hafter, rfl⟩ :=
        bodyLines_loop_eq_ok h
      rw [Line.sites_cons (by simp [loopLine]), Line.sites_append,
        Line.sites_append, ihbody hinner, sites_scheduleLines hschedule,
        ihrest hafter]
      simp [Body.ops, loopLine, Op.id]

theorem Kernel.exists_line_of_mem_ops
    {body : Body} (h : k.bodyLines depth body = .ok lines) {op : Op}
    (hop : op ∈ body.ops) :
    ∃ line ∈ lines, line.site = .op op.id ∧ line.text = k.lineText op := by
  induction body generalizing depth lines with
  | done => cases hop
  | step s rest ih =>
      obtain ⟨after, hafter, h⟩ := bind_eq_ok h
      cases h
      rcases mem_cons.mp hop with rfl | hlater
      · exact ⟨_, mem_cons_self, rfl, rfl⟩
      · obtain ⟨line, hline, hspec⟩ := ih hafter hlater
        exact ⟨line, mem_cons_of_mem _ hline, hspec⟩
  | loop head body rest ihbody ihrest =>
      obtain ⟨inner, schedule, after, hinner, hschedule, hafter, rfl⟩ :=
        bodyLines_loop_eq_ok h
      rcases mem_cons.mp hop with rfl | hlater
      · exact ⟨_, mem_cons_self, rfl, rfl⟩
      · rcases mem_append.mp hlater with hin | hin
        · obtain ⟨line, hline, hspec⟩ := ihbody hinner hin
          exact ⟨line, by simp [hline], hspec⟩
        · obtain ⟨line, hline, hspec⟩ := ihrest hafter hin
          exact ⟨line, by simp [hline], hspec⟩

/-- The sites of a kernel: its header, its tiles and its operations. -/
def Kernel.sites (k : Kernel) : List Site :=
  .kernel :: (k.names.map .tile ++ k.ops.map fun op => .op op.id)

theorem Kernel.length_sites (k : Kernel) :
    k.sites.length = 1 + k.tiles.size + k.ops.length := by
  simp [sites, names]
  omega

theorem Kernel.nodup_sites_iff (k : Kernel) :
    k.sites.Nodup ↔ k.names.Nodup ∧ (k.ops.map Op.id).Nodup := by
  have htile : Function.Injective Site.tile := fun _ _ h => Site.tile.inj h
  have hop : Function.Injective Site.op := fun _ _ h => Site.op.inj h
  have hops : (k.ops.map fun op => Site.op op.id) =
      (k.ops.map Op.id).map .op := by
    simp
  unfold sites
  rw [nodup_cons, nodup_append, hops, nodup_map_iff htile, nodup_map_iff hop]
  simp

theorem Kernel.count_op_sites_le (hids : (k.ops.map Op.id).Nodup) (id : OpId) :
    k.sites.count (.op id) ≤ 1 := by
  have hop : Function.Injective Site.op := fun _ _ h => Site.op.inj h
  have hops : (k.ops.map fun op => Site.op op.id) =
      (k.ops.map Op.id).map .op := by
    simp
  have htiles : (k.names.map Site.tile).count (.op id) = 0 := by
    simp [count_eq_zero]
  unfold sites
  rw [count_cons_of_ne (by simp), count_append, htiles, Nat.zero_add, hops]
  exact nodup_iff_count_le_one.mp (hids.map hop) _

theorem Kernel.exists_lines_of_listing (h : k.listing = .ok listing) :
    ∃ lines, listing = Listing.ofLines lines ∧ Line.sites lines = k.sites ∧
      k.headerLine ∈ lines ∧
      (∀ t ∈ k.tiles, ⟨1, .tile t.name, t.text⟩ ∈ lines) ∧
      ∀ op ∈ k.ops,
        ∃ line ∈ lines, line.site = .op op.id ∧ line.text = k.lineText op := by
  obtain ⟨body, hbody, rfl⟩ := listing_eq_ok h
  refine ⟨_, rfl, ?_, mem_cons_self, ?_, ?_⟩
  · rw [Line.sites_cons (by simp [headerLine]), Line.sites_append,
      sites_bodyLines hbody]
    have htiles :
        Line.sites (k.tiles.toList.map fun t => ⟨1, .tile t.name, t.text⟩) =
        k.names.map .tile := by
      unfold Line.sites names
      rw [filter_eq_self.mpr (by simp)]
      simp
    rw [htiles]
    rfl
  · intro t ht
    apply mem_cons_of_mem
    apply mem_append_left
    exact mem_map.mpr ⟨t, by simpa using ht, rfl⟩
  · intro op hop
    obtain ⟨line, hline, hspec⟩ := exists_line_of_mem_ops hbody hop
    exact ⟨line, mem_cons_of_mem _ (mem_append_right _ hline), hspec⟩

/-- A listing records the header, the tiles and the operations, and nothing
else. -/
theorem Kernel.recorded_iff_mem_sites
    (h : k.listing = .ok listing) (site : Site) :
    (listing.spans.get? site).isSome ↔ site ∈ k.sites := by
  obtain ⟨lines, rfl, hsites, _⟩ := exists_lines_of_listing h
  rw [Listing.recorded_ofLines, hsites]

theorem Kernel.size_spans (h : k.listing = .ok listing) :
    listing.spans.size = k.sites.toFinset.card := by
  obtain ⟨lines, rfl, hsites, _⟩ := exists_lines_of_listing h
  rw [Listing.size_spans_ofLines, hsites]

/-- Every line with a site has a span of its own exactly if names and numbers
are distinct. -/
theorem Kernel.size_spans_eq_iff (h : k.listing = .ok listing) :
    listing.spans.size = 1 + k.tiles.size + k.ops.length ↔
      k.names.Nodup ∧ (k.ops.map Op.id).Nodup := by
  rw [size_spans h, ← length_sites, ← nodup_sites_iff]
  exact Multiset.toFinset_card_eq_card_iff_nodup

end TileProgram
