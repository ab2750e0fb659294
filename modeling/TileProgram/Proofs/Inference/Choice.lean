import TileProgram.Proofs.Inference.Redirects

/-!
# Layouts that plans choose

A layout in shared memory is chosen among the candidates and serves the patterns
it was asked for without bank conflicts.  A layout in registers is the one that
the patterns demand, or deals the elements to the threads.  A plan gives every
operation one layout of the tile to see, its own or that of a twin: in shared
memory that layout serves all that the operation does with the tile, and in
registers it is a layout that some use of the operation asks for.
-/

namespace TileProgram

open Inference List

variable {shape : Shape} {l layout : Layout} {patterns : List AccessPattern}
  {ops : List (OpId × List AccessPattern)} {twins : List Twin}
  {uses : List TileUse} {op : OpId} {plan : TilePlan} {seen : List OpId}
  {t : Tile} {req : LayoutRequest} {target : Target}

/-! ## Candidates -/

theorem mem_of_find?
    {α : Type} {test : α → Checked Bool} {l : List α} {a : α}
    (h : Checked.find? test l = .ok (some a)) : a ∈ l := by
  induction l with
  | nil => cases h
  | cons first rest ih =>
      obtain ⟨passes, _, h⟩ := bind_eq_ok h
      cases passes with
      | true =>
          cases h
          exact mem_cons_self
      | false => exact mem_cons_of_mem _ (ih h)

namespace Layout

/-- A layout that may be tried in shared memory. -/
inductive Candidate (shape : Shape) : Layout → Prop where
  | rowMajor : Candidate shape (.rowMajor shape)
  | swizzled (s : Swizzle) (h : isWellFormed ⟨shape, .swizzled s⟩ = .ok true) :
      Candidate shape ⟨shape, .swizzled s⟩
  | padded (pad : Nat) : Candidate shape ⟨shape, .padded pad⟩

theorem candidate_of_mem
    {type : ElementType} {candidates : List Layout}
    (h : sharedCandidates shape type = .ok candidates) (hl : l ∈ candidates) :
    Candidate shape l := by
  unfold sharedCandidates at h
  obtain ⟨swizzled, hswizzled, h⟩ := bind_eq_ok h
  cases h
  rcases mem_append.mp hl with hl | hl
  · rcases mem_cons.mp hl with rfl | hl
    · exact .rowMajor
    · obtain ⟨hin, hwf⟩ := mem_of_filterM hswizzled hl
      obtain ⟨s, _, rfl⟩ := mem_map.mp hin
      exact .swizzled s hwf
  · obtain ⟨pad, _, rfl⟩ := mem_map.mp hl
    exact .padded pad

theorem Candidate.shape_eq (h : Candidate shape l) : l.shape = shape := by
  cases h <;> rfl

theorem Candidate.isFragment_eq (h : Candidate shape l) :
    l.isFragment = false := by
  cases h <;> rfl

def ConflictFree
    (l : Layout) (p : AccessPattern) (elementBytes : Nat) (target : Target) :
    Prop :=
  ∃ degree, l.conflictDegree p elementBytes target = .ok degree ∧ degree ≤ 1

theorem conflictFree_of_worstDegree
    {bytes worst : Nat} (h : l.worstDegree patterns bytes target = .ok worst)
    (hworst : worst ≤ 1) {p : AccessPattern} (hp : p ∈ patterns) :
    l.ConflictFree p bytes target := by
  unfold worstDegree at h
  obtain ⟨degrees, hdegrees, h⟩ := bind_eq_ok h
  cases h
  obtain ⟨degree, hin, hdegree⟩ := exists_of_mapM_eq_ok hdegrees hp
  have hle : ∀ (degrees : List Nat) (start : Nat),
      degree ∈ degrees ∨ degree ≤ start → degree ≤ degrees.foldl max start := by
    intro degrees
    induction degrees with
    | nil =>
        intro start hstart
        exact hstart.resolve_left (by simp)
    | cons first rest ih =>
        intro start hstart
        apply ih
        rcases hstart with hin | hstart
        · rcases mem_cons.mp hin with rfl | hin
          · exact Or.inr (Nat.le_max_right _ _)
          · exact Or.inl hin
        · exact Or.inr (Nat.le_trans hstart (Nat.le_max_left _ _))
  exact ⟨degree, hdegree, Nat.le_trans (hle degrees 0 (Or.inl hin)) hworst⟩

end Layout

/-! ## Resolved layouts -/

namespace LayoutRequest

theorem resolveShared_eq_ok (h : req.resolveShared patterns target = .ok l) :
    l.Candidate req.shape ∧ ∀ p ∈ patterns,
      l.ConflictFree p req.type.bytes target := by
  unfold resolveShared at h
  obtain ⟨candidates, hcandidates, h⟩ := bind_eq_ok h
  obtain ⟨graded, hgraded, h⟩ := bind_eq_ok h
  obtain ⟨found, hfound, h⟩ := bind_eq_ok h
  have hfree : l ∈ (graded.filter (·.2 ≤ 1)).map (·.1) := by
    cases found with
    | some found =>
        cases h
        exact mem_of_find? (lift_eq_ok_iff.mp hfound)
    | none =>
        simp only at h
        generalize (graded.filter (·.2 ≤ 1)).map (·.1) = free at h ⊢
        cases free with
        | nil => cases h
        | cons first rest =>
            cases h
            exact mem_cons_self
  obtain ⟨⟨l', worst⟩, hin, rfl⟩ := mem_map.mp hfree
  obtain ⟨hin, hworst⟩ := mem_filter.mp hin
  obtain ⟨candidate, hcandidate, hgrade⟩ := exists_of_mem_mapM hgraded hin
  obtain ⟨degree, hdegree, hgrade⟩ := bind_eq_ok hgrade
  cases hgrade
  refine ⟨Layout.candidate_of_mem (lift_eq_ok_iff.mp hcandidates) hcandidate,
    fun p hp => ?_⟩
  exact Layout.conflictFree_of_worstDegree (lift_eq_ok_iff.mp hdegree)
    (of_decide_eq_true hworst) hp

theorem demandedRegisters_eq_ok
    {exact found : Option RegisterLayout}
    (h : req.demandedRegisters patterns exact = .ok found) :
    (∀ f, exact = some f → found = some f) ∧
      (∀ f, .operand f ∈ patterns → found = some f) ∧
      ∀ f, found = some f → exact = some f ∨ .operand f ∈ patterns := by
  fun_induction demandedRegisters req patterns exact with
  | case1 exact =>
      cases h
      simp
  | case2 f rest first hne => cases h
  | case3 f rest first heq ih =>
      obtain ⟨hexact, hrest, hfound⟩ := ih h
      have hfirst : first = f := not_not.mp heq
      refine ⟨?_, ?_, ?_⟩
      · rintro _ ⟨⟩
        exact hfirst ▸ hexact f rfl
      · intro g hg
        rcases mem_cons.mp hg with heq | hg
        · cases heq
          exact hexact _ rfl
        · exact hrest g hg
      · intro g hg
        rcases hfound g hg with heq | hin
        · exact Or.inl (hfirst ▸ heq)
        · exact Or.inr (mem_cons_of_mem _ hin)
  | case4 f rest ih =>
      obtain ⟨hexact, hrest, hfound⟩ := ih h
      refine ⟨by simp, ?_, ?_⟩
      · intro g hg
        rcases mem_cons.mp hg with heq | hg
        · cases heq
          exact hexact _ rfl
        · exact hrest g hg
      · intro g hg
        rcases hfound g hg with heq | hin
        · cases heq
          exact Or.inr mem_cons_self
        · exact Or.inr (mem_cons_of_mem _ hin)
  | case5 exact p rest hother ih =>
      obtain ⟨hexact, hrest, hfound⟩ := ih h
      refine ⟨hexact, ?_, ?_⟩
      · intro g hg
        rcases mem_cons.mp hg with heq | hg
        · exact (hother g heq.symm).elim
        · exact hrest g hg
      · intro g hg
        rcases hfound g hg with heq | hin
        · exact Or.inl heq
        · exact Or.inr (mem_cons_of_mem _ hin)

theorem resolveFragment_eq_ok (h : req.resolveFragment patterns = .ok l) :
    ∃ f, l = ⟨req.shape, .fragment f⟩ ∧ l.isWellFormed = .ok true ∧
      (∀ g, .operand g ∈ patterns → g = f) ∧
      (.operand f ∈ patterns ∨ ∃ threads vector,
        f = .striped threads vector) := by
  unfold resolveFragment at h
  obtain ⟨found, hfound, h⟩ := bind_eq_ok h
  obtain ⟨wellFormed, hwf, h⟩ := bind_eq_ok h
  obtain ⟨_, hall, hsource⟩ := demandedRegisters_eq_ok hfound
  cases wellFormed with
  | false => cases h
  | true =>
      cases h
      refine ⟨_, rfl, lift_eq_ok_iff.mp hwf, ?_, ?_⟩
      · intro g hg
        rw [hall g hg]
      · cases found with
        | some f => exact Or.inl ((hsource f rfl).resolve_left (by simp))
        | none => exact Or.inr ⟨_, _, rfl⟩

theorem resolve_eq_ok (h : req.resolve patterns target = .ok l) :
    l.shape = req.shape ∧ match req.scope with
      | .global => l = .rowMajor req.shape
      | .shared =>
          l.Candidate req.shape ∧ ∀ p ∈ patterns,
            l.ConflictFree p req.type.bytes target
      | .fragment => ∃ f,
        l = ⟨req.shape, .fragment f⟩ ∧ l.isWellFormed = .ok true ∧
          (∀ g, .operand g ∈ patterns → g = f) ∧
          (.operand f ∈ patterns ∨ ∃ threads vector,
            f = .striped threads vector) := by
  unfold resolve at h
  split at h
  · cases h
  · cases hscope : req.scope with
    | global =>
        simp only [hscope] at h
        cases h
        exact ⟨rfl, rfl⟩
    | shared =>
        simp only [hscope] at h
        obtain ⟨hcandidate, hfree⟩ := resolveShared_eq_ok h
        exact ⟨hcandidate.shape_eq, hcandidate, hfree⟩
    | fragment =>
        simp only [hscope] at h
        obtain ⟨f, rfl, hspec⟩ := resolveFragment_eq_ok h
        exact ⟨rfl, f, rfl, hspec⟩

end LayoutRequest

/-! ## Groups in shared memory -/

/-- What a group has come to after some operations: all that joined is served by
its layout, and the others are left. -/
structure Grouped
    (req : LayoutRequest) (target : Target)
    (ops : List (OpId × List AccessPattern)) (g : Grouping) : Prop where
  resolved : ops ≠ [] →
    ∃ l, g.layout = some l ∧ req.resolve g.patterns target = .ok l
  joined : ∀ op ∈ ops, op.1 ∈ g.members ∧ op.2 ⊆ g.patterns ∨ op ∈ g.left
  left_le : g.left.length + g.members.length = ops.length
  first : ops ≠ [] → g.members ≠ []

theorem Grouped.extend
    {g g' : Grouping} {op : OpId × List AccessPattern}
    (hg : Grouped req target ops g) (h : g.extend req target op = .ok g') :
    Grouped req target (ops ++ [op]) g' := by
  simp only [Grouping.extend] at h
  split at h
  · next l hresolve =>
      cases h
      refine ⟨fun _ => ⟨l, rfl, hresolve⟩, ?_, ?_, by simp⟩
      · intro op' hop'
        rcases mem_append.mp hop' with hold | hnew
        · rcases hg.joined op' hold with ⟨hin, hsub⟩ | hleft
          · exact Or.inl ⟨mem_append_left _ hin,
              fun p hp => mem_append_left _ (hsub hp)⟩
          · exact Or.inr hleft
        · rw [mem_singleton.mp hnew]
          exact Or.inl ⟨mem_append_right _ (mem_singleton_self _),
            fun p hp => mem_append_right _ hp⟩
      · have hlength := hg.left_le
        simp only [length_append, length_singleton]
        omega
  · split at h
    · cases h
    · next hmembers =>
        cases h
        have hnonempty : ops ≠ [] := by
          rintro rfl
          have hlength := hg.left_le
          simp only [length_nil, Nat.add_eq_zero_iff, length_eq_zero_iff]
            at hlength
          simp [hlength.2] at hmembers
        refine ⟨fun _ => hg.resolved hnonempty, ?_, ?_,
          fun _ => hg.first hnonempty⟩
        · intro op' hop'
          rcases mem_append.mp hop' with hold | hnew
          · rcases hg.joined op' hold with hin | hleft
            · exact Or.inl hin
            · exact Or.inr (mem_append_left _ hleft)
          · exact Or.inr (mem_append_right _ hnew)
        · have hlength := hg.left_le
          simp only [length_append, length_singleton]
          omega
  · cases h

theorem Grouped.foldlM
    {done : List (OpId × List AccessPattern)} {g g' : Grouping}
    (hg : Grouped req target done g)
    (h : ops.foldlM (Grouping.extend req target) g = .ok g') :
    Grouped req target (done ++ ops) g' := by
  induction ops generalizing done g with
  | nil =>
      cases h
      rwa [append_nil]
  | cons op rest ih =>
      rw [foldlM_cons] at h
      obtain ⟨mid, hmid, h⟩ := bind_eq_ok h
      have hrest := ih (hg.extend hmid) h
      rwa [append_assoc] at hrest

theorem grouped_none : Grouped req target [] ⟨[], [], none, []⟩ :=
  ⟨by simp, by simp, rfl, by simp⟩

/-- The twin has a layout for some patterns, those of an operation among
them. -/
def Serves
    (req : LayoutRequest) (target : Target) (twin : Twin)
    (op : OpId × List AccessPattern) : Prop :=
  op.1 ∈ twin.ops ∧ ∃ patterns,
    req.resolve patterns target = .ok twin.layout ∧ op.2 ⊆ patterns

theorem groupOps_serves
    {fuel : Nat} (hfuel : ops.length ≤ fuel)
    (h : groupOps req target fuel ops = .ok twins) :
    (∀ op ∈ ops, ∃ twin ∈ twins, Serves req target twin op) ∧
      ∀ twin ∈ twins,
        ∃ patterns, req.resolve patterns target = .ok twin.layout := by
  induction fuel generalizing ops twins with
  | zero =>
      obtain rfl := eq_nil_of_length_eq_zero (Nat.le_zero.mp hfuel)
      cases h
      simp
  | succ fuel ih =>
      cases ops with
      | nil =>
          cases h
          simp
      | cons first others =>
          simp only [groupOps] at h
          obtain ⟨g, hg, h⟩ := bind_eq_ok h
          obtain ⟨rest, hrest, h⟩ := bind_eq_ok h
          have hgrouped := grouped_none.foldlM hg
          rw [nil_append] at hgrouped
          obtain ⟨l, hlayout, hresolve⟩ := hgrouped.resolved (by simp)
          -- the first operation has joined, so fewer are left than there is
          -- fuel
          have hleft : g.left.length ≤ fuel := by
            have hlength := hgrouped.left_le
            have hfirst := length_pos_of_ne_nil (hgrouped.first (by simp))
            omega
          obtain ⟨hserved, hresolved⟩ := ih hleft hrest
          simp only [hlayout] at h
          cases h
          refine ⟨?_, ?_⟩
          · intro op hop
            rcases hgrouped.joined op hop with ⟨hin, hsub⟩ | hin
            · exact ⟨_, mem_cons_self, hin, _, hresolve, hsub⟩
            · obtain ⟨twin, htwin, hserves⟩ := hserved op hin
              exact ⟨twin, mem_cons_of_mem _ htwin, hserves⟩
          · intro twin htwin
            rcases mem_cons.mp htwin with rfl | htwin
            · exact ⟨_, hresolve⟩
            · exact hresolved twin htwin

theorem mem_patternsByOp
    {u : TileUse} {p : AccessPattern} (hu : u ∈ uses)
    (hp : u.demand = .pattern p) :
    ∃ patterns, (u.op, patterns) ∈ patternsByOp uses ∧ p ∈ patterns := by
  suffices hlisted : ∀ wanted : List (OpId × AccessPattern),
      (u.op, p) ∈ wanted →
      ∃ patterns, (u.op, patterns) ∈ (wanted.map (·.1)).eraseDups.map
        (fun op => (op, (wanted.filter (·.1 == op)).map (·.2))) ∧
        p ∈ patterns from
    hlisted _ (mem_filterMap.mpr ⟨u, hu, by rw [hp]⟩)
  intro wanted hin
  refine ⟨_, mem_map.mpr ⟨u.op, ?_, rfl⟩, ?_⟩
  · exact mem_eraseDups.mpr (mem_map_of_mem hin)
  · exact mem_map.mpr ⟨_, mem_filter.mpr ⟨hin, by simp⟩, rfl⟩

theorem twin_eq_of_mem
    (h : (twinOps twins).Nodup) {twin twin' : Twin} (ht : twin ∈ twins)
    (ht' : twin' ∈ twins) (hop : op ∈ twin.ops) (hop' : op ∈ twin'.ops) :
    twin = twin' := by
  induction twins with
  | nil => cases ht
  | cons first rest ih =>
      rw [twinOps, flatMap_cons, nodup_append] at h
      obtain ⟨_, hrest, hapart⟩ := h
      have hother : ∀ t ∈ rest, op ∈ t.ops → op ∈ first.ops → False :=
        fun t ht hin hfirst =>
        hapart op hfirst op (mem_flatMap.mpr ⟨t, ht, hin⟩) rfl
      rcases mem_cons.mp ht with rfl | hin
      · rcases mem_cons.mp ht' with rfl | hin'
        · rfl
        · exact (hother twin' hin' hop' hop).elim
      · rcases mem_cons.mp ht' with rfl | hin'
        · exact (hother twin hin hop hop').elim
        · exact ih hrest hin hin'

/-! ## The layout that an operation sees -/

def Under (twins : List Twin) (op : OpId) (l : Layout) : Prop :=
  ∃ twin ∈ twins, op ∈ twin.ops ∧ l = twin.layout

def TilePlan.Has (plan : TilePlan) (l : Layout) : Prop :=
  l = plan.layout ∨ ∃ twin ∈ plan.twins, l = twin.layout

/-- An operation sees the tile as the twin it is under, or else as it is. -/
def TilePlan.Sees (plan : TilePlan) (op : OpId) (l : Layout) : Prop :=
  Under plan.twins op l ∨ (∀ twin ∈ plan.twins, op ∉ twin.ops) ∧ l = plan.layout

theorem planShared_serves
    (hscope : req.scope = .shared) (h : planShared req uses target = .ok plan) :
    (∀ l, plan.Has l → l.Candidate req.shape) ∧
      ∀ u ∈ uses, ∀ p, u.demand = .pattern p → ∀ l, plan.Sees u.op l →
        l.ConflictFree p req.type.bytes target := by
  have hresolved : ∀ {patterns l}, req.resolve patterns target = .ok l →
      l.Candidate req.shape ∧ ∀ p ∈ patterns,
        l.ConflictFree p req.type.bytes target := by
    intro patterns l hresolve
    have hspec := (LayoutRequest.resolve_eq_ok hresolve).2
    rwa [hscope] at hspec
  have hnodup : ((patternsByOp uses).map (·.1)).Nodup := by
    unfold patternsByOp
    simp only [List.map_map, Function.comp_def, map_id']
    exact nodup_eraseDups _
  simp only [planShared] at h
  split at h
  · next l hresolve =>
      cases h
      obtain ⟨hcandidate, hfree⟩ := hresolved hresolve
      refine ⟨?_, ?_⟩
      · rintro l' (rfl | ⟨twin, htwin, _⟩)
        · exact hcandidate
        · cases htwin
      · rintro u hu p hp l' (⟨twin, htwin, _⟩ | ⟨_, rfl⟩)
        · cases htwin
        · obtain ⟨patterns, hin, hpin⟩ := mem_patternsByOp hu hp
          exact hfree p (mem_flatMap.mpr ⟨_, hin, hpin⟩)
  · obtain ⟨groups, hgroups, h⟩ := bind_eq_ok h
    obtain ⟨hserved, hall⟩ := groupOps_serves (Nat.le_refl _) hgroups
    have honce := nodup_of_subperm (groupOps_eq_ok hgroups) hnodup
    cases groups with
    | nil =>
        cases h
        refine ⟨?_, ?_⟩
        · rintro l' (rfl | ⟨twin, htwin, _⟩)
          · exact .rowMajor
          · cases htwin
        · intro u hu p hp
          obtain ⟨patterns, hin, _⟩ := mem_patternsByOp hu hp
          obtain ⟨twin, htwin, _⟩ := hserved _ hin
          cases htwin
    | cons first twins =>
        cases h
        have hcandidate : ∀ twin ∈ first :: twins,
            twin.layout.Candidate req.shape := by
          intro twin htwin
          obtain ⟨patterns, hresolve⟩ := hall twin htwin
          exact (hresolved hresolve).1
        refine ⟨?_, ?_⟩
        · rintro l' (rfl | ⟨twin, htwin, rfl⟩)
          · exact hcandidate first mem_cons_self
          · exact hcandidate twin (mem_cons_of_mem _ htwin)
        · intro u hu p hp l' hsees
          obtain ⟨patterns, hin, hpin⟩ := mem_patternsByOp hu hp
          obtain ⟨twin, htwin, hop, trial, hresolve, hsub⟩ := hserved _ hin
          have hlayout : l' = twin.layout := by
            rcases hsees with ⟨twin', htwin', hop', rfl⟩ | ⟨hnone, rfl⟩
            · rw [twin_eq_of_mem honce htwin
                (mem_cons_of_mem _ htwin') hop hop']
            · rcases mem_cons.mp htwin with rfl | hother
              · rfl
              · exact (hnone twin hother hop).elim
          rw [hlayout]
          exact (hresolved hresolve).2 p (hsub hpin)
  · cases h

/-! ## Groups in registers -/

theorem under_cons {first : Twin} {rest : List Twin} :
    Under (first :: rest) op l ↔
      (op ∈ first.ops ∧ l = first.layout) ∨ Under rest op l := by
  unfold Under
  simp

theorem under_addTwin {op' : OpId} :
    Under (addTwin layout op twins) op' l ↔
      (op' = op ∧ l = layout) ∨ Under twins op' l := by
  induction twins with
  | nil => simp [addTwin, Under]
  | cons first rest ih =>
      unfold addTwin
      split
      · next hsame =>
          rw [under_cons, under_cons, ← hsame]
          split
          · next hin =>
              have hin : op ∈ first.ops := by simpa using hin
              constructor
              · exact Or.inr
              · rintro (⟨rfl, hl⟩ | hold)
                · exact Or.inl ⟨hin, hl⟩
                · exact hold
          · rw [mem_append, mem_singleton]
            tauto
      · rw [under_cons, under_cons, ih]
        tauto

theorem under_of_firstGroups (h : Under (firstGroups seen twins) op l) :
    Under twins op l := by
  induction twins generalizing seen with
  | nil => exact h
  | cons first rest ih =>
      simp only [firstGroups] at h
      rw [under_cons]
      split at h
      · exact Or.inr (ih h)
      · rcases under_cons.mp h with ⟨hin, hl⟩ | hrest
        · exact Or.inl ⟨(mem_filter.mp hin).1, hl⟩
        · exact Or.inr (ih hrest)

theorem exists_under_firstGroups (h : Under twins op l) (hnew : op ∉ seen) :
    ∃ l', Under (firstGroups seen twins) op l' := by
  induction twins generalizing seen l with
  | nil => exact ⟨l, h⟩
  | cons first rest ih =>
      simp only [firstGroups]
      by_cases hfirst : op ∈ first.ops
      · have hkept : op ∈ first.ops.filter (!seen.contains ·) :=
          mem_filter.mpr ⟨hfirst, by simpa using hnew⟩
        rw [if_neg (by simpa using ne_nil_of_mem hkept)]
        exact ⟨_, under_cons.mpr (Or.inl ⟨hkept, rfl⟩)⟩
      · have hrest : Under rest op l :=
          (under_cons.mp h).resolve_left fun hin => hfirst hin.1
        have hout : op ∉ seen ++ first.ops.filter (!seen.contains ·) := by
          rw [mem_append]
          rintro (hin | hin)
          · exact hnew hin
          · exact hfirst (mem_filter.mp hin).1
        obtain ⟨l', hl'⟩ := ih hrest hout
        split
        · exact ⟨l', hl'⟩
        · exact ⟨l', under_cons.mpr (Or.inr hl')⟩

theorem exists_under_of_mem_firstGroups
    {twin : Twin} (h : twin ∈ firstGroups seen twins) :
    ∃ op, Under twins op twin.layout := by
  have hops : twin.ops ≠ [] := by
    induction twins generalizing seen with
    | nil => cases h
    | cons first rest ih =>
        simp only [firstGroups] at h
        split at h
        · exact ih h
        · next hkept =>
            rcases mem_cons.mp h with rfl | hin
            · simpa using hkept
            · exact ih hin
  obtain ⟨op, hop⟩ := exists_mem_of_ne_nil _ hops
  exact ⟨op, under_of_firstGroups ⟨twin, h, hop, rfl⟩⟩

/-- What an operation sees in registers is a layout that one of its uses wants,
or the tile's own and none of its uses wants another. -/
theorem planFragment_serves
    (h : planFragment req layout uses target = .ok plan) :
    plan.layout = layout ∧ ∃ run,
      (∀ twin ∈ plan.twins, ∃ u ∈ uses,
        wantedInstead? req layout run target u.demand =
          .ok (some twin.layout)) ∧
      ∀ op l, plan.Sees op l →
        (∃ u ∈ uses, u.op = op ∧
          wantedInstead? req layout run target u.demand = .ok (some l)) ∨
        l = layout ∧ ∀ u ∈ uses, u.op = op →
          wantedInstead? req layout run target u.demand = .ok none := by
  unfold planFragment at h
  obtain ⟨run, _, h⟩ := bind_eq_ok h
  obtain ⟨twins, htwins, h⟩ := bind_eq_ok h
  cases h
  -- the groups hold what the uses so far want, and nothing else
  obtain ⟨hunder, hdefined⟩ :
      (∀ op l, Under twins op l ↔ ∃ u ∈ uses, u.op = op ∧
        wantedInstead? req layout run target u.demand = .ok (some l)) ∧
      ∀ u ∈ uses, ∃ wanted,
        wantedInstead? req layout run target u.demand = .ok wanted := by
    apply foldlM_induct (I := fun done twins => (∀ op l, Under twins op l ↔
        ∃ u ∈ done, u.op = op ∧
          wantedInstead? req layout run target u.demand = .ok (some l)) ∧
      ∀ u ∈ done,
        ∃ wanted, wantedInstead? req layout run target u.demand = .ok wanted) _
      (by simp [Under]) htwins
    rintro done u groups groups' ⟨hunder, hdefined⟩ hstep
    obtain ⟨wanted, hwanted, hstep⟩ := bind_eq_ok hstep
    refine ⟨?_, ?_⟩
    · intro op l
      simp only [mem_append, mem_singleton, or_and_right, exists_or,
        exists_eq_left, hwanted, Except.ok.injEq]
      rw [← hunder]
      cases wanted with
      | none =>
          cases hstep
          simp
      | some wanted =>
          cases hstep
          rw [under_addTwin, Option.some.injEq]
          constructor
          · rintro (⟨rfl, rfl⟩ | hbefore)
            · exact Or.inr ⟨rfl, rfl⟩
            · exact Or.inl hbefore
          · rintro (hbefore | ⟨rfl, rfl⟩)
            · exact Or.inr hbefore
            · exact Or.inl ⟨rfl, rfl⟩
    · intro u' hu'
      rcases mem_append.mp hu' with hbefore | hlast
      · exact hdefined u' hbefore
      · rw [mem_singleton.mp hlast]
        exact ⟨wanted, hwanted⟩
  refine ⟨rfl, run, ?_, ?_⟩
  · intro twin htwin
    obtain ⟨op, hop⟩ := exists_under_of_mem_firstGroups htwin
    obtain ⟨u, hu, _, hwants⟩ := (hunder op _).mp hop
    exact ⟨u, hu, hwants⟩
  · rintro op l (hseen | ⟨hnone, rfl⟩)
    · exact Or.inl ((hunder op l).mp (under_of_firstGroups hseen))
    · refine Or.inr ⟨rfl, fun u hu hop => ?_⟩
      obtain ⟨wanted, hwants⟩ := hdefined u hu
      cases wanted with
      | none => exact hwants
      | some wanted =>
          have hin : Under twins op wanted :=
            (hunder op wanted).mpr ⟨u, hu, hop, hwants⟩
          obtain ⟨l', twin, htwin, hmem, _⟩ :=
            exists_under_firstGroups hin (not_mem_nil)
          exact (hnone twin htwin hmem).elim

/-! ## Plans -/

theorem wantedInstead?_eq_ok
    {run : Nat} {demand : Demand}
    (h : wantedInstead? req layout run target demand = .ok (some l)) :
    ∃ p, req.resolve [p] target = .ok l ∧ ∀ f, p = .operand f →
      demand = .pattern (.operand f) := by
  cases demand with
  | free => cases h
  | vector width =>
      simp only [wantedInstead?] at h
      split at h
      · cases h
      · obtain ⟨exact, hexact, h⟩ := bind_eq_ok h
        cases h
        exact ⟨_, hexact, by simp⟩
  | pattern p =>
      obtain ⟨exact, hexact, h⟩ := bind_eq_ok h
      split at h
      · cases h
      · cases h
        exact ⟨p, hexact, fun f hf => by rw [hf]⟩

theorem wantedInstead?_operand
    {run : Nat} {f : RegisterLayout} {wanted : Option Layout}
    (hscope : req.scope = .fragment)
    (h : wantedInstead? req layout run target (.pattern (.operand f)) =
      .ok wanted) :
    wanted.getD layout = ⟨req.shape, .fragment f⟩ := by
  obtain ⟨exact, hexact, h⟩ := bind_eq_ok h
  have hspec := (LayoutRequest.resolve_eq_ok hexact).2
  simp only [hscope] at hspec
  obtain ⟨g, rfl, _, hall, _⟩ := hspec
  obtain rfl := hall f (mem_singleton_self _)
  split at h
  · next hsame =>
      cases h
      exact hsame.symm
  · cases h
    rfl

theorem operand_of_fragmentPattern
    {f : RegisterLayout} (h : fragmentPattern uses = .operand f) :
    ∃ u ∈ uses, u.demand = .pattern (.operand f) := by
  unfold fragmentPattern at h
  simp only at h
  split at h
  · next g hfound =>
      cases h
      obtain ⟨u, hu, hsome⟩ := exists_of_findSome?_eq_some hfound
      refine ⟨u, hu, ?_⟩
      split at hsome
      · next hdemand =>
          cases hsome
          exact hdemand
      · cases hsome
  · cases h

inductive Layout.Chosen (t : Tile) (uses : List TileUse) : Layout → Prop where
  | candidate {l : Layout} (h : l.Candidate t.shape) : Chosen t uses l
  | declared {l : Layout} (hl : t.declared = some l)
      (h : l.isInjective = .ok true) : Chosen t uses l
  | dealt {threads vector : Nat}
      (h : isWellFormed ⟨t.shape, .fragment (.striped threads vector)⟩ =
        .ok true) :
      Chosen t uses ⟨t.shape, .fragment (.striped threads vector)⟩
  | operand {f : RegisterLayout} {u : TileUse} (hu : u ∈ uses)
      (hdemand : u.demand = .pattern (.operand f))
      (h : isWellFormed ⟨t.shape, .fragment f⟩ = .ok true) :
      Chosen t uses ⟨t.shape, .fragment f⟩

structure Planned
    (t : Tile) (uses : List TileUse) (target : Target) (plan : TilePlan) :
    Prop where
  shape : ∀ l, plan.Has l → l.shape = t.shape
  kind : ∀ l, plan.Has l → l.isFragment = (t.scope == .fragment)
  chosen : ∀ l, plan.Has l → l.Chosen t uses
  conflictFree : t.scope = .shared → t.declared = none →
    ∀ u ∈ uses, ∀ p, u.demand = .pattern p →
    ∀ l, plan.Sees u.op l → l.ConflictFree p t.type.bytes target
  exact : t.scope = .fragment →
    ∀ u ∈ uses, ∀ f, u.demand = .pattern (.operand f) →
    (∀ u' ∈ uses, u'.op = u.op → u'.demand = u.demand) →
    ∀ l, plan.Sees u.op l → l = ⟨t.shape, .fragment f⟩
  declared : t.scope = .shared → t.declared ≠ none → plan.twins = []

theorem planned_own
    {own : Layout} {warnings : List Diagnostic} (hscope : t.scope ≠ .fragment)
    (hdeclared : t.scope = .shared → t.declared ≠ none)
    (hshape : own.shape = t.shape) (hkind : own.isFragment = false)
    (hchosen : own.Chosen t uses) :
    Planned t uses target ⟨own, [], warnings⟩ := by
  have hhas : ∀ l, TilePlan.Has ⟨own, [], warnings⟩ l → l = own := by
    rintro l (rfl | ⟨twin, htwin, _⟩)
    · rfl
    · cases htwin
  refine ⟨?_, ?_, ?_, fun hshared hnone => (hdeclared hshared hnone).elim,
    fun hfragment => (hscope hfragment).elim, fun _ _ => rfl⟩
  · intro l hl
    rw [hhas l hl, hshape]
  · intro l hl
    rw [hhas l hl, hkind]
    simpa using hscope
  · intro l hl
    rw [hhas l hl]
    exact hchosen

theorem planned_global
    {warnings : List Diagnostic} (hscope : t.scope = .global) :
    Planned t uses target ⟨.rowMajor t.shape, [], warnings⟩ :=
  planned_own (by simp [hscope]) (by simp [hscope])
    rfl rfl (.candidate .rowMajor)

theorem checkDeclared_eq_ok
    {declared : Layout} (h : checkDeclared t declared = .ok ()) :
    declared.shape = t.shape ∧ declared.isFragment = (t.scope == .fragment) ∧
      declared.isInjective = .ok true := by
  simp only [checkDeclared] at h
  split at h
  · cases h
  · next hshape =>
      split at h
      · cases h
      · next hkind =>
          obtain ⟨injective, hinjective, h⟩ := bind_eq_ok h
          cases injective with
          | false => cases h
          | true =>
              exact ⟨not_not.mp hshape, not_not.mp hkind,
                lift_eq_ok_iff.mp hinjective⟩

theorem planned_of_planFragment
    {threads : Nat} (hscope : t.scope = .fragment)
    (hshape : layout.shape = t.shape) (hkind : layout.isFragment = true)
    (hchosen : layout.Chosen t uses)
    (h : planFragment ⟨t.name, t.shape, t.type, t.scope,
      threads⟩ layout uses target = .ok plan) : Planned t uses target plan := by
  obtain ⟨hlayout, run, htwins, hsees⟩ := planFragment_serves h
  have hwanted : ∀ twin ∈ plan.twins,
      ∃ f, twin.layout = ⟨t.shape, .fragment f⟩ ∧
      twin.layout.Chosen t uses := by
    intro twin htwin
    obtain ⟨u, hu, hwants⟩ := htwins twin htwin
    obtain ⟨p, hresolve, hpattern⟩ := wantedInstead?_eq_ok hwants
    have hspec := (LayoutRequest.resolve_eq_ok hresolve).2
    simp only [hscope] at hspec
    obtain ⟨f, heq, hwf, _, hsource⟩ := hspec
    refine ⟨f, heq, ?_⟩
    rw [heq] at hwf ⊢
    rcases hsource with hin | ⟨threads, vector, rfl⟩
    · exact .operand hu (hpattern f (mem_singleton.mp hin).symm) hwf
    · exact .dealt hwf
  constructor
  · rintro l (rfl | ⟨twin, htwin, rfl⟩)
    · rw [hlayout, hshape]
    · obtain ⟨f, heq, _⟩ := hwanted twin htwin
      rw [heq]
  · rintro l (rfl | ⟨twin, htwin, rfl⟩)
    · rw [hlayout, hkind, hscope]
      rfl
    · obtain ⟨f, heq, _⟩ := hwanted twin htwin
      rw [heq, hscope]
      rfl
  · rintro l (rfl | ⟨twin, htwin, rfl⟩)
    · rw [hlayout]
      exact hchosen
    · obtain ⟨_, _, hchosen⟩ := hwanted twin htwin
      exact hchosen
  · intro hshared
    rw [hscope] at hshared
    cases hshared
  · intro _ u hu f hdemand hsame l hseen
    rcases hsees u.op l hseen with ⟨u', hu', hop, hwants⟩ | ⟨rfl, hnone⟩
    · rw [hsame u' hu' hop, hdemand] at hwants
      exact wantedInstead?_operand hscope hwants
    · have hwants := hnone u hu rfl
      rw [hdemand] at hwants
      exact wantedInstead?_operand hscope hwants
  · intro hshared
    rw [hscope] at hshared
    cases hshared

theorem planned_of_planUsed
    {k : Kernel} {t : Tile} {uses : List TileUse} {plan : TilePlan}
    (h : planUsed k t uses target = .ok plan) : Planned t uses target plan := by
  unfold planUsed at h
  obtain ⟨threads, _, h⟩ := bind_eq_ok h
  cases hscope : t.scope with
  | global =>
      cases hdeclared : t.declared with
      | some declared =>
          simp only [hscope, hdeclared] at h
          split at h
          · cases h
          · cases h
            exact planned_global hscope
      | none =>
          simp only [hscope, hdeclared] at h
          cases h
          exact planned_global hscope
  | shared =>
      cases hdeclared : t.declared with
      | some declared =>
          simp only [hscope, hdeclared] at h
          obtain ⟨_, hcheck, h⟩ := bind_eq_ok h
          obtain ⟨warnings, _, h⟩ := bind_eq_ok h
          cases h
          obtain ⟨hshape, hkind, hinjective⟩ := checkDeclared_eq_ok hcheck
          rw [hscope] at hkind
          exact planned_own (by simp [hscope]) (by simp [hdeclared]) hshape
            hkind (.declared hdeclared hinjective)
      | none =>
          simp only [hscope, hdeclared] at h
          obtain ⟨hcandidate, hfree⟩ := planShared_serves rfl h
          refine ⟨fun l hl => (hcandidate l hl).shape_eq, ?_,
            fun l hl => .candidate (hcandidate l hl),
            fun _ _ => hfree, ?_, fun _ hsome => (hsome hdeclared).elim⟩
          · intro l hl
            rw [(hcandidate l hl).isFragment_eq, hscope]
            rfl
          · intro hfragment
            rw [hscope] at hfragment
            cases hfragment
  | fragment =>
      cases hdeclared : t.declared with
      | some declared =>
          simp only [hscope, hdeclared] at h
          obtain ⟨_, hcheck, h⟩ := bind_eq_ok h
          obtain ⟨hshape, hkind, hinjective⟩ := checkDeclared_eq_ok hcheck
          rw [← hscope] at h
          refine planned_of_planFragment hscope hshape ?_
            (.declared hdeclared hinjective) h
          rw [hkind, hscope]
          rfl
      | none =>
          simp only [hscope, hdeclared] at h
          obtain ⟨layout, hresolve, h⟩ := bind_eq_ok h
          obtain ⟨hshape, f, rfl, hwf, _, hsource⟩ :=
            LayoutRequest.resolve_eq_ok hresolve
          rw [← hscope] at h
          refine planned_of_planFragment hscope hshape rfl ?_ h
          rcases hsource with hin | ⟨threads, vector, rfl⟩
          · obtain ⟨u, hu, hdemand⟩ :=
              operand_of_fragmentPattern (mem_singleton.mp hin).symm
            exact .operand hu hdemand hwf
          · exact .dealt hwf

theorem planned_of_planTile
    {k : Kernel} {t : Tile} {uses : List TileUse} {plan : TilePlan}
    (h : planTile k t uses target = .ok plan) : Planned t uses target plan := by
  unfold planTile at h
  split at h
  · split at h
    · next hglobal =>
        cases h
        exact planned_global hglobal
    · cases h
  · exact planned_of_planUsed (within_eq_ok_iff.mp h)

end TileProgram
