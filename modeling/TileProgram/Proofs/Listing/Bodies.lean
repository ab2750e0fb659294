import TileProgram.Proofs.Listing.Lines
import TileProgram.Proofs.Run

/-!
# Bodies in listings

Lines that list two bodies alike, one after another and one inside another, list
bodies that run alike in sequence.  The schedules in between are passed over.
-/

namespace TileProgram

open List

variable {depth : Nat} {head : Loop} {body : Body} {lines : List Line}
  {schedule : Option StagedLoop} {t : List (Nat × String)}

def Op.IsNamed : Op → Prop
  | step s => s.op.IsNamed ∧ ∀ strategy ∈ s.strategy, strategy.IsNamed
  | loop head _ =>
      IsVariable head.var ∧ ∀ strategy ∈ head.strategy, strategy.IsNamed

instance (op : Op) : Decidable op.IsNamed := by
  cases op <;> unfold Op.IsNamed <;> infer_instance

/-! ## Lines of operations -/

theorem TileOp.lacks_mnemonic (op : TileOp) :
    Lacks [' ', '.'] op.mnemonic.toList := by
  have hnames : ∀ name ∈ ["alloc", "copy", "fill", "parallel", "gemm", "reduce",
      "relayout"], Lacks [' ', '.'] name.toList := by
    decide
  apply hnames
  cases op <;> simp [TileOp.mnemonic]

theorem TileOp.mnemonic_ne (op : TileOp) : op.mnemonic ≠ "pipelined" := by
  cases op <;> simp [TileOp.mnemonic]

theorem Kernel.stopsAt_opRest (k : Kernel) (op : TileOp) (s : List Char) :
    StopsAt [' ', '.'] (k.opRest op ++ s) := by
  have hblank : ' ' ∈ [' ', '.'] := mem_cons_self
  have hdot : '.' ∈ [' ', '.'] := by decide
  cases op with
  | reduce => exact stopsAt_cons hdot _
  | alloc | copy | fill | parallel | gemm | relayout =>
      exact stopsAt_cons hblank _

theorem trailer_strategyText (s : Option Strategy) :
    Trailer (Kernel.strategyText s).toList := by
  cases s with
  | none => exact .inl rfl
  | some strategy =>
      refine .inr ⟨';' :: ' ' :: strategy.text.toList, ?_⟩
      simp [Kernel.strategyText]

theorem Kernel.toList_stepLine (k : Kernel) (depth : Nat) (s : Step) :
    (k.stepLine depth s).text.toList = '%' :: (s.id.number.repr.toList ++ ' ' ::
      (s.op.mnemonic.toList ++
        (k.opRest s.op ++ (strategyText s.strategy).toList))) := by
  simp [Kernel.stepLine, OpId.text, Kernel.toList_opText]

theorem Kernel.toList_loopLine (depth : Nat) (head : Loop) :
    (Kernel.loopLine depth head).text.toList =
      '%' :: (head.id.number.repr.toList ++ ' ' ::
      ("pipelined".toList ++
        ' ' :: (head.var.toList ++ ' ' :: ("in 0..".toList ++
        (head.tripCount.repr.toList ++
          ' ' :: ("stages=".toList ++ (head.stages.repr.toList ++
          (strategyText head.strategy).toList))))))) := by
  simp [Kernel.loopLine, OpId.text]

theorem lineWord_eq
    {n n' : Nat} {w w' r r' : List Char} (hw : Lacks [' ', '.'] w)
    (hw' : Lacks [' ', '.'] w') (hr : StopsAt [' ', '.'] r)
    (hr' : StopsAt [' ', '.'] r')
    (h : '%' :: (n.repr.toList ++ ' ' :: (w ++ r)) =
      '%' :: (n'.repr.toList ++ ' ' :: (w' ++ r'))) : w = w' ∧ r = r' := by
  have hread := Legible.literal ['%']
    (Legible.append_mark (mem_singleton_self ' ') []
      (Legible.nat (by decide) n n') (Legible.word hw hw'))
  rcases hread r r' hr hr' (by simpa using h) with ⟨⟨_, hword⟩, hrest⟩
  exact ⟨hword, hrest⟩

section

variable {k k' : Kernel}

theorem Kernel.SameTable.eval_eq_of_stepLine
    {α : Type} [Element α] (h : k.SameTable k') {s s' : Step}
    (htiles : ∀ t ∈ s.op.tiles, k.Has t) (htiles' : ∀ t ∈ s'.op.tiles, k'.Has t)
    (hs : s.op.IsNamed) (hs' : s'.op.IsNamed) {depth' : Nat}
    (heq : (k.stepLine depth s).text = (k'.stepLine depth' s').text)
    (m : Memory α) (env : Bindings) :
    s.op.eval k m env = s'.op.eval k' m env := by
  have hchars := congrArg String.toList heq
  rw [toList_stepLine, toList_stepLine] at hchars
  rcases lineWord_eq s.op.lacks_mnemonic s'.op.lacks_mnemonic
    (k.stopsAt_opRest _ _) (k'.stopsAt_opRest _ _) hchars with ⟨hname, hrest⟩
  exact (h.opRest_legible htiles htiles' hs hs' (String.toList_inj.mp hname) _ _
    (trailer_strategyText _) (trailer_strategyText _) hrest).1 m env

theorem Kernel.stepLine_ne_loopLine
    (s : Step) (head : Loop) (depth depth' : Nat) :
    (k.stepLine depth s).text ≠ (loopLine depth' head).text := by
  intro heq
  have hchars := congrArg String.toList heq
  rw [toList_stepLine, toList_loopLine] at hchars
  have hname := (lineWord_eq s.op.lacks_mnemonic (by decide)
    (k.stopsAt_opRest _ _) (stopsAt_cons mem_cons_self _) hchars).1
  exact s.op.mnemonic_ne (String.toList_inj.mp hname)

theorem Kernel.loop_eq_of_loopLine
    {head' : Loop} (hvar : IsVariable head.var) (hvar' : IsVariable head'.var)
    {depth' : Nat}
    (heq : (loopLine depth head).text = (loopLine depth' head').text) :
    head.var = head'.var ∧ head.tripCount = head'.tripCount := by
  have hchars := congrArg String.toList heq
  rw [toList_loopLine, toList_loopLine] at hchars
  have hrest := (lineWord_eq (by decide) (by decide)
    (stopsAt_cons mem_cons_self _) (stopsAt_cons mem_cons_self _) hchars).2
  have htrip : Legible (fun _ => True) _ _ _ :=
    Legible.append_mark (mem_singleton_self ' ') []
      (Legible.nat (by decide) head.tripCount head'.tripCount) (Legible.nil _)
  have hname : Legible (StopsAt [' ']) head.var.toList head'.var.toList _ :=
    Legible.word (hvar.plain.lacks (by decide)) (hvar'.plain.lacks (by decide))
  have hread := Legible.literal [' ']
    (Legible.append_mark (mem_singleton_self ' ') "in 0..".toList hname htrip)
  rcases hread _ _ trivial trivial (by simpa using hrest) with
    ⟨⟨hname, hcount, _⟩, _⟩
  exact ⟨String.toList_inj.mp hname, hcount⟩

/-! ## Nesting -/

/-- What follows a body at a depth: a line further out, or the schedule of the
loop that the body belongs to. -/
def EndsBody (depth : Nat) (t : List (Nat × String)) : Prop :=
  ∀ e ∈ t.head?, e.1 < depth ∨ (e.1 = depth ∧ e.2.toList.head? = some '|')

theorem endsBody_nil (depth : Nat) : EndsBody depth [] := by
  intro e he
  cases he

theorem not_endsBody_cons
    {l : Line} (hdepth : l.depth = depth)
    (htext : l.text.toList.head? = some '%') (t : List (Nat × String)) :
    ¬ EndsBody depth (l.entry :: t) := by
  intro h
  rcases h l.entry rfl with hlt | ⟨_, hbar⟩
  · exact Nat.ne_of_lt hlt hdepth
  · rw [Line.entry, htext] at hbar
    cases hbar

theorem Kernel.head?_stepLine (depth : Nat) (s : Step) :
    (k.stepLine depth s).text.toList.head? = some '%' := by
  rw [toList_stepLine]
  rfl

theorem Kernel.head?_loopLine (depth : Nat) (head : Loop) :
    (loopLine depth head).text.toList.head? = some '%' := by
  rw [toList_loopLine]
  rfl

theorem Kernel.bodyLines_loop_eq_ok
    {rest : Body} (h : k.bodyLines depth (.loop head body rest) = .ok lines) :
    ∃ inner schedule after, k.bodyLines (depth + 1) body = .ok inner ∧
      scheduleLines (depth + 1) head.schedule = .ok schedule ∧
      k.bodyLines depth rest = .ok after ∧
      lines = loopLine depth head :: (inner ++ (schedule ++ after)) := by
  rcases bind_eq_ok h with ⟨inner, hinner, h⟩
  rcases bind_eq_ok h with ⟨schedule, hschedule, h⟩
  rcases bind_eq_ok h with ⟨after, hafter, h⟩
  cases h
  refine ⟨inner, schedule, after, hinner, hschedule, hafter, ?_⟩
  simp

theorem Kernel.scheduleLines_eq_ok
    (h : scheduleLines depth schedule = .ok lines) {l : Line} (hl : l ∈ lines) :
    l.depth = depth ∧ l.text.toList.head? = some '|' ∧ OneLine l.text := by
  cases schedule with
  | none =>
      cases h
      cases hl
  | some s =>
      rcases bind_eq_ok h with ⟨texts, htexts, h⟩
      cases h
      rcases mem_map.mp hl with ⟨text, htext, rfl⟩
      refine ⟨rfl, by simp, ?_⟩
      exact oneLine_append (by simp [OneLine])
        (StagedLoop.oneLine_lines htexts text htext)

theorem Kernel.head_le_of_bodyLines
    (h : k.bodyLines depth body = .ok lines) (ht : EndsBody depth t) :
    ∀ e ∈ (lines.map Line.entry ++ t).head?, e.1 ≤ depth := by
  intro e he
  cases body with
  | done =>
      cases h
      rcases ht e he with hlt | ⟨heq, _⟩
      · exact hlt.le
      · exact heq.le
  | step s rest =>
      rcases bind_eq_ok h with ⟨after, _, h⟩
      cases h
      cases he
      exact Nat.le_refl depth
  | loop head body rest =>
      rcases bodyLines_loop_eq_ok h with ⟨inner, schedule, after, _, _, _, rfl⟩
      cases he
      exact Nat.le_refl depth

theorem Kernel.endsBody_schedule
    {rest : Body} {slines : List Line}
    (hschedule : scheduleLines (depth + 1) schedule = .ok slines)
    (h : k.bodyLines depth rest = .ok lines) (ht : EndsBody depth t) :
    EndsBody (depth + 1)
      (slines.map Line.entry ++ (lines.map Line.entry ++ t)) := by
  intro e he
  cases slines with
  | nil => exact .inl (Nat.lt_succ_of_le (head_le_of_bodyLines h ht e he))
  | cons l slines =>
      rcases scheduleLines_eq_ok hschedule mem_cons_self with ⟨hdepth, hbar, _⟩
      cases he
      exact .inr ⟨hdepth, hbar⟩

/-- The tiles of a body are in the table and its names can be read back. -/
structure Body.Readable (k : Kernel) (body : Body) : Prop where
  closed : body.Closed k
  named : ∀ op ∈ body.ops, op.IsNamed

theorem Body.Readable.mono
    {body' : Body} (h : body.Readable k) (hops : body'.ops ⊆ body.ops) :
    body'.Readable k :=
  ⟨fun s hs => h.closed s (hops hs), fun op hop => h.named op (hops hop)⟩

theorem Body.Readable.rest
    {s : Step} {rest : Body} (h : (Body.step s rest).Readable k) :
    rest.Readable k :=
  h.mono (subset_cons_self _ _)

theorem Body.Readable.inner
    {rest : Body} (h : (Body.loop head body rest).Readable k) :
    body.Readable k :=
  h.mono fun _ hop => mem_cons_of_mem _ (mem_append_left _ hop)

theorem Body.Readable.after
    {rest : Body} (h : (Body.loop head body rest).Readable k) :
    rest.Readable k :=
  h.mono fun _ hop => mem_cons_of_mem _ (mem_append_right _ hop)

theorem Kernel.after_eq_of_schedule
    {schedule' : Option StagedLoop} {rest rest' : Body}
    {slines slines' lines' : List Line}
    (hschedule : scheduleLines (depth + 1) schedule = .ok slines)
    (hschedule' : scheduleLines (depth + 1) schedule' = .ok slines')
    (h : k.bodyLines depth rest = .ok lines)
    (h' : k'.bodyLines depth rest' = .ok lines') {t' : List (Nat × String)}
    (ht : EndsBody depth t) (ht' : EndsBody depth t')
    (heq : slines.map Line.entry ++ (lines.map Line.entry ++ t) =
      slines'.map Line.entry ++ (lines'.map Line.entry ++ t')) :
    lines.map Line.entry ++ t = lines'.map Line.entry ++ t' := by
  have hdepth : ∀ {schedule : Option StagedLoop} {slines : List Line},
      scheduleLines (depth + 1) schedule = .ok slines →
      ∀ e ∈ slines.map Line.entry, e.1 = depth + 1 := by
    intro schedule slines hslines e he
    rcases mem_map.mp he with ⟨l, hl, rfl⟩
    exact (scheduleLines_eq_ok hslines hl).1
  have hout : ∀ {t : List (Nat × String)}, (∀ e ∈ t.head?, e.1 ≤ depth) →
      ∀ e ∈ t.head?, ¬ e.1 = depth + 1 := by
    intro t hle e he heq
    have hbound := hle e he
    omega
  exact (append_inj_of_head (hdepth hschedule) (hdepth hschedule')
    (hout (head_le_of_bodyLines h ht)) (hout (head_le_of_bodyLines h' ht'))
    heq).2

/-- Bodies that are listed alike run alike, and what follows them is listed
alike. -/
theorem Kernel.SameTable.run_eq_of_bodyLines
    {α : Type} [Element α] (h : k.SameTable k') {body' : Body}
    (hbody : body.Readable k) (hbody' : body'.Readable k') {lines' : List Line}
    (hlines : k.bodyLines depth body = .ok lines)
    (hlines' : k'.bodyLines depth body' = .ok lines') {t' : List (Nat × String)}
    (ht : EndsBody depth t) (ht' : EndsBody depth t')
    (heq : lines.map Line.entry ++ t = lines'.map Line.entry ++ t') :
    (∀ m : Machine α, body.run k .sequential m = body'.run k' .sequential m) ∧
      t = t' := by
  induction body generalizing body' depth lines lines' t t' with
  | done =>
      cases hlines
      cases body' with
      | done =>
          cases hlines'
          exact ⟨fun _ => rfl, heq⟩
      | step s' rest' =>
          rcases bind_eq_ok hlines' with ⟨after', _, hlines'⟩
          cases hlines'
          have hend : EndsBody depth (_ :: _) := heq.subst ht
          exact absurd hend (not_endsBody_cons rfl (head?_stepLine depth s') _)
      | loop head' body' rest' =>
          rcases bodyLines_loop_eq_ok hlines' with ⟨_, _, _, _, _, _, rfl⟩
          have hend : EndsBody depth (_ :: _) := heq.subst ht
          exact absurd hend
            (not_endsBody_cons rfl (head?_loopLine depth head') _)
  | step s rest ih =>
      rcases bind_eq_ok hlines with ⟨after, hafter, hlines⟩
      cases hlines
      cases body' with
      | done =>
          cases hlines'
          have hend : EndsBody depth (_ :: _) := heq.symm.subst ht'
          exact absurd hend (not_endsBody_cons rfl (head?_stepLine depth s) _)
      | step s' rest' =>
          rcases bind_eq_ok hlines' with ⟨after', hafter', hlines'⟩
          cases hlines'
          rcases cons.inj heq with ⟨hline, hrest⟩
          have htext : (k.stepLine depth s).text =
              (k'.stepLine depth s').text :=
            congrArg Prod.snd hline
          have heval : ∀ (m : Memory α) env,
              s.op.eval k m env = s'.op.eval k' m env :=
            h.eval_eq_of_stepLine (hbody.closed s mem_cons_self)
              (hbody'.closed s' mem_cons_self) (hbody.named _ mem_cons_self).1
              (hbody'.named _ mem_cons_self).1 htext
          rcases ih hbody.rest hbody'.rest hafter hafter' ht ht' hrest with
            ⟨hrun, htail⟩
          refine ⟨fun m => ?_, htail⟩
          simp only [Body.run, Machine.perform, heval, hrun]
      | loop head' body' rest' =>
          rcases bodyLines_loop_eq_ok hlines' with ⟨_, _, _, _, _, _, rfl⟩
          have htext : (k.stepLine depth s).text =
              (loopLine depth head').text :=
            congrArg Prod.snd (cons.inj heq).1
          exact absurd htext (stepLine_ne_loopLine s head' depth depth)
  | loop head body rest ihbody ihrest =>
      rcases bodyLines_loop_eq_ok hlines with
        ⟨inner, schedule, after, hinner, hschedule, hafter, rfl⟩
      cases body' with
      | done =>
          cases hlines'
          have hend : EndsBody depth (_ :: _) := heq.symm.subst ht'
          exact absurd hend
            (not_endsBody_cons rfl (head?_loopLine depth head) _)
      | step s' rest' =>
          rcases bind_eq_ok hlines' with ⟨after', _, hlines'⟩
          cases hlines'
          have htext : (loopLine depth head).text =
              (k'.stepLine depth s').text :=
            congrArg Prod.snd (cons.inj heq).1
          exact absurd htext.symm (stepLine_ne_loopLine s' head depth depth)
      | loop head' body' rest' =>
          rcases bodyLines_loop_eq_ok hlines' with
            ⟨inner', schedule', after', hinner', hschedule', hafter', rfl⟩
          simp only [map_cons, map_append, cons_append, append_assoc,
            cons.injEq] at heq
          rcases heq with ⟨hline, hrest⟩
          have htext : (loopLine depth head).text =
              (loopLine depth head').text :=
            congrArg Prod.snd hline
          rcases loop_eq_of_loopLine (hbody.named _ mem_cons_self).1
            (hbody'.named _ mem_cons_self).1 htext with ⟨hvar, hcount⟩
          rcases ihbody hbody.inner hbody'.inner hinner hinner'
            (endsBody_schedule hschedule hafter ht)
            (endsBody_schedule hschedule' hafter' ht') hrest
            with ⟨hrun, hrest⟩
          rcases ihrest hbody.after hbody'.after hafter hafter' ht ht'
            (after_eq_of_schedule hschedule hschedule' hafter hafter' ht ht'
              hrest)
            with ⟨hafterRun, htail⟩
          refine ⟨fun m => ?_, htail⟩
          simp only [Body.run_loop_sequential, hrun, hafterRun, hvar, hcount]

/-! ## Tidy lines -/

theorem Kernel.tidy_of_bodyLines
    (hplain : ∀ t, k.Has t → IsPlain (k.tileName t))
    (hnamed : ∀ op ∈ body.ops, op.IsNamed)
    (h : k.bodyLines depth body = .ok lines) : ∀ l ∈ lines, l.Tidy := by
  have hstart : ∀ {l : Line} {c : Char}, l.text.toList.head? = some c →
      c ≠ ' ' → StartsOff [' '] l.text.toList := by
    intro l c hc hne
    rcases htext : l.text.toList with _ | ⟨d, rest⟩
    · rw [htext] at hc
      cases hc
    · rw [htext] at hc
      cases hc
      exact ⟨c, rest, rfl, fun hin => hne (mem_singleton.mp hin)⟩
  induction body generalizing depth lines with
  | done =>
      cases h
      intro l hl
      cases hl
  | step s rest ih =>
      rcases bind_eq_ok h with ⟨after, hafter, h⟩
      cases h
      intro l hl
      rcases mem_cons.mp hl with rfl | hl
      · refine ⟨?_, hstart (head?_stepLine depth s) (by decide)⟩
        have hs := hnamed _ mem_cons_self
        have hid : OneLine (s.id.text ++ " ") := by simp [OpId.text, OneLine]
        exact oneLine_append (oneLine_append hid (oneLine_opText hplain hs.1))
          (oneLine_strategyText hs.2)
      · exact ih (fun op hop => hnamed op (mem_cons_of_mem _ hop)) hafter l hl
  | loop head body rest ihbody ihrest =>
      rcases bodyLines_loop_eq_ok h with
        ⟨inner, schedule, after, hinner, hschedule, hafter, rfl⟩
      intro l hl
      simp only [mem_cons, mem_append] at hl
      rcases hl with rfl | hl | hl | hl
      · refine ⟨?_, hstart (head?_loopLine depth head) (by decide)⟩
        have hhead := hnamed _ mem_cons_self
        have hvar : '\n' ∉ head.var.toList := hhead.1.plain.oneLine
        have hline : OneLine
            s!"{head.id.text} pipelined {head.var} in 0..{head.tripCount} stages={head.stages}" := by
          simp [OpId.text, OneLine, hvar]
        exact oneLine_append hline (oneLine_strategyText hhead.2)
      · exact ihbody (fun op hop =>
          hnamed op (mem_cons_of_mem _ (mem_append_left _ hop))) hinner l hl
      · rcases scheduleLines_eq_ok hschedule hl with ⟨_, hbar, hline⟩
        exact ⟨hline, hstart hbar (by decide)⟩
      · exact ihrest (fun op hop =>
          hnamed op (mem_cons_of_mem _ (mem_append_right _ hop))) hafter l hl

end

end TileProgram
