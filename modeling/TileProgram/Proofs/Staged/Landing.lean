import TileProgram.Proofs.Staged.Equivalence

/-!
# Producers that land on their own

The writes of a producer become visible at some moment between its issue and the
acquire wait of its iteration, whatever the other producers do.  A run is then a
list of events: the actions of the schedule in their order, with landings in
between.  The invariant of `LoopRun` is kept by every event, provided that the
producers of an iteration write to different tiles: then a landing may overtake
those of earlier issues.
-/

namespace TileProgram

open List

variable {j first : Nat} {p : Step} {todo : List Step}

/-- The writes of one producer issue that have not landed. -/
structure Flight (α : Type) where
  iter : Nat
  writes : List (Write α)

/-- A staged loop at work whose producers land on their own. -/
structure AsyncLoop (α : Type) where
  machine : Machine α
  flights : List (Flight α)

inductive Event where
  | act (action : ConcreteAction)
  /-- The flight at this position lands, if there is one. -/
  | land (position : Nat)
  deriving DecidableEq, Repr

def Event.action? : Event → Option ConcreteAction
  | act action => some action
  | land _ => none

namespace StagedLoop

variable {α : Type} [Element α] (k : Kernel) (l : StagedLoop) (ops : List Op)

/-- Issue an operation; the writes of a producer take off. -/
def issueAsync (s : AsyncLoop α) (op : OpId) (role : StageRole) (iter : Nat) :
    Checked (AsyncLoop α) :=
  match ops.findRev? (·.id == op) with
  | none => .ok s
  | some op => do
      let machine := s.machine.bind l.var (signed64 iter)
      let writes ← issueWrites k l machine iter op
      match role with
      | .producer => return ⟨machine, s.flights ++ [⟨iter, writes⟩]⟩
      | .consumer => return ⟨← machine.commit writes, s.flights⟩

/-- One event.  An acquire wait lets the flights of its iteration land; a
release wait holds back issues only, and these come in order. -/
def event (s : AsyncLoop α) : Event → Checked (AsyncLoop α)
  | .act (.issue op role iter _) => issueAsync k l ops s op role iter
  | .act (.wait .acquire iter _) => do
      let due := s.flights.filter (·.iter == iter)
      return ⟨← s.machine.commit (due.flatMap (·.writes)),
        s.flights.filter (·.iter != iter)⟩
  | .act (.wait .release _ _) => .ok s
  | .land position =>
      match s.flights[position]? with
      | none => .ok s
      | some flight => do
          return ⟨← s.machine.commit flight.writes, s.flights.eraseIdx position⟩

def events (all : List Event) (s : AsyncLoop α) : Checked (AsyncLoop α) :=
  all.foldlM (event k l ops) s

def runAsync (all : List Event) (m : Machine α) : Checked (Machine α) := do
  let s ← events k l ops all ⟨m, []⟩
  let m := s.machine.unbind l.var
  return { m with memory := ← writeBack l m.memory }

end StagedLoop

def Apart {α : Type} (these those : List (Write α)) : Prop :=
  ∀ v ∈ these, ∀ w ∈ those, v.tile ≠ w.tile

def inFlight {α : Type} (flights : List (Flight α)) (j : Nat) :
    List (Write α) :=
  (flights.filter (·.iter == j)).flatMap (·.writes)

theorem inFlight_append {α : Type} (before after : List (Flight α)) (j : Nat) :
    inFlight (before ++ after) j = inFlight before j ++ inFlight after j := by
  simp [inFlight]

theorem inFlight_cons_self
    {α : Type} (flight : Flight α) (after : List (Flight α)) :
    inFlight (flight :: after) flight.iter = flight.writes ++
      inFlight after flight.iter := by
  simp [inFlight]

theorem inFlight_cons_of_ne
    {α : Type} {flight : Flight α} (h : flight.iter ≠ j)
    (after : List (Flight α)) :
    inFlight (flight :: after) j = inFlight after j := by
  simp [inFlight, h]

theorem inFlight_eq_nil
    {α : Type} {flights : List (Flight α)} (h : ∀ f ∈ flights, f.iter ≠ j) :
    inFlight flights j = [] := by
  unfold inFlight
  rw [filter_eq_nil_iff.mpr fun f hf => by simp [h f hf]]
  rfl

theorem inFlight_filter_self {α : Type} (flights : List (Flight α)) (j : Nat) :
    inFlight (flights.filter (·.iter != j)) j = [] := by
  apply inFlight_eq_nil
  intro f hf
  simpa using (mem_filter.mp hf).2

theorem inFlight_filter_of_ne
    {α : Type} {i : Nat} (h : j ≠ i) (flights : List (Flight α)) :
    inFlight (flights.filter (·.iter != i)) j = inFlight flights j := by
  unfold inFlight
  rw [filter_filter]
  congr 2
  funext f
  by_cases hf : f.iter = j
  · simp [hf, h]
  · simp [hf]

/-! ## Landing at the acquire waits -/

/-- A pipeline and an asynchronous loop with the same writes in flight. -/
structure SameFlights {α : Type} (p : Pipeline α) (s : AsyncLoop α) : Prop where
  machine : s.machine = p.machine
  flights : ∀ j, inFlight s.flights j = p.inFlight.getD j []

section

variable {α : Type} [Element α] {k : Kernel} {l : StagedLoop} {ops : List Op}

theorem SameFlights.act
    {p p' : Pipeline α} {s : AsyncLoop α} (h : SameFlights p s)
    {action : ConcreteAction} (hact : l.act k ops p action = .ok p') :
    ∃ s', l.event k ops s (.act action) = .ok s' ∧ SameFlights p' s' := by
  cases action with
  | issue op role iter slot =>
      simp only [StagedLoop.act, StagedLoop.issue] at hact
      simp only [StagedLoop.event, StagedLoop.issueAsync, h.machine]
      cases hfind : ops.findRev? (·.id == op) with
      | none =>
          rw [hfind] at hact
          cases hact
          exact ⟨s, rfl, h⟩
      | some found =>
          rw [hfind] at hact
          simp only at hact ⊢
          obtain ⟨writes, hwrites, hact⟩ := bind_eq_ok hact
          rw [lift_eq_ok_iff.mp hwrites, ok_bind]
          cases role with
          | producer =>
              simp only at hact
              split at hact
              · cases hact
              cases hact
              refine ⟨_, rfl, rfl, ?_⟩
              intro j
              rw [inFlight_append, h.flights, Std.HashMap.getD_insert]
              by_cases hj : iter = j
              · subst hj
                simp [inFlight]
              · simp [inFlight, hj]
          | consumer =>
              obtain ⟨machine, hcommit, hact⟩ := bind_eq_ok hact
              cases hact
              refine ⟨⟨machine, s.flights⟩, ?_, rfl, h.flights⟩
              simp only
              rw [lift_eq_ok_iff.mp hcommit]
              rfl
  | wait kind iter slot =>
      cases kind with
      | acquire =>
          simp only [StagedLoop.act] at hact
          obtain ⟨machine, hcommit, hact⟩ := bind_eq_ok hact
          cases hact
          have hdue : p.machine.commit (inFlight s.flights iter) =
              .ok machine := by
            rw [h.flights]
            exact lift_eq_ok_iff.mp hcommit
          refine ⟨⟨machine, s.flights.filter (·.iter != iter)⟩, ?_, rfl, ?_⟩
          · simp only [StagedLoop.event, h.machine]
            unfold inFlight at hdue
            rw [hdue]
            rfl
          · intro j
            rw [Std.HashMap.getD_erase]
            by_cases hj : iter = j
            · subst hj
              rw [inFlight_filter_self]
              simp
            · rw [inFlight_filter_of_ne (Ne.symm hj), h.flights]
              simp [hj]
      | release =>
          simp only [StagedLoop.act] at hact
          split at hact
          · cases hact
          · cases hact
            exact ⟨s, rfl, h.machine, h.flights⟩

/-- The loop run by its schedule is the one in which nothing lands before it has
to. -/
theorem StagedLoop.runAsync_map_act
    {actions : List ConcreteAction} (hactions : l.actions = .ok actions)
    {m m' : Machine α} (h : l.run k ops m = .ok m') :
    l.runAsync k ops (actions.map Event.act) m = .ok m' := by
  unfold StagedLoop.run at h
  rw [hactions, lift_ok, ok_bind] at h
  obtain ⟨p, hacts, hback⟩ := bind_eq_ok h
  obtain ⟨s, hevents, hsame⟩ : ∃ s,
      l.events k ops (actions.map Event.act) ⟨m, []⟩ = .ok s ∧
      SameFlights p s := by
    have hstart : SameFlights (Pipeline.start m) ⟨m, []⟩ :=
      ⟨rfl, by simp [inFlight, Pipeline.start]⟩
    clear h hactions hback
    generalize Pipeline.start m = p₀ at hacts hstart
    generalize (⟨m, []⟩ : AsyncLoop α) = s₀ at hstart
    induction actions generalizing p₀ s₀ with
    | nil =>
        cases hacts
        exact ⟨s₀, rfl, hstart⟩
    | cons action rest ih =>
        rw [foldlM_cons] at hacts
        obtain ⟨p₁, hact, hrest⟩ := bind_eq_ok hacts
        obtain ⟨s₁, hevent, hsame⟩ := hstart.act hact
        obtain ⟨s, hevents, hend⟩ := ih p₁ hrest s₁ hsame
        refine ⟨s, ?_, hend⟩
        unfold StagedLoop.events
        rw [map_cons, foldlM_cons, hevent, ok_bind]
        exact hevents
  obtain ⟨memory, hwritten, hback⟩ := bind_eq_ok hback
  cases hback
  unfold StagedLoop.runAsync
  rw [hevents, ok_bind]
  simp only [Machine.unbind, hsame.machine]
  rw [show l.writeBack p.machine.memory =
    .ok memory from lift_eq_ok_iff.mp hwritten]
  rfl

end

namespace LoopRun

variable {α : Type} [Element α] (r : LoopRun α)

def producers : List Step := r.steps.filter (·.isProducer r.base)

/-- What a producer writes to the slots of an iteration. -/
def moved (j : Nat) (p : Step) : List (Write α) :=
  (producedBy r.kernel (r.envAt j) (r.laps 0) p).map
    (Write.rename (r.loop.inSlot j))

/-- What is outstanding when `todo` are still to be issued in the last iteration
begun. -/
def awaited (q : Nat) (todo : List Step) (flights : List (Flight α)) (j : Nat) :
    List (Write α) :=
  inFlight flights j ++ if j + 1 = q then todo.flatMap (r.moved j) else []

/-- The flights of the iterations from `first` to before `q`.  Those of one
iteration go to different tiles, and so will the producers still to be
issued. -/
structure Airborne
    (first q : Nat) (todo : List Step) (flights : List (Flight α)) : Prop where
  recent : ∀ f ∈ flights, first ≤ f.iter ∧ f.iter < q
  apart : flights.Pairwise fun f g => f.iter = g.iter → Apart f.writes g.writes
  ahead : ∀ f ∈ flights, f.iter + 1 = q →
    ∀ p ∈ todo, Apart f.writes (r.moved f.iter p)

/-- Every producer fills a buffer of its own. -/
def OwnBuffers : Prop := (r.producers.flatMap (·.op.writes)).Nodup

/-- The consumers of the iterations below `c` are done, the producers of those
below `q` have been issued, but for `todo` in the last one. -/
structure IdleAt (c q : Nat) (todo : List Step) (s : AsyncLoop α) : Prop where
  env : r.SameEnv s.machine.env
  begun : c ≤ q
  bound : q ≤ r.loop.tripCount
  window : q ≤ c + r.loop.stages
  known : todo.Sublist r.producers
  idle : r.Idle c q (r.awaited q todo s.flights) s.machine.memory
  flights : r.Airborne c q todo s.flights

/-- Iteration `c` is at work: the steps `before` are done, `after` are to
come. -/
structure BusyAt (c q : Nat) (before after : List Step) (s : AsyncLoop α) :
    Prop where
  env : r.SameEnv s.machine.env
  begun : c < q
  bound : q ≤ r.loop.tripCount
  window : q ≤ c + r.loop.stages
  split : r.steps = before ++ after
  busy : ∃ now, runSteps r.kernel (r.envAt c) before (r.laps c) = .ok now ∧
    r.Busy c q (r.awaited q [] s.flights)
      (now.put (produced r.base r.kernel (r.envAt c) (r.laps 0) after))
        s.machine.memory
  flights : r.Airborne (c + 1) q [] s.flights

section

variable {r} {c q : Nat} {s : AsyncLoop α}

/-! ## Writes apart -/

theorem ownBuffers_of_length
    (h : r.loop.producers.length = r.loop.rotation.length) : r.OwnBuffers := by
  have hwrites : (r.producers.flatMap (·.op.writes)).length =
      r.producers.length := by
    rw [length_flatMap, map_congr_left (g := fun _ => 1), map_const',
      sum_replicate]
    · simp
    · intro p hp
      obtain ⟨hin, hside⟩ := mem_filter.mp hp
      obtain ⟨src, dst, width, _, hop, _⟩ :=
        r.region.runsAhead.fills p hin hside
      rw [hop]
      rfl
  have hbuffers : (r.producers.flatMap (·.op.writes)).eraseDups.length =
      (r.producers.flatMap (·.op.writes)).length := by
    have hlogicals := congrArg length r.region.slots.logicals
    rw [length_map, ← h, r.region.producers, length_map] at hlogicals
    rw [hwrites]
    exact hlogicals.symm
  -- nothing was erased, so there was nothing to erase
  have hsubperm := (nodup_eraseDups (r.producers.flatMap (·.op.writes))).subperm
    fun t ht => mem_eraseDups.mp ht
  exact (hsubperm.perm_of_length_le (Nat.le_of_eq hbuffers.symm)).nodup_iff.mp
    (nodup_eraseDups _)

theorem moved_targets {w : Write α} (hw : w ∈ r.moved j p) :
    ∃ t ∈ p.op.writes, w.tile = r.loop.inSlot j t := by
  obtain ⟨v, hv, rfl⟩ := mem_map.mp hw
  refine ⟨v.tile, ?_, rfl⟩
  cases heval : p.op.eval r.kernel (r.laps 0) (r.envAt j) with
  | error e => simp [producedBy, heval, Except.toOption] at hv
  | ok all =>
      rw [producedBy_of_eval heval] at hv
      exact TileOp.tile_mem_writes heval hv

theorem landing_eq (j : Nat) :
    r.landing j = r.producers.flatMap (r.moved j) := by
  unfold landing writes StagedLoop.produce produced producers
  rw [map_flatMap]
  rfl

theorem OwnBuffers.pairwise_apart (h : r.OwnBuffers) (j : Nat) :
    r.producers.Pairwise fun p p' => Apart (r.moved j p) (r.moved j p') := by
  refine (nodup_flatMap.mp h).2.imp_of_mem ?_
  intro p p' hp hp' hdisjoint v hv w hw heq
  obtain ⟨t, ht, hvt⟩ := moved_targets hv
  obtain ⟨u, hu, hwu⟩ := moved_targets hw
  have hfit : ∀ {o : Step}, o ∈ r.producers → ∀ x ∈ o.op.writes, r.base.Has x :=
    fun ho x hx => (r.region.fitting _ (mem_filter.mp ho).1).lt_size x
      (mem_append_right _ hx)
  have htu : t = u := by
    apply r.region.slots.inSlot_injOn (hfit hp t ht) (hfit hp' u hu) (j := j)
    rw [← hvt, ← hwu, heq]
  exact hdisjoint ht (htu ▸ hu)

/-! ## Landings -/

theorem Airborne.sublist
    {q : Nat} {flights flights' : List (Flight α)}
    (h : r.Airborne first q todo flights) (hsub : flights'.Sublist flights) :
    r.Airborne first q todo flights' :=
  ⟨fun f hf => h.recent f (hsub.subset hf), h.apart.sublist hsub,
    fun f hf => h.ahead f (hsub.subset hf)⟩

theorem Airborne.awaited_split
    {q : Nat} {before after : List (Flight α)} {flight : Flight α}
    (h : r.Airborne first q todo (before ++ flight :: after)) :
    ∃ rest, r.awaited q todo (before ++ flight :: after) flight.iter =
        inFlight before flight.iter ++ flight.writes ++ rest ∧
      r.awaited q todo (before ++ after) =
        Function.update (r.awaited q todo (before ++ flight :: after))
          flight.iter (inFlight before flight.iter ++ rest) ∧
      Apart (inFlight before flight.iter) flight.writes := by
  refine ⟨inFlight after flight.iter ++
    if flight.iter + 1 = q then todo.flatMap (r.moved flight.iter) else [], ?_,
    ?_, ?_⟩
  · unfold awaited
    rw [inFlight_append, inFlight_cons_self]
    simp only [append_assoc]
  · funext j
    by_cases hj : j = flight.iter
    · subst hj
      rw [Function.update_self]
      unfold awaited
      rw [inFlight_append, append_assoc]
    · rw [Function.update_of_ne hj]
      unfold awaited
      rw [inFlight_append, inFlight_append, inFlight_cons_of_ne (Ne.symm hj)]
  · intro v hv w hw
    obtain ⟨f, hf, hvf⟩ := mem_flatMap.mp hv
    obtain ⟨hin, hiter⟩ := mem_filter.mp hf
    exact (pairwise_append.mp h.apart).2.2 f hin flight mem_cons_self
      (by simpa using hiter) v hvf w hw

theorem commit_awaited
    {q : Nat} {out : Nat → List (Write α)} {m : Machine α}
    (h : r.Outstanding first q out m.memory) {writes : List (Write α)}
    (hwrites : ∀ w ∈ writes, w ∈ out j) :
    m.commit writes = .ok ⟨m.memory.put writes, m.env⟩ := by
  unfold Machine.commit
  rw [Memory.commit_of_forall fun w hw => h.lt_size w (hwrites w hw)]
  rfl

theorem Airborne.land
    {q : Nat} (h : r.Airborne first q todo s.flights)
    (hout : r.Outstanding first q (r.awaited q todo s.flights) s.machine.memory)
    (n : Nat) :
    r.loop.event r.kernel r.ops s (.land n) = .ok s ∨
    ∃ j before now after flights, first ≤ j ∧ j < q ∧
      r.awaited q todo s.flights j = before ++ now ++ after ∧ Apart before now ∧
      r.awaited q todo flights =
        Function.update (r.awaited q todo s.flights) j (before ++ after) ∧
      r.Airborne first q todo flights ∧
      r.loop.event r.kernel r.ops s (.land n) =
        .ok ⟨⟨s.machine.memory.put now, s.machine.env⟩, flights⟩ := by
  simp only [StagedLoop.event]
  cases hflight : s.flights[n]? with
  | none => exact Or.inl rfl
  | some flight =>
      right
      obtain ⟨hlo, hhi⟩ := h.recent flight (mem_of_getElem? hflight)
      obtain ⟨before, after, hsplit, herase⟩ := exists_split_of_getElem? hflight
      rw [hsplit] at h hout ⊢
      obtain ⟨rest, hawaited, hafter, hapart⟩ := h.awaited_split
      have hwrites : ∀ w ∈ flight.writes,
          w ∈ r.awaited q todo (before ++ flight :: after) flight.iter := by
        intro w hw
        rw [hawaited]
        exact mem_append_left _ (mem_append_right _ hw)
      refine ⟨flight.iter, _, _, _, before ++ after, hlo, hhi, hawaited, hapart,
        hafter, h.sublist (by simp), ?_⟩
      simp only
      rw [commit_awaited hout hwrites, ← hsplit, herase]
      rfl

theorem IdleAt.land (h : r.IdleAt c q todo s) (n : Nat) :
    ∃ s', r.loop.event r.kernel r.ops s (.land n) = .ok s' ∧
      r.IdleAt c q todo s' := by
  rcases h.flights.land h.idle.toOutstanding n with hnone | ⟨j, before, now,
    after, flights, hlo, hhi, hout, hapart, hafter, hflights, hland⟩
  · exact ⟨s, hnone, h⟩
  · refine ⟨_, hland, h.env, h.begun, h.bound, h.window, h.known, ?_, hflights⟩
    rw [hafter]
    exact h.idle.land h.window hlo hhi hout hapart

theorem BusyAt.land
    {before after : List Step} (h : r.BusyAt c q before after s) (n : Nat) :
    ∃ s', r.loop.event r.kernel r.ops s (.land n) = .ok s' ∧
      r.BusyAt c q before after s' := by
  obtain ⟨current, hcurrent, hbusy⟩ := h.busy
  rcases h.flights.land hbusy.toOutstanding n with hnone | ⟨j, earlier, now,
    later, flights, hlo, hhi, hout, hapart, hafter, hflights, hland⟩
  · exact ⟨s, hnone, h⟩
  · refine ⟨_, hland, h.env, h.begun, h.bound, h.window, h.split,
      ⟨current, hcurrent, ?_⟩, hflights⟩
    rw [hafter]
    exact hbusy.land h.window hlo hhi hout hapart

/-! ## Actions -/

theorem awaited_nil (q : Nat) (flights : List (Flight α)) :
    r.awaited q [] flights = inFlight flights := by
  funext j
  simp [awaited]

theorem IdleAt.begin
    (h : r.IdleAt c q [] s) (hq : q < r.loop.tripCount)
    (hfree : q < c + r.loop.stages) :
    r.IdleAt c (q + 1) r.producers s := by
  have hearlier : ∀ f ∈ s.flights, f.iter ≠ q := fun f hf =>
    Nat.ne_of_lt (h.flights.recent f hf).2
  refine ⟨h.env, by have := h.begun; omega, hq, hfree, Sublist.refl _, ?_, ?_,
    h.flights.apart, ?_⟩
  · have hout : r.awaited (q + 1) r.producers s.flights =
        Function.update (r.awaited q [] s.flights) q (r.landing q) := by
      funext j
      unfold awaited
      by_cases hj : j = q
      · subst hj
        rw [Function.update_self, if_pos rfl, inFlight_eq_nil hearlier,
          nil_append, landing_eq]
      · rw [Function.update_of_ne hj, if_neg (by omega)]
        simp
    rw [hout]
    exact h.idle.begin hq
  · intro f hf
    obtain ⟨hlo, hhi⟩ := h.flights.recent f hf
    omega
  · intro f hf hlast
    exact (hearlier f hf (by omega)).elim

theorem IdleAt.issue
    {c : Nat} (h : r.IdleAt c (j + 1) (p :: todo) s) (hcj : c ≤ j)
    (hown : r.OwnBuffers) (slot : Nat) :
    ∃ s', r.loop.event r.kernel r.ops s (.act (.issue p.id .producer j slot)) =
      .ok s' ∧ r.IdleAt c (j + 1) todo s' := by
  obtain ⟨hp, hside⟩ := mem_filter.mp (h.known.subset mem_cons_self)
  have hj : j < r.loop.tripCount := h.bound
  have hmachine : s.machine.bind r.loop.var (signed64 j) =
      ⟨s.machine.memory, r.envAt j⟩ := by
    unfold Machine.bind
    rw [h.env.bind]
  have hevent :
      r.loop.event r.kernel r.ops s (.act (.issue p.id .producer j slot)) =
      .ok ⟨⟨s.machine.memory, r.envAt j⟩, s.flights ++ [⟨j, r.moved j p⟩]⟩ := by
    simp only [StagedLoop.event, StagedLoop.issueAsync]
    rw [show r.ops.findRev? (·.id == p.id) = some (.step p) from
      findRev?_step r.region.distinct hp]
    simp only [hmachine, StagedLoop.issueWrites]
    rw [h.idle.eval_producer (by omega) hj hp hside, ok_bind]
    rfl
  refine ⟨_, hevent, sameEnv_envAt j, h.begun, h.bound, h.window,
    (sublist_cons_self p todo).trans h.known, ?_, ?_, ?_, ?_⟩
  · have hout : r.awaited (j + 1) todo (s.flights ++ [⟨j, r.moved j p⟩]) =
        r.awaited (j + 1) (p :: todo) s.flights := by
      funext i
      unfold awaited
      rw [inFlight_append]
      by_cases hi : i = j
      · subst hi
        simp [inFlight]
      · rw [inFlight_cons_of_ne (Ne.symm hi), if_neg (by omega),
          if_neg (by omega)]
        simp [inFlight]
    rw [hout]
    exact h.idle
  · intro f hf
    rcases mem_append.mp hf with hold | hnew
    · exact h.flights.recent f hold
    · rw [mem_singleton] at hnew
      subst hnew
      exact ⟨hcj, Nat.lt_succ_self j⟩
  · apply pairwise_append.mpr
    refine ⟨h.flights.apart, pairwise_singleton _ _, ?_⟩
    intro f hf g hg hsame
    rw [mem_singleton] at hg
    subst hg
    have hahead := h.flights.ahead f hf (congrArg (· + 1) hsame) p mem_cons_self
    rwa [show f.iter = j from hsame] at hahead
  · intro f hf hlast p' hp'
    rcases mem_append.mp hf with hold | hnew
    · exact h.flights.ahead f hold hlast p' (mem_cons_of_mem p hp')
    · rw [mem_singleton] at hnew
      subst hnew
      exact (pairwise_cons.mp ((hown.pairwise_apart j).sublist h.known)).1
        p' hp'

theorem IdleAt.acquire (h : r.IdleAt c q [] s) (hcq : c < q) (slot : Nat) :
    ∃ s', r.loop.event r.kernel r.ops s (.act (.wait .acquire c slot)) =
      .ok s' ∧ r.BusyAt c q [] r.steps s' := by
  have hidle := h.idle
  rw [awaited_nil] at hidle
  have hevent : r.loop.event r.kernel r.ops s (.act (.wait .acquire c slot)) =
      .ok ⟨⟨s.machine.memory.put (inFlight s.flights c), s.machine.env⟩,
        s.flights.filter (·.iter != c)⟩ := by
    have hcommit : s.machine.commit (inFlight s.flights c) =
        .ok ⟨s.machine.memory.put (inFlight s.flights c), s.machine.env⟩ :=
      commit_awaited hidle.toOutstanding fun w hw => hw
    unfold inFlight at hcommit
    simp only [StagedLoop.event]
    rw [hcommit]
    rfl
  have hrest : inFlight (s.flights.filter (·.iter != c)) =
      Function.update (inFlight s.flights) c ([] ++ []) := by
    funext j
    by_cases hj : j = c
    · subst hj
      rw [Function.update_self, inFlight_filter_self]
      rfl
    · rw [Function.update_of_ne hj, inFlight_filter_of_ne hj]
  have hlanded :=
    hidle.land h.window (Nat.le_refl c) hcq (show inFlight s.flights c = [] ++
      inFlight s.flights c ++ [] by simp) (by simp)
  have hbusy := hlanded.acquire hcq h.bound (by simp)
  rw [← hrest] at hbusy
  refine ⟨_, hevent, h.env, hcq, h.bound, h.window, rfl, ⟨r.laps c, rfl, ?_⟩,
    ?_, h.flights.apart.sublist filter_sublist, by simp⟩
  · rw [awaited_nil]
    exact hbusy
  · intro f hf
    obtain ⟨hin, hother⟩ := mem_filter.mp hf
    obtain ⟨hlo, hhi⟩ := h.flights.recent f hin
    have hne : f.iter ≠ c := by simpa using hother
    omega

theorem exec_next
    {c : Nat} (hc : c < r.loop.tripCount) {before after : List Step} {o : Step}
    (hsplit : r.steps = before ++ o :: after) {now : Memory α}
    (hnow : runSteps r.kernel (r.envAt c) before (r.laps c) = .ok now) :
    ∃ now', o.op.exec r.kernel (r.envAt c) now = .ok now' ∧
      runSteps r.kernel (r.envAt c) (before ++ [o]) (r.laps c) = .ok now' := by
  have hrun : runSteps r.kernel (r.envAt c) r.steps (r.laps c) =
      .ok (r.laps (c + 1)) :=
    r.sequence.next c hc
  rw [hsplit, runSteps_append, hnow, ok_bind, runSteps_cons] at hrun
  obtain ⟨now', hexec, _⟩ := bind_eq_ok hrun
  refine ⟨now', hexec, ?_⟩
  rw [runSteps_append, hnow, ok_bind, runSteps_cons, hexec, ok_bind]
  rfl

/-- The writes of a producer have been there from the beginning of the
iteration. -/
theorem BusyAt.skip
    {before after : List Step} (h : r.BusyAt c q before (p :: after) s)
    (hside : p.isProducer r.base) :
    r.BusyAt c q (before ++ [p]) after s := by
  obtain ⟨now, hnow, hbusy⟩ := h.busy
  have hc : c < r.loop.tripCount := Nat.lt_of_lt_of_le h.begun h.bound
  obtain ⟨now', hexec, hnow'⟩ := exec_next hc h.split hnow
  have hsteps : ∀ o ∈ before, o ∈ r.steps :=
    fun o ho => h.split ▸ mem_append_left _ ho
  have hp : p ∈ r.steps := h.split ▸ mem_append_right _ mem_cons_self
  have hsourced :=
    (r.sequence.sourced r.region.runsAhead (Nat.le_of_lt hc)).runSteps
      r.region.runsAhead hsteps hnow
  obtain ⟨_, hput⟩ := hsourced.exec_producer r.sequence.fits hp hside hexec
  refine ⟨h.env, h.begun, h.bound, h.window, by simp [h.split],
    ⟨now', hnow', ?_⟩, h.flights⟩
  have hproduced : produced r.base r.kernel (r.envAt c) (r.laps 0)
      (p :: after) = producedBy r.kernel (r.envAt c) (r.laps 0) p ++
        produced r.base r.kernel (r.envAt c) (r.laps 0) after := by
    simp [produced, hside]
  rw [hproduced, Memory.put_append, ← hput] at hbusy
  exact hbusy

section

variable {before after : List Step} {o : Step}
  (h : r.BusyAt c q before (o :: after) s) (hside : ¬ o.isProducer r.base)

include h hside

theorem BusyAt.independent :
    ∀ p ∈ after, p.isProducer r.base → Independent o.op p.op := by
  intro p hp hproducer
  have hahead := r.region.runsAhead.ahead
  rw [h.split] at hahead
  have hpairs := pairwise_cons.mp (pairwise_append.mp hahead).2.1
  exact hpairs.1 p hp hside hproducer

theorem BusyAt.reads
    {now : Memory α}
    (hnow : runSteps r.kernel (r.envAt c) before (r.laps c) = .ok now)
    {t : TileId} (ht : t ∈ o.op.reads) :
    s.machine.memory.tile (r.loop.inSlot c t) = now.tile t := by
  obtain ⟨now', hnow', hbusy⟩ := h.busy
  rw [hnow] at hnow'
  cases hnow'
  have ho : o ∈ r.steps := h.split ▸ mem_append_right _ mem_cons_self
  have hsame :=
    hbusy.same t ((r.region.fitting o ho).lt_size t (mem_append_left _ ht))
  have hsplit : produced r.base r.kernel (r.envAt c) (r.laps 0) (o :: after) =
      produced r.base r.kernel (r.envAt c) (r.laps 0) after := by
    simp [produced, hside]
  rw [hsame, hsplit, Memory.tile_put_of_forall_ne]
  intro w hw heq
  obtain ⟨p, hp, hproducer, hwrites⟩ := tile_mem_of_mem_produced hw
  exact (h.independent hside p hp hproducer).anti t ht (heq ▸ hwrites)

theorem BusyAt.issue (slot : Nat) :
    ∃ s', r.loop.event r.kernel r.ops s (.act (.issue o.id .consumer c slot)) =
      .ok s' ∧ r.BusyAt c q (before ++ [o]) after s' := by
  obtain ⟨now, hnow, hbusy⟩ := h.busy
  obtain ⟨now', hexec, hnow'⟩ :=
    exec_next (Nat.lt_of_lt_of_le h.begun h.bound) h.split hnow
  have ho : o ∈ r.steps := h.split ▸ mem_append_right _ mem_cons_self
  have hsplit : produced r.base r.kernel (r.envAt c) (r.laps 0) (o :: after) =
      produced r.base r.kernel (r.envAt c) (r.laps 0) after := by
    simp [produced, hside]
  rw [hsplit] at hbusy
  have hafter := exec_put_produced (m := r.laps 0) (h.independent hside) hexec
  obtain ⟨m', hexec', hbusy'⟩ := hbusy.exec h.window ho hafter
  obtain ⟨all, heval, hcommit⟩ := bind_eq_ok hexec'
  have hmachine : s.machine.bind r.loop.var (signed64 c) =
      ⟨s.machine.memory, r.envAt c⟩ := by
    unfold Machine.bind
    rw [h.env.bind]
  have hevent :
      r.loop.event r.kernel r.ops s (.act (.issue o.id .consumer c slot)) =
      .ok ⟨⟨m', r.envAt c⟩, s.flights⟩ := by
    simp only [StagedLoop.event, StagedLoop.issueAsync]
    rw [show r.ops.findRev? (·.id == o.id) = some (.step o) from
      findRev?_step r.region.distinct ho]
    simp only [hmachine, StagedLoop.issueWrites]
    rw [heval, ok_bind]
    simp only [Machine.commit]
    rw [hcommit]
    rfl
  exact ⟨_, hevent, sameEnv_envAt c, h.begun, h.bound, h.window,
    by simp [h.split], ⟨now', hnow', hbusy'⟩, h.flights⟩

end

theorem BusyAt.finish (h : r.BusyAt c q r.steps [] s) :
    r.IdleAt (c + 1) q [] s := by
  obtain ⟨now, hnow, hbusy⟩ := h.busy
  have hlap : runSteps r.kernel (r.envAt c) r.steps (r.laps c) =
      .ok (r.laps (c + 1)) :=
    r.sequence.next c (Nat.lt_of_lt_of_le h.begun h.bound)
  rw [hnow] at hlap
  cases hlap
  have hwindow := h.window
  exact ⟨h.env, h.begun, h.bound, by omega, nil_sublist _, hbusy.finish,
    h.flights⟩

end

end LoopRun

end TileProgram
