import Takl.Interleaving.Writer

/-!
# Local writes against received rows

One node with its writers and its sync rounds under way at the same time,
one store or clock call after the other. `Put`, `Delete` and `DeleteByNode`
overwrite whatever they find, so what protects a newer row is only that the
writer's timestamp is greater. That is settled at the `Tick`, and can change
until the write is made.
-/

namespace Takl

open Store (latest)

/-! ## A round, one call at a time -/

/-- `RoundOnce` with its response, before its next call. -/
inductive Puller where
  /-- Before `ApplyRemote`. -/
  | applyRows (peer : String) (evWm : HLC) (resp : PullResponse)
  /-- Before the `Update` with the rows' timestamps. -/
  | updateClock (peer : String) (evWm : HLC) (resp : PullResponse)
  /-- Before `ApplyEvents`. -/
  | applyEvents (peer : String) (evWm : HLC) (resp : PullResponse)
  /-- Before `SetWatermark`. -/
  | setWatermark (peer : String) (evWm : HLC) (incoming : List Event)
  /-- Before the `Update` with the events' timestamps. -/
  | updateEventClock (incoming : List Event)

namespace Puller

/-- One call, and what is left to do. -/
def next (E : Env) (n : Node) : Puller → Node × Option Puller
  | applyRows peer evWm resp =>
      if resp.rows.isEmpty then (n, some (.applyEvents peer evWm resp))
      else match n.store.applyRemote peer resp.toRows with
        | .error _ => (n, none)
        | .ok st => ({ n with store := st }, some (.updateClock peer evWm resp))
  | updateClock peer evWm resp =>
      ({ n with clock := n.clock.update (latest HLC.zero (resp.toRows.map Row.hlc)) },
        some (.applyEvents peer evWm resp))
  | applyEvents peer evWm resp =>
      if resp.events.isEmpty then (n, none)
      else match resp.events.mapM (PbEvent.toEvent E) with
        | none => (n, none)
        | some incoming =>
            ({ n with store := n.store.applyEvents E incoming },
              some (.setWatermark peer evWm incoming))
  | setWatermark peer evWm incoming =>
      ({ n with store :=
          n.store.setWatermark peer kindEvent (latest evWm (incoming.map Event.hlc)) },
        some (.updateEventClock incoming))
  | updateEventClock incoming =>
      ({ n with clock := n.clock.update (latest HLC.zero (incoming.map Event.hlc)) }, none)

/-- The round makes all its calls, one right after the other. -/
def finish (E : Env) : Nat → Node → Option Puller → Node
  | k + 1, n, some q => finish E k (q.next E n).1 (q.next E n).2
  | _, n, _ => n

@[simp] theorem finish_none (E : Env) (k : Nat) (n : Node) : finish E k n none = n := by
  cases k <;> rfl

theorem finish_applyEvents (E : Env) (k : Nat) (n : Node) (peer : String) (evWm : HLC)
    (resp : PullResponse) :
    finish E (k + 3) n (some (.applyEvents peer evWm resp)) =
      (n.applyEvents E peer evWm resp).getD n := by
  simp only [finish, next, Node.applyEvents]
  split
  · exact finish_none E _ n
  · cases resp.events.mapM (PbEvent.toEvent E) with
    | none => exact finish_none E _ n
    | some incoming => exact finish_none E k _

/-- **An uninterrupted round is `finishRound`.** -/
theorem finish_round (E : Env) (n : Node) (peer : String) (evWm : HLC) (resp : PullResponse) :
    finish E 5 n (some (.applyRows peer evWm resp)) =
      (n.finishRound E peer evWm resp).1 := by
  rw [finish]
  by_cases hnil : resp.rows.isEmpty
  · have hrows : n.applyRows peer resp = .ok n := if_pos hnil
    simp only [next, hnil, if_true]
    rw [finish_applyEvents, Node.finishRound_of_ok hrows]
  · cases ha : n.store.applyRemote peer resp.toRows with
    | error e =>
      have hrows : n.applyRows peer resp = .error e := by
        simp [Node.applyRows, hnil, ha, Except.map]
      rw [Node.finishRound_of_error hrows]
      simp [next, hnil, ha]
    | ok st =>
      have hrows : n.applyRows peer resp = .ok { n with
          store := st, clock := n.clock.update (latest HLC.zero (resp.toRows.map Row.hlc)) } := by
        simp [Node.applyRows, hnil, ha, Except.map]
      rw [Node.finishRound_of_ok hrows, ← finish_applyEvents E 0]
      simp only [next, hnil, ha, Bool.false_eq_true, if_false]
      rfl

/-- The rows the next call merges. -/
def stores : Puller → List Row
  | applyRows _ _ resp => resp.toRows
  | updateClock .. | applyEvents .. | setWatermark .. | updateEventClock .. => []

/-- Rows change by a merge only. -/
theorem next_rows (E : Env) (n : Node) (q : Puller) :
    (q.next E n).1.store.rows = n.store.rows ∨
      (q.next E n).1.store.rows = n.store.rows.mergeAll q.stores := by
  cases q with
  | applyRows peer evWm resp =>
    simp only [next]
    split
    · exact .inl rfl
    · split
      · exact .inl rfl
      · next h => exact .inr (Store.applyRemote_ok h).rows
  | updateClock => exact .inl rfl
  | applyEvents peer evWm resp =>
    simp only [next]
    split
    · exact .inl rfl
    · split
      · exact .inl rfl
      · exact .inl (Store.applyEvents_spec E _ n.store).1
  | setWatermark peer evWm incoming =>
    exact .inl (Store.setWatermark_spec n.store peer kindEvent _).1
  | updateEventClock => exact .inl rfl

end Puller

/-! ## Writers and rounds -/

/-- A node with its writers and its rounds under way. -/
structure Busy where
  crew : Crew
  rounds : List Puller

/-- The scheduler's choices. -/
inductive BusyAction where
  | write (a : CrewAction)
  /-- A response arrives; it is any message a peer sends. -/
  | receive (peer : String) (evWm : HLC) (resp : PullResponse)
  /-- The round at that place makes its next call. -/
  | sync (k : Nat)

namespace Busy

open Runs

/-- The rows table. -/
abbrev rows (s : Busy) : RowTable := s.crew.node.store.rows

/-- One step. -/
def step (E : Env) (s : Busy) : BusyAction → Option Busy
  | .write a => (s.crew.step E a).map fun crew => { s with crew }
  | .receive peer evWm resp => some { s with rounds := .applyRows peer evWm resp :: s.rounds }
  | .sync k => (s.rounds[k]?).map fun q =>
      { crew := { s.crew with node := (q.next E s.crew.node).1 }
        rounds := (q.next E s.crew.node).2.toList ++ s.rounds.eraseIdx k }

/-- Storing `rs` puts nothing newer in the way of the writes of `ws`. -/
def Clear (ws : List Writer) (rs : List Row) : Prop :=
  ∀ r ∈ rs, ∀ w ∈ ws, ∀ p ∈ w.write, p.Outranks r

/-- The clock accounts for the rows a writer that is about to `Tick` is going
to replace, and does not wrap. -/
def TickReady (n : Node) (now : Int64) (w : Writer) : Prop :=
  (w.Ticks → n.clock.NoWrap now) ∧
    ∀ p ∈ w.planned n (n.clock.tick now).1, ∀ r ∈ n.store.rows, p.Hits r →
      r.hlc ≤ n.clock.reading

/-- **The condition.** A writer ticks when the clock accounts for what it is
going to replace; and between its tick and its write nobody stores a row for
it to replace that outranks its write. -/
def Undisturbed (s : Busy) : BusyAction → Prop
  | .write (.call k now) => ∀ w ∈ s.crew.active[k]?,
      TickReady s.crew.node now w ∧ Clear (s.crew.active.eraseIdx k) (w.stores s.crew.node)
  | .sync k => ∀ q ∈ s.rounds[k]?, Clear s.crew.active q.stores
  | .write (.spawn _) | .receive .. => True

instance (ws : List Writer) (rs : List Row) : Decidable (Clear ws rs) :=
  inferInstanceAs (Decidable (∀ r ∈ rs, ∀ w ∈ ws, ∀ p ∈ w.write, p.Outranks r))

instance (n : Node) (now : Int64) (w : Writer) : Decidable (TickReady n now w) :=
  inferInstanceAs (Decidable ((w.Ticks → n.clock.NoWrap now) ∧
    ∀ p ∈ w.planned n (n.clock.tick now).1, ∀ r ∈ n.store.rows, p.Hits r →
      r.hlc ≤ n.clock.reading))

instance (s : Busy) : DecidablePred s.Undisturbed
  | .write (.call k now) => inferInstanceAs (Decidable (∀ w ∈ s.crew.active[k]?,
      TickReady s.crew.node now w ∧ Clear (s.crew.active.eraseIdx k) (w.stores s.crew.node)))
  | .sync k => inferInstanceAs (Decidable (∀ q ∈ s.rounds[k]?, Clear s.crew.active q.stores))
  | .write (.spawn _) | .receive .. => isTrue trivial

/-- Every pending write outranks what it is going to replace. -/
def Safe (s : Busy) : Prop :=
  ∀ w ∈ s.crew.active, ∀ p ∈ w.write, ∀ r ∈ s.rows, p.Outranks r

/-- **An undisturbed write takes nothing back**, and leaves the pending ones
ahead of what they replace. -/
theorem safe_write {E : Env} {s : Busy} {crew : Crew} {a : CrewAction} (hs : Safe s)
    (hok : s.Undisturbed (.write a)) (h : s.crew.step E a = some crew) :
    Safe { s with crew } ∧ s.rows.Advances crew.node.store.rows := by
  rcases Crew.step_cases h with ⟨op, w, rfl, hw, rfl⟩ |
    ⟨k, now, w, n, w', rfl, hw, hcall, -, rfl⟩
  · refine ⟨fun w₁ hw₁ p hp r hr => ?_, .refl _⟩
    rcases List.mem_cons.mp hw₁ with rfl | hw₁
    · exact absurd (hp.symm.trans (Writer.write_ofOp hw)) nofun
    · exact hs w₁ hw₁ p hp r hr
  · obtain ⟨⟨hwrap, hready⟩, hclear⟩ := hok w hw
    have hsafe := hs w (List.mem_of_getElem? hw)
    refine ⟨fun w₁ hw₁ p hp r hr => ?_, hcall.advances hsafe⟩
    rcases Crew.mem_active_cases hw₁ with hw₁ | hw₁
    · cases hcall with
      | other hrows _ hkeep =>
        have hr : r ∈ s.crew.node.store.rows := hrows ▸ hr
        exact hsafe p (hkeep w₁ hw₁ p hp) r hr
      | tick hticks hrows _ hplan =>
        -- the clock is past every row it hits, and the timestamp is past the clock
        have hp' := (hplan w₁ hw₁).symm.trans hp
        intro hhit
        refine Write.version_of_hlc_lt ?_
        rw [Writer.planned_hlc hp']
        exact (hready p hp' r (hrows ▸ hr) hhit).trans_lt (Clock.reading_lt_tick (hwrap hticks))
      | put _ _ _ _ hdone => exact absurd (hp.symm.trans (hdone w₁ hw₁)) nofun
      | prune _ _ _ _ hdone => exact absurd (hp.symm.trans (hdone w₁ hw₁)) nofun
    · rcases hcall.mem_rows hr with hold | hnew
      · exact hs w₁ (List.mem_of_mem_eraseIdx hw₁) p hp r hold
      · exact hclear r hnew w₁ hw₁ p hp

/-- **No undisturbed step takes a row back.** -/
theorem safe_step {E : Env} {s t : Busy} {a : BusyAction} (hs : Safe s)
    (hok : s.Undisturbed a) (h : step E s a = some t) : Safe t ∧ s.rows.Advances t.rows := by
  cases a with
  | write a =>
    obtain ⟨crew, hcrew, rfl⟩ := Option.map_eq_some_iff.mp h
    exact safe_write hs hok hcrew
  | receive =>
    cases h
    exact ⟨hs, .refl _⟩
  | sync k =>
    obtain ⟨q, hq, rfl⟩ := Option.map_eq_some_iff.mp h
    have hclear := hok q hq
    rcases q.next_rows E s.crew.node with hrows | hrows
    · simp only [Safe, rows, hrows]
      exact ⟨hs, .refl _⟩
    · simp only [Safe, rows, hrows]
      refine ⟨fun w hw p hp r hr => ?_, KeyedTable.advances_mergeAll _ _⟩
      rcases KeyedTable.mem_of_mem_mergeAll hr with hold | hnew
      · exact hs w hw p hp r hold
      · exact hclear r hnew w hw p hp

/-- **Pending writes stay ahead of what they replace.** -/
theorem safe_run {E : Env} {s t : Busy} {as : List BusyAction} (hs : Safe s)
    (hr : Run (step E) Undisturbed s as t) : Safe t :=
  hr.invariant (I := Safe) (fun _ _ _ h hok hst => (safe_step h hok hst).1) hs

/-- **No key goes back** in a run of undisturbed writes: from a node without
writers under way, whatever rounds are, for any two states of the run and any
row of the first, the second holds for its key a row the first one's is not
newer than. -/
theorem versions_never_go_back (E : Env) {s u t : Busy} {as bs : List BusyAction}
    (hidle : s.crew.active = []) (hu : Run (step E) Undisturbed s as u)
    (ht : Run (step E) Undisturbed u bs t) {kind : Kind} {key : String} {r : Row}
    (hr : u.rows.get (kind, key) = some r) :
    ∃ r', t.rows.get (kind, key) = some r' ∧ newer r r' = false := by
  have hsafe : Safe s := fun w hw => absurd (hidle ▸ hw) List.not_mem_nil
  have hadv : u.rows.Advances t.rows :=
    ht.related (R := fun u t => u.rows.Advances t.rows) (I := Safe) (fun _ => .refl _)
      (fun _ _ _ h h' => h.trans h') (fun _ _ _ h hok hst => (safe_step h hok hst).1)
      (fun _ _ _ h hok hst => (safe_step h hok hst).2) (safe_run hsafe hu)
  obtain ⟨hmem, hid⟩ := KeyedTable.get_eq_some.mp hr
  obtain ⟨r', hr', hid', hle⟩ := hadv r hmem
  exact ⟨r', KeyedTable.get_eq_some.mpr ⟨hr', hid'.trans hid⟩, newer_eq_false.mpr hle⟩

/-- Node 0, not started yet. -/
def idle : Busy := ⟨⟨.fresh (Demo.nodeID 0) Demo.epoch "10.0.0.0:7001", []⟩, []⟩

/-- Node 0 starts, and a label PUT has read what it needs. -/
def putPending : List BusyAction :=
  [.write (.spawn (.start 0 (Demo.runner 0))), .write (.call 0 10), .write (.call 0 0),
    .write (.call 0 0),
    .write (.spawn (.putLabels 0 "n0" (some (some (Demo.labels "zone" "a"))))),
    .write (.call 0 0), .write (.call 0 0)]

/-- A peer's label row for the same runner arrives and is merged. -/
def labelsArrive : List BusyAction :=
  [.receive "10.0.0.1:7001" HLC.zero
      { nodeId := Demo.nodeID 1, checksums := [], events := [], eventChecksum := 0
        rows := [⟨"meta", "n0", "api/n1", some ⟨50, 0⟩, false, some [1]⟩] },
    .sync 0, .sync 0]

/-- The PUT may tick after the batch and its `Update`. -/
theorem put_after_batch_wins : ∃ u t : Busy,
    Run (step .escapeFree) Undisturbed idle (putPending ++ labelsArrive) u ∧
    Run (step .escapeFree) Undisturbed u [.write (.call 0 20), .write (.call 0 0)] t ∧
    ∃ r r', (u.rows.get (kindMeta, "n0") = some r ∧ r.hlc = ⟨50, 0⟩) ∧
      t.rows.get (kindMeta, "n0") = some r' ∧ newer r r' = false := by
  obtain ⟨u, t, hu, ht, hget⟩ : ∃ u t : Busy,
      Run (step .escapeFree) Undisturbed idle (putPending ++ labelsArrive) u ∧
        Run (step .escapeFree) Undisturbed u [.write (.call 0 20), .write (.call 0 0)] t ∧
        (u.rows.get (kindMeta, "n0")).map Row.hlc = some ⟨50, 0⟩ :=
    exists_two_runs (by decide +kernel)
  obtain ⟨r, hr, hhlc⟩ := Option.map_eq_some_iff.mp hget
  obtain ⟨r', hr', hnew⟩ := versions_never_go_back .escapeFree (s := idle) rfl hu ht hr
  exact ⟨u, t, hu, ht, r, r', ⟨hr, hhlc⟩, hr', hnew⟩

/-- A batch between the `Tick` and the `Put`: the local labels replace newer
ones that the node has already merged. -/
theorem put_around_batch_loses : ∃ u t : Busy,
    Run (step .escapeFree) (fun _ _ => True) idle
      (putPending ++ .write (.call 0 20) :: labelsArrive) u ∧
    Run (step .escapeFree) (fun _ _ => True) u [.write (.call 0 0)] t ∧
    ∃ r r', u.rows.get (kindMeta, "n0") = some r ∧ t.rows.get (kindMeta, "n0") = some r' ∧
      newer r r' = true := by
  obtain ⟨u, t, hu, ht, r, hr, r', hr', hkey, hkey', hnew⟩ : ∃ u t : Busy,
      Run (step .escapeFree) (fun _ _ => True) idle
          (putPending ++ .write (.call 0 20) :: labelsArrive) u ∧
        Run (step .escapeFree) (fun _ _ => True) u [.write (.call 0 0)] t ∧
        ∃ r ∈ u.rows, ∃ r' ∈ t.rows, r.id = (kindMeta, "n0") ∧ r'.id = (kindMeta, "n0") ∧
          newer r r' = true :=
    exists_two_runs (by decide +kernel)
  exact ⟨u, t, hu, ht, r, r', KeyedTable.get_eq_some.mpr ⟨hr, hkey⟩,
    KeyedTable.get_eq_some.mpr ⟨hr', hkey'⟩, hnew⟩

end Busy

end Takl
