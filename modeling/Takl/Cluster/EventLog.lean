import Takl.Cluster.Stamps
import Takl.Node.Response

/-!
# The event log

Node `r` numbers its own events `1, 2, …` by `MAX(seq) + 1` over a table that
also takes in remote events, remote conflicts are dropped without notice, and
what a peer gets is filtered by one watermark for its own and its relayed
events together. `Log` is the invariant under which the three agree:

* the events of `r` at `r` are numbered without gaps, in the order of their
  timestamps;
* an event held or in flight anywhere is one of its runner's own, with a
  payload text that survives the wire;
* the event watermark on `j` never passes `j`'s clock, so what `j` emits is
  above it until it has been delivered.

The last part is the argument for rows over again, without overwriting: an
event table only grows (`events_kept`).
-/

namespace Takl

/-! ## What an operation emits -/

/-- The payload of the event an operation emits. -/
def NodeOp.emits : NodeOp → Option EventPayload
  | .start .. => some none
  | .member _ ev =>
      if ev.type = .update then none
      else some (some [("node_id", .str ev.nodeID), ("ip", .str ev.ip)])
  | .step .. | .putLabels .. | .deleteLabels .. | .gc .. => none

namespace Node

theorem call_put_events (n : Node) (r : Row) :
    (n.call fun st => st.put r).1.store.events = n.store.events := by
  rcases call_cases n fun st => st.put r with ⟨st, h1, h2⟩ | ⟨e, -, h2⟩
  · rw [h2]
    exact (Store.upsert_ok h1).2.1
  · rw [h2]

theorem updateLabels_events (E : Env) (n : Node) (now : Int64) (id : String)
    (body : Option (Option Labels)) :
    (n.handleUpdateLabels E now id body).1.store.events = n.store.events := by
  unfold handleUpdateLabels
  split
  · rfl
  · split
    · rfl
    · split
      · rfl
      · split
        · rfl
        · next labels _ =>
          have hput := call_put_events { n with clock := (n.clock.tick now).2 }
            ({ n with clock := (n.clock.tick now).2 }.labelsRow E id labels (n.clock.tick now).1)
          simp only [tick]
          split
          · next hcall =>
            rw [hcall] at hput
            exact hput
          · next hcall =>
            rw [hcall] at hput
            exact hput

theorem deleteLabels_events (E : Env) (n : Node) (now : Int64) (id : String) :
    (n.handleDeleteLabels E now id).1.store.events = n.store.events := by
  unfold handleDeleteLabels tick
  rcases call_cases { n with clock := (n.clock.tick now).2 } fun st =>
    st.delete E kindMeta id n.apiOwner (n.clock.tick now).1 with ⟨st, h1, h2⟩ | ⟨e, -, h2⟩
  · simp only [apiOwner] at h2 ⊢
    rw [h2]
    exact (Store.upsert_ok h1).2.1
  · simp only [apiOwner] at h2 ⊢
    rw [h2]

theorem mem_emit {E : Env} {n : Node} {type : EventType} {payload : EventPayload} {hlc : HLC}
    {e : EventRow} (he : e ∈ (n.emit E type payload hlc).1.store.events) :
    e ∈ n.store.events ∨ e.payload = E.encodePayload payload := by
  unfold emit call Store.appendEvent at he
  cases hg : n.store.events.get (n.nodeID, n.store.maxSeq n.nodeID + 1) with
  | some c =>
    simp only [hg] at he
    exact .inl he
  | none =>
    simp only [hg] at he
    rcases KeyedTable.mem_upsert.mp he with rfl | ⟨he, -⟩
    · exact .inr rfl
    · exact .inl he

/-- The event an operation adds is the one it emits. -/
theorem payload_of_new {E : Env} {n : Node} {op : NodeOp} {e : EventRow}
    (he : e ∈ (op.exec E n).store.events) (hnew : e ∉ n.store.events) :
    ∃ payload, op.emits = some payload ∧ e.payload = E.encodePayload payload := by
  cases op with
  | start now snapshot =>
    obtain ⟨st, hst, -, hevents, -⟩ := call_put { n with clock := (n.clock.tick now).2 }
      (r := n.runnerRow E { snapshot with status := .active } (n.clock.tick now).1)
      (Option.some_ne_none _)
    have hput : { n with clock := (n.clock.tick now).2 }.putRow E
        { snapshot with status := .active } (n.clock.tick now).1 =
          ({ n with store := st, clock := (n.clock.tick now).2 }, none) := hst
    simp only [NodeOp.exec, start, tick, hput] at he
    rcases mem_emit he with he | he
    · exact absurd (hevents ▸ he) hnew
    · exact ⟨none, rfl, he⟩
  | step now snapshot =>
    obtain ⟨st, hst, -, hevents, -⟩ := step_spec E n now snapshot
    rw [NodeOp.exec, hst] at he
    exact absurd (hevents ▸ he) hnew
  | putLabels now id body =>
    rw [NodeOp.exec, updateLabels_events] at he
    exact absurd he hnew
  | deleteLabels now id =>
    rw [NodeOp.exec, deleteLabels_events] at he
    exact absurd he hnew
  | member now ev =>
    simp only [NodeOp.exec, handleMembershipEvent, tick] at he
    cases htype : ev.type with
    | update =>
      rw [htype] at he
      exact absurd he hnew
    | join =>
      rw [htype] at he
      exact ⟨_, if_neg (by simp [htype]), (mem_emit he).resolve_left hnew⟩
    | leave =>
      rw [htype] at he
      exact ⟨_, if_neg (by simp [htype]), (mem_emit he).resolve_left hnew⟩
  | gc now => exact absurd he hnew

end Node

/-- The event rows a puller is about to insert. -/
def Exchange.events (E : Env) : Exchange → List EventRow
  | .responded _ resp => resp.events.filterMap fun ev => (ev.toEvent E).map (Store.eventRow E)
  | .idle | .requested _ => []

/-- No event is emitted. -/
def Action.Silent {ι : Type} : Action ι → Prop
  | .perform _ op => op.emits = none
  | _ => True

instance {ι : Type} : DecidablePred (Action.Silent (ι := ι))
  | .perform _ op => inferInstanceAs (Decidable (op.emits = none))
  | .request .. | .serve .. | .apply .. | .lose .. => isTrue trivial

namespace Cluster

open Runs

variable {ι : Type}

/-! ## The invariant -/

/-- `e` is an event of node `i` itself, held by it. -/
def Own (s : Cluster ι) (i : ι) (e : EventRow) : Prop :=
  e ∈ (s.node i).store.events ∧ e.runnerID = (s.node i).nodeID

/-- The event watermark of `i` on `j`. -/
def eventMark (s : Cluster ι) (i j : ι) : HLC :=
  (s.node i).store.watermark (s.node j).syncAddr kindEvent

/-- No counter is exhausted, and the text of an emitted payload survives being
read and written. -/
def LogStep (E : Env) (s : Cluster ι) (a : Action ι) : Prop :=
  s.NoWrap a ∧
    match a with
    | .perform i op => (s.node i).store.maxSeq (s.node i).nodeID < Int64.maxValue ∧
        ∀ payload ∈ op.emits, E.Stable (E.encodePayload payload)
    | _ => True

instance (E : Env) (s : Cluster ι) : DecidablePred (LogStep E s)
  | .perform _ op => inferInstanceAs (Decidable (_ ∧ _ ∧ ∀ payload ∈ op.emits, _))
  | .request .. | .serve .. | .apply .. | .lose .. => inferInstanceAs (Decidable (_ ∧ True))

/-- The events tables, and what is in flight between them. -/
structure Log (E : Env) (s : Cluster ι) : Prop where
  id_inj : Function.Injective fun i => (s.node i).nodeID
  addr_inj : Function.Injective fun i => (s.node i).syncAddr
  stable : ∀ i, ∀ e ∈ (s.node i).store.events, E.Stable e.payload
  clock_events : ∀ i, ∀ e ∈ (s.node i).store.events, e.hlc ≤ (s.node i).clock.reading
  origin : ∀ i, ∀ e ∈ (s.node i).store.events, ∃ k, s.Own k e
  zero_lt : ∀ {i e}, s.Own i e → HLC.zero < e.hlc
  /-- The own events are numbered from one, without gaps, -/
  numbered : ∀ i, ∃ m : Nat, ∀ q : Int,
    (∃ e, s.Own i e ∧ e.seq.toInt = q) ↔ 1 ≤ q ∧ q ≤ m
  /-- in the order of their timestamps. -/
  ordered : ∀ {i e e'}, s.Own i e → s.Own i e' → e.seq < e'.seq → e.hlc < e'.hlc
  mark_le : ∀ i j, s.eventMark i j ≤ (s.node j).clock.reading
  requested : ∀ {i j req}, s.exchange i j = .requested req →
    req.eventWatermark = some (s.eventMark i j)
  responded : ∀ {i j req resp}, s.exchange i j = .responded req resp →
    req.eventWatermark = some (s.eventMark i j) ∧ (∀ ev ∈ resp.events, ev.hlc ≠ none) ∧
      ∀ r ∈ resp.toRows, r.kind ≠ kindEvent
  flight_le : ∀ {i j}, ∀ e ∈ (s.exchange i j).events E, e.hlc ≤ (s.node j).clock.reading
  flight_origin : ∀ {i j}, ∀ e ∈ (s.exchange i j).events E, ∃ k, s.Own k e
  /-- What `j` emitted is above `i`'s watermark on `j`, or `i` has it. -/
  above : ∀ {i j e}, s.Own j e → s.eventMark i j < e.hlc ∨ e ∈ (s.node i).store.events
  /-- It also stays above whatever the response in flight will raise the
  watermark to. -/
  flight : ∀ {i j req resp e}, s.exchange i j = .responded req resp → s.Own j e →
    (∀ x ∈ (s.exchange i j).events E, x.hlc < e.hlc) ∨ e ∈ (s.exchange i j).events E ∨
      e ∈ (s.node i).store.events

theorem log_boot (E : Env) {id : ι → String} {epoch : ι → Epoch} {addr : ι → String}
    (hid : Function.Injective id) (haddr : Function.Injective addr) :
    Log E (boot id epoch addr) where
  id_inj := hid
  addr_inj := haddr
  stable _ e he := absurd he (KeyedTable.not_mem_empty e)
  clock_events _ e he := absurd he (KeyedTable.not_mem_empty e)
  origin _ e he := absurd he (KeyedTable.not_mem_empty e)
  zero_lt he := absurd he.1 (KeyedTable.not_mem_empty _)
  numbered i := by
    refine ⟨0, fun q => iff_of_false ?_ (by omega)⟩
    rintro ⟨e, he, -⟩
    exact KeyedTable.not_mem_empty e he.1
  ordered he := absurd he.1 (KeyedTable.not_mem_empty _)
  mark_le _ _ := le_rfl
  requested hx := nomatch hx
  responded hx := nomatch hx
  flight_le _ he := nomatch he
  flight_origin _ he := nomatch he
  above he := absurd he.1 (KeyedTable.not_mem_empty _)
  flight hx := nomatch hx

/-- The key of an event tells whose it is. -/
theorem Own.eq_of_id {s : Cluster ι} (hid : Function.Injective fun i => (s.node i).nodeID) {k l : ι}
    {e e' : EventRow} (he : s.Own k e) (he' : s.Own l e') (h : e.id = e'.id) : e = e' := by
  obtain ⟨hr, -⟩ := Prod.mk.inj h
  obtain rfl : k = l := hid (he.2.symm.trans (hr.trans he'.2))
  exact KeyedTable.eq_of_key_eq he.1 he'.1 h

/-! ## One step, seen from an events table -/

variable [DecidableEq ι] {E : Env} {s t : Cluster ι} {a : Action ι} {i j : ι}

/-- What a step can do to the events and event watermarks of node `k`. -/
inductive EventStep (E : Env) (s : Cluster ι) (a : Action ι) (k : ι) : Node → Prop
  | same {n : Node} (hev : n.store.events = (s.node k).store.events)
      (hwm : ∀ p, n.store.watermark p kindEvent = (s.node k).store.watermark p kindEvent) :
      EventStep E s a k n
  | emitted {op : NodeOp} {n : Node} {e : EventRow} (ha : a = .perform k op)
      (hemits : op.emits ≠ none) (hev : n.store.events = (s.node k).store.events.upsert e)
      (hfree : (s.node k).store.events.get e.id = none) (hhlc : e.hlc = n.clock.reading)
      (hlt : (s.node k).clock.reading < e.hlc) (hrunner : e.runnerID = (s.node k).nodeID)
      (hseq : e.seq = (s.node k).store.maxSeq (s.node k).nodeID + 1)
      (hstable : E.Stable e.payload)
      (hwm : ∀ p, n.store.watermark p kindEvent = (s.node k).store.watermark p kindEvent) :
      EventStep E s a k n
  | logged {l : ι} {req : PullRequest} {resp : PullResponse} {xs : List Event} {n : Node}
      (ha : a = .apply k l .ok) (hx : s.exchange k l = .responded req resp)
      (hxs : ∀ e, e ∈ (s.exchange k l).events E ↔ ∃ x ∈ xs, Store.eventRow E x = e)
      (hlog : (s.node k).Logged E (s.node l).syncAddr xs n) : EventStep E s a k n

/-- The rows in flight are what the response decodes to. -/
theorem mem_flight {req : PullRequest} {resp : PullResponse} {xs : List Event} {x : Exchange}
    (hx : x = .responded req resp) (hxs : resp.events.mapM (PbEvent.toEvent E) = some xs)
    (e : EventRow) : e ∈ x.events E ↔ ∃ y ∈ xs, Store.eventRow E y = e := by
  rw [hx]
  simp only [Exchange.events, List.mem_filterMap, Option.map_eq_some_iff,
    mem_of_mapM_eq_some hxs]
  constructor
  · rintro ⟨ev, hev, y, hy, rfl⟩
    exact ⟨y, ⟨ev, hev, hy⟩, rfl⟩
  · rintro ⟨y, ⟨ev, hev, hy⟩, rfl⟩
    exact ⟨ev, hev, y, hy, rfl⟩

theorem step_event (hl : Log E s) (hok : LogStep E s a) (h : step E s a = some t) (k : ι) :
    EventStep E s a k (t.node k) := by
  cases a with
  | perform i op =>
    rw [step_perform h]
    by_cases hk : k = i
    · subst hk
      rw [setNode_node_self]
      rcases op.exec_cases E (s.node k) with he | he
      · rw [he]
        exact .same rfl fun _ => rfl
      · generalize ht : (op.exec E (s.node k)).store.events = tbl
        have heff := ht ▸ he.events
        cases heff with
        | same => exact .same ht fun p => he.watermark p kindEvent
        | @emit e hhlc hrunner hseq hfree =>
          have hnew : e ∉ (s.node k).store.events := fun hc =>
            KeyedTable.get_eq_none.mp hfree e hc rfl
          obtain ⟨payload, hop, hpay⟩ := Node.payload_of_new
            (ht ▸ KeyedTable.mem_upsert_self _ e : e ∈ (op.exec E (s.node k)).store.events) hnew
          have hread : e.hlc = (op.exec E (s.node k)).clock.reading := hhlc.trans he.reading.symm
          refine .emitted rfl (by simp [hop]) ht hfree hread ?_ hrunner hseq ?_
            fun p => he.watermark p kindEvent
          · rw [hread]
            exact he.reading_lt hok.1
          · rw [hpay]
            exact hok.2.2 payload hop
    · rw [setNode_node_of_ne _ _ hk]
      exact .same rfl fun _ => rfl
  | request i j =>
    obtain ⟨-, -, rfl⟩ := step_request h
    exact .same rfl fun _ => rfl
  | serve i j =>
    obtain ⟨req, -, ⟨resp, -, rfl⟩ | rfl⟩ := step_serve h <;> exact .same rfl fun _ => rfl
  | lose i j =>
    rw [step_lose h]
    exact .same rfl fun _ => rfl
  | apply i j out =>
    obtain ⟨req, resp, n, hx, hfin, rfl⟩ := step_apply h
    rw [setExchange_node]
    by_cases hk : k = i
    · subst hk
      rw [setNode_node_self]
      obtain ⟨hreq, hhlcs, hkinds⟩ := hl.responded hx
      rw [hreq, Option.getD_some] at hfin
      cases out with
      | failed e =>
        rw [Node.eq_of_finishRound_failed hfin]
        exact .same rfl fun _ => rfl
      | panicked => exact absurd hfin (Node.finishRound_ne_panicked hhlcs)
      | ok =>
        obtain ⟨xs, hxs, hlog⟩ := Node.logged_of_finishRound hfin le_rfl hkinds
        exact .logged rfl hx (mem_flight hx hxs) hlog
    · rw [setNode_node_of_ne _ _ hk]
      exact .same rfl fun _ => rfl

/-- Events tables only grow. -/
theorem events_kept (hl : Log E s) (hok : LogStep E s a) (h : step E s a = some t) {k : ι}
    {e : EventRow} (he : e ∈ (s.node k).store.events) : e ∈ (t.node k).store.events := by
  have hstep := step_event hl hok h k
  generalize t.node k = n at hstep
  cases hstep with
  | same hev => rwa [hev]
  | emitted _ _ hev hfree =>
    rw [hev]
    exact KeyedTable.mem_upsert_of_ne he (KeyedTable.get_eq_none.mp hfree e he)
  | logged _ _ _ hlog => exact hlog.kept e he

theorem Own.step (hl : Log E s) (hok : LogStep E s a) (h : Cluster.step E s a = some t) {k : ι}
    {e : EventRow} (he : s.Own k e) : t.Own k e :=
  ⟨events_kept hl hok h he.1, he.2.trans (step_identity h k).nodeID.symm⟩

/-- What `k` emits in a step. -/
structure Emitted (E : Env) (s t : Cluster ι) (a : Action ι) (k : ι) (e : EventRow) : Prop where
  op : ∃ op, a = .perform k op ∧ op.emits ≠ none
  own : t.Own k e
  hlc : e.hlc = (t.node k).clock.reading
  lt : (s.node k).clock.reading < e.hlc
  seq : e.seq = (s.node k).store.maxSeq (s.node k).nodeID + 1
  stable : E.Stable e.payload

omit [DecidableEq ι] in
/-- Its number identifies it. -/
theorem Emitted.unique {k : ι} {e e' : EventRow} (h : Emitted E s t a k e)
    (h' : Emitted E s t a k e') : e = e' := by
  have hid : e.id = e'.id := Prod.ext (h.own.2.trans h'.own.2.symm) (h.seq.trans h'.seq.symm)
  exact KeyedTable.eq_of_key_eq h.own.1 h'.own.1 hid

/-- Where an event of a table comes from. -/
theorem mem_cases (hl : Log E s) (hok : LogStep E s a) (h : step E s a = some t) {k : ι}
    {e : EventRow} (he : e ∈ (t.node k).store.events) :
    e ∈ (s.node k).store.events ∨ Emitted E s t a k e ∨
      ∃ l, a = .apply k l .ok ∧ e ∈ (s.exchange k l).events E := by
  have hid := (step_identity h k).nodeID
  have hstep := step_event hl hok h k
  generalize hn : t.node k = n at he hstep
  cases hstep with
  | same hev => exact .inl (hev ▸ he)
  | @emitted op _ e₀ ha hemits hev hfree hhlc hlt hrunner hseq hstable =>
    rw [hev] at he
    rcases KeyedTable.mem_upsert.mp he with rfl | ⟨he, -⟩
    · refine .inr (.inl ⟨⟨op, ha, hemits⟩, ⟨?_, hrunner.trans hid.symm⟩, hn ▸ hhlc, hlt, hseq,
        hstable⟩)
      rw [hn, hev]
      exact KeyedTable.mem_upsert_self _ e
    · exact .inl he
  | logged ha _ hxs hlog =>
    rcases hlog.added e he with he | hx
    · exact .inl he
    · exact .inr (.inr ⟨_, ha, (hxs e).mpr hx⟩)

/-- The events a node receives of itself it has. -/
theorem own_new (hl : Log E s) (hok : LogStep E s a) (h : step E s a = some t) {k : ι}
    {e : EventRow} (he : t.Own k e) : s.Own k e ∨ Emitted E s t a k e := by
  have hr : e.runnerID = (s.node k).nodeID := he.2.trans (step_identity h k).nodeID
  rcases mem_cases hl hok h he.1 with hold | hem | ⟨l, -, hflight⟩
  · exact .inl ⟨hold, hr⟩
  · exact .inr hem
  · obtain ⟨k', hown⟩ := hl.flight_origin e hflight
    rw [hl.id_inj (hr.symm.trans hown.2)]
    exact .inl hown

/-- A node's own events are its old ones and at most one it has just emitted. -/
theorem own_cases (hl : Log E s) (hok : LogStep E s a) (h : step E s a = some t) (k : ι) :
    (∀ e, t.Own k e ↔ s.Own k e) ∨
      ∃ e₀, Emitted E s t a k e₀ ∧ ∀ e, t.Own k e ↔ s.Own k e ∨ e = e₀ := by
  by_cases hem : ∃ e₀, Emitted E s t a k e₀
  · obtain ⟨e₀, hem⟩ := hem
    refine .inr ⟨e₀, hem, fun e => ⟨fun he => ?_, ?_⟩⟩
    · exact (own_new hl hok h he).imp_right fun hnew => hnew.unique hem
    · rintro (he | rfl)
      · exact he.step hl hok h
      · exact hem.own
  · refine .inl fun e => ⟨fun he => ?_, fun he => he.step hl hok h⟩
    exact (own_new hl hok h he).resolve_right fun hnew => hem ⟨e, hnew⟩

/-- Every event held is somebody's own. -/
theorem origin_of_mem (hl : Log E s) (hok : LogStep E s a) (h : step E s a = some t) {k : ι}
    {e : EventRow} (he : e ∈ (t.node k).store.events) : ∃ l, t.Own l e := by
  rcases mem_cases hl hok h he with he | he | ⟨l, -, he⟩
  · obtain ⟨l, hown⟩ := hl.origin k e he
    exact ⟨l, hown.step hl hok h⟩
  · exact ⟨k, he.own⟩
  · obtain ⟨l, hown⟩ := hl.flight_origin e he
    exact ⟨l, hown.step hl hok h⟩

/-- Applying a response stores everything that was in flight: the key is
there afterwards, and it determines the event. -/
theorem delivered_of_apply (hl : Log E s) (hok : LogStep E s (.apply i j .ok))
    (h : step E s (.apply i j .ok) = some t) {e : EventRow}
    (he : e ∈ (s.exchange i j).events E) : e ∈ (t.node i).store.events := by
  obtain ⟨req, resp, n, hx, hfin, ht⟩ := step_apply h
  have hn : t.node i = n := by rw [ht, setExchange_node, setNode_node_self]
  obtain ⟨hreq, -, hkinds⟩ := hl.responded hx
  rw [hreq, Option.getD_some] at hfin
  obtain ⟨xs, hxs, hlog⟩ := Node.logged_of_finishRound hfin le_rfl hkinds
  obtain ⟨k, hown⟩ := hl.flight_origin e he
  obtain ⟨x, hxmem, rfl⟩ := (mem_flight hx hxs e).mp he
  obtain ⟨e', he', hid⟩ := hlog.held x hxmem
  rw [← hn] at he'
  obtain ⟨k', hown'⟩ := origin_of_mem hl hok h he'
  have hinj : Function.Injective fun i => (t.node i).nodeID := fun u v huv =>
    hl.id_inj (by simpa only [(step_identity h _).nodeID] using huv)
  rw [← hown'.eq_of_id hinj (hown.step hl hok h) hid]
  exact he'

/-- An event mark moves only when its own exchange is applied. -/
theorem mark_step (hl : Log E s) (hok : LogStep E s a) (h : step E s a = some t) (i j : ι) :
    t.eventMark i j = s.eventMark i j ∨
      a = .apply i j .ok ∧ (∃ req resp, s.exchange i j = .responded req resp) ∧
        ∃ hs : List HLC, (∀ x ∈ hs, ∃ e ∈ (s.exchange i j).events E, e.hlc = x) ∧
          t.eventMark i j = max (s.eventMark i j) (Store.latest HLC.zero hs) := by
  have haddr := (step_identity h j).syncAddr
  have hstep := step_event hl hok h i
  generalize hn : t.node i = n at hstep
  cases hstep with
  | same _ hwm =>
    left
    rw [eventMark, eventMark, haddr, hn, hwm]
  | emitted _ _ _ _ _ _ _ _ _ hwm =>
    left
    rw [eventMark, eventMark, haddr, hn, hwm]
  | @logged l req resp xs _ ha hx hxs hlog =>
    by_cases hlj : l = j
    · subst hlj
      refine .inr ⟨ha, ⟨req, resp, hx⟩, xs.map Event.hlc, fun y hy => ?_, ?_⟩
      · obtain ⟨x, hxmem, rfl⟩ := List.mem_map.mp hy
        exact ⟨Store.eventRow E x, (hxs _).mpr ⟨x, hxmem, rfl⟩, rfl⟩
      · rw [eventMark, eventMark, haddr, hn, hlog.watermark]
    · left
      rw [eventMark, eventMark, haddr, hn, hlog.others _ fun hc => hlj (hl.addr_inj hc.symm)]

/-! ## What a served request brings -/

omit [DecidableEq ι] in
/-- Of stable events, those above the floor arrive, each as it is. -/
theorem mem_served (hl : Log E s) {req : PullRequest} {resp : PullResponse}
    (hpull : (s.node j).server.pull E req = some resp) (e : EventRow) :
    e ∈ (Exchange.responded req resp.wire).events E ↔
      e ∈ (s.node j).store.events ∧ (s.node j).server.eventFloor req < e.hlc := by
  obtain ⟨xs, hxs⟩ := Node.exists_incoming hpull
  rw [mem_flight rfl hxs]
  constructor
  · rintro ⟨y, hy, rfl⟩
    obtain ⟨e, he, hlt, hrel⟩ := (Node.mem_relayed hpull hxs).mp hy
    rw [Node.eventRow_relayed hrel (hl.stable j e he)]
    exact ⟨he, hlt⟩
  · rintro ⟨he, hlt⟩
    obtain ⟨x, hx⟩ := Node.scanEvent_of_pull hpull he hlt
    obtain ⟨y, hy⟩ := Node.exists_relayed hx
    exact ⟨y, (Node.mem_relayed hpull hxs).mpr ⟨e, he, hlt, hy⟩,
      Node.eventRow_relayed hy (hl.stable j e he)⟩

omit [DecidableEq ι] in
/-- A served request brings every event its peer emitted that the puller does
not have. -/
theorem Log.brings_of_pull (hl : Log E s) {req : PullRequest} {resp : PullResponse}
    (hx : s.exchange i j = .requested req)
    (hpull : (s.node j).server.pull E req = some resp) {e : EventRow} (he : s.Own j e) :
    e ∈ (Exchange.responded req resp.wire).events E ∨ e ∈ (s.node i).store.events := by
  rw [mem_served hl hpull]
  refine (hl.above (i := i) he).imp_left fun habove => ⟨he.1, ?_⟩
  unfold Server.eventFloor
  split
  · exact hl.zero_lt he
  · rwa [hl.requested hx]

/-! ## The step lemma, field by field -/

theorem Log.clock_events_step (hl : Log E s) (hok : LogStep E s a)
    (h : step E s a = some t) {e : EventRow} (he : e ∈ (t.node i).store.events) :
    e.hlc ≤ (t.node i).clock.reading := by
  rcases mem_cases hl hok h he with he | he | ⟨l, rfl, hfl⟩
  · exact (hl.clock_events i e he).trans (clock_mono h hok.1 i)
  · exact he.hlc.le
  · by_cases hold : e ∈ (s.node i).store.events
    · exact (hl.clock_events i e hold).trans (clock_mono h hok.1 i)
    · -- the round has raised the clock to what it received
      generalize hn : t.node i = n at he
      have hstep := hn ▸ step_node h i
      cases hstep with
      | same => exact absurd he hold
      | stamped ha => cases ha
      | received _ _ hrec => exact (hrec.events e he).resolve_left hold

theorem Log.numbered_step (hl : Log E s) (hok : LogStep E s a) (h : step E s a = some t)
    (i : ι) : ∃ m : Nat, ∀ q : Int, (∃ e, t.Own i e ∧ e.seq.toInt = q) ↔ 1 ≤ q ∧ q ≤ m := by
  obtain ⟨m, hm⟩ := hl.numbered i
  rcases own_cases hl hok h i with hown | ⟨e₀, hem, hown⟩
  · refine ⟨m, fun q => ?_⟩
    simp only [hown]
    exact hm q
  · obtain ⟨op, rfl, -⟩ := hem.op
    have hmax : ((s.node i).store.maxSeq (s.node i).nodeID).toInt = m := by
      refine Store.maxSeq_of_numbered fun q => ?_
      rw [← hm q]
      simp only [Own, and_assoc]
    have hseq : e₀.seq.toInt = m + 1 := by
      rw [hem.seq, Clock.toInt_add_one hok.2.1, hmax]
    refine ⟨m + 1, fun q => ?_⟩
    constructor
    · rintro ⟨e, he, rfl⟩
      rcases (hown e).mp he with he | rfl
      · have := (hm e.seq.toInt).mp ⟨e, he, rfl⟩
        omega
      · omega
    · intro hq
      by_cases hlast : q = m + 1
      · exact ⟨e₀, hem.own, hseq.trans hlast.symm⟩
      · obtain ⟨e, he, heq⟩ := (hm q).mpr ⟨hq.1, by omega⟩
        exact ⟨e, (hown e).mpr (.inl he), heq⟩

theorem Log.ordered_step (hl : Log E s) (hok : LogStep E s a) (h : step E s a = some t)
    {e e' : EventRow} (he : t.Own i e) (he' : t.Own i e') (hlt : e.seq < e'.seq) :
    e.hlc < e'.hlc := by
  rcases own_cases hl hok h i with hown | ⟨e₀, hem, hown⟩
  · exact hl.ordered ((hown e).mp he) ((hown e').mp he') hlt
  · obtain ⟨op, rfl, -⟩ := hem.op
    rcases (hown e).mp he with hold | rfl <;> rcases (hown e').mp he' with hold' | rfl
    · exact hl.ordered hold hold' hlt
    · exact (hl.clock_events i e hold.1).trans_lt hem.lt
    · -- the number just given is past all others
      have hpast := Store.lt_nextSeq hok.2.1 hold'.1 hold'.2
      rw [← hem.seq] at hpast
      exact absurd hlt (Int64.not_lt.mpr (Int64.le_of_lt hpast))
    · exact absurd hlt Int64.lt_irrefl

theorem exchange_of_apply {out : Outcome} (h : step E s (.apply i j out) = some t) :
    t.exchange i j = .idle := by
  obtain ⟨_, _, _, -, -, rfl⟩ := step_apply h
  rw [setExchange_exchange, if_pos ⟨rfl, rfl⟩]

theorem Log.above_step (hl : Log E s) (hok : LogStep E s a) (h : step E s a = some t)
    {e : EventRow} (he : t.Own j e) :
    t.eventMark i j < e.hlc ∨ e ∈ (t.node i).store.events := by
  rcases own_new hl hok h he with hold | hem
  · rcases hl.above (i := i) hold with habove | hmem
    · rcases mark_step hl hok h i j with hmark | ⟨rfl, ⟨_, _, hx⟩, hs, hsub, hmark⟩
      · exact .inl (hmark ▸ habove)
      · rcases hl.flight hx hold with hbelow | hin | hmem
        · left
          rw [hmark]
          refine max_lt habove ?_
          rcases Store.latest_mem HLC.zero hs with hz | hmem
          · rw [hz]
            exact hl.zero_lt hold
          · obtain ⟨x, hxm, hxh⟩ := hsub _ hmem
            exact hxh ▸ hbelow x hxm
        · exact .inr (delivered_of_apply hl hok h hin)
        · exact .inr (events_kept hl hok h hmem)
    · exact .inr (events_kept hl hok h hmem)
  · -- the emitter stamped past its clock, and the watermark had not passed it
    obtain ⟨op, rfl, -⟩ := hem.op
    rcases mark_step hl hok h i j with hmark | ⟨ha, -⟩
    · exact .inl (hmark ▸ (hl.mark_le i j).trans_lt hem.lt)
    · cases ha

theorem Log.flight_step (hl : Log E s) (hok : LogStep E s a) (h : step E s a = some t)
    {req : PullRequest} {resp : PullResponse} (hx : t.exchange i j = .responded req resp)
    {e : EventRow} (he : t.Own j e) :
    (∀ x ∈ (t.exchange i j).events E, x.hlc < e.hlc) ∨ e ∈ (t.exchange i j).events E ∨
      e ∈ (t.node i).store.events := by
  have hstep := step_exchange h i j
  generalize t.exchange i j = x at hx hstep ⊢
  cases hstep with
  | idle => cases hx
  | requested => cases hx
  | same =>
    rcases own_new hl hok h he with hold | hem
    · exact (hl.flight hx hold).imp_right (.imp_right fun hmem => events_kept hl hok h hmem)
    · exact .inl fun y hy => (hl.flight_le y hy).trans_lt hem.lt
  | responded hact hreq hpull =>
    rcases own_new hl hok h he with hold | hem
    · exact .inr ((hl.brings_of_pull hreq hpull hold).imp_right (events_kept hl hok h))
    · obtain ⟨op, ha, -⟩ := hem.op
      cases hact.symm.trans ha

/-- What is in flight was so before, or has just been served. -/
theorem mem_flight_cases (hl : Log E s) (h : step E s a = some t) {e : EventRow}
    (he : e ∈ (t.exchange i j).events E) :
    e ∈ (s.exchange i j).events E ∨ e ∈ (s.node j).store.events := by
  have hstep := step_exchange h i j
  generalize t.exchange i j = x at he hstep
  cases hstep with
  | idle => cases he
  | requested => cases he
  | same => exact .inl he
  | responded _ _ hpull => exact .inr ((mem_served hl hpull e).mp he).1

theorem Log.requested_step (hl : Log E s) (hok : LogStep E s a) (h : Cluster.step E s a = some t)
    {req : PullRequest} (hx : t.exchange i j = .requested req) :
    req.eventWatermark = some (t.eventMark i j) := by
  have hmark := mark_step hl hok h i j
  rcases requested_cases h hx with hx | ⟨hact, rfl⟩
  · rcases hmark with hmark | ⟨-, ⟨_, _, hx'⟩, -⟩
    · rw [hmark, hl.requested hx]
    · cases hx.symm.trans hx'
  · rcases hmark with hmark | ⟨hact', -⟩
    · rw [hmark]
      rfl
    · cases hact.symm.trans hact'

theorem Log.responded_step (hl : Log E s) (hok : LogStep E s a) (h : Cluster.step E s a = some t)
    {req : PullRequest} {resp : PullResponse} (hx : t.exchange i j = .responded req resp) :
    req.eventWatermark = some (t.eventMark i j) ∧ (∀ ev ∈ resp.events, ev.hlc ≠ none) ∧
      ∀ r ∈ resp.toRows, r.kind ≠ kindEvent := by
  rcases mark_step hl hok h i j with hmark | ⟨rfl, -⟩
  · rw [hmark]
    rcases responded_cases h hx with hx | ⟨-, hreq, sent, hpull, rfl⟩
    · exact hl.responded hx
    · refine ⟨hl.requested hreq, fun ev hev => ?_, Node.kind_ne_of_delivered hpull⟩
      obtain ⟨evs, -, hsent⟩ := Server.events_of_pull hpull
      rw [hsent] at hev
      obtain ⟨x, -, rfl⟩ := List.mem_map.mp hev
      exact Option.some_ne_none _
  · cases (exchange_of_apply h).symm.trans hx

/-- **Every step keeps the event tables in order**: an event has one origin
and one content, and none below a watermark is missing. -/
theorem Log.step (hs : Stamps s) (hl : Log E s) (hok : LogStep E s a)
    (h : Cluster.step E s a = some t) : Log E t where
  id_inj u v huv := hl.id_inj (by simpa only [(step_identity h _).nodeID] using huv)
  addr_inj u v huv := hl.addr_inj (by simpa only [(step_identity h _).syncAddr] using huv)
  stable i e he := by
    rcases mem_cases hl hok h he with he | hem | ⟨l, -, he⟩
    · exact hl.stable i e he
    · exact hem.stable
    · obtain ⟨k, hown⟩ := hl.flight_origin e he
      exact hl.stable k e hown.1
  clock_events i e he := hl.clock_events_step hok h he
  origin i e he := origin_of_mem hl hok h he
  zero_lt {i e} he := by
    rcases own_new hl hok h he with hold | hem
    · exact hl.zero_lt hold
    · exact (hs.clock_nonneg i).trans_lt hem.lt
  numbered i := hl.numbered_step hok h i
  ordered he he' hlt := hl.ordered_step hok h he he' hlt
  mark_le i j := by
    refine le_trans ?_ (clock_mono h hok.1 j)
    rcases mark_step hl hok h i j with hmark | ⟨-, -, hs', hsub, hmark⟩
    · exact hmark ▸ hl.mark_le i j
    · rw [hmark]
      refine max_le (hl.mark_le i j) (Store.latest_le_iff.mpr ⟨hs.clock_nonneg j, fun x hx => ?_⟩)
      obtain ⟨e, he, rfl⟩ := hsub x hx
      exact hl.flight_le e he
  requested hx := hl.requested_step hok h hx
  responded hx := hl.responded_step hok h hx
  flight_le {i j} e he := by
    refine le_trans ?_ (clock_mono h hok.1 j)
    rcases mem_flight_cases hl h he with he | he
    · exact hl.flight_le e he
    · exact hl.clock_events j e he
  flight_origin {i j} e he := by
    obtain ⟨k, hown⟩ : ∃ k, s.Own k e := by
      rcases mem_flight_cases hl h he with he | he
      · exact hl.flight_origin e he
      · exact hl.origin j e he
    exact ⟨k, hown.step hl hok h⟩
  above he := hl.above_step hok h he
  flight hx he := hl.flight_step hok h hx he

/-- **The event tables stay in order**, and within the clocks. -/
theorem log_run {as : List (Action ι)} (hr : Run (Cluster.step E) (LogStep E) s as t)
    (hs : Stamps s ∧ Log E s) : Stamps t ∧ Log E t :=
  hr.invariant (I := fun s => Stamps s ∧ Log E s)
    (fun _ _ _ hs hok h => ⟨hs.1.step h hok.1, hs.2.step hs.1 hok h⟩) hs

/-! ## Delivery once nobody emits -/

/-- A step that emits nothing. -/
def SilentStep (E : Env) (s : Cluster ι) (a : Action ι) : Prop := LogStep E s a ∧ a.Silent

instance (E : Env) (s : Cluster ι) : DecidablePred (SilentStep E s) :=
  fun _ => inferInstanceAs (Decidable (_ ∧ _))

theorem own_silent (hl : Log E s) (hok : SilentStep E s a) (h : step E s a = some t) {k : ι}
    {e : EventRow} (he : t.Own k e) : s.Own k e := by
  refine (own_new hl hok.1 h he).resolve_right fun hem => ?_
  obtain ⟨op, rfl, hemits⟩ := hem.op
  exact hemits hok.2

/-- A response of `j` that `i` has yet to apply brings everything `j` emitted. -/
def BringsLog (E : Env) (s : Cluster ι) (i j : ι) : Prop :=
  ∀ req resp, s.exchange i j = .responded req resp → ∀ e, s.Own j e →
    e ∈ (s.exchange i j).events E ∨ e ∈ (s.node i).store.events

/-- `i` has everything `j` emitted. -/
def HasLog (s : Cluster ι) (i j : ι) : Prop := ∀ e, s.Own j e → e ∈ (s.node i).store.events

/-- A request issued now can only be answered completely, -/
theorem bringsLog_of_request (h : step E s (.request i j) = some t) : BringsLog E t i j := by
  obtain ⟨-, -, rfl⟩ := step_request h
  intro req resp hx
  simp [setExchange_exchange] at hx

/-- as long as nobody emits, -/
theorem BringsLog.step (hl : Log E s) (hb : BringsLog E s i j) (hok : SilentStep E s a)
    (h : Cluster.step E s a = some t) : BringsLog E t i j := by
  intro req resp hx e he
  have hold := own_silent hl hok h he
  have hstep := step_exchange h i j
  generalize t.exchange i j = x at hx hstep ⊢
  cases hstep with
  | idle => cases hx
  | requested => cases hx
  | same => exact (hb req resp hx e hold).imp_right (events_kept hl hok.1 h)
  | responded _ hreq hpull =>
    exact (hl.brings_of_pull hreq hpull hold).imp_right (events_kept hl hok.1 h)

/-- and applying it delivers it, -/
theorem hasLog_of_apply (hl : Log E s) (hb : BringsLog E s i j)
    (hok : SilentStep E s (.apply i j .ok)) (h : step E s (.apply i j .ok) = some t) :
    HasLog t i j := by
  intro e he
  have hold := own_silent hl hok h he
  obtain ⟨req, resp, n, hx, -, -⟩ := step_apply h
  rcases hb req resp hx e hold with hin | hmem
  · exact delivered_of_apply hl hok.1 h hin
  · exact events_kept hl hok.1 h hmem

/-- for good. -/
theorem HasLog.step (hl : Log E s) (hh : HasLog s i j) (hok : SilentStep E s a)
    (h : Cluster.step E s a = some t) : HasLog t i j :=
  fun e he => events_kept hl hok.1 h (hh e (own_silent hl hok h he))

/-- What silent steps preserve lasts through a silent run. -/
theorem silent_run {P : Cluster ι → Prop} {bs : List (Action ι)}
    (hP : ∀ s a t, Log E s → P s → SilentStep E s a → Cluster.step E s a = some t → P t)
    (hr : Run (Cluster.step E) (SilentStep E) s bs t) (hs : Stamps s ∧ Log E s) (hp : P s) :
    (Stamps t ∧ Log E t) ∧ P t :=
  hr.invariant (I := fun u => (Stamps u ∧ Log E u) ∧ P u)
    (fun _ _ _ hu hok h => ⟨⟨hu.1.1.step h hok.1.1, hu.1.2.step hu.1.1 hok.1 h⟩,
      hP _ _ _ hu.1.2 hu.2 hok h⟩) ⟨hs, hp⟩

/-- One round begun and completed while nobody emits. -/
theorem hasLog_of_round {b₁ b₂ b₃ : List (Action ι)} (hs : Stamps s ∧ Log E s)
    (hr : Run (Cluster.step E) (SilentStep E) s
      (b₁ ++ .request i j :: b₂ ++ .apply i j .ok :: b₃) t) : HasLog t i j := by
  obtain ⟨u₂, h₁₂, h₃⟩ := hr.split
  obtain ⟨u₁, h₁, h₂⟩ := h₁₂.split
  have hs₁ := log_run (h₁.mono fun _ _ h => h.1) hs
  cases h₂ with
  | cons hq hreq h₂ =>
  cases h₃ with
  | cons hq' happ h₃ =>
  obtain ⟨hs₂, hb⟩ := silent_run (P := fun u => BringsLog E u i j)
    (fun _ _ _ hl hb hok h => hb.step hl hok h) h₂
    ⟨hs₁.1.step hreq hq.1.1, hs₁.2.step hs₁.1 hq.1 hreq⟩ (bringsLog_of_request hreq)
  exact (silent_run (P := fun u => HasLog u i j) (fun _ _ _ hl hh hok h => hh.step hl hok h) h₃
    ⟨hs₂.1.step happ hq'.1.1, hs₂.2.step hs₂.1 hq'.1 happ⟩
    (hasLog_of_apply hs₂.2 hb hq' happ)).2

/-- **The event log agrees everywhere and is delivered whole.** However
emissions, other operations and exchanges interleave: a node's own events are
numbered `1, …, m` in the order of their timestamps; an event held anywhere is
among its runner's own, so a runner and a number determine the event; and once
nobody emits and every node has completed one round on every other, all nodes
hold the same events. -/
theorem event_log_agreement (E : Env) {id : ι → String} {epoch : ι → Epoch}
    {addr : ι → String} (hid : Function.Injective id) (haddr : Function.Injective addr)
    {s : Cluster ι} {as : List (Action ι)}
    (hrun : Run (step E) (LogStep E) (boot id epoch addr) as s) :
    (∀ i, (∃ m : Nat, ∀ q : Int, (∃ e, s.Own i e ∧ e.seq.toInt = q) ↔ 1 ≤ q ∧ q ≤ m) ∧
      ∀ e e', s.Own i e → s.Own i e' → e.seq < e'.seq → e'.hlc.after e.hlc = true) ∧
    (∀ i j, ∀ e ∈ (s.node i).store.events, e.runnerID = (s.node j).nodeID → s.Own j e) ∧
    (∀ i j, ∀ e ∈ (s.node i).store.events, ∀ e' ∈ (s.node j).store.events,
      e.runnerID = e'.runnerID → e.seq = e'.seq → e = e') ∧
    ∀ bs t, Run (step E) (SilentStep E) s bs t →
      (∀ i j, i ≠ j → ∃ b₁ b₂ b₃, bs = b₁ ++ .request i j :: b₂ ++ .apply i j .ok :: b₃) →
      ∀ i j e, e ∈ (t.node i).store.events ↔ e ∈ (t.node j).store.events := by
  have hs := log_run hrun ⟨stamps_boot id epoch addr, log_boot E hid haddr⟩
  refine ⟨fun i => ⟨hs.2.numbered i, fun e e' he he' hlt => ?_⟩, fun i j e he hr => ?_,
    fun i j e he e' he' hr hq => ?_, fun bs t hsilent hmesh => ?_⟩
  · exact HLC.after_iff.mpr (hs.2.ordered he he' hlt)
  · obtain ⟨k, hown⟩ := hs.2.origin i e he
    exact hs.2.id_inj (hown.2.symm.trans hr) ▸ hown
  · obtain ⟨k, hown⟩ := hs.2.origin i e he
    obtain ⟨k', hown'⟩ := hs.2.origin j e' he'
    exact hown.eq_of_id hs.2.id_inj hown' (Prod.ext hr hq)
  · have ht := log_run (hsilent.mono fun _ _ h => h.1) hs
    have hall : ∀ i j, HasLog t i j := by
      intro i j
      by_cases hij : i = j
      · exact fun e he => hij ▸ he.1
      · obtain ⟨b₁, b₂, b₃, rfl⟩ := hmesh i j hij
        exact hasLog_of_round hs hsilent
    have hsub : ∀ i j e, e ∈ (t.node i).store.events → e ∈ (t.node j).store.events := by
      intro i j e he
      obtain ⟨k, hown⟩ := ht.2.origin i e he
      exact hall j k e hown
    exact fun i j e => ⟨hsub i j e, hsub j i e⟩

/-- Both nodes start, `j` sees `i` join, `i` pulls and sees `j` join. -/
def meetings {ι : Type} (i j : ι) : List (Action ι) :=
  [.perform i (.start 100 (Demo.runner 0)), .perform j (.start 90 (Demo.runner 1)),
    .perform j (.member 95 ⟨.join, Demo.nodeID 0, "10.0.0.0"⟩),
    .request i j, .serve i j, .apply i j .ok,
    .perform i (.member 101 ⟨.join, Demo.nodeID 1, "10.0.0.1"⟩)]

/-- A step that emits nothing, and a round each way. -/
def exchangeLogs {ι : Type} (i j : ι) : List (Action ι) :=
  .perform j (.step 96 (Demo.runner 1)) :: (Action.round j i ++ Action.round i j)

theorem two_nodes_share_log : ∃ s t : Cluster (Fin 2),
    Run (step .escapeFree) (LogStep .escapeFree) (Demo.cluster 2) (meetings 0 1) s ∧
      Run (step .escapeFree) (SilentStep .escapeFree) s (exchangeLogs 0 1) t ∧
      (t.node 0).store.events.rows.length = 4 ∧
      ∀ i j e, e ∈ (t.node i).store.events ↔ e ∈ (t.node j).store.events := by
  obtain ⟨s, t, hs, ht, hex⟩ : ∃ s t : Cluster (Fin 2),
      Run (step .escapeFree) (LogStep .escapeFree) (Demo.cluster 2) (meetings 0 1) s ∧
        Run (step .escapeFree) (SilentStep .escapeFree) s (exchangeLogs 0 1) t ∧
        (t.node 0).store.events.rows.length = 4 :=
    exists_two_runs (by decide +kernel)
  refine ⟨s, t, hs, ht, hex, ?_⟩
  refine (event_log_agreement .escapeFree (by unfold Function.Injective; decide)
    (by unfold Function.Injective; decide) hs).2.2.2 _ t ht fun i j hij => ?_
  match i, j, hij with
  | 0, 0, h => exact absurd rfl h
  | 1, 1, h => exact absurd rfl h
  | 0, 1, _ => exact ⟨.perform 1 (.step 96 (Demo.runner 1)) :: Action.round 1 0, [.serve 0 1], [],
      rfl⟩
  | 1, 0, _ => exact ⟨[.perform 1 (.step 96 (Demo.runner 1))], [.serve 1 0], Action.round 0 1, rfl⟩

end Cluster

end Takl
