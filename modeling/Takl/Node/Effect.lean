import Takl.Node.Local

/-!
# What a local operation can do

`NodeOp.exec_cases`: an operation either changes nothing at all, or it is
`Stamped` — it has ticked the clock once, left the watermarks alone, and
applied one effect to the rows and one to the events, each carrying the
timestamp of that tick.

A write is recognised afterwards by comparing the tables: `Node.newRows` are
the rows a node holds after an operation and did not hold before.
-/

namespace Takl

/-- The owner the agent or the API of `n` signs a row of that kind with. -/
def Node.Owns (n : Node) (r : Row) : Prop :=
  (r.kind = kindRunner ∧ r.owner = n.owner) ∨ (r.kind = kindMeta ∧ r.owner = n.apiOwner)

theorem Node.Owns.kind_mem {n : Node} {r : Row} (h : n.Owns r) : r.kind ∈ kinds := by
  rcases h with ⟨hk, -⟩ | ⟨hk, -⟩ <;> simp [hk, kinds]

theorem Node.Owns.of_identity {n n' : Node} {r : Row} (h : n.Owns r)
    (hid : SameIdentity n n') : n'.Owns r := by
  rcases h with ⟨hk, ho⟩ | ⟨hk, ho⟩
  · exact .inl ⟨hk, ho.trans hid.owner_eq.symm⟩
  · exact .inr ⟨hk, ho.trans hid.apiOwner_eq.symm⟩

/-- The kind and the owner of a row tell which node wrote it. -/
theorem Node.Owns.nodeID_eq {n m : Node} {r r' : Row} (h : n.Owns r) (h' : m.Owns r')
    (hk : r.kind = r'.kind) (ho : r.owner = r'.owner) : n.nodeID = m.nodeID := by
  have hne := kindRunner_ne_kindMeta
  rcases h with ⟨h1, h2⟩ | ⟨h1, h2⟩ <;> rcases h' with ⟨h1', h2'⟩ | ⟨h1', h2'⟩
  · exact owner_inj (h2.symm.trans (ho.trans h2'))
  · exact absurd (h1.symm.trans (hk.trans h1')) hne
  · exact absurd (h1'.symm.trans (hk.symm.trans h1)) hne
  · exact apiOwner_inj (h2.symm.trans (ho.trans h2'))

/-- The effect on the rows table of an operation stamped `hlc`. -/
inductive RowsEffect (E : Env) (n : Node) (hlc : HLC) : NodeOp → RowTable → Prop
  | same (op : NodeOp) : RowsEffect E n hlc op n.store.rows
  | put {op : NodeOp} {r : Row} {b : Bytes} (hop : op.IsWrite)
      (htarget : op.target = some r.id) (hown : n.Owns r)
      (hhlc : r.hlc = hlc) (hlive : r.tombstone = false) (hpayload : r.payload = some b)
      (hb : b ≠ []) : RowsEffect E n hlc op (n.store.rows.upsert r)
  | delete {now : Int64} {id : String} {b : Bytes}
      (hpayload : n.store.deletePayload E kindMeta id = some b) :
      RowsEffect E n hlc (.deleteLabels now id)
        (n.store.rows.upsert (Store.tombstoneRow kindMeta id n.apiOwner hlc (some b)))
  | prune {now : Int64} {ev : MemberEvent} (htype : ev.type = .leave) :
      RowsEffect E n hlc (.member now ev) (n.store.deleteByNode ev.nodeID hlc).rows
  | collect {now : Int64} : RowsEffect E n hlc (.gc now) (n.gcTombstones now).store.rows

/-- The effect on the events table of `st`. -/
inductive EventsEffect (nodeID : String) (st : Store) (hlc : HLC) :
    KeyedTable EventRow.id → Prop
  | same : EventsEffect nodeID st hlc st.events
  | emit {e : EventRow} (hhlc : e.hlc = hlc) (hrunner : e.runnerID = nodeID)
      (hseq : e.seq = st.maxSeq nodeID + 1) (hfree : st.events.get e.id = none) :
      EventsEffect nodeID st hlc (st.events.upsert e)

theorem EventsEffect.congr {nodeID : String} {st st' : Store} {hlc : HLC}
    {t : KeyedTable EventRow.id} (h : EventsEffect nodeID st hlc t)
    (he : st.events = st'.events) : EventsEffect nodeID st' hlc t := by
  have hseq : st.maxSeq nodeID = st'.maxSeq nodeID := by rw [Store.maxSeq, Store.maxSeq, he]
  rcases h with _ | ⟨h1, h2, h3, h4⟩
  · exact he ▸ .same
  · rw [he]
    exact .emit h1 h2 (hseq ▸ h3) (he ▸ h4)

/-- The operation has stamped. -/
structure Stamped (E : Env) (n : Node) (op : NodeOp) (n' : Node) : Prop where
  identity : Node.SameIdentity n n'
  clock : n'.clock = (n.clock.tick op.now).2
  watermarks : n'.store.watermarks = n.store.watermarks
  rows : RowsEffect E n (n.clock.tick op.now).1 op n'.store.rows
  events : EventsEffect n.nodeID n.store (n.clock.tick op.now).1 n'.store.events

namespace Node

theorem call_cases (n : Node) (f : Store → Except DbError Store) :
    (∃ st, f n.store = .ok st ∧ n.call f = ({ n with store := st }, none)) ∨
      ∃ e, f n.store = .error e ∧ n.call f = (n, some e) := by
  unfold call
  cases h : f n.store with
  | ok st => exact .inl ⟨st, rfl, rfl⟩
  | error e => exact .inr ⟨e, rfl, rfl⟩

/-- A put with a payload succeeds. -/
theorem call_put (n : Node) {r : Row} (h : r.payload ≠ none) :
    ∃ st, n.call (fun st => st.put r) = ({ n with store := st }, none) ∧
      st.rows = n.store.rows.upsert r ∧ st.events = n.store.events ∧
      st.watermarks = n.store.watermarks := by
  obtain ⟨st, hst⟩ := Store.upsert_total n.store h
  rcases call_cases n fun st => st.put r with ⟨st', h1, h2⟩ | ⟨e, h1, -⟩
  · exact ⟨st', h2, Store.upsert_ok h1⟩
  · simp [Store.put, hst] at h1

theorem emit_cases (E : Env) (n : Node) (type : EventType) (payload : EventPayload) (hlc : HLC) :
    ∃ st, (n.emit E type payload hlc).1 = { n with store := st } ∧ st.rows = n.store.rows ∧
      st.watermarks = n.store.watermarks ∧ EventsEffect n.nodeID n.store hlc st.events := by
  unfold emit
  rcases call_cases n fun st =>
    st.appendEvent E { seq := 0, type, runnerID := n.nodeID, payload, hlc } with
    ⟨st, h1, h2⟩ | ⟨e, h1, h2⟩
  · refine ⟨st, by rw [h2], ?_⟩
    simp only [Store.appendEvent] at h1
    split at h1
    · cases h1
    · next hfree =>
      cases h1
      exact ⟨rfl, rfl, .emit rfl rfl rfl hfree⟩
  · exact ⟨n.store, by rw [h2], rfl, rfl, .same⟩

/-- The row `Step` writes. -/
def stepRow (E : Env) (n : Node) (now : Int64) (snapshot : Runner) : Row :=
  n.runnerRow E { snapshot with status := (n.agent.observe snapshot.isHot).status }
    (n.clock.tick now).1

theorem runnerRow_owns (E : Env) (n : Node) (runner : Runner) (hlc : HLC) :
    n.Owns (n.runnerRow E runner hlc) := .inl ⟨rfl, rfl⟩

theorem step_spec (E : Env) (n : Node) (now : Int64) (snapshot : Runner) :
    ∃ st, (n.step E now snapshot).1 = { n with
        store := st, clock := (n.clock.tick now).2, agent := n.agent.observe snapshot.isHot } ∧
      st.rows = n.store.rows.upsert (n.stepRow E now snapshot) ∧
      st.events = n.store.events ∧ st.watermarks = n.store.watermarks := by
  obtain ⟨st, hst, hspec⟩ := call_put
    { n with clock := (n.clock.tick now).2, agent := n.agent.observe snapshot.isHot }
    (r := n.stepRow E now snapshot) (Option.some_ne_none _)
  exact ⟨st, congrArg Prod.fst hst, hspec⟩

theorem step_stamped (E : Env) (n : Node) (now : Int64) (snapshot : Runner) :
    Stamped E n (.step now snapshot) (n.step E now snapshot).1 := by
  obtain ⟨st, hst, hrows, hevents, hwm⟩ := step_spec E n now snapshot
  rw [hst]
  exact {
    identity := ⟨rfl, rfl, rfl⟩
    clock := rfl
    watermarks := hwm
    rows := hrows ▸ .put trivial rfl (runnerRow_owns E n _ _) rfl rfl rfl (E.encodeRunner_ne_nil _)
    events := hevents ▸ .same }

theorem start_spec (E : Env) (n : Node) (now : Int64) (snapshot : Runner) :
    ∃ st, (n.start E now snapshot).1 = { n with store := st, clock := (n.clock.tick now).2 } ∧
      st.rows = n.store.rows.upsert
        (n.runnerRow E { snapshot with status := .active } (n.clock.tick now).1) ∧
      st.watermarks = n.store.watermarks ∧
      EventsEffect n.nodeID n.store (n.clock.tick now).1 st.events := by
  obtain ⟨st, hst, hrows, hevents, hwm⟩ := call_put { n with clock := (n.clock.tick now).2 }
    (r := n.runnerRow E { snapshot with status := .active } (n.clock.tick now).1)
    (Option.some_ne_none _)
  obtain ⟨st', hst', hrows', hwm', hevents'⟩ :=
    emit_cases E { n with store := st, clock := (n.clock.tick now).2 } .runnerJoined none
      (n.clock.tick now).1
  refine ⟨st', ?_, hrows'.trans hrows, hwm'.trans hwm, hevents'.congr hevents⟩
  have hput : { n with clock := (n.clock.tick now).2 }.putRow E
      { snapshot with status := .active } (n.clock.tick now).1 =
        ({ n with store := st, clock := (n.clock.tick now).2 }, none) := hst
  simp only [start, tick, hput]
  exact hst'

theorem start_stamped (E : Env) (n : Node) (now : Int64) (snapshot : Runner) :
    Stamped E n (.start now snapshot) (n.start E now snapshot).1 := by
  obtain ⟨st, hst, hrows, hwm, hevents⟩ := start_spec E n now snapshot
  rw [hst]
  exact {
    identity := ⟨rfl, rfl, rfl⟩
    clock := rfl
    watermarks := hwm
    rows := hrows ▸ .put trivial rfl (runnerRow_owns E n _ _) rfl rfl rfl (E.encodeRunner_ne_nil _)
    events := hevents }

theorem deleteLabels_stamped (E : Env) (n : Node) (now : Int64) (id : String) :
    Stamped E n (.deleteLabels now id) (n.handleDeleteLabels E now id).1 := by
  unfold handleDeleteLabels tick
  rcases call_cases { n with clock := (n.clock.tick now).2 } fun st =>
    st.delete E kindMeta id n.apiOwner (n.clock.tick now).1 with ⟨st, h1, h2⟩ | ⟨e, h1, h2⟩
  · have hpay : n.store.deletePayload E kindMeta id ≠ none := by
      intro hc
      simp [Store.delete, Store.upsert, Store.tombstoneRow, hc] at h1
    obtain ⟨b, hb⟩ := Option.ne_none_iff_exists'.mp hpay
    obtain ⟨hrows, hevents, hwm⟩ := Store.upsert_ok h1
    rw [hb] at hrows
    simp only [apiOwner] at h2 ⊢
    rw [h2]
    exact ⟨⟨rfl, rfl, rfl⟩, rfl, hwm, hrows ▸ .delete hb, hevents ▸ .same⟩
  · simp only [apiOwner] at h2 ⊢
    rw [h2]
    exact ⟨⟨rfl, rfl, rfl⟩, rfl, rfl, .same _, .same⟩

theorem updateLabels_cases (E : Env) (n : Node) (now : Int64) (id : String)
    (body : Option (Option Labels)) :
    (n.handleUpdateLabels E now id body).1 = n ∨
      Stamped E n (.putLabels now id body) (n.handleUpdateLabels E now id body).1 := by
  unfold handleUpdateLabels
  split
  · exact .inl rfl
  · split
    · exact .inl rfl
    · split
      · exact .inl rfl
      · split
        · exact .inl rfl
        · next labels _ =>
          right
          obtain ⟨st, hst, hrows, hevents, hwm⟩ :=
            call_put { n with clock := (n.clock.tick now).2 }
              (r := n.labelsRow E id labels (n.clock.tick now).1) (Option.some_ne_none _)
          have hput : { n with clock := (n.clock.tick now).2 }.call (fun st =>
              st.put ({ n with clock := (n.clock.tick now).2 }.labelsRow E id labels
                (n.clock.tick now).1)) =
              ({ n with store := st, clock := (n.clock.tick now).2 }, none) := hst
          simp only [tick, hput]
          exact ⟨⟨rfl, rfl, rfl⟩, rfl, hwm,
            hrows ▸ .put trivial rfl (.inr ⟨rfl, rfl⟩) rfl rfl rfl (E.encodeLabels_ne_nil _),
            hevents ▸ .same⟩

theorem membership_stamped (E : Env) (n : Node) (now : Int64) (ev : MemberEvent) :
    Stamped E n (.member now ev) (n.handleMembershipEvent E now ev) := by
  unfold handleMembershipEvent tick
  cases htype : ev.type with
  | join =>
    obtain ⟨st, hst, hrows, hwm, hevents⟩ := emit_cases E { n with clock := (n.clock.tick now).2 }
      .runnerJoined (some [("node_id", .str ev.nodeID), ("ip", .str ev.ip)]) (n.clock.tick now).1
    simp only [hst]
    exact ⟨⟨rfl, rfl, rfl⟩, rfl, hwm, hrows ▸ .same _, hevents⟩
  | leave =>
    obtain ⟨st, hst, hrows, hwm, hevents⟩ := emit_cases E
      { n with store := n.store.deleteByNode ev.nodeID (n.clock.tick now).1,
               clock := (n.clock.tick now).2 }
      .runnerLeft (some [("node_id", .str ev.nodeID), ("ip", .str ev.ip)]) (n.clock.tick now).1
    simp only [hst]
    exact ⟨⟨rfl, rfl, rfl⟩, rfl, hwm, hrows ▸ .prune htype, hevents.congr rfl⟩
  | update => exact ⟨⟨rfl, rfl, rfl⟩, rfl, rfl, .same _, .same⟩

end Node

/-- The rows `n'` holds and `n` did not. -/
def Node.newRows (n n' : Node) : List Row :=
  n'.store.rows.rows.filter fun r => decide (r ∉ n.store.rows)

theorem Node.mem_newRows {n n' : Node} {r : Row} :
    r ∈ n.newRows n' ↔ r ∈ n'.store.rows ∧ r ∉ n.store.rows := by
  simp [newRows, KeyedTable.mem_def]

/-- **Everything a local operation can do.** -/
theorem NodeOp.exec_cases (E : Env) (n : Node) (op : NodeOp) :
    op.exec E n = n ∨ Stamped E n op (op.exec E n) := by
  cases op with
  | start now snapshot => exact .inr (n.start_stamped E now snapshot)
  | step now snapshot => exact .inr (n.step_stamped E now snapshot)
  | putLabels now id body => exact n.updateLabels_cases E now id body
  | deleteLabels now id => exact .inr (n.deleteLabels_stamped E now id)
  | member now ev => exact .inr (n.membership_stamped E now ev)
  | gc now => exact .inr ⟨⟨rfl, rfl, rfl⟩, rfl, rfl, .collect, .same⟩

/-! ## Consequences of a stamp -/

namespace Stamped

variable {E : Env} {n n' : Node} {op : NodeOp}

theorem reading (h : Stamped E n op n') : n'.clock.reading = (n.clock.tick op.now).1 := by
  rw [h.clock]
  exact Clock.tick_reading ..

theorem reading_lt (h : Stamped E n op n') (hw : n.clock.NoWrap op.now) :
    n.clock.reading < n'.clock.reading := h.reading ▸ Clock.reading_lt_tick hw

theorem watermark (h : Stamped E n op n') (peer : String) (kind : Kind) :
    n'.store.watermark peer kind = n.store.watermark peer kind := by
  rw [Store.watermark, Store.watermark, h.watermarks]

/-- A row the operation added carries its timestamp. -/
theorem hlc_of_new (h : Stamped E n op n') {r : Row} (hr : r ∈ n'.store.rows)
    (hnew : r ∉ n.store.rows) : r.hlc = n'.clock.reading := by
  rw [h.reading]
  generalize ht : n'.store.rows = t at hr
  have heff := ht ▸ h.rows
  cases heff with
  | same => exact absurd hr hnew
  | put _ _ _ hhlc =>
    rcases KeyedTable.mem_upsert.mp hr with rfl | ⟨hr, _⟩
    · exact hhlc
    · exact absurd hr hnew
  | delete =>
    rcases KeyedTable.mem_upsert.mp hr with rfl | ⟨hr, _⟩
    · rfl
    · exact absurd hr hnew
  | prune =>
    rcases Store.mem_deleteByNode.mp hr with ⟨x, _, _, rfl⟩ | ⟨hr, _⟩
    · rfl
    · exact absurd hr hnew
  | collect => exact absurd (Store.mem_gcTombstones.mp hr).1 hnew

/-- An agent or API write installs at most one row, which it owns. -/
theorem rows_of_isWrite (h : Stamped E n op n') (hop : op.IsWrite) :
    n'.store.rows = n.store.rows ∨
      ∃ r, n'.store.rows = n.store.rows.upsert r ∧ r.hlc = n'.clock.reading ∧ n.Owns r := by
  rw [h.reading]
  generalize ht : n'.store.rows = t
  have heff := ht ▸ h.rows
  cases heff with
  | same => exact .inl rfl
  | put _ _ hown hhlc => exact .inr ⟨_, rfl, hhlc, hown⟩
  | delete => exact .inr ⟨_, rfl, rfl, .inr ⟨rfl, rfl⟩⟩
  | prune => exact absurd hop not_false
  | collect => exact absurd hop not_false

end Stamped

end Takl
