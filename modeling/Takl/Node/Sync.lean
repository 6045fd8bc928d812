import Takl.Node.Node

/-!
# The sync engine (`internal/engine/sync/sync.go`)

`Engine.RoundOnce` in the three pieces that other activity can fall between:
`request` reads the puller's store, `Server.pull` runs at the peer, and
`finishRound` merges the response. `roundOnce` composes them.

`finishRound_cases` is the one fact the rest cites: a round whose
`ApplyRemote` failed changes nothing, and any other has merged the rows
(`Received`), be it that it panicked on the events afterwards.
-/

namespace Takl

/-- How a `RoundOnce` ends, once it has its response. -/
inductive Outcome where
  | ok
  /-- It returned the error of a rolled-back transaction. -/
  | failed (e : DbError)
  /-- It dereferenced the nil `Hlc` of an event. -/
  | panicked
  deriving DecidableEq, Repr

/-- The event `RoundOnce` rebuilds; an unmarshalling error is dropped and
leaves the payload nil. `none` is the nil dereference. -/
def PbEvent.toEvent (E : Env) (ev : PbEvent) : Option Event :=
  ev.hlc.map fun h =>
    { runnerID := ev.runnerId, seq := ev.seq, type := ⟨ev.type⟩
      payload := if ev.payload = "" then none else (E.decodePayload ev.payload).getD none
      hlc := h }

namespace Node

open Store (latest latest_le_iff le_latest)

/-! ## A round -/

/-- The request `RoundOnce` and `Client.Pull` build. -/
def request (n : Node) (peer : String) : PullRequest :=
  { watermarks := kinds.map fun kind => (kind.name, (n.store.watermark peer kind).val)
    checksums := kinds.map fun kind => (kind.name, n.store.checksum kind)
    eventWatermark := some (n.store.watermark peer kindEvent).val
    eventChecksum := n.store.checksumEvents }

theorem requestedWatermark_request (n : Node) (peer : String) {kind : Kind}
    (h : kind ∈ kinds) :
    Server.requestedWatermark (n.request peer) kind = n.store.watermark peer kind := by
  simp only [kinds, List.mem_cons, List.not_mem_nil, or_false] at h
  rcases h with rfl | rfl <;> rfl

theorem checksum_request (n : Node) (peer : String) {kind : Kind} (h : kind ∈ kinds) :
    ((n.request peer).checksums.lookup kind.name).getD 0 = n.store.checksum kind := by
  simp only [kinds, List.mem_cons, List.not_mem_nil, or_false] at h
  rcases h with rfl | rfl <;> rfl

/-- The guard of a full resend, in terms of the puller's store. -/
theorem resends_request {n : Node} {peer : String} {s : Server} {kind : Kind}
    (hk : kind ∈ kinds) :
    s.Resends (n.request peer) kind ↔
      (∀ x ∈ s.store.rows, x.kind = kind → x.hlc ≤ n.store.watermark peer kind) ∧
        n.store.checksum kind ≠ 0 ∧ n.store.checksum kind ≠ s.store.checksum kind := by
  rw [Server.Resends, requestedWatermark_request n peer hk, checksum_request n peer hk]

/-- The rows part of `RoundOnce`. -/
def applyRows (n : Node) (peer : String) (resp : PullResponse) : Except DbError Node :=
  if resp.rows.isEmpty then .ok n
  else
    let rows := resp.toRows
    (n.store.applyRemote peer rows).map fun st =>
      { n with store := st, clock := n.clock.update (latest HLC.zero (rows.map Row.hlc)) }

/-- The events part of `RoundOnce`; `evWm` is the event watermark it read
when it built the request. -/
def applyEvents (E : Env) (n : Node) (peer : String) (evWm : HLC) (resp : PullResponse) :
    Option Node :=
  if resp.events.isEmpty then some n
  else (resp.events.mapM (PbEvent.toEvent E)).map fun incoming =>
    { n with
      store := (n.store.applyEvents E incoming).setWatermark peer kindEvent
        (latest evWm (incoming.map Event.hlc))
      clock := n.clock.update (latest HLC.zero (incoming.map Event.hlc)) }

/-- `RoundOnce` from the response on. -/
def finishRound (E : Env) (n : Node) (peer : String) (evWm : HLC) (resp : PullResponse) :
    Node × Outcome :=
  match n.applyRows peer resp with
  | .error e => (n, .failed e)
  | .ok n₁ =>
      match n₁.applyEvents E peer evWm resp with
      | some n₂ => (n₂, .ok)
      | none => (n₁, .panicked)

/-- The bound `gcTombstones` collects below: one hour, in milliseconds, before
the timestamp it takes. -/
def gcFloor (n : Node) (now : Int64) : HLC :=
  let grace : Int64 := 1 * 60 * 60 * 1000
  let nowTS := (n.clock.tick now).1.ts
  ⟨if nowTS > grace then nowTS - grace else 0, 0⟩

/-- `gcTombstones`. -/
def gcTombstones (n : Node) (now : Int64) : Node :=
  { n with clock := (n.clock.tick now).2, store := n.store.gcTombstones (n.gcFloor now) }

/-! ## What a round does -/

/-- The effect of a round that merged its rows. -/
structure Received (n : Node) (peer : String) (resp : PullResponse) (n' : Node) : Prop where
  identity : SameIdentity n n'
  rows : n'.store.rows = n.store.rows.mergeAll resp.toRows
  watermark : ∀ p k, k ≠ kindEvent → (n'.store.watermark p k).val =
    if p = peer then max (n.store.watermark p k).val (Store.top k resp.toRows)
    else (n.store.watermark p k).val
  clock_mono : n.clock.reading ≤ n'.clock.reading
  clock_rows : ∀ r ∈ resp.toRows, r.hlc ≤ n'.clock.reading
  events : ∀ e ∈ n'.store.events, e ∈ n.store.events ∨ e.hlc ≤ n'.clock.reading

/-- A merged row is an old one or arrived unchanged: the table has no NULL
payload. -/
theorem Received.mem_rows {n n' : Node} {peer : String} {resp : PullResponse} {r : Row}
    (hn : n.Received peer resp n') (hr : r ∈ n'.store.rows) :
    r ∈ n.store.rows ∨ (r ∈ resp.toRows ∧ r.payload ≠ none) := by
  have hpay := n'.store.payload_notNull r hr
  rw [hn.rows] at hr
  exact (KeyedTable.mem_of_mem_mergeAll hr).imp_right fun h => ⟨h, hpay⟩

/-- An empty batch is received by doing nothing. -/
theorem Received.of_nil {n : Node} {peer : String} {resp : PullResponse}
    (h : resp.toRows = []) : Received n peer resp n where
  identity := .refl n
  rows := by rw [h]; rfl
  watermark p k _ := by
    rw [h, show Store.top k [] = HLC.zero from rfl, max_eq_left (Subtype.property _), ite_self]
  clock_mono := le_rfl
  clock_rows := by simp [h]
  events := fun _ he => .inl he

theorem applyRows_ok {n n' : Node} {peer : String} {resp : PullResponse}
    (h : n.applyRows peer resp = .ok n') :
    Received n peer resp n' ∧ n'.store.events = n.store.events := by
  unfold applyRows at h
  split at h
  · next hnil =>
    cases h
    refine ⟨.of_nil ?_, rfl⟩
    rw [PullResponse.toRows, List.isEmpty_iff.mp hnil, List.map_nil]
  · obtain ⟨st, hst, rfl⟩ := Except.map_eq_ok.mp h
    obtain ⟨hrows, hevents, hwm⟩ := Store.applyRemote_ok hst
    refine ⟨⟨⟨rfl, rfl, rfl⟩, hrows, fun p k _ => hwm p k, ?_, fun r hr => ?_,
      fun e he => .inl (hevents ▸ he)⟩, hevents⟩
    · rw [Clock.update_reading]
      exact le_max_left _ _
    · rw [Clock.update_reading]
      exact (le_latest (List.mem_map_of_mem hr)).trans (le_max_right _ _)

theorem applyEvents_some {E : Env} {n n' : Node} {peer : String} {evWm : HLC}
    {resp : PullResponse} (h : n.applyEvents E peer evWm resp = some n') :
    SameIdentity n n' ∧ n'.store.rows = n.store.rows ∧
      (∀ p k, k ≠ kindEvent → n'.store.watermark p k = n.store.watermark p k) ∧
      n.clock.reading ≤ n'.clock.reading ∧
      ∀ e ∈ n'.store.events, e ∈ n.store.events ∨ e.hlc ≤ n'.clock.reading := by
  unfold applyEvents at h
  split at h
  · cases h
    exact ⟨.refl n, rfl, fun _ _ _ => rfl, le_rfl, fun e he => .inl he⟩
  · obtain ⟨incoming, -, rfl⟩ := Option.map_eq_some_iff.mp h
    obtain ⟨arows, awm, aev⟩ := Store.applyEvents_spec E incoming n.store
    obtain ⟨srows, sev, swm⟩ := Store.setWatermark_spec (n.store.applyEvents E incoming) peer
      kindEvent (latest evWm (incoming.map Event.hlc))
    refine ⟨⟨rfl, rfl, rfl⟩, srows.trans arows, fun p k hk => ?_, ?_, fun e he => ?_⟩
    · rw [swm p k fun hc => hk hc.2, Store.watermark, Store.watermark, awm]
    · rw [Clock.update_reading]
      exact le_max_left _ _
    · rw [sev] at he
      refine (aev e he).imp_right ?_
      rintro ⟨x, hx, hxe⟩
      rw [Clock.update_reading, ← hxe]
      exact (le_latest (List.mem_map_of_mem hx)).trans (le_max_right _ _)

/-- **What a finished round can have done.** -/
theorem finishRound_cases {E : Env} {n n' : Node} {peer : String} {evWm : HLC}
    {resp : PullResponse} {out : Outcome} (h : n.finishRound E peer evWm resp = (n', out)) :
    (n' = n ∧ ∃ e, out = .failed e ∧ n.store.applyRemote peer resp.toRows = .error e) ∨
      Received n peer resp n' := by
  unfold finishRound at h
  cases hr : n.applyRows peer resp with
  | error e =>
    rw [hr] at h
    cases h
    refine .inl ⟨rfl, e, rfl, ?_⟩
    unfold applyRows at hr
    split at hr
    · cases hr
    · cases ha : n.store.applyRemote peer resp.toRows with
      | error e' =>
        simp only [ha, Except.map] at hr
        cases hr
        rfl
      | ok st => simp [ha, Except.map] at hr
  | ok n₁ =>
    simp only [hr] at h
    obtain ⟨h₁, hev₁⟩ := applyRows_ok hr
    cases he : n₁.applyEvents E peer evWm resp with
    | none =>
      rw [he] at h
      cases h
      exact .inr h₁
    | some n₂ =>
      rw [he] at h
      cases h
      obtain ⟨hid, hrows, hwm, hclock, hev⟩ := applyEvents_some he
      refine .inr ⟨⟨hid.nodeID.trans h₁.identity.nodeID, hid.epoch.trans h₁.identity.epoch,
        hid.syncAddr.trans h₁.identity.syncAddr⟩, hrows.trans h₁.rows, fun p k hk => ?_,
        h₁.clock_mono.trans hclock, fun r hr => (h₁.clock_rows r hr).trans hclock,
        fun e he => hev₁ ▸ hev e he⟩
      rw [hwm p k hk, h₁.watermark p k hk]

theorem finishRound_of_error {E : Env} {n : Node} {peer : String} {evWm : HLC}
    {resp : PullResponse} {e : DbError} (h : n.applyRows peer resp = .error e) :
    (n.finishRound E peer evWm resp).1 = n := by
  simp only [finishRound, h]

/-- A round goes on to the events, and stops where they make it panic. -/
theorem finishRound_of_ok {E : Env} {n n₁ : Node} {peer : String} {evWm : HLC}
    {resp : PullResponse} (h : n.applyRows peer resp = .ok n₁) :
    (n.finishRound E peer evWm resp).1 = (n₁.applyEvents E peer evWm resp).getD n₁ := by
  simp only [finishRound, h]
  cases n₁.applyEvents E peer evWm resp <;> rfl

/-- A round that returns an error has changed nothing. -/
theorem eq_of_finishRound_failed {E : Env} {n n' : Node} {peer : String} {evWm : HLC}
    {resp : PullResponse} {e : DbError}
    (h : n.finishRound E peer evWm resp = (n', .failed e)) : n' = n := by
  unfold finishRound at h
  split at h
  · exact (Prod.mk.inj h).1.symm
  · split at h
    · exact nomatch (Prod.mk.inj h).2
    · exact nomatch (Prod.mk.inj h).2

end Node

end Takl
