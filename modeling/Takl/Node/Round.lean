import Takl.Node.Sync
import Takl.Store.Checksum
import Takl.Transport.Events

/-!
# One round, end to end (`Engine.RoundOnce` against `Server.Pull`)

A round with nothing in between: the request, the peer's answer, the merge.

* `roundOnce_exact` — its effect on rows and row watermarks, key by key, in
  terms of the rows the peer holds above the watermark;
* `Logged` — its effect on the event log, in terms of the events that arrive
  (`mem_relayed`), each as the peer has it if its payload text is stable
  (`eventRow_relayed`).
-/

namespace Takl

namespace Row

/-- The row a key holds once `new` has been offered over `old`. -/
def newest (old new : Option Row) : Option Row :=
  match old, new with
  | none, new => new
  | old, none => old
  | some c, some r => if newer r c then some r else some c

end Row

namespace Server

/-- The rows of a kind after a watermark. -/
def rowsAfter (s : Server) (kind : Kind) (wm : HLC) : List Row :=
  s.store.rows.rows.filter fun r => decide (r.kind = kind) && r.hlc.after wm

theorem mem_rowsAfter {s : Server} {kind : Kind} {wm : HLC} {r : Row} :
    r ∈ s.rowsAfter kind wm ↔ r ∈ s.store.rows ∧ r.kind = kind ∧ wm < r.hlc := by
  simp only [rowsAfter, List.mem_filter, Bool.and_eq_true, decide_eq_true_iff, HLC.after_iff,
    KeyedTable.mem_def]

theorem rowsAfter_isEmpty {s : Server} {kind : Kind} {wm : HLC} :
    (s.rowsAfter kind wm).isEmpty ↔ ∀ x ∈ s.store.rows, x.kind = kind → x.hlc ≤ wm := by
  rw [List.isEmpty_iff, List.eq_nil_iff_forall_not_mem]
  simp only [mem_rowsAfter, not_and, not_lt]

end Server

namespace Node

/-- `Engine.RoundOnce` on a peer; `none` when the pull fails. -/
def roundOnce (E : Env) (n : Node) (peer : String) (s : Server) : Option (Node × Outcome) :=
  (s.pull E (n.request peer)).map fun resp =>
    n.finishRound E peer (n.store.watermark peer kindEvent) resp.wire

/-- The rows of a kind the peer has to offer: those after the watermark, or,
when there are none and the checksums tell a difference, all of them. -/
def offered (n : Node) (peer : String) (s : Server) (kind : Kind) : List Row :=
  let since := s.rowsAfter kind (n.store.watermark peer kind)
  if since.isEmpty ∧ n.store.checksum kind ≠ 0 ∧ n.store.checksum kind ≠ s.store.checksum kind
  then s.rowsAfter kind HLC.zero
  else since

variable {E : Env} {n n' : Node} {peer : String} {s : Server}

/-- The rows offered are those above the floor the server picks. -/
theorem mem_offered {kind : Kind} (hk : kind ∈ kinds) {r : Row} :
    r ∈ n.offered peer s kind ↔
      r ∈ s.store.rows ∧ r.kind = kind ∧ s.floor (n.request peer) kind < r.hlc := by
  unfold offered
  simp only [Server.rowsAfter_isEmpty, ← resends_request hk, Server.floor]
  split
  · exact Server.mem_rowsAfter
  · rw [requestedWatermark_request n peer hk]
    exact Server.mem_rowsAfter

theorem mem_delivered_iff {resp : PullResponse} (h : s.pull E (n.request peer) = some resp)
    {r : Row} : r ∈ resp.wire.toRows ↔
      ∃ kind ∈ kinds, ∃ x ∈ n.offered peer s kind, x.delivered = r := by
  rw [Server.mem_delivered h]
  constructor
  · rintro ⟨x, hx, hk, hlt, rfl⟩
    exact ⟨x.kind, hk, x, (mem_offered hk).mpr ⟨hx, rfl, hlt⟩, rfl⟩
  · rintro ⟨kind, hk, x, hx, rfl⟩
    obtain ⟨hmem, rfl, hlt⟩ := (mem_offered hk).mp hx
    exact ⟨x, hmem, hk, hlt, rfl⟩

/-- A successful round has merged what was offered. -/
theorem received_of_roundOnce (h : n.roundOnce E peer s = some (n', .ok)) :
    ∃ resp, s.pull E (n.request peer) = some resp ∧ n.Received peer resp.wire n' := by
  obtain ⟨resp, hpull, hfin⟩ := Option.map_eq_some_iff.mp h
  refine ⟨resp, hpull, (finishRound_cases hfin).resolve_left ?_⟩
  rintro ⟨-, e, he, -⟩
  cases he

/-! ## What a round does to the events -/

/-- The event a puller rebuilds from a stored one: scanned and sent by the
peer, decoded here. -/
def relayed (E : Env) (e : EventRow) : Option Event :=
  (Store.scanEvent E e).bind fun x => (x.toPb E).toEvent E

/-- The effect of a round on the event log, when `xs` arrived. -/
structure Logged (E : Env) (n : Node) (peer : String) (xs : List Event) (n' : Node) : Prop where
  kept : ∀ e ∈ n.store.events, e ∈ n'.store.events
  added : ∀ e ∈ n'.store.events, e ∈ n.store.events ∨ ∃ x ∈ xs, Store.eventRow E x = e
  held : ∀ x ∈ xs, ∃ e ∈ n'.store.events, e.id = (Store.eventRow E x).id
  idle : xs = [] → n'.store.events = n.store.events
  watermark : (n'.store.watermark peer kindEvent).val =
    max (n.store.watermark peer kindEvent).val (Store.latest HLC.zero (xs.map Event.hlc))
  others : ∀ p ≠ peer, ∀ k, n'.store.watermark p k = n.store.watermark p k

/-- Nothing arrived. -/
theorem Logged.of_nil (E : Env) (n : Node) (peer : String) : Logged E n peer [] n where
  kept _ he := he
  added _ he := .inl he
  held := by simp
  idle _ := rfl
  watermark := (max_eq_left (Subtype.property _)).symm
  others _ _ _ := rfl

/-- The events part of a round. -/
theorem logged_of_applyEvents {evWm : HLC} {resp : PullResponse}
    (h : n.applyEvents E peer evWm resp = some n')
    (hwm : evWm ≤ n.store.watermark peer kindEvent) :
    ∃ xs, resp.events.mapM (PbEvent.toEvent E) = some xs ∧ Logged E n peer xs n' := by
  unfold applyEvents at h
  split at h
  · next hnil =>
    cases h
    rw [List.isEmpty_iff.mp hnil]
    exact ⟨[], rfl, .of_nil E n peer⟩
  · obtain ⟨xs, hxs, rfl⟩ := Option.map_eq_some_iff.mp h
    obtain ⟨-, awm, -⟩ := Store.applyEvents_spec E xs n.store
    obtain ⟨hkept, hadded, hheld⟩ := Store.mem_applyEvents E xs n.store
    obtain ⟨-, sev, swm⟩ := Store.setWatermark_spec (n.store.applyEvents E xs) peer kindEvent
      (Store.latest evWm (xs.map Event.hlc))
    have hsame : ∀ p k, (n.store.applyEvents E xs).watermark p k = n.store.watermark p k :=
      fun p k => by rw [Store.watermark, Store.watermark, awm]
    refine ⟨xs, hxs, ⟨?_, ?_, ?_, ?_, ?_, fun p hp k => ?_⟩⟩
    · exact fun e he => sev ▸ hkept e he
    · exact fun e he => hadded e (sev ▸ he)
    · intro x hx
      obtain ⟨e, he, hid⟩ := hheld x hx
      exact ⟨e, sev ▸ he, hid⟩
    · rintro rfl
      exact sev
    · rw [Store.setWatermark_watermark, hsame]
      exact Store.max_latest hwm (Subtype.property _) _
    · rw [swm p k fun hc => hp hc.1, hsame]

/-- The rows part of a round raises the watermarks of its peer. -/
theorem watermark_of_applyRows {resp : PullResponse} (h : n.applyRows peer resp = .ok n')
    (p : String) (k : Kind) : (n'.store.watermark p k).val =
      if p = peer then max (n.store.watermark p k).val (Store.top k resp.toRows)
      else (n.store.watermark p k).val := by
  unfold applyRows at h
  split at h
  · next hnil =>
    cases h
    rw [PullResponse.toRows, List.isEmpty_iff.mp hnil, List.map_nil,
      show Store.top k [] = HLC.zero from rfl, max_eq_left (Subtype.property _), ite_self]
  · obtain ⟨st, hst, rfl⟩ := Except.map_eq_ok.mp h
    exact (Store.applyRemote_ok hst).watermark p k

theorem finishRound_eq_ok {evWm : HLC} {resp : PullResponse} :
    n.finishRound E peer evWm resp = (n', .ok) ↔
      ∃ n₁, n.applyRows peer resp = .ok n₁ ∧ n₁.applyEvents E peer evWm resp = some n' := by
  unfold finishRound
  cases hr : n.applyRows peer resp with
  | error e => simp
  | ok n₁ => cases he : n₁.applyEvents E peer evWm resp <;> simp [he]

/-- A successful round logs the events of its response. -/
theorem logged_of_finishRound {evWm : HLC} {resp : PullResponse}
    (h : n.finishRound E peer evWm resp = (n', .ok))
    (hwm : evWm ≤ n.store.watermark peer kindEvent)
    (hrows : ∀ r ∈ resp.toRows, r.kind ≠ kindEvent) :
    ∃ xs, resp.events.mapM (PbEvent.toEvent E) = some xs ∧ Logged E n peer xs n' := by
  obtain ⟨n₁, hr, he⟩ := finishRound_eq_ok.mp h
  have htop : Store.top kindEvent resp.toRows = HLC.zero :=
    le_antisymm (Store.top_le_iff.mpr ⟨le_rfl, fun r hr hk => absurd hk (hrows r hr)⟩)
      (Store.zero_le_top _ _)
  have hev : n₁.store.watermark peer kindEvent = n.store.watermark peer kindEvent := by
    refine Subtype.ext ?_
    rw [watermark_of_applyRows hr, if_pos rfl, htop, max_eq_left (Subtype.property _)]
  have hoth : ∀ p ≠ peer, ∀ k, n₁.store.watermark p k = n.store.watermark p k := by
    intro p hp k
    refine Subtype.ext ?_
    rw [watermark_of_applyRows hr, if_neg hp]
  obtain ⟨-, hevents⟩ := applyRows_ok hr
  obtain ⟨xs, hxs, hlog⟩ := logged_of_applyEvents he (hev ▸ hwm)
  refine ⟨xs, hxs, ⟨hevents ▸ hlog.kept, hevents ▸ hlog.added, hlog.held,
    fun hnil => (hlog.idle hnil).trans hevents, ?_, ?_⟩⟩
  · rw [hlog.watermark, hev]
  · intro p hp k
    rw [hlog.others p hp, hoth p hp]

/-! ### What the peer sends -/

/-- Key and HLC of an event come through. -/
theorem relayed_eq_some {e : EventRow} {y : Event} (h : relayed E e = some y) :
    (Store.eventRow E y).id = e.id ∧ y.hlc = e.hlc := by
  obtain ⟨x, hx, hy⟩ := Option.bind_eq_some_iff.mp h
  obtain ⟨payload, -, rfl⟩ := Option.map_eq_some_iff.mp hx
  cases hy
  exact ⟨rfl, rfl⟩

/-- An event whose payload text is stable arrives as it is stored. -/
theorem eventRow_relayed {e : EventRow} {y : Event} (h : relayed E e = some y)
    (hst : E.Stable e.payload) : Store.eventRow E y = e := by
  obtain ⟨x, hx, hy⟩ := Option.bind_eq_some_iff.mp h
  obtain ⟨payload, hscan, rfl⟩ := Option.map_eq_some_iff.mp hx
  have htext : E.encodePayload payload = e.payload := by
    rw [Env.Stable, hscan] at hst
    exact Option.some.inj hst
  -- the text that is sent is the stored one, so it decodes to the same payload
  have hagain : (if e.payload = "" then none else (E.decodePayload e.payload).getD none) =
      payload := by
    unfold Store.scanPayload at hscan
    split at hscan
    · next hempty => rw [if_pos hempty, Option.some.inj hscan]
    · next hne => rw [if_neg hne, hscan, Option.getD_some]
  cases hy
  simp only [Store.eventRow, Event.toPb, htext, hagain]

theorem exists_relayed {e : EventRow} {x : Event} (h : Store.scanEvent E e = some x) :
    ∃ y, relayed E e = some y := by
  rw [relayed, h]
  exact ⟨_, rfl⟩

/-- **Which events arrive**: those above the floor the server picked. -/
theorem mem_relayed {req : PullRequest} {resp : PullResponse} {xs : List Event}
    (h : s.pull E req = some resp)
    (hxs : resp.wire.events.mapM (PbEvent.toEvent E) = some xs) {y : Event} :
    y ∈ xs ↔ ∃ e ∈ s.store.events, s.eventFloor req < e.hlc ∧ relayed E e = some y := by
  obtain ⟨evs, hevs, hsent⟩ := Server.events_of_pull h
  rw [Server.pullEvents_eq] at hevs
  rw [mem_of_mapM_eq_some hxs, hsent]
  simp only [List.mem_map, relayed, Option.bind_eq_some_iff]
  constructor
  · rintro ⟨pe, ⟨x, hx, rfl⟩, hy⟩
    obtain ⟨e, he, hlt, hscan⟩ := (Store.mem_eventsSince hevs).mp hx
    exact ⟨e, he, hlt, x, hscan, hy⟩
  · rintro ⟨e, he, hlt, x, hscan, hy⟩
    exact ⟨_, ⟨x, (Store.mem_eventsSince hevs).mpr ⟨e, he, hlt, hscan⟩, rfl⟩, hy⟩

/-- A pull that succeeds has scanned what it sends. -/
theorem scanEvent_of_pull {req : PullRequest} {resp : PullResponse}
    (h : s.pull E req = some resp) {e : EventRow} (he : e ∈ s.store.events)
    (hlt : s.eventFloor req < e.hlc) : ∃ x, Store.scanEvent E e = some x := by
  obtain ⟨evs, hevs, -⟩ := Server.events_of_pull h
  rw [Server.pullEvents_eq] at hevs
  exact Store.eventsSince_total.mp ⟨evs, hevs⟩ e he hlt

/-- What a server sends has all its HLCs. -/
theorem exists_incoming {req : PullRequest} {resp : PullResponse}
    (h : s.pull E req = some resp) :
    ∃ xs, resp.wire.events.mapM (PbEvent.toEvent E) = some xs := by
  obtain ⟨evs, -, hsent⟩ := Server.events_of_pull h
  rw [exists_mapM_eq_some, hsent]
  intro pe hpe
  obtain ⟨x, -, rfl⟩ := List.mem_map.mp hpe
  exact ⟨_, rfl⟩

/-! ## What one round does to the rows -/

/-- A key after a merge, when one row of the batch may carry it. -/
theorem get_merge_newest (t : RowTable) (r : Row) :
    (t.merge Row.version r).get r.id = Row.newest (t.get r.id) (some r) := by
  unfold KeyedTable.merge
  cases hg : t.get r.id with
  | none => simp [Row.newest]
  | some c =>
    simp only [Row.newest, newer_iff]
    split
    · rw [KeyedTable.get_upsert_self]
    · exact hg

/-- Where a delivered row is installed its payload survived the wire. -/
theorem newest_delivered {old : Option Row} {x : Row}
    (hpay : ∀ r, Row.newest old (some x.delivered) = some r → r.payload ≠ none) :
    Row.newest old (some x.delivered) = Row.newest old (some x) := by
  cases old with
  | none => exact congrArg some (Row.delivered_eq (hpay _ rfl))
  | some c =>
    simp only [Row.newest] at hpay ⊢
    by_cases hlt : newer x c
    · have hd : newer x.delivered c := hlt
      rw [if_pos hlt, if_pos hd]
      exact congrArg some (Row.delivered_eq (hpay _ (if_pos hd)))
    · have hd : ¬newer x.delivered c := hlt
      rw [if_neg hlt, if_neg hd]

/-- The rows table after a round, key by key. -/
theorem get_of_roundOnce (h : n.roundOnce E peer s = some (n', .ok)) {kind : Kind}
    (hk : kind ∈ kinds) (key : String) :
    n'.store.rows.get (kind, key) = Row.newest (n.store.rows.get (kind, key))
      ((n.offered peer s kind).find? fun r => decide (r.key = key)) := by
  obtain ⟨resp, hpull, hrec⟩ := received_of_roundOnce h
  cases hf : (n.offered peer s kind).find? fun r => decide (r.key = key) with
  | none =>
    have hnone : ∀ r ∈ resp.wire.toRows, r.id ≠ (kind, key) := by
      intro r hr hid
      obtain ⟨kind', hk', x, hx, rfl⟩ := (mem_delivered_iff hpull).mp hr
      obtain ⟨hkind, hkey⟩ := Prod.mk.inj hid
      obtain ⟨-, hxk, -⟩ := (mem_offered hk').mp hx
      have hxk' : kind' = kind := hxk.symm.trans hkind
      exact List.find?_eq_none.mp hf x (hxk' ▸ hx) (decide_eq_true hkey)
    rw [hrec.rows, KeyedTable.get_mergeAll_of_ne _ hnone]
    cases n.store.rows.get (kind, key) <;> rfl
  | some x =>
    have hx := List.mem_of_find?_eq_some hf
    have hxkey : x.key = key := by simpa using List.find?_some hf
    obtain ⟨hmem, rfl, hlt⟩ := (mem_offered hk).mp hx
    subst hxkey
    have hsent : x.delivered ∈ resp.wire.toRows :=
      (mem_delivered_iff hpull).mpr ⟨x.kind, hk, x, hx, rfl⟩
    have huniq : ∀ y ∈ resp.wire.toRows, y.id = x.delivered.id → y = x.delivered := by
      intro y hy hid
      obtain ⟨z, hz, -, -, rfl⟩ := (Server.mem_delivered hpull).mp hy
      rw [KeyedTable.eq_of_key_eq hz hmem hid]
    have hget : n'.store.rows.get x.id =
        Row.newest (n.store.rows.get x.id) (some x.delivered) := by
      rw [hrec.rows]
      exact (KeyedTable.get_mergeAll_of_unique _ hsent huniq).trans (get_merge_newest _ _)
    show n'.store.rows.get x.id = Row.newest (n.store.rows.get x.id) (some x)
    rw [hget]
    refine newest_delivered fun r hr => ?_
    exact n'.store.payload_notNull r (KeyedTable.get_eq_some.mp (hget.trans hr)).1

/-- The watermark of a kind after a round. -/
theorem watermark_of_roundOnce (h : n.roundOnce E peer s = some (n', .ok)) {kind : Kind}
    (hk : kind ∈ kinds) :
    IsGreatest {x | x = (n.store.watermark peer kind).val ∨
      ∃ r ∈ n.offered peer s kind, r.hlc = x} (n'.store.watermark peer kind).val := by
  obtain ⟨resp, hpull, hrec⟩ := received_of_roundOnce h
  rw [hrec.watermark peer kind (ne_kindEvent hk), if_pos rfl]
  obtain ⟨hmem, hub⟩ :=
    Store.isGreatest_max_top (n.store.watermark peer kind).val kind resp.wire.toRows
  constructor
  · rcases hmem with hmem | hmem | ⟨r, hr, hkind, hmem⟩
    · exact .inl hmem
    · -- watermarks are never below `HLC{}`
      refine .inl (le_antisymm ?_ (hub (.inl rfl)))
      rw [hmem]
      exact Subtype.property _
    · obtain ⟨kind', hk', x, hx, rfl⟩ := (mem_delivered_iff hpull).mp hr
      obtain ⟨-, hxk, -⟩ := (mem_offered hk').mp hx
      obtain rfl : kind' = kind := hxk.symm.trans hkind
      exact .inr ⟨x, hx, hmem⟩
  · rintro x (hx | ⟨r, hr, rfl⟩)
    · exact hub (.inl hx)
    · obtain ⟨-, hrk, -⟩ := (mem_offered hk).mp hr
      exact hub (.inr (.inr ⟨r.delivered,
        (mem_delivered_iff hpull).mpr ⟨kind, hk, r, hr, rfl⟩, hrk, rfl⟩))

/-- A server sends no row of the event kind. -/
theorem kind_ne_of_delivered {req : PullRequest} {resp : PullResponse}
    (h : s.pull E req = some resp) : ∀ r ∈ resp.wire.toRows, r.kind ≠ kindEvent := by
  intro r hr
  obtain ⟨x, -, hk, -, rfl⟩ := (Server.mem_delivered h).mp hr
  exact ne_kindEvent hk

/-- A successful round logs what the peer relayed. -/
theorem logged_of_roundOnce (h : n.roundOnce E peer s = some (n', .ok)) :
    ∃ resp xs, s.pull E (n.request peer) = some resp ∧
      resp.wire.events.mapM (PbEvent.toEvent E) = some xs ∧ Logged E n peer xs n' := by
  obtain ⟨resp, hpull, hfin⟩ := Option.map_eq_some_iff.mp h
  obtain ⟨xs, hxs, hlog⟩ := logged_of_finishRound hfin le_rfl (kind_ne_of_delivered hpull)
  exact ⟨resp, xs, hpull, hxs, hlog⟩

/-- **What one round does, exactly.** For each kind, every key of the puller
holds its old row unless a newer one was offered, and the watermark is the
greatest of the old one and the HLCs offered; so everything the peer has
after the old watermark is dominated. No key is invented, rows of other kinds
and watermarks of other peers stay. -/
theorem roundOnce_exact (E : Env) (n n' : Node) (peer : String) (s : Server)
    (h : n.roundOnce E peer s = some (n', .ok)) :
    (∀ kind ∈ kinds,
      (∀ key, n'.store.rows.get (kind, key) = Row.newest (n.store.rows.get (kind, key))
        ((n.offered peer s kind).find? fun r => decide (r.key = key))) ∧
      IsGreatest {x | x = (n.store.watermark peer kind).val ∨
        ∃ r ∈ n.offered peer s kind, r.hlc = x} (n'.store.watermark peer kind).val ∧
      ∀ r ∈ s.store.rows, r.kind = kind → r.hlc.after (n.store.watermark peer kind) →
        n'.store.rows.Covers r) ∧
    (∀ r ∈ n'.store.rows, (∃ c ∈ n.store.rows, c.id = r.id) ∨ ∃ c ∈ s.store.rows, c.id = r.id) ∧
    (∀ kind ∉ kinds, ∀ key, n'.store.rows.get (kind, key) = n.store.rows.get (kind, key)) ∧
    ∀ p ≠ peer, ∀ kind, n'.store.watermark p kind = n.store.watermark p kind := by
  obtain ⟨resp, hpull, hrec⟩ := received_of_roundOnce h
  obtain ⟨_, _, _, _, hlog⟩ := logged_of_roundOnce h
  refine ⟨fun kind hk => ⟨get_of_roundOnce h hk, watermark_of_roundOnce h hk, ?_⟩, ?_, ?_,
    hlog.others⟩
  · rintro r hr rfl hafter
    have hlt := HLC.after_iff.mp hafter
    -- something of the kind is after the watermark, so it is the floor
    have hno : ¬s.Resends (n.request peer) r.kind := fun hc =>
      not_lt.mpr (((resends_request hk).mp hc).1 r hr rfl) hlt
    have hsent : r.delivered ∈ resp.wire.toRows := by
      refine (Server.mem_delivered hpull).mpr ⟨r, hr, hk, ?_, rfl⟩
      rwa [Server.floor, if_neg hno, requestedWatermark_request n peer hk]
    rw [hrec.rows]
    exact (KeyedTable.covers_mergeAll hsent).of_le rfl le_rfl
  · intro r hr
    rcases hrec.mem_rows hr with hr | ⟨hr, -⟩
    · exact .inl ⟨r, hr, rfl⟩
    · obtain ⟨x, hx, -, -, rfl⟩ := (Server.mem_delivered hpull).mp hr
      exact .inr ⟨x, hx, rfl⟩
  · intro kind hk key
    rw [hrec.rows]
    refine KeyedTable.get_mergeAll_of_ne _ fun r hr hid => ?_
    obtain ⟨x, -, hxk, -, rfl⟩ := (Server.mem_delivered hpull).mp hr
    exact hk ((Prod.mk.inj hid).1 ▸ hxk)

/-- A node that knows of one runner. -/
def informed (hlc : HLC) : Node :=
  { fresh "n0" ⟨List.replicate 8 0, rfl⟩ "10.0.0.1:8947" with store := Store.sampleStore hlc }

/-- Its peer, which knows of the same runner. -/
def informant (hlc : HLC) : Server := ⟨"n1", Store.sampleStore hlc⟩

/-- An outdated row is replaced. -/
theorem outdated_row_replaced : ∃ n',
    (informed ⟨10, 0⟩).roundOnce .escapeFree "10.0.0.2:8947" (informant ⟨20, 0⟩) =
        some (n', .ok) ∧
      n'.store.rows.get (kindRunner, "n1") = some (Store.sampleRow ⟨20, 0⟩) := by
  have hok : ((informed ⟨10, 0⟩).roundOnce .escapeFree "10.0.0.2:8947" (informant ⟨20, 0⟩)).map
      Prod.snd = some .ok := by decide +kernel
  obtain ⟨⟨n', out⟩, hn', rfl⟩ := Option.map_eq_some_iff.mp hok
  refine ⟨n', hn', ?_⟩
  rw [((roundOnce_exact _ _ _ _ _ hn').1 kindRunner (by decide)).1 "n1"]
  decide +kernel

end Node

end Takl
