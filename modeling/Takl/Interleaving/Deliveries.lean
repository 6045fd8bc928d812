import Takl.Interleaving.Overwrites
import Takl.Node.Round

/-!
# What a response adds, and that the order does not matter

A round takes a response in by at most five calls, each of which joins
something into the node: rows into the rows table, events into the log,
timestamps into a watermark or the clock. `Delivery` is such a call and
`Joined` the effect of a list of them. As every component is a join, the node
depends on which deliveries were made and not on their order or number
(`Joined.agrees`), as long as equal versions and equal event ids come with
equal rows.
-/

namespace Takl

open Store (latest latest_le_iff le_latest)

/-- One call of a round, with what it brings. -/
inductive Delivery where
  /-- `ApplyRemote`. -/
  | rows (peer : String) (rs : List Row)
  /-- `ApplyEvents`. -/
  | events (xs : List Event)
  /-- `SetWatermark` for the events. -/
  | mark (peer : String) (hs : List HLC)
  /-- `Clock.Update` with the latest. -/
  | clock (hs : List HLC)

namespace Delivery

/-- The rows it merges. -/
def merged : Delivery → List Row
  | rows _ rs => rs
  | events _ | mark .. | clock _ => []

/-- The events it inserts. -/
def logged : Delivery → List Event
  | events xs => xs
  | rows .. | mark .. | clock _ => []

/-- What it raises a watermark to. -/
def raised (p : String) (k : Kind) : Delivery → HLC
  | rows peer rs => if p = peer then Store.top k rs else HLC.zero
  | mark peer hs => if p = peer ∧ k = kindEvent then latest HLC.zero hs else HLC.zero
  | events _ | clock _ => HLC.zero

/-- What it brings the clock up to. -/
def advanced : Delivery → List HLC
  | clock hs => [latest HLC.zero hs]
  | rows .. | events _ | mark .. => []

/-- The deliveries of the rows part of a round. -/
def ofRows (peer : String) (resp : PullResponse) : List Delivery :=
  if resp.rows.isEmpty then []
  else [.rows peer resp.toRows, .clock (resp.toRows.map Row.hlc)]

/-- The deliveries of decoded events. -/
def ofIncoming (peer : String) (xs : List Event) : List Delivery :=
  [.events xs, .mark peer (xs.map Event.hlc), .clock (xs.map Event.hlc)]

/-- The deliveries of the events part; there are none where it panics. -/
def ofEvents (E : Env) (peer : String) (resp : PullResponse) : List Delivery :=
  if resp.events.isEmpty then []
  else ((resp.events.mapM (PbEvent.toEvent E)).map (ofIncoming peer)).getD []

/-- The deliveries of a response. -/
def ofResponse (E : Env) (g : String × PullResponse) : List Delivery :=
  ofRows g.1 g.2 ++ ofEvents E g.1 g.2

end Delivery

namespace Node

/-- `n'` is `n` with the deliveries joined in. -/
structure Joined (E : Env) (n : Node) (ds : List Delivery) (n' : Node) : Prop where
  rows : n'.store.rows = n.store.rows.mergeAll (ds.flatMap Delivery.merged)
  kept : ∀ e ∈ n.store.events, e ∈ n'.store.events
  added : ∀ e ∈ n'.store.events,
    e ∈ n.store.events ∨ ∃ x ∈ ds.flatMap Delivery.logged, Store.eventRow E x = e
  held : ∀ x ∈ ds.flatMap Delivery.logged, ∃ e ∈ n'.store.events, e.id = (Store.eventRow E x).id
  watermark : ∀ p k, (n'.store.watermark p k).val =
    latest (n.store.watermark p k).val (ds.map (Delivery.raised p k))
  clock : n'.clock.reading = latest n.clock.reading (ds.flatMap Delivery.advanced)
  frame : n' = { n with store := n'.store, clock := n'.clock }

namespace Joined

variable {E : Env} {n n' n'' : Node} {ds ds' : List Delivery}

theorem nil (E : Env) (n : Node) : Joined E n [] n where
  rows := rfl
  kept _ he := he
  added _ he := .inl he
  held _ hx := nomatch hx
  watermark _ _ := rfl
  clock := rfl
  frame := rfl

theorem trans (h : Joined E n ds n') (h' : Joined E n' ds' n'') :
    Joined E n (ds ++ ds') n'' where
  rows := by
    rw [h'.rows, h.rows, List.flatMap_append]
    exact (KeyedTable.mergeAll_append _ _ _).symm
  kept e he := h'.kept e (h.kept e he)
  added e he := by
    simp only [List.flatMap_append, List.mem_append]
    rcases h'.added e he with he | ⟨x, hx, hxe⟩
    · rcases h.added e he with he | ⟨x, hx, hxe⟩
      · exact .inl he
      · exact .inr ⟨x, .inl hx, hxe⟩
    · exact .inr ⟨x, .inr hx, hxe⟩
  held x hx := by
    simp only [List.flatMap_append, List.mem_append] at hx
    rcases hx with hx | hx
    · obtain ⟨e, he, hid⟩ := h.held x hx
      exact ⟨e, h'.kept e he, hid⟩
    · exact h'.held x hx
  watermark p k := by
    rw [h'.watermark, h.watermark, List.map_append, latest, latest, latest, List.foldl_append]
  clock := by
    rw [h'.clock, h.clock, List.flatMap_append, latest, latest, latest, List.foldl_append]
  frame := by
    rw [h'.frame, h.frame]

/-- Watermarks only rise. -/
theorem watermark_mono (h : Joined E n ds n') (p : String) (k : Kind) :
    (n.store.watermark p k).val ≤ (n'.store.watermark p k).val := by
  rw [h.watermark]
  exact (latest_le_iff.mp le_rfl).1

/-! ## One call -/

theorem of_rows {peer : String} {rs : List Row} {st : Store}
    (h : n.store.applyRemote peer rs = .ok st) :
    Joined E n [.rows peer rs] { n with store := st } := by
  obtain ⟨hrows, hevents, hwm⟩ := Store.applyRemote_ok h
  refine ⟨?_, fun e he => hevents ▸ he, fun e he => .inl (hevents ▸ he), nofun, fun p k => ?_, rfl,
    rfl⟩
  · simpa [Delivery.merged] using hrows
  · show (st.watermark p k).val = Store.maxHLC _ (if p = peer then Store.top k rs else HLC.zero)
    rw [Store.maxHLC_eq_max, hwm]
    split
    · rfl
    · exact (max_eq_left (n.store.watermark p k).property).symm

theorem of_events (xs : List Event) :
    Joined E n [.events xs] { n with store := n.store.applyEvents E xs } := by
  obtain ⟨hrows, hwm, -⟩ := Store.applyEvents_spec E xs n.store
  obtain ⟨hkept, hadded, hheld⟩ := Store.mem_applyEvents E xs n.store
  refine ⟨hrows, hkept, ?_, ?_, fun p k => ?_, rfl, rfl⟩
  · simpa [Delivery.logged] using hadded
  · simpa [Delivery.logged] using hheld
  · show ((n.store.applyEvents E xs).watermark p k).val = Store.maxHLC _ HLC.zero
    rw [Store.maxHLC_eq_max, max_eq_left (n.store.watermark p k).property, Store.watermark,
      Store.watermark, hwm]

/-- The watermark a round starts from was read before, and has at most risen
since. -/
theorem of_mark {peer : String} {evWm : HLC} (hwm : evWm ≤ n.store.watermark peer kindEvent)
    (hs : List HLC) :
    Joined E n [.mark peer hs]
      { n with store := n.store.setWatermark peer kindEvent (latest evWm hs) } := by
  obtain ⟨hrows, hevents, hother⟩ :=
    Store.setWatermark_spec n.store peer kindEvent (latest evWm hs)
  refine ⟨hrows, fun e he => hevents ▸ he, fun e he => .inl (hevents ▸ he), nofun, fun p k => ?_,
    rfl, rfl⟩
  show ((n.store.setWatermark peer kindEvent (latest evWm hs)).watermark p k).val =
    Store.maxHLC _ (if p = peer ∧ k = kindEvent then latest HLC.zero hs else HLC.zero)
  rw [Store.maxHLC_eq_max]
  by_cases hpk : p = peer ∧ k = kindEvent
  · obtain ⟨rfl, rfl⟩ := hpk
    rw [Store.setWatermark_watermark, if_pos ⟨rfl, rfl⟩]
    exact Store.max_latest hwm (Subtype.property _) _
  · rw [hother p k hpk, if_neg hpk, max_eq_left (n.store.watermark p k).property]

theorem of_clock (hs : List HLC) :
    Joined E n [.clock hs] { n with clock := n.clock.update (latest HLC.zero hs) } := by
  refine ⟨rfl, fun e he => he, fun e he => .inl he, nofun, fun p k => ?_, ?_, rfl⟩
  · show _ = Store.maxHLC _ HLC.zero
    rw [Store.maxHLC_eq_max, max_eq_left (n.store.watermark p k).property]
  · show (n.clock.update (latest HLC.zero hs)).reading = Store.maxHLC _ (latest HLC.zero hs)
    rw [Store.maxHLC_eq_max, Clock.update_reading]

/-! ## A whole round -/

theorem of_applyRows {peer : String} {resp : PullResponse} (h : n.applyRows peer resp = .ok n') :
    Joined E n (Delivery.ofRows peer resp) n' := by
  unfold applyRows at h
  unfold Delivery.ofRows
  split at h
  · next hnil =>
    cases h
    rw [if_pos hnil]
    exact .nil E n
  · next hne =>
    obtain ⟨st, hst, rfl⟩ := Except.map_eq_ok.mp h
    rw [if_neg hne]
    exact (of_rows hst).trans (of_clock (resp.toRows.map Row.hlc))

theorem of_incoming {peer : String} {evWm : HLC} (hwm : evWm ≤ n.store.watermark peer kindEvent)
    (xs : List Event) :
    Joined E n (Delivery.ofIncoming peer xs)
      { n with
        store := (n.store.applyEvents E xs).setWatermark peer kindEvent
          (latest evWm (xs.map Event.hlc))
        clock := n.clock.update (latest HLC.zero (xs.map Event.hlc)) } := by
  have hev := of_events (E := E) (n := n) xs
  exact hev.trans ((of_mark (hwm.trans (hev.watermark_mono peer kindEvent)) _).trans (of_clock _))

theorem of_applyEvents {peer : String} {evWm : HLC} {resp : PullResponse}
    (h : n.applyEvents E peer evWm resp = some n')
    (hwm : evWm ≤ n.store.watermark peer kindEvent) :
    Joined E n (Delivery.ofEvents E peer resp) n' := by
  unfold applyEvents at h
  unfold Delivery.ofEvents
  split at h
  · next hnil =>
    cases h
    rw [if_pos hnil]
    exact .nil E n
  · next hne =>
    obtain ⟨xs, hxs, rfl⟩ := Option.map_eq_some_iff.mp h
    rw [if_neg hne, hxs]
    exact of_incoming hwm xs

/-- A successful round joins in the deliveries of its response. -/
theorem of_finishRound {peer : String} {evWm : HLC} {resp : PullResponse}
    (h : n.finishRound E peer evWm resp = (n', .ok))
    (hwm : evWm ≤ n.store.watermark peer kindEvent) :
    Joined E n (Delivery.ofResponse E (peer, resp)) n' := by
  obtain ⟨n₁, hr, he⟩ := finishRound_eq_ok.mp h
  have h₁ := of_applyRows (E := E) hr
  exact h₁.trans (of_applyEvents he (hwm.trans (h₁.watermark_mono peer kindEvent)))

end Joined

/-! ## Order -/

/-- No query tells the two nodes apart. -/
structure Agrees (n m : Node) : Prop where
  rows : ∀ kind key, n.store.rows.get (kind, key) = m.store.rows.get (kind, key)
  events : ∀ id, n.store.events.get id = m.store.events.get id
  watermark : ∀ p k, n.store.watermark p k = m.store.watermark p k
  clock : n.clock.reading = m.clock.reading
  frame : n = { m with store := n.store, clock := n.clock }

/-- Rows of one key and version are equal, here and in what is delivered. -/
def RowsConsistent (n : Node) (ds : List Delivery) : Prop :=
  KeyedTable.Consistent Row.version Row.id fun r =>
    r ∈ n.store.rows ∨ r ∈ ds.flatMap Delivery.merged

/-- The events the log has or is given. -/
def Offers (E : Env) (n : Node) (ds : List Delivery) (e : EventRow) : Prop :=
  e ∈ n.store.events ∨ ∃ x ∈ ds.flatMap Delivery.logged, Store.eventRow E x = e

/-- Events of one id are equal, here and in what is delivered. -/
def EventsConsistent (E : Env) (n : Node) (ds : List Delivery) : Prop :=
  ∀ a b, n.Offers E ds a → n.Offers E ds b → a.id = b.id → a = b

theorem latest_congr {m : HLC} {hs hs' : List HLC} (h : ∀ x, x ∈ hs ↔ x ∈ hs') :
    latest m hs = latest m hs' := by
  refine eq_of_forall_ge_iff fun b => ?_
  simp only [latest_le_iff, h]

theorem mem_flatMap_congr {α β : Type} {f : α → List β} {l l' : List α}
    (h : ∀ x, x ∈ l ↔ x ∈ l') (y : β) : y ∈ l.flatMap f ↔ y ∈ l'.flatMap f := by
  simp only [List.mem_flatMap, h]

/-- The log holds what it had and what it was given. -/
theorem Joined.mem_events {E : Env} {n n' : Node} {ds : List Delivery} (h : Joined E n ds n')
    (hev : n.EventsConsistent E ds) (e : EventRow) :
    e ∈ n'.store.events ↔ n.Offers E ds e := by
  constructor
  · exact fun he => h.added e he
  · rintro (he | ⟨x, hx, rfl⟩)
    · exact h.kept e he
    · obtain ⟨e, he, hid⟩ := h.held x hx
      rwa [← hev e _ (h.added e he) (.inr ⟨x, hx, rfl⟩) hid]

/-- **The order of the deliveries does not matter**, nor how often each is
made. -/
theorem Joined.agrees {E : Env} {n n' n'' : Node} {ds ds' : List Delivery}
    (h : Joined E n ds n') (h' : Joined E n ds' n'') (hds : ∀ d, d ∈ ds ↔ d ∈ ds')
    (hrows : n.RowsConsistent ds) (hev : n.EventsConsistent E ds) : n'.Agrees n'' where
  rows kind key := by
    rw [h.rows, h'.rows]
    exact (KeyedTable.get_mergeAll_congr hrows
      (fun r => (mem_flatMap_congr hds r).symm) (kind, key)).symm
  events := by
    have hiff : ∀ e, n.Offers E ds e ↔ n.Offers E ds' e := fun e =>
      or_congr_right (exists_congr fun x => and_congr_left' (mem_flatMap_congr hds x))
    have hev' : n.EventsConsistent E ds' := fun a b ha hb =>
      hev a b ((hiff a).mpr ha) ((hiff b).mpr hb)
    refine KeyedTable.get_eq_of_mem_iff fun e => ?_
    rw [h.mem_events hev, h'.mem_events hev', hiff]
  watermark p k := by
    refine Subtype.ext ?_
    rw [h.watermark, h'.watermark]
    refine latest_congr fun x => ?_
    simp only [List.mem_map, hds]
  clock := by
    rw [h.clock, h'.clock]
    exact latest_congr (mem_flatMap_congr hds)
  frame := by
    rw [h.frame, h'.frame]

end Node

end Takl
