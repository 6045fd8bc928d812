import Takl.Interleaving.Schedules

/-!
# Rounds that a crash interrupts

A process can die between any two calls of a round. Its tables stay as they
are; clock, goroutines and response are gone. What makes this safe is the order
of the calls: rows and their watermark go in by one transaction, and the event
watermark is raised only after the events are in. So an interrupted round has
made a prefix of its deliveries (`finish_first`), and a prefix never moves a
watermark past something that is not there.
-/

namespace Takl

open Store (latest)

/-- **An interrupted round** has made the first of its deliveries. -/
theorem Puller.finish_first (E : Env) (k : Nat) {n : Node} {q : Puller} (hq : q.Fresh n) :
    ∃ ds, ds <+: q.rest E ∧ n.Joined E ds (finish E k n (some q)) := by
  induction k generalizing n q with
  | zero => exact ⟨[], List.nil_prefix, .nil E n⟩
  | succ k ih =>
    simp only [finish]
    by_cases hout : q.outcome E n = .ok
    · have hcalls := calls_of_outcome hout
      have hjoin := hcalls.joined hq
      rw [hcalls.rest_eq]
      cases hnext : (q.next E n).2 with
      | none => exact ⟨q.delivery E, List.prefix_append _ _, by rwa [finish_none]⟩
      | some q' =>
        obtain ⟨ds, hpre, hds⟩ := ih (hcalls.fresh hq hnext)
        exact ⟨q.delivery E ++ ds, (List.prefix_append_right_inj _).mpr hpre, hjoin.trans hds⟩
    · -- a call that fails changes nothing and is the last
      have hfail : q.next E n = (n, none) := by
        cases q with
        | applyRows peer evWm resp =>
          simp only [outcome] at hout
          simp only [next]
          split
          · next hnil => simp [hnil] at hout
          · split
            · rfl
            · next hne _ _ hst => simp [hne, hst] at hout
        | applyEvents peer evWm resp =>
          simp only [next]
          split
          · rfl
          · split
            · rfl
            · next hne _ _ hxs => simp [outcome, hne, hxs] at hout
        | _ => exact absurd rfl hout
      rw [hfail, finish_none]
      exact ⟨[], List.nil_prefix, .nil E n⟩

/-- `s'` has what `s` has, or newer. -/
structure Server.Precedes (s s' : Server) : Prop where
  rows : s.store.rows.Advances s'.store.rows
  events : ∀ e ∈ s.store.events, e ∈ s'.store.events

/-- A round that dies after some calls, and the process that comes after. -/
structure Attempt where
  server : Server
  calls : Nat
  epoch : Epoch

namespace Node

/-- The node after an interrupted round and a restart. -/
def interrupted (E : Env) (peer : String) (n : Node) (a : Attempt) : Node :=
  (match a.server.pull E (n.request peer) with
    | none => n
    | some resp => Puller.finish E a.calls n
        (some (.applyRows peer (n.store.watermark peer kindEvent) resp.wire))).restart a.epoch

variable {E : Env} {n : Node} {peer : String} {s : Server}

/-! ## What the peer sends -/

/-- A row above the watermark is sent. -/
theorem delivered_of_watermark_lt {resp : PullResponse}
    (hpull : s.pull E (n.request peer) = some resp) {x : Row} (hx : x ∈ s.store.rows)
    (hk : x.kind ∈ kinds) (hlt : (n.store.watermark peer x.kind).val < x.hlc) :
    x.delivered ∈ resp.wire.toRows := by
  refine (Server.mem_delivered hpull).mpr ⟨x, hx, hk, ?_, rfl⟩
  unfold Server.floor
  split
  · exact (n.store.watermark peer x.kind).property.trans_lt hlt
  · rwa [requestedWatermark_request n peer hk]

/-- A response to a server that has what `s` has brings a row of `s` above the
watermark. -/
theorem brings_of_precedes {s' : Server} {resp : PullResponse} (hs : s.Precedes s')
    (hpull : s'.pull E (n.request peer) = some resp) {r : Row} (hr : r ∈ s.store.rows)
    (hk : r.kind ∈ kinds) (hlt : (n.store.watermark peer r.kind).val < r.hlc) :
    ∃ x ∈ resp.wire.toRows, x.id = r.id ∧ r.version ≤ x.version := by
  obtain ⟨x, hx, hid, hle⟩ := hs.rows r hr
  have hkind : x.kind = r.kind := (Row.id_eq.mp hid).1
  refine ⟨x.delivered, delivered_of_watermark_lt hpull hx (hkind ▸ hk) ?_, hid, hle⟩
  rw [hkind]
  exact hlt.trans_le (Row.hlc_le_of_version_le hle)

/-- An event above the watermark is sent. -/
theorem relayed_of_watermark_lt {resp : PullResponse} {xs : List Event}
    (hpull : s.pull E (n.request peer) = some resp)
    (hxs : resp.wire.events.mapM (PbEvent.toEvent E) = some xs) {e : EventRow}
    (he : e ∈ s.store.events) (hlt : (n.store.watermark peer kindEvent).val < e.hlc) :
    ∃ x ∈ xs, (Store.eventRow E x).id = e.id := by
  have hfloor : s.eventFloor (n.request peer) < e.hlc := by
    unfold Server.eventFloor
    split
    · exact (n.store.watermark peer kindEvent).property.trans_lt hlt
    · exact hlt
  obtain ⟨x, hscan⟩ := scanEvent_of_pull hpull he hfloor
  obtain ⟨y, hy⟩ := exists_relayed hscan
  exact ⟨y, (mem_relayed hpull hxs).mpr ⟨e, he, hfloor, hy⟩, (relayed_eq_some hy).1⟩

/-! ## One attempt -/

@[simp] theorem restart_store (n : Node) (epoch : Epoch) : (n.restart epoch).store = n.store := rfl

/-- What an interrupted round leaves in the tables. -/
theorem interrupted_cases (E : Env) (peer : String) (n : Node) (a : Attempt) :
    (n.interrupted E peer a).store = n.store ∨
      ∃ resp ds m, a.server.pull E (n.request peer) = some resp ∧
        ds <+: Delivery.ofResponse E (peer, resp.wire) ∧ n.Joined E ds m ∧
        (n.interrupted E peer a).store = m.store := by
  unfold interrupted
  cases hpull : a.server.pull E (n.request peer) with
  | none => exact .inl rfl
  | some resp =>
    obtain ⟨ds, hpre, hds⟩ := Puller.finish_first E a.calls (n := n)
      (q := .applyRows peer (n.store.watermark peer kindEvent) resp.wire) le_rfl
    exact .inr ⟨resp, ds, _, rfl, hpre, hds, rfl⟩

/-- A row is there, or its watermark is still below it. -/
def RowSafe (peer : String) (n : Node) (r : Row) : Prop :=
  n.store.rows.Covers r ∨ (n.store.watermark peer r.kind).val < r.hlc

/-- An event is there, or the event watermark is still below it. -/
def EventSafe (peer : String) (n : Node) (e : EventRow) : Prop :=
  (∃ e' ∈ n.store.events, e'.id = e.id) ∨ (n.store.watermark peer kindEvent).val < e.hlc

/-- The transaction of `ApplyRemote`: the watermark does not move without the
rows. -/
theorem rowSafe_interrupted {a : Attempt} (hs : s.Precedes a.server) {r : Row}
    (hr : r ∈ s.store.rows) (hk : r.kind ∈ kinds) (h : RowSafe peer n r) :
    RowSafe peer (n.interrupted E peer a) r := by
  unfold RowSafe
  rcases interrupted_cases E peer n a with hst | ⟨resp, ds, m, hpull, hpre, hjoin, hst⟩
  · rw [hst]
    exact h
  · rw [hst]
    have hadv : n.store.rows.Advances m.store.rows :=
      hjoin.rows ▸ KeyedTable.advances_mergeAll _ _
    rcases h with hcov | hlt
    · exact .inl (hcov.advance hadv)
    · obtain ⟨x, hx, hid, hle⟩ := brings_of_precedes hs hpull hr hk hlt
      cases ds with
      | nil =>
        right
        rw [hjoin.watermark]
        exact hlt
      | cons d ds =>
        -- the first delivery is that of the rows
        have hne : ¬resp.wire.rows.isEmpty := by
          intro hnil
          rw [PullResponse.toRows, List.isEmpty_iff.mp hnil] at hx
          cases hx
        rw [Delivery.ofResponse, Delivery.ofRows, if_neg hne, List.cons_append,
          List.cons_prefix_cons] at hpre
        left
        rw [hjoin.rows, hpre.1]
        refine (KeyedTable.covers_mergeAll ?_).of_le hid.symm hle
        exact List.mem_flatMap.mpr ⟨_, List.mem_cons_self, hx⟩

/-- Without the events the event watermark stays where it is. -/
theorem watermark_of_ofRows {m : Node} {resp : PullResponse} {ds : List Delivery}
    (hrows : ∀ r ∈ resp.toRows, r.kind ≠ kindEvent)
    (hpre : ds <+: Delivery.ofRows peer resp) (hjoin : n.Joined E ds m) :
    m.store.watermark peer kindEvent = n.store.watermark peer kindEvent := by
  have htop : Store.top kindEvent resp.toRows = HLC.zero :=
    le_antisymm (Store.top_le_iff.mpr ⟨le_rfl, fun r hr hk => absurd hk (hrows r hr)⟩)
      (Store.zero_le_top _ _)
  refine Subtype.ext (le_antisymm ?_ (hjoin.watermark_mono peer kindEvent))
  rw [hjoin.watermark, Store.latest_le_iff]
  refine ⟨le_rfl, fun h hh => ?_⟩
  obtain ⟨d, hd, rfl⟩ := List.mem_map.mp hh
  have hmem := hpre.subset hd
  unfold Delivery.ofRows at hmem
  split at hmem
  · cases hmem
  · rcases List.mem_cons.mp hmem with rfl | hmem
    · rw [Delivery.raised, if_pos rfl, htop]
      exact Subtype.property _
    · rw [List.mem_singleton.mp hmem]
      exact Subtype.property _

/-- The order of `ApplyEvents` and `SetWatermark`: the watermark does not move
without the events. -/
theorem eventSafe_interrupted {a : Attempt} (hs : s.Precedes a.server) {e : EventRow}
    (he : e ∈ s.store.events) (h : EventSafe peer n e) :
    EventSafe peer (n.interrupted E peer a) e := by
  unfold EventSafe
  rcases interrupted_cases E peer n a with hst | ⟨resp, ds, m, hpull, hpre, hjoin, hst⟩
  · rw [hst]
    exact h
  · rw [hst]
    rcases h with ⟨e', he', hid⟩ | hlt
    · exact .inl ⟨e', hjoin.kept e' he', hid⟩
    · obtain ⟨xs, hxs⟩ := exists_incoming hpull
      obtain ⟨x, hx, hxid⟩ := relayed_of_watermark_lt hpull hxs (hs.events e he) hlt
      have hne : ¬resp.wire.events.isEmpty := by
        intro hnil
        rw [List.isEmpty_iff.mp hnil] at hxs
        cases hxs
        cases hx
      have hall : Delivery.ofResponse E (peer, resp.wire) =
          (Delivery.ofRows peer resp.wire ++ [.events xs]) ++
            [.mark peer (xs.map Event.hlc), .clock (xs.map Event.hlc)] := by
        simp [Delivery.ofResponse, Delivery.ofEvents, Delivery.ofIncoming, hne, hxs]
      rw [hall] at hpre
      rcases List.prefix_or_prefix_of_prefix hpre (List.prefix_append _ _) with hpre | hpre
      · rcases List.prefix_concat_iff.mp hpre with rfl | hpre
        · obtain ⟨e', he', hid⟩ := hjoin.held x
            (List.mem_flatMap.mpr ⟨.events xs, by simp, hx⟩)
          exact .inl ⟨e', he', hid.trans hxid⟩
        · rw [watermark_of_ofRows (kind_ne_of_delivered hpull) hpre hjoin]
          exact .inr hlt
      · obtain ⟨e', he', hid⟩ := hjoin.held x
          (List.mem_flatMap.mpr ⟨.events xs, hpre.subset (by simp), hx⟩)
        exact .inl ⟨e', he', hid.trans hxid⟩

/-- A successful round brings what is above the watermark. -/
theorem covers_of_rowSafe {s' : Server} {m : Node} (hs : s.Precedes s')
    (h : n.roundOnce E peer s' = some (m, .ok)) {r : Row} (hr : r ∈ s.store.rows)
    (hk : r.kind ∈ kinds) (hsafe : RowSafe peer n r) : m.store.rows.Covers r := by
  obtain ⟨resp, hpull, hrec⟩ := received_of_roundOnce h
  rw [hrec.rows]
  rcases hsafe with hcov | hlt
  · exact hcov.advance (KeyedTable.advances_mergeAll _ _)
  · obtain ⟨x, hx, hid, hle⟩ := brings_of_precedes hs hpull hr hk hlt
    exact (KeyedTable.covers_mergeAll hx).of_le hid.symm hle

theorem held_of_eventSafe {s' : Server} {m : Node} (hs : s.Precedes s')
    (h : n.roundOnce E peer s' = some (m, .ok)) {e : EventRow} (he : e ∈ s.store.events)
    (hsafe : EventSafe peer n e) : ∃ e' ∈ m.store.events, e'.id = e.id := by
  obtain ⟨resp, xs, hpull, hxs, hlog⟩ := logged_of_roundOnce h
  rcases hsafe with ⟨e', he', hid⟩ | hlt
  · exact ⟨e', hlog.kept e' he', hid⟩
  · obtain ⟨x, hx, hxid⟩ := relayed_of_watermark_lt hpull hxs (hs.events e he) hlt
    obtain ⟨e', he', hid⟩ := hlog.held x hx
    exact ⟨e', he', hid.trans hxid⟩

/-! ## Any number of attempts -/

/-- **No row is lost to crashes**: after any number of interrupted rounds it
is there, or will be asked for again. -/
theorem rowSafe_attempts {attempts : List Attempt} (hs : ∀ a ∈ attempts, s.Precedes a.server)
    {r : Row} (hr : r ∈ s.store.rows) (hk : r.kind ∈ kinds) (h : RowSafe peer n r) :
    RowSafe peer (attempts.foldl (interrupted E peer) n) r := by
  induction attempts generalizing n with
  | nil => exact h
  | cons a attempts ih =>
    rw [List.forall_mem_cons] at hs
    exact ih hs.2 (rowSafe_interrupted hs.1 hr hk h)

theorem eventSafe_attempts {attempts : List Attempt} (hs : ∀ a ∈ attempts, s.Precedes a.server)
    {e : EventRow} (he : e ∈ s.store.events) (h : EventSafe peer n e) :
    EventSafe peer (attempts.foldl (interrupted E peer) n) e := by
  induction attempts generalizing n with
  | nil => exact h
  | cons a attempts ih =>
    rw [List.forall_mem_cons] at hs
    exact ih hs.2 (eventSafe_interrupted hs.1 he h)

/-- **Crashes lose nothing.** A node tries to pull from a peer any number of
times, and each time dies after any number of the round's calls; the peer only
gains rows, versions and events. The first round that succeeds has brought
every row and every event that the peer had above the node's watermarks before
the first attempt. -/
theorem crashes_lose_nothing (E : Env) {n m : Node} {peer : String} {s s' : Server}
    {attempts : List Attempt} (hs : ∀ a ∈ attempts, s.Precedes a.server) (hs' : s.Precedes s')
    (h : (attempts.foldl (interrupted E peer) n).roundOnce E peer s' = some (m, .ok)) :
    (∀ r ∈ s.store.rows, r.kind ∈ kinds → (n.store.watermark peer r.kind).val < r.hlc →
        m.store.rows.Covers r) ∧
      ∀ e ∈ s.store.events, (n.store.watermark peer kindEvent).val < e.hlc →
        ∃ e' ∈ m.store.events, e'.id = e.id :=
  ⟨fun _ hr hk hlt => covers_of_rowSafe hs' h hr hk (rowSafe_attempts hs hr hk (.inr hlt)),
    fun _ he hlt => held_of_eventSafe hs' h he (eventSafe_attempts hs he (.inr hlt))⟩

/-- A peer that has started. -/
def startedPeer : Node :=
  NodeOp.exec .escapeFree (.fresh (Demo.nodeID 1) Demo.epoch "10.0.0.1:7001")
    (.start 100 (Demo.runner 1))

/-- A node that has died three times: before the first call, between rows and
events, and between the events and their watermark. -/
def diedThrice : Node :=
  ([0, 2, 3].map fun k => Attempt.mk startedPeer.server k Demo.epoch).foldl
    (interrupted .escapeFree "10.0.0.1:7001") (.fresh (Demo.nodeID 0) Demo.epoch "10.0.0.0:7001")

theorem pulled_after_three_crashes : ∃ m,
    diedThrice.roundOnce .escapeFree "10.0.0.1:7001" startedPeer.server = some (m, .ok) ∧
      startedPeer.store.events.rows.map EventRow.hlc = [⟨100, 0⟩] ∧
      ∀ e ∈ startedPeer.store.events, ∃ e' ∈ m.store.events, e'.id = e.id := by
  have hok : (diedThrice.roundOnce .escapeFree "10.0.0.1:7001" startedPeer.server).map
      Prod.snd = some .ok := by decide +kernel
  have hlate : ∀ e ∈ startedPeer.store.events, HLC.zero < e.hlc := by decide +kernel
  obtain ⟨⟨m, out⟩, hm, rfl⟩ := Option.map_eq_some_iff.mp hok
  have hsame : startedPeer.server.Precedes startedPeer.server := ⟨.refl _, fun _ he => he⟩
  refine ⟨m, hm, by decide +kernel, fun e he => ?_⟩
  refine (crashes_lose_nothing .escapeFree (fun a ha => ?_) hsame hm).2 e he (hlate e he)
  obtain ⟨k, -, rfl⟩ := List.mem_map.mp ha
  exact hsame

end Node

end Takl
