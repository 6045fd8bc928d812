import Takl.Node.Round

/-!
# Repeated rounds on an unchanging peer

A round is not idempotent: the checksum comparison that makes the peer resend
everything only happens once nothing is left above the watermark, so the round
that catches up can be followed by one that resends. After that one nothing is
left (`two_rounds_settle`). The first round brings the watermarks up to
everything the peer has (`CaughtUp`). The second either resends a kind, after
which everything of it is covered, or leaves the kind and so its checksum
alone (`Saturated`); the events go the same way.
-/

namespace Takl

namespace Node

variable {E : Env} {n n' : Node} {peer : String} {s : Server}

/-- The watermarks are up to everything the peer has. -/
structure CaughtUp (n : Node) (peer : String) (s : Server) : Prop where
  rows : ∀ x ∈ s.store.rows, x.kind ∈ kinds → x.hlc ≤ n.store.watermark peer x.kind
  events : ∀ e ∈ s.store.events, e.hlc ≤ n.store.watermark peer kindEvent

/-- What a resend would bring is there. -/
structure Saturated (E : Env) (n : Node) (peer : String) (s : Server) : Prop
    extends CaughtUp n peer s where
  covered : ∀ x ∈ s.store.rows, x.kind ∈ kinds → s.Resends (n.request peer) x.kind →
    HLC.zero < x.hlc → n.store.rows.Covers x
  held : s.ResendsEvents (n.request peer) → ∀ e ∈ s.store.events, HLC.zero < e.hlc →
    (∃ x, Store.scanEvent E e = some x) ∧ ∃ e' ∈ n.store.events, e'.id = e.id

theorem eventFloor_le (n : Node) (peer : String) (s : Server) :
    s.eventFloor (n.request peer) ≤ n.store.watermark peer kindEvent := by
  unfold Server.eventFloor
  split
  · exact Subtype.property _
  · exact le_rfl

/-- One round catches up. -/
theorem caughtUp_of_roundOnce (h : n.roundOnce E peer s = some (n', .ok)) :
    CaughtUp n' peer s := by
  refine ⟨fun x hx hk => ?_, fun e he => ?_⟩
  · obtain ⟨-, hub⟩ := watermark_of_roundOnce h hk
    by_cases hlt : s.floor (n.request peer) x.kind < x.hlc
    · exact hub (.inr ⟨x, (mem_offered hk).mpr ⟨hx, rfl, hlt⟩, rfl⟩)
    · refine (not_lt.mp hlt).trans (le_trans ?_ (hub (.inl rfl)))
      unfold Server.floor
      split
      · exact Subtype.property _
      · exact (requestedWatermark_request n peer hk).le
  · obtain ⟨resp, xs, hpull, hxs, hlog⟩ := logged_of_roundOnce h
    rw [hlog.watermark]
    by_cases hlt : s.eventFloor (n.request peer) < e.hlc
    · obtain ⟨x, hx⟩ := scanEvent_of_pull hpull he hlt
      obtain ⟨y, hy⟩ := exists_relayed hx
      have hmem : y ∈ xs := (mem_relayed hpull hxs).mpr ⟨e, he, hlt, hy⟩
      rw [← (relayed_eq_some hy).2]
      exact (Store.le_latest (List.mem_map_of_mem hmem)).trans (le_max_right _ _)
    · exact ((not_lt.mp hlt).trans (eventFloor_le n peer s)).trans (le_max_left _ _)

/-- A round with nothing of a kind to send leaves the kind's checksum. -/
theorem checksum_of_idle (h : n.roundOnce E peer s = some (n', .ok)) {kind : Kind}
    (hk : kind ∈ kinds)
    (hidle : ∀ x ∈ s.store.rows, x.kind = kind → x.hlc ≤ s.floor (n.request peer) kind) :
    n'.store.checksum kind = n.store.checksum kind := by
  have hnil : n.offered peer s kind = [] := by
    rw [List.eq_nil_iff_forall_not_mem]
    intro x hx
    obtain ⟨hmem, hxk, hlt⟩ := (mem_offered hk).mp hx
    exact not_lt.mpr (hidle x hmem hxk) hlt
  refine Store.checksumRows_congr_get fun key => ?_
  rw [get_of_roundOnce h hk key, hnil]
  cases n.store.rows.get (kind, key) <;> rfl

/-- A further round saturates: what it does not resend, and so the checksum
that decides about a resend, it leaves as it is. -/
theorem saturated_of_roundOnce (hc : CaughtUp n peer s)
    (h : n.roundOnce E peer s = some (n', .ok)) : Saturated E n' peer s := by
  refine { caughtUp_of_roundOnce h with covered := ?_, held := ?_ }
  · intro x hx hk hres' hz
    obtain ⟨resp, hpull, hrec⟩ := received_of_roundOnce h
    have hle : ∀ y ∈ s.store.rows, y.kind = x.kind → y.hlc ≤ n.store.watermark peer x.kind :=
      fun y hy hyk => hyk ▸ hc.rows y hy (hyk ▸ hk)
    by_cases hres : s.Resends (n.request peer) x.kind
    · have hsent : x.delivered ∈ resp.wire.toRows := by
        refine (Server.mem_delivered hpull).mpr ⟨x, hx, hk, ?_, rfl⟩
        rwa [Server.floor, if_pos hres]
      rw [hrec.rows]
      exact (KeyedTable.covers_mergeAll hsent).of_le rfl le_rfl
    · have hsame := checksum_of_idle h hk (by
        rwa [Server.floor, if_neg hres, requestedWatermark_request n peer hk])
      have hsum := ((resends_request hk).mp hres').2
      rw [hsame] at hsum
      exact absurd ((resends_request hk).mpr ⟨hle, hsum⟩) hres
  · intro hres' e he hz
    obtain ⟨resp, xs, hpull, hxs, hlog⟩ := logged_of_roundOnce h
    by_cases hres : s.ResendsEvents (n.request peer)
    · have hlt : s.eventFloor (n.request peer) < e.hlc := by rwa [Server.eventFloor, if_pos hres]
      obtain ⟨x, hx⟩ := scanEvent_of_pull hpull he hlt
      obtain ⟨y, hy⟩ := exists_relayed hx
      obtain ⟨e', he', hid⟩ := hlog.held y ((mem_relayed hpull hxs).mpr ⟨e, he, hlt, hy⟩)
      exact ⟨⟨x, hx⟩, e', he', hid.trans (relayed_eq_some hy).1⟩
    · have hnil : xs = [] := by
        rw [List.eq_nil_iff_forall_not_mem]
        intro y hy
        obtain ⟨e', he', hlt, -⟩ := (mem_relayed hpull hxs).mp hy
        rw [Server.eventFloor, if_neg hres] at hlt
        exact not_lt.mpr (hc.events e' he') hlt
      have hsame : n'.store.checksumEvents = n.store.checksumEvents := by
        rw [Store.checksumEvents, hlog.idle hnil]
        rfl
      have hsum : n'.store.checksumEvents ≠ 0 ∧
          n'.store.checksumEvents ≠ s.store.checksumEvents := hres'.2
      rw [hsame] at hsum
      exact absurd ⟨hc.events, hsum⟩ hres

/-- On a saturated store the rows part of a round changes nothing. -/
theorem applyRows_of_saturated (hs : Saturated E n peer s) {resp : PullResponse}
    (hpull : s.pull E (n.request peer) = some resp) :
    ∃ n₁, n.applyRows peer resp.wire = .ok n₁ ∧ n₁.store = n.store := by
  have hself : n.store.applyRemote peer resp.wire.toRows = .ok n.store := by
    have hall : ∀ r ∈ resp.wire.toRows, n.store.rows.Covers r ∧ HLC.zero < r.hlc ∧
        r.hlc ≤ n.store.watermark peer r.kind := by
      intro r hr
      obtain ⟨x, hx, hk, hlt, rfl⟩ := (Server.mem_delivered hpull).mp hr
      have hle := hs.rows x hx hk
      by_cases hres : s.Resends (n.request peer) x.kind
      · rw [Server.floor, if_pos hres] at hlt
        exact ⟨(hs.covered x hx hk hres hlt).of_le rfl le_rfl, hlt, hle⟩
      · rw [Server.floor, if_neg hres, requestedWatermark_request n peer hk] at hlt
        exact absurd hle (not_le.mpr hlt)
    exact Store.applyRemote_eq_self (fun r hr => (hall r hr).1) (fun r hr => (hall r hr).2.1)
      fun r hr => (hall r hr).2.2
  unfold applyRows
  split
  · exact ⟨n, rfl, rfl⟩
  · simp only [hself]
    exact ⟨_, rfl, rfl⟩

/-- Nor does the events part. -/
theorem applyEvents_of_saturated (hs : Saturated E n peer s) {resp : PullResponse}
    (hpull : s.pull E (n.request peer) = some resp) {n₁ : Node} (hst : n₁.store = n.store) :
    ∃ n₂, n₁.applyEvents E peer (n.store.watermark peer kindEvent) resp.wire = some n₂ ∧
      n₂.store = n.store := by
  obtain ⟨xs, hxs⟩ := exists_incoming hpull
  have hall : ∀ y ∈ xs, (∃ e ∈ n.store.events, e.id = (Store.eventRow E y).id) ∧
      y.hlc ≤ n.store.watermark peer kindEvent := by
    intro y hy
    obtain ⟨e, he, hlt, hrel⟩ := (mem_relayed hpull hxs).mp hy
    obtain ⟨hid, hhlc⟩ := relayed_eq_some hrel
    have hle := hs.events e he
    by_cases hres : s.ResendsEvents (n.request peer)
    · rw [Server.eventFloor, if_pos hres] at hlt
      obtain ⟨-, e', he', hid'⟩ := hs.held hres e he hlt
      exact ⟨⟨e', he', hid'.trans hid.symm⟩, hhlc ▸ hle⟩
    · rw [Server.eventFloor, if_neg hres] at hlt
      exact absurd hle (not_le.mpr hlt)
  have hself : (n₁.store.applyEvents E xs).setWatermark peer kindEvent
      (Store.latest (n.store.watermark peer kindEvent) (xs.map Event.hlc)) = n.store := by
    rw [hst, Store.applyEvents_eq_self fun y hy => (hall y hy).1]
    refine Store.setWatermark_eq_self (Store.latest_le_iff.mpr ⟨le_rfl, ?_⟩)
    exact List.forall_mem_map.mpr fun y hy => (hall y hy).2
  unfold applyEvents
  split
  · exact ⟨n₁, rfl, hst⟩
  · rw [hxs]
    exact ⟨_, rfl, hself⟩

/-- On a saturated store a round succeeds and changes nothing. -/
theorem roundOnce_of_saturated (hs : Saturated E n peer s) :
    ∃ n', n.roundOnce E peer s = some (n', .ok) ∧ n'.store = n.store := by
  obtain ⟨evs, hevs⟩ : ∃ evs, s.pullEvents E (n.request peer) = some evs := by
    rw [Server.pullEvents_eq, Store.eventsSince_total]
    intro e he hlt
    by_cases hres : s.ResendsEvents (n.request peer)
    · rw [Server.eventFloor, if_pos hres] at hlt
      exact (hs.held hres e he hlt).1
    · rw [Server.eventFloor, if_neg hres] at hlt
      exact absurd (hs.events e he) (not_le.mpr hlt)
  obtain ⟨resp, hpull⟩ : ∃ resp, s.pull E (n.request peer) = some resp :=
    ⟨_, Option.map_eq_some_iff.mpr ⟨evs, hevs, rfl⟩⟩
  obtain ⟨n₁, hrows, hst₁⟩ := applyRows_of_saturated hs hpull
  obtain ⟨n₂, hevents, hst₂⟩ := applyEvents_of_saturated hs hpull hst₁
  refine ⟨n₂, ?_, hst₂⟩
  rw [roundOnce, hpull, Option.map_some, finishRound_eq_ok.mpr ⟨n₁, hrows, hevents⟩]

/-- What decides about a round is the store. -/
theorem Saturated.of_store_eq (hs : Saturated E n peer s) (hst : n'.store = n.store) :
    Saturated E n' peer s := by
  have hreq : n'.request peer = n.request peer := by rw [request, request, hst]
  refine ⟨⟨?_, ?_⟩, ?_, ?_⟩
  · rw [hst]
    exact hs.rows
  · rw [hst]
    exact hs.events
  · rw [hst, hreq]
    exact hs.covered
  · rw [hst, hreq]
    exact hs.held

/-- Successful rounds in a row. -/
def rounds (E : Env) (peer : String) (s : Server) : Nat → Node → Option Node
  | 0, n => some n
  | k + 1, n =>
      match n.roundOnce E peer s with
      | some (n', .ok) => rounds E peer s k n'
      | _ => none

theorem rounds_succ {k : Nat} : rounds E peer s (k + 1) n = some n' ↔
    ∃ n₁, n.roundOnce E peer s = some (n₁, .ok) ∧ rounds E peer s k n₁ = some n' := by
  rw [rounds]
  split
  · next n₁ h => simp [h]
  · next hne =>
    constructor
    · intro h
      cases h
    · rintro ⟨n₁, h₁, -⟩
      exact absurd h₁ (hne n₁)

theorem rounds_of_saturated (hs : Saturated E n peer s) (k : Nat) :
    ∃ n', rounds E peer s k n = some n' ∧ n'.store = n.store := by
  induction k generalizing n with
  | zero => exact ⟨n, rfl, rfl⟩
  | succ k ih =>
    obtain ⟨n₁, hround, hst⟩ := roundOnce_of_saturated hs
    obtain ⟨n', hn', hst'⟩ := ih (hs.of_store_eq hst)
    exact ⟨n', rounds_succ.mpr ⟨n₁, hround, hn'⟩, hst'.trans hst⟩

/-- **Two rounds reach a fixpoint.** Against an unchanging peer every round
after the first two succeeds and leaves rows, events and watermarks exactly as
they are, whatever the checksums say. -/
theorem two_rounds_settle (E : Env) (n n₂ : Node) (peer : String) (s : Server)
    (h : rounds E peer s 2 n = some n₂) (k : Nat) :
    ∃ n', rounds E peer s (k + 2) n = some n' ∧ n'.store = n₂.store := by
  obtain ⟨n₁, h₁, h⟩ := rounds_succ.mp h
  obtain ⟨n₂', h₂, h⟩ := rounds_succ.mp h
  obtain rfl : n₂' = n₂ := Option.some.inj h
  have hs := saturated_of_roundOnce (caughtUp_of_roundOnce h₁) h₂
  obtain ⟨n', hn', hst⟩ := rounds_of_saturated hs k
  exact ⟨n', rounds_succ.mpr ⟨n₁, h₁, rounds_succ.mpr ⟨n₂', h₂, hn'⟩⟩, hst⟩

/-- A puller that is ahead of its peer: the checksums differ for good, every
round resends, nothing changes. -/
theorem ahead_of_peer_settles : ∃ n₂,
    rounds .escapeFree "10.0.0.2:8947" (informant ⟨20, 0⟩) 2 (informed ⟨30, 0⟩) = some n₂ ∧
      n₂.store.checksum kindRunner ≠ (Store.sampleStore ⟨20, 0⟩).checksum kindRunner ∧
      ∀ k, ∃ n', rounds .escapeFree "10.0.0.2:8947" (informant ⟨20, 0⟩) (k + 2)
        (informed ⟨30, 0⟩) = some n' ∧ n'.store = n₂.store := by
  have hrun : (rounds .escapeFree "10.0.0.2:8947" (informant ⟨20, 0⟩) 2 (informed ⟨30, 0⟩)).map
      (fun n => decide (n.store.checksum kindRunner ≠
        (Store.sampleStore ⟨20, 0⟩).checksum kindRunner)) = some true := by decide +kernel
  obtain ⟨n₂, h₂, hsum⟩ := Option.map_eq_some_iff.mp hrun
  exact ⟨n₂, h₂, of_decide_eq_true hsum, two_rounds_settle _ _ _ _ _ h₂⟩

end Node

end Takl
