import Takl.Cluster.Model
import Takl.Interleaving.Writer

/-!
# Concurrent writers under a peer's watermark

A node whose writers take turns, and one peer that pulls from it. The peer's
watermark for a kind is the greatest HLC it was sent, and it is sent what
lies above. So a row must not become visible below it: HLCs are handed out
in one order, rows are stored in another, and a pull in between sees the
later row without the earlier one.
-/

namespace Takl

open Runs

/-- The node that is pulled from, the peer, and the exchange in flight. -/
structure Feed where
  crew : Crew
  puller : Node
  exchange : Exchange

/-- A call of a writer, or a step of the peer's `RoundOnce`. -/
inductive FeedAction where
  | write (a : CrewAction)
  | request
  | serve
  | apply
  | lose

/-- The write may store a row of that kind. -/
def Write.InKind : Write → Kind → Prop
  | row kind .., k => k = kind
  | prune .., _ => True

instance (p : Write) (k : Kind) : Decidable (p.InKind k) :=
  match p with
  | .row kind .. => inferInstanceAs (Decidable (k = kind))
  | .prune .. => isTrue trivial

/-- A stored row has the timestamp and the kind of the write. -/
theorem Writer.write_of_stores {n : Node} {w : Writer} {r : Row} (h : r ∈ w.stores n) :
    ∃ p ∈ w.write, p.hlc = r.hlc ∧ p.InKind r.kind := by
  cases w with
  | put x | putThenEmit x =>
    cases List.mem_singleton.mp h
    exact ⟨_, rfl, rfl, rfl⟩
  | deleteUpsert =>
    cases List.mem_singleton.mp h
    exact ⟨_, rfl, rfl, rfl⟩
  | prune ev hlc =>
    obtain ⟨x, -, rfl⟩ := List.mem_map.mp h
    exact ⟨_, rfl, rfl, trivial⟩
  | start | step | putLabels | mergeLabels | stampLabels | deleteLabels | member | deleteGet
  | emit => cases h

namespace Feed

/-- The rows table of the node that is pulled from. -/
abbrev rows (s : Feed) : RowTable := s.crew.node.store.rows

/-- The peer's watermark for the node and a kind. -/
def mark (s : Feed) (kind : Kind) : HLC := s.puller.store.watermark s.crew.node.syncAddr kind

theorem zero_le_mark (s : Feed) (kind : Kind) : HLC.zero ≤ s.mark kind :=
  (s.puller.store.watermark s.crew.node.syncAddr kind).property

/-- One step. -/
def step (E : Env) (s : Feed) : FeedAction → Option Feed
  | .write a => (s.crew.step E a).map fun crew => { s with crew }
  | .request =>
      match s.exchange with
      | .idle => some { s with exchange := .requested (s.puller.request s.crew.node.syncAddr) }
      | _ => none
  | .serve =>
      match s.exchange with
      | .requested req =>
          match s.crew.node.server.pull E req with
          | some resp => some { s with exchange := .responded req resp.wire }
          | none => some { s with exchange := .idle }
      | _ => none
  | .apply =>
      match s.exchange with
      | .responded req resp =>
          some { s with
            puller := (s.puller.finishRound E s.crew.node.syncAddr
              (req.eventWatermark.getD HLC.zero) resp).1
            exchange := .idle }
      | _ => none
  | .lose => some { s with exchange := .idle }

/-- **The condition.** No counter wraps; and when the peer is served, every
write whose timestamp is taken is after all stored rows of its kind. -/
def InOrder (s : Feed) : FeedAction → Prop
  | .write (.call k now) => ∀ w ∈ s.crew.active[k]?, w.Ticks → s.crew.node.clock.NoWrap now
  | .serve => ∀ w ∈ s.crew.active, ∀ p ∈ w.write, ∀ r ∈ s.rows, p.InKind r.kind → r.hlc < p.hlc
  | .write (.spawn _) | .request | .apply | .lose => True

instance (s : Feed) : DecidablePred s.InOrder
  | .write (.call k now) => inferInstanceAs (Decidable (∀ w ∈ s.crew.active[k]?, w.Ticks →
      s.crew.node.clock.NoWrap now))
  | .serve => inferInstanceAs (Decidable (∀ w ∈ s.crew.active, ∀ p ∈ w.write,
      ∀ r ∈ s.rows, p.InKind r.kind → r.hlc < p.hlc))
  | .write (.spawn _) | .request | .apply | .lose => isTrue trivial

/-- Nothing is under way, and the clock accounts for the stored rows and for
what the peer has been sent. -/
structure AtRest (s : Feed) : Prop where
  active : s.crew.active = []
  exchange : s.exchange = .idle
  rows_le : ∀ r ∈ s.rows, r.hlc ≤ s.crew.node.clock.reading
  mark_le : ∀ kind ∈ kinds, s.mark kind ≤ s.crew.node.clock.reading

/-- The batch in flight brings the row, or one that beats it. -/
def Carries (s : Feed) (r : Row) : Prop :=
  ∃ x ∈ s.exchange.rows, x.id = r.id ∧ r.version ≤ x.version

/-- **The invariant.** Of the rows not in `base`, those at the start. -/
structure Fed (base : RowTable) (s : Feed) : Prop where
  rows_le : ∀ r ∈ s.rows, r.hlc ≤ s.crew.node.clock.reading
  mark_le : ∀ kind ∈ kinds, s.mark kind ≤ s.crew.node.clock.reading
  flight_le : ∀ x ∈ s.exchange.rows, x.hlc ≤ s.crew.node.clock.reading
  /-- A pending write is after everything the peer has, or is about to have. -/
  write_le : ∀ w ∈ s.crew.active, ∀ p ∈ w.write, p.hlc ≤ s.crew.node.clock.reading
  write_mark : ∀ w ∈ s.crew.active, ∀ p ∈ w.write, ∀ kind ∈ kinds, p.InKind kind →
    s.mark kind < p.hlc
  write_flight : ∀ w ∈ s.crew.active, ∀ p ∈ w.write, ∀ x ∈ s.exchange.rows, p.InKind x.kind →
    x.hlc < p.hlc
  requested : ∀ req, s.exchange = .requested req → ∀ kind ∈ kinds,
    Server.requestedWatermark req kind = s.mark kind
  own : ∀ r ∈ s.rows, r ∉ base → r.kind ∈ kinds →
    s.mark r.kind < r.hlc ∨ s.puller.store.rows.Covers r
  /-- Merging the batch in flight will not pass a row over. -/
  flight : ∀ r ∈ s.rows, r ∉ base → r.kind ∈ kinds →
    (∀ x ∈ s.exchange.rows, x.kind = r.kind → x.hlc < r.hlc) ∨ s.Carries r ∨
      s.puller.store.rows.Covers r

theorem AtRest.fed {s : Feed} (h : s.AtRest) : Fed s.rows s where
  rows_le := h.rows_le
  mark_le := h.mark_le
  flight_le := by simp [h.exchange, Exchange.rows]
  write_le := by simp [h.active]
  write_mark := by simp [h.active]
  write_flight := by simp [h.active]
  requested := by simp [h.exchange]
  own := fun _ hr hn => absurd hr hn
  flight := fun _ hr hn => absurd hr hn

/-! ## The steps -/

section Steps
variable {E : Env} {base : RowTable} {s t : Feed}

/-- A lost or finished exchange. -/
theorem Fed.drop (h : Fed base s) : Fed base { s with exchange := .idle } where
  rows_le := h.rows_le
  mark_le := h.mark_le
  flight_le := nofun
  write_le := h.write_le
  write_mark := h.write_mark
  write_flight := fun _ _ _ _ _ hx => nomatch hx
  requested := nofun
  own := h.own
  flight := fun _ _ _ _ => .inl nofun

/-- A new writer changes nothing yet. -/
theorem Fed.spawn (h : Fed base s) {w : Writer} (hw : w.write = none) :
    Fed base { s with crew := { s.crew with active := w :: s.crew.active } } := by
  have hold : ∀ w₁ ∈ w :: s.crew.active, ∀ p ∈ w₁.write, w₁ ∈ s.crew.active := by
    intro w₁ hw₁ p hp
    rcases List.mem_cons.mp hw₁ with rfl | hw₁
    · exact absurd (hp.symm.trans hw) nofun
    · exact hw₁
  exact { h with
    write_le := fun w₁ hw₁ p hp => h.write_le w₁ (hold w₁ hw₁ p hp) p hp
    write_mark := fun w₁ hw₁ p hp => h.write_mark w₁ (hold w₁ hw₁ p hp) p hp
    write_flight := fun w₁ hw₁ p hp => h.write_flight w₁ (hold w₁ hw₁ p hp) p hp }

/-- A call of a writer. -/
theorem Fed.call (h : Fed base s) {k : Nat} {now : Int64} {w : Writer} {n : Node}
    {w' : Option Writer} (hw : s.crew.active[k]? = some w)
    (hwrap : w.Ticks → s.crew.node.clock.NoWrap now)
    (hcall : Writer.Called s.crew.node now w n w') (hid : Node.SameIdentity s.crew.node n) :
    Fed base { s with crew := ⟨n, w'.toList ++ s.crew.active.eraseIdx k⟩ } := by
  have hwmem := List.mem_of_getElem? hw
  have hclock := hcall.reading_le hwrap
  have hmark : ∀ kind, mark { s with crew := ⟨n, w'.toList ++ s.crew.active.eraseIdx k⟩ } kind =
      s.mark kind := by
    intro kind
    simp only [mark, hid.syncAddr]
  -- a stored row is an old one or has the timestamp of this writer
  have hrow : ∀ r ∈ n.store.rows, r ∈ s.rows ∨ ∃ p ∈ w.write, p.hlc = r.hlc ∧ p.InKind r.kind :=
    fun r hr => (hcall.mem_rows hr).imp_right Writer.write_of_stores
  -- a pending write is an old one or is past all that the clock accounts for
  have hpend : ∀ w₁ ∈ w'.toList ++ s.crew.active.eraseIdx k, ∀ p ∈ w₁.write,
      (∃ w₀ ∈ s.crew.active, p ∈ w₀.write) ∨
        (s.crew.node.clock.reading < p.hlc ∧ p.hlc = n.clock.reading) := by
    intro w₁ hw₁ p hp
    rcases Crew.mem_active_cases hw₁ with hw₁ | hw₁
    · exact (hcall.write_cases hwrap hw₁ hp).imp_left fun hp => ⟨w, hwmem, hp⟩
    · exact .inl ⟨w₁, List.mem_of_mem_eraseIdx hw₁, hp⟩
  constructor
  case rows_le =>
    intro r hr
    rcases hrow r hr with hr | ⟨p, hp, hhlc, -⟩
    · exact (h.rows_le r hr).trans hclock
    · exact hhlc ▸ (h.write_le w hwmem p hp).trans hclock
  case mark_le => exact fun kind hkind => hmark kind ▸ (h.mark_le kind hkind).trans hclock
  case flight_le => exact fun x hx => (h.flight_le x hx).trans hclock
  case write_le =>
    intro w₁ hw₁ p hp
    rcases hpend w₁ hw₁ p hp with ⟨w₀, hw₀, hp⟩ | ⟨-, heq⟩
    · exact (h.write_le w₀ hw₀ p hp).trans hclock
    · exact heq.le
  case write_mark =>
    intro w₁ hw₁ p hp kind hkind hin
    rw [hmark]
    rcases hpend w₁ hw₁ p hp with ⟨w₀, hw₀, hp⟩ | ⟨hlt, -⟩
    · exact h.write_mark w₀ hw₀ p hp kind hkind hin
    · exact (h.mark_le kind hkind).trans_lt hlt
  case write_flight =>
    intro w₁ hw₁ p hp x hx hin
    rcases hpend w₁ hw₁ p hp with ⟨w₀, hw₀, hp⟩ | ⟨hlt, -⟩
    · exact h.write_flight w₀ hw₀ p hp x hx hin
    · exact (h.flight_le x hx).trans_lt hlt
  case requested => exact fun req hreq kind hkind => hmark kind ▸ h.requested req hreq kind hkind
  case own =>
    intro r hr hn hkind
    rw [hmark]
    rcases hrow r hr with hr | ⟨p, hp, hhlc, hin⟩
    · exact h.own r hr hn hkind
    · exact .inl (hhlc ▸ h.write_mark w hwmem p hp r.kind hkind hin)
  case flight =>
    intro r hr hn hkind
    rcases hrow r hr with hr | ⟨p, hp, hhlc, hin⟩
    · exact h.flight r hr hn hkind
    · exact .inl fun x hx hxk => hhlc ▸ h.write_flight w hwmem p hp x hx (hxk ▸ hin)

/-- The peer builds its request. -/
theorem Fed.request (h : Fed base s) :
    Fed base { s with exchange := .requested (s.puller.request s.crew.node.syncAddr) } :=
  { h with
    flight_le := nofun
    write_flight := fun _ _ _ _ _ hx => nomatch hx
    requested := by
      rintro req hreq kind hkind
      cases hreq
      exact Node.requestedWatermark_request _ _ hkind
    flight := fun _ _ _ _ => .inl nofun }

/-- The node is asked when no pending write is behind a stored row. -/
theorem Fed.serve (h : Fed base s) {req : PullRequest} {resp : PullResponse}
    (hreq : s.exchange = .requested req) (hok : s.InOrder .serve)
    (hresp : s.crew.node.server.pull E req = some resp) :
    Fed base { s with exchange := .responded req resp.wire } := by
  have hsent : ∀ x ∈ resp.wire.toRows, ∃ y ∈ s.rows, x.hlc = y.hlc ∧ x.kind = y.kind := by
    intro x hx
    obtain ⟨y, hy, -, -, rfl⟩ := (Server.mem_delivered hresp).mp hx
    exact ⟨y, hy, rfl, rfl⟩
  refine { h with flight_le := ?_, write_flight := ?_, requested := nofun, flight := ?_ }
  · intro x hx
    obtain ⟨y, hy, hhlc, -⟩ := hsent x hx
    exact hhlc ▸ h.rows_le y hy
  · intro w hw p hp x hx hin
    obtain ⟨y, hy, hhlc, hkind⟩ := hsent x hx
    exact hhlc ▸ hok w hw p hp y hy (hkind ▸ hin)
  · intro r hr hn hkind
    right
    refine (h.own r hr hn hkind).imp_left fun hlt => ?_
    have hwm := h.requested req hreq r.kind hkind
    exact ⟨r.delivered, Server.delivered_mem hresp hr hkind (hwm ▸ s.zero_le_mark r.kind)
      (hwm ▸ hlt), rfl, le_rfl⟩

/-- The peer applies the response. -/
theorem Fed.apply (h : Fed base s) {req : PullRequest} {resp : PullResponse}
    (hresp : s.exchange = .responded req resp) {a : Node}
    (hrec : s.puller.Received s.crew.node.syncAddr resp a) :
    Fed base { s with puller := a, exchange := .idle } := by
  have hflight : s.exchange.rows = resp.toRows := by rw [hresp]; rfl
  have hmark : ∀ kind ∈ kinds, mark { s with puller := a, exchange := .idle } kind =
      max (s.mark kind) (Store.top kind resp.toRows) := by
    intro kind hkind
    exact (hrec.watermark _ _ (ne_kindEvent hkind)).trans (if_pos rfl)
  refine { h.drop with
    mark_le := ?_, write_mark := ?_, requested := nofun, own := ?_, flight := ?_ }
  · intro kind hkind
    rw [hmark kind hkind]
    refine max_le (h.mark_le kind hkind) ?_
    rcases Store.top_mem kind resp.toRows with htop | ⟨x, hx, -, htop⟩
    · exact htop ▸ (s.zero_le_mark kind).trans (h.mark_le kind hkind)
    · exact htop ▸ h.flight_le x (hflight ▸ hx)
  · intro w hw p hp kind hkind hin
    rw [hmark kind hkind]
    exact Store.max_top_lt (h.write_mark w hw p hp kind hkind hin) (s.zero_le_mark kind)
      fun x hx hk => h.write_flight w hw p hp x (hflight ▸ hx) (hk ▸ hin)
  · intro r hr hn hkind
    rw [hmark r.kind hkind]
    have hadv : s.puller.store.rows.Advances a.store.rows :=
      hrec.rows ▸ KeyedTable.advances_mergeAll _ _
    rcases h.flight r hr hn hkind with hbelow | ⟨x, hx, hxid, hle⟩ | hcov
    · refine (h.own r hr hn hkind).imp (fun hlt => ?_) fun hcov => hcov.advance hadv
      exact Store.max_top_lt hlt (s.zero_le_mark r.kind) fun x hx hk => hbelow x (hflight ▸ hx) hk
    · have hcov : RowTable.Covers a.store.rows x :=
        hrec.rows ▸ KeyedTable.covers_mergeAll (hflight ▸ hx)
      exact .inr (hcov.of_le hxid.symm hle)
    · exact .inr (hcov.advance hadv)
  · exact fun _ _ _ _ => .inl nofun

/-- **No step leaves a write behind the peer's watermark**, if the peer finds
the writers in order. -/
theorem Fed.step {a : FeedAction} (h : Fed base s) (hok : s.InOrder a)
    (hst : step E s a = some t) : Fed base t := by
  cases a with
  | write a =>
    obtain ⟨crew, hcrew, rfl⟩ := Option.map_eq_some_iff.mp hst
    rcases Crew.step_cases hcrew with ⟨op, w, rfl, hw, rfl⟩ |
      ⟨k, now, w, n, w', rfl, hw, hcall, hid, rfl⟩
    · exact h.spawn (Writer.write_ofOp hw)
    · exact h.call hw (hok w hw) hcall hid
  | request =>
    simp only [Feed.step] at hst
    split at hst
    · cases hst
      exact h.request
    · cases hst
  | serve =>
    simp only [Feed.step] at hst
    split at hst
    · next req hreq =>
      split at hst
      · next resp hresp =>
        cases hst
        exact h.serve hreq hok hresp
      · cases hst
        exact h.drop
    · cases hst
  | apply =>
    simp only [Feed.step] at hst
    split at hst
    · next req resp hresp =>
      cases hst
      rcases Node.finishRound_cases (Prod.eta _).symm with ⟨he, -⟩ | hrec
      · rw [he]
        exact h.drop
      · exact h.apply hresp hrec
    · cases hst
  | lose =>
    cases hst
    exact h.drop

/-- **No write falls behind the peer's watermark** in such a run. -/
theorem Fed.run {as : List FeedAction} (h : Fed base s)
    (hr : Run (Feed.step E) InOrder s as t) : Fed base t :=
  hr.invariant (I := Fed base) (fun _ _ _ h hok hst => h.step hok hst) h

end Steps

/-- **No own write is skipped** in a run whose pulls find the writers in
order: a row the node has written since the start is after the peer's
watermark, or the peer holds a version at least as great. -/
theorem own_write_never_skipped (E : Env) {s t : Feed} {as : List FeedAction} (hs : s.AtRest)
    (hrun : Run (step E) InOrder s as t) {r : Row} (hr : r ∈ t.rows) (hnew : r ∉ s.rows)
    (hkind : r.kind ∈ kinds) :
    r.hlc.after (t.puller.store.watermark t.crew.node.syncAddr r.kind) = true ∨
      ∃ c, t.puller.store.rows.get (r.kind, r.key) = some c ∧ newer r c = false := by
  refine ((hs.fed.run hrun).own r hr hnew hkind).imp HLC.after_iff.mpr ?_
  rintro ⟨c, hc, hid, hle⟩
  exact ⟨c, KeyedTable.get_eq_some.mpr ⟨hc, hid⟩, newer_eq_false.mpr hle⟩

/-- A node that has heard of the runners `n1` and `n2`, and a peer that has
not pulled from it yet. -/
def twoRunners : Feed where
  crew := ⟨((Node.fresh (Demo.nodeID 0) Demo.epoch "10.0.0.0:7001").finishRound .escapeFree
    "10.0.0.1:7001" HLC.zero
    { nodeId := Demo.nodeID 1, checksums := [], events := [], eventChecksum := 0
      rows := [⟨"runner", "n1", "n1/1", some ⟨5, 0⟩, false, some [1]⟩,
        ⟨"runner", "n2", "n2/1", some ⟨6, 0⟩, false, some [1]⟩] }).1, []⟩
  puller := .fresh (Demo.nodeID 3) Demo.epoch "10.0.0.3:7001"
  exchange := .idle

/-- Labels are put for both: `n1`'s get the timestamp 20, then `n2`'s get 30
and are stored. -/
def overtaken : List FeedAction :=
  [.write (.spawn (.putLabels 0 "n1" (some (some (Demo.labels "zone" "a"))))),
    .write (.call 0 0), .write (.call 0 0), .write (.call 0 20),
    .write (.spawn (.putLabels 0 "n2" (some (some (Demo.labels "zone" "b"))))),
    .write (.call 0 0), .write (.call 0 0), .write (.call 0 30), .write (.call 0 0)]

/-- The peer's round. -/
def pulled : List FeedAction := [.request, .serve, .apply]

theorem twoRunners_atRest : twoRunners.AtRest where
  active := rfl
  exchange := rfl
  rows_le := by decide +kernel
  mark_le := by decide +kernel

/-- When the peer pulls after both are stored, it gets both. -/
theorem labels_pulled_together : ∃ t r,
    Run (step .escapeFree) InOrder twoRunners (overtaken ++ .write (.call 0 0) :: pulled) t ∧
    (r ∈ t.rows ∧ r ∉ twoRunners.rows ∧ r.kind = kindMeta ∧ r.key = "n1") ∧
    (r.hlc.after (t.puller.store.watermark t.crew.node.syncAddr r.kind) = true ∨
      ∃ c, t.puller.store.rows.get (r.kind, r.key) = some c ∧ newer r c = false) := by
  obtain ⟨t, ht, r, hr, hnew, hkind, hkey⟩ : ∃ t,
      Run (step .escapeFree) InOrder twoRunners (overtaken ++ .write (.call 0 0) :: pulled) t ∧
        ∃ r ∈ t.rows, r ∉ twoRunners.rows ∧ r.kind = kindMeta ∧ r.key = "n1" :=
    exists_run (by decide +kernel)
  refine ⟨t, r, ht, ⟨hr, hnew, hkind, hkey⟩, ?_⟩
  exact own_write_never_skipped .escapeFree twoRunners_atRest ht hr hnew (hkind ▸ by decide)

/-- When it pulls in between, its watermark passes the labels of `n1` before
they are stored, and it will not be sent them. -/
theorem labels_skipped : ∃ t r,
    Run (step .escapeFree) (fun _ _ => True) twoRunners
      (overtaken ++ pulled ++ [.write (.call 0 0)]) t ∧
    (r ∈ t.rows ∧ r ∉ twoRunners.rows ∧ r.kind = kindMeta ∧ r.key = "n1") ∧
    r.hlc.after (t.puller.store.watermark t.crew.node.syncAddr r.kind) = false ∧
    t.puller.store.rows.get (r.kind, r.key) = none := by
  obtain ⟨t, ht, r, hr, hnew, hskip⟩ : ∃ t,
      Run (step .escapeFree) (fun _ _ => True) twoRunners
          (overtaken ++ pulled ++ [.write (.call 0 0)]) t ∧
        ∃ r ∈ t.rows, (r ∉ twoRunners.rows ∧ r.kind = kindMeta ∧ r.key = "n1") ∧
          r.hlc.after (t.puller.store.watermark t.crew.node.syncAddr r.kind) = false ∧
          t.puller.store.rows.get (r.kind, r.key) = none :=
    exists_run (by decide +kernel)
  exact ⟨t, r, ht, ⟨hr, hnew⟩, hskip⟩

end Feed

end Takl
