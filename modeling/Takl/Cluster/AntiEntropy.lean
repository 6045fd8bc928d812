import Takl.Cluster.Convergence
import Takl.Store.Checksum

/-!
# Rows below the watermark

A node can hold rows it merely relays, with an HLC below the watermark a
puller has on it. `ChangesSince` will never send those; only the full resend
does, and `Server.Pull` resends a kind only when it has nothing above the
watermark and the puller's checksum is non-zero and not its own.

This module says row by row what that guard is worth. `round_covers_iff` is
one round; from it come the exact condition under which two rounds in a row
repair a relayed row, and the one under which ordinary agent traffic does
not starve it.
-/

namespace Takl

namespace Cluster

open Runs

variable {ι : Type} {E : Env} {s t u : Cluster ι} {i j : ι}

/-! ## One round, with nothing in between -/

/-- What a completed round leaves: the puller has received the peer's answer
to its request, and nothing else has changed. -/
structure Pulled (E : Env) (s : Cluster ι) (i j : ι) (t : Cluster ι) : Prop where
  ne : i ≠ j
  others : ∀ k, k ≠ i → t.node k = s.node k
  received : ∃ resp,
    (s.node j).server.pull E ((s.node i).request (s.node j).syncAddr) = some resp ∧
      (s.node i).Received (s.node j).syncAddr resp.wire (t.node i)

theorem pulled_of_round [DecidableEq ι] {ok : Cluster ι → Action ι → Prop}
    (h : Run (step E) ok s (Action.round i j) t) : Pulled E s i j t := by
  cases h with
  | cons _ hreq h =>
  cases h with
  | cons _ hserve h =>
  cases h with
  | cons _ happ h =>
  cases h
  obtain ⟨hne, -, rfl⟩ := step_request hreq
  obtain ⟨req, hx, ⟨resp, hpull, rfl⟩ | rfl⟩ := step_serve hserve
  · simp only [setExchange_exchange, and_self, if_true, Exchange.requested.injEq] at hx
    subst hx
    obtain ⟨req', resp', n, hx', hfin, rfl⟩ := step_apply happ
    simp only [setExchange_exchange, and_self, if_true, Exchange.responded.injEq] at hx'
    obtain ⟨rfl, rfl⟩ := hx'
    refine ⟨hne, fun k hk => by simp [setNode_node_of_ne, hk], resp, hpull, ?_⟩
    rcases Node.finishRound_cases hfin with ⟨-, e, he, -⟩ | hrec
    · cases he
    · simpa using hrec
  · -- a refused pull leaves nothing to apply
    obtain ⟨req', resp', n, hx', -⟩ := step_apply happ
    simp [setExchange_exchange] at hx'

theorem Pulled.advances (h : Pulled E s i j t) :
    (s.node i).store.rows.Advances (t.node i).store.rows := by
  obtain ⟨resp, -, hrec⟩ := h.received
  rw [hrec.rows]
  exact KeyedTable.advances_mergeAll _ _

/-- The watermark of `i` on `j`. -/
def mark (s : Cluster ι) (i j : ι) (kind : Kind) : HLC :=
  (s.node i).store.watermark (s.node j).syncAddr kind

/-- `j` would answer a request of `i` with a full resend of the kind. -/
def Resends (s : Cluster ι) (i j : ι) (kind : Kind) : Prop :=
  (s.node j).server.Resends ((s.node i).request (s.node j).syncAddr) kind

/-- The guard in the puller's terms: nothing above its watermark, and its
checksum non-zero and different. -/
theorem resends_iff {kind : Kind} (hk : kind ∈ kinds) :
    Resends s i j kind ↔
      (∀ x ∈ (s.node j).store.rows, x.kind = kind → x.hlc ≤ mark s i j kind) ∧
        (s.node i).store.checksum kind ≠ 0 ∧
        (s.node i).store.checksum kind ≠ (s.node j).store.checksum kind :=
  Node.resends_request hk

/-- What the rows `j` sends to `i` lie above. -/
def floor (s : Cluster ι) (i j : ι) (kind : Kind) : HLC :=
  (s.node j).server.floor ((s.node i).request (s.node j).syncAddr) kind

theorem floor_lt_iff {kind : Kind} (hk : kind ∈ kinds) (h : HLC) :
    floor s i j kind < h ↔ mark s i j kind < h ∨ (Resends s i j kind ∧ HLC.zero < h) := by
  have hz : HLC.zero ≤ mark s i j kind := Subtype.property _
  unfold floor Server.floor
  split
  · next hr =>
    refine ⟨fun hlt => .inr ⟨hr, hlt⟩, ?_⟩
    rintro (hlt | ⟨-, hlt⟩)
    · exact hz.trans_lt hlt
    · exact hlt
  · next hr =>
    rw [Node.requestedWatermark_request _ _ hk]
    exact ⟨.inl, fun hlt => hlt.resolve_right fun hc => hr hc.1⟩

/-- **One round**: the puller covers a row of the peer afterwards exactly if
it did before or the row was above the floor. -/
theorem round_covers_iff (h : Pulled E s i j t) {r : Row} (hr : r ∈ (s.node j).store.rows)
    (hk : r.kind ∈ kinds) :
    (t.node i).store.rows.Covers r ↔
      (s.node i).store.rows.Covers r ∨ floor s i j r.kind < r.hlc := by
  obtain ⟨resp, hpull, hrec⟩ := h.received
  constructor
  · rintro ⟨y, hy, hid, hv⟩
    by_cases hfloor : floor s i j r.kind < r.hlc
    · exact .inr hfloor
    · -- the peer's only row of this key was not sent
      rcases hrec.mem_rows hy with hold | ⟨hnew, -⟩
      · exact .inl ⟨y, hold, hid, hv⟩
      · obtain ⟨x, hx, -, hlt, rfl⟩ := (Server.mem_delivered hpull).mp hnew
        have hxr : x = r := KeyedTable.eq_of_key_eq hx hr hid
        subst hxr
        exact absurd hlt hfloor
  · rintro (hcov | hlt)
    · exact hcov.advance h.advances
    · exact covers_of_brings hrec
        ⟨r.delivered, (Server.mem_delivered hpull).mpr ⟨r, hr, hk, hlt, rfl⟩, rfl, le_rfl⟩

/-- Watermarks only rise. -/
theorem mark_le (h : Pulled E s i j t) {kind : Kind} (hk : kind ∈ kinds) :
    mark s i j kind ≤ mark t i j kind := by
  obtain ⟨resp, -, hrec⟩ := h.received
  unfold mark
  rw [h.others j (Ne.symm h.ne), hrec.watermark _ _ (ne_kindEvent hk), if_pos rfl]
  exact le_max_left _ _

/-- A completed round leaves nothing of the peer above the watermark. -/
theorem hlc_le_mark (h : Pulled E s i j t) {r : Row} (hr : r ∈ (s.node j).store.rows)
    (hk : r.kind ∈ kinds) : r.hlc ≤ mark t i j r.kind := by
  by_cases hlt : mark s i j r.kind < r.hlc
  · obtain ⟨resp, hpull, hrec⟩ := h.received
    have hne := ne_kindEvent hk
    have hsent : r.delivered ∈ resp.wire.toRows := (Server.mem_delivered hpull).mpr
      ⟨r, hr, hk, (floor_lt_iff hk r.hlc).mpr (.inl hlt), rfl⟩
    unfold mark
    rw [h.others j (Ne.symm h.ne), hrec.watermark _ _ hne, if_pos rfl]
    exact (Store.le_top hsent rfl).trans (le_max_right _ _)
  · exact (not_lt.mp hlt).trans (mark_le h hk)

/-! ## Two rounds while the cluster is quiet -/

/-- The rows of `j` above the watermark of `i`, as they arrive. -/
def ahead (s : Cluster ι) (i j : ι) (kind : Kind) : List Row :=
  ((s.node j).store.rows.rows.filter fun r =>
    decide (r.kind = kind) && decide (mark s i j kind < r.hlc)).map Row.delivered

theorem mem_ahead {kind : Kind} {r : Row} :
    r ∈ ahead s i j kind ↔
      ∃ x ∈ (s.node j).store.rows, x.kind = kind ∧ mark s i j kind < x.hlc ∧ x.delivered = r := by
  simp [ahead, KeyedTable.mem_def, and_assoc]

/-- The checksum `i` sends once it has merged the rows above its watermark
gives it away: it is not zero, and it is not the peer's. -/
def Detects (s : Cluster ι) (i j : ι) (kind : Kind) : Prop :=
  Store.checksumRows ((s.node i).store.rows.mergeAll (ahead s i j kind)) kind ≠ 0 ∧
    Store.checksumRows ((s.node i).store.rows.mergeAll (ahead s i j kind)) kind ≠
      (s.node j).store.checksum kind

/-- Rows of one peer have distinct keys. -/
theorem delivered_unique {x y : Row} (hx : x ∈ (s.node j).store.rows)
    (hy : y ∈ (s.node j).store.rows) (h : y.delivered.id = x.delivered.id) :
    y.delivered = x.delivered := by
  rw [KeyedTable.eq_of_key_eq hy hx h]

/-- A round without resend merges the rows above the watermark. -/
theorem checksum_of_not_resends (h : Pulled E s i j t) {kind : Kind} (hk : kind ∈ kinds)
    (hres : ¬Resends s i j kind) :
    (t.node i).store.checksum kind =
      Store.checksumRows ((s.node i).store.rows.mergeAll (ahead s i j kind)) kind := by
  obtain ⟨resp, hpull, hrec⟩ := h.received
  have hfloor : ∀ x ∈ (s.node j).store.rows, x.kind = kind →
      (floor s i j x.kind < x.hlc ↔ mark s i j kind < x.hlc) := by
    rintro x - rfl
    rw [floor_lt_iff hk]
    exact or_iff_left fun hc => hres hc.1
  have hget : ∀ key, (t.node i).store.rows.get (kind, key) =
      ((s.node i).store.rows.mergeAll (ahead s i j kind)).get (kind, key) := by
    intro key
    rw [hrec.rows]
    by_cases hx : ∃ x ∈ (s.node j).store.rows, x.id = (kind, key) ∧ mark s i j kind < x.hlc
    · obtain ⟨x, hx, hid, hlt⟩ := hx
      have hxk : x.kind = kind := congrArg Prod.fst hid
      have h₁ : x.delivered ∈ resp.wire.toRows := (Server.mem_delivered hpull).mpr
        ⟨x, hx, hxk ▸ hk, (hfloor x hx hxk).mpr hlt, rfl⟩
      have h₂ : x.delivered ∈ ahead s i j kind := mem_ahead.mpr ⟨x, hx, hxk, hlt, rfl⟩
      rw [← hid, ← Row.delivered_id, KeyedTable.get_mergeAll_of_unique _ h₁,
        KeyedTable.get_mergeAll_of_unique _ h₂]
      · intro y hy hyx
        obtain ⟨z, hz, -, -, rfl⟩ := mem_ahead.mp hy
        exact delivered_unique hx hz hyx
      · intro y hy hyx
        obtain ⟨z, hz, -, -, rfl⟩ := (Server.mem_delivered hpull).mp hy
        exact delivered_unique hx hz hyx
    · -- no row of this key was sent, or would have been
      rw [KeyedTable.get_mergeAll_of_ne, KeyedTable.get_mergeAll_of_ne]
      · intro y hy hyk
        obtain ⟨z, hz, -, hlt, rfl⟩ := mem_ahead.mp hy
        exact hx ⟨z, hz, hyk, hlt⟩
      · intro y hy hyk
        obtain ⟨z, hz, -, hlt, rfl⟩ := (Server.mem_delivered hpull).mp hy
        exact hx ⟨z, hz, hyk, (hfloor z hz (congrArg Prod.fst hyk)).mp hlt⟩
  exact Store.checksumRows_congr_get hget

/-- One of two rounds in a row resends the kind exactly if the checksum of
the caught-up table detects the difference. -/
theorem resends_iff_detects (h : Pulled E s i j u) {kind : Kind} (hk : kind ∈ kinds) :
    Resends s i j kind ∨ Resends u i j kind ↔ Detects s i j kind := by
  have hother : u.node j = s.node j := h.others j (Ne.symm h.ne)
  by_cases hres : Resends s i j kind
  · -- nothing above the watermark: the table was caught up already
    refine iff_of_true (.inl hres) ?_
    obtain ⟨hle, hchk⟩ := (resends_iff hk).mp hres
    have hnil : ahead s i j kind = [] := by
      rw [List.eq_nil_iff_forall_not_mem]
      intro r hr
      obtain ⟨x, hx, hxk, hlt, -⟩ := mem_ahead.mp hr
      exact absurd hlt (not_lt.mpr (hle x hx hxk))
    rw [Detects, hnil]
    exact hchk
  · rw [Detects, ← checksum_of_not_resends h hk hres, ← hother, or_iff_right hres,
      resends_iff (s := u) hk]
    refine ⟨And.right, fun hchk => ⟨?_, hchk⟩⟩
    rintro x hx rfl
    exact hlc_le_mark h (hother ▸ hx) hk

theorem two_rounds_cover_iff (h₁ : Pulled E s i j u) (h₂ : Pulled E u i j t) {r : Row}
    (hr : r ∈ (s.node j).store.rows) (hk : r.kind ∈ kinds) :
    (t.node i).store.rows.Covers r ↔
      (s.node i).store.rows.Covers r ∨ mark s i j r.kind < r.hlc ∨
        (HLC.zero < r.hlc ∧ Detects s i j r.kind) := by
  have hr' : r ∈ (u.node j).store.rows := by rwa [h₁.others j (Ne.symm h₁.ne)]
  have hle := mark_le h₁ hk
  rw [← resends_iff_detects h₁ hk, round_covers_iff h₂ hr' hk, round_covers_iff h₁ hr hk,
    floor_lt_iff hk, floor_lt_iff hk]
  constructor
  · rintro ((hcov | hlt | ⟨hres, hz⟩) | hlt | ⟨hres, hz⟩)
    · exact .inl hcov
    · exact .inr (.inl hlt)
    · exact .inr (.inr ⟨hz, .inl hres⟩)
    · exact .inr (.inl (hle.trans_lt hlt))
    · exact .inr (.inr ⟨hz, .inr hres⟩)
  · rintro (hcov | hlt | ⟨hz, hres | hres⟩)
    · exact .inl (.inl hcov)
    · exact .inl (.inr (.inl hlt))
    · exact .inl (.inr (.inr ⟨hres, hz⟩))
    · exact .inr (.inr ⟨hres, hz⟩)

/-- **When two rounds repair a relay.** After two rounds of `i` on `j` with
nothing in between, `i` covers every live row of `j` exactly if, for each
kind in which it misses one at or below its watermark, the checksum of its
caught-up table gives that away. -/
theorem two_rounds_repair_iff [DecidableEq ι] (E : Env) {s t : Cluster ι} {i j : ι}
    (h : Run (step E) (fun _ _ => True) s (Action.round i j ++ Action.round i j) t) :
    (∀ r ∈ (s.node j).store.rows, r.kind ∈ kinds → r.tombstone = false →
        (t.node i).store.rows.Covers r) ↔
      ∀ r ∈ (s.node j).store.rows, r.kind ∈ kinds → r.tombstone = false →
        r.hlc ≤ mark s i j r.kind → ¬(s.node i).store.rows.Covers r →
          HLC.zero < r.hlc ∧ Detects s i j r.kind := by
  obtain ⟨u, h₁, h₂⟩ := h.split
  have hiff := fun {r : Row} => two_rounds_cover_iff (pulled_of_round h₁) (pulled_of_round h₂)
    (r := r)
  constructor
  · intro hcov r hr hk hlive hle hmiss
    rcases (hiff hr hk).mp (hcov r hr hk hlive) with hc | hlt | hd
    · exact absurd hc hmiss
    · exact absurd hlt (not_lt.mpr hle)
    · exact hd
  · intro hcond r hr hk hlive
    rw [hiff hr hk]
    by_cases hmiss : (s.node i).store.rows.Covers r
    · exact .inl hmiss
    · by_cases hlt : mark s i j r.kind < r.hlc
      · exact .inr (.inl hlt)
      · exact .inr (.inr (hcond r hr hk hlive (not_lt.mp hlt) hmiss))

instance (s : Cluster ι) (i j : ι) (kind : Kind) : Decidable (Detects s i j kind) :=
  inferInstanceAs (Decidable (_ ∧ _))

/-- Both tables have the same live keys of the kind, with the same HLCs. -/
def SameLive (t t' : RowTable) (kind : Kind) : Prop :=
  (∀ r ∈ Store.liveRows t kind, ∃ r' ∈ Store.liveRows t' kind, r'.key = r.key ∧ r'.hlc = r.hlc) ∧
    ∀ r' ∈ Store.liveRows t' kind, ∃ r ∈ Store.liveRows t kind, r.key = r'.key ∧ r.hlc = r'.hlc

/-- Equal checksums of `i` and `j` are no accident. -/
def NoCollision (s : Cluster ι) (i j : ι) : Prop :=
  ∀ kind ∈ kinds, (s.node i).store.checksum kind = (s.node j).store.checksum kind →
    SameLive (s.node i).store.rows (s.node j).store.rows kind

instance (t t' : RowTable) (kind : Kind) : Decidable (SameLive t t' kind) :=
  inferInstanceAs (Decidable (_ ∧ _))

instance (s : Cluster ι) (i j : ι) : Decidable (NoCollision s i j) :=
  inferInstanceAs (Decidable (∀ kind ∈ kinds, _ → _))

/-- `n1` labels its runner and unlabels it; `n0` pulls that tombstone and so
has a watermark but no live label row; then `n1` pulls the older label row of
`n2`. -/
def relayLabel {ι : Type} (i j k : ι) : List (Action ι) :=
  [.perform i (.start 80 (Demo.runner 0)), .perform k (.start 5 (Demo.runner 2)),
    .perform k (.putLabels 10 "n2" (some (some (Demo.labels "zone" "a")))),
    .perform j (.start 90 (Demo.runner 1)),
    .perform j (.putLabels 100 "n1" (some (some (Demo.labels "zone" "b")))),
    .perform j (.deleteLabels 101 "n1")] ++ Action.round i j ++ Action.round j k

/-- `n0` pulls from `n1` before `n1` pulls the older runner row of `n2`. -/
def relayRunner {ι : Type} (i j k : ι) : List (Action ι) :=
  [.perform i (.start 80 (Demo.runner 0)), .perform k (.start 5 (Demo.runner 2)),
    .perform j (.start 90 (Demo.runner 1))] ++ Action.round i j ++ Action.round j k

/-- That row is repaired: `n0` has live runner rows, and their checksum
differs. -/
theorem relayed_runner_repaired : ∃ s t : Cluster (Fin 3),
    Run (step .escapeFree) WriteStep (Demo.cluster 3) (relayRunner 0 1 2) s ∧
      Run (step .escapeFree) (fun _ _ => True) s (Action.round 0 1 ++ Action.round 0 1) t ∧
      (∃ r ∈ (s.node 1).store.rows, ¬(s.node 0).store.rows.Covers r) ∧
      ∀ r ∈ (s.node 1).store.rows, r.kind ∈ kinds → r.tombstone = false →
        (t.node 0).store.rows.Covers r := by
  obtain ⟨s, t, hs, ht, hmiss, hcond⟩ : ∃ s t : Cluster (Fin 3),
      Run (step .escapeFree) WriteStep (Demo.cluster 3) (relayRunner 0 1 2) s ∧
        Run (step .escapeFree) (fun _ _ => True) s (Action.round 0 1 ++ Action.round 0 1) t ∧
        (∃ r ∈ (s.node 1).store.rows, ¬(s.node 0).store.rows.Covers r) ∧
        ∀ r ∈ (s.node 1).store.rows, HLC.zero < r.hlc ∧
          (r.kind = kindRunner ∧ Detects s 0 1 kindRunner) :=
    exists_two_runs (by decide +kernel)
  refine ⟨s, t, hs, ht, hmiss,
    (two_rounds_repair_iff .escapeFree ht).mpr fun r hr _ _ _ _ => ?_⟩
  obtain ⟨hz, hk, hdet⟩ := hcond r hr
  exact ⟨hz, hk ▸ hdet⟩

/-- The relayed label row stays missing through both rounds: the checksum of
`n0` is zero because it holds no live label row. -/
theorem relayed_label_not_repaired : ∃ s t : Cluster (Fin 3),
    Run (step .escapeFree) WriteStep (Demo.cluster 3) (relayLabel 0 1 2) s ∧
      Run (step .escapeFree) (fun s _ => NoCollision s 0 1) s
        (Action.round 0 1 ++ Action.round 0 1) t ∧
      ∃ r ∈ (s.node 1).store.rows, r.kind = kindMeta ∧ r.tombstone = false ∧
        ¬(t.node 0).store.rows.Covers r := by
  exact exists_two_runs (by decide +kernel)

/-! ## Rounds under agent traffic -/

/-- Before each round of `i` on `j`, the agent of `j` steps. -/
def traffic (i j : ι) (steps : List (Int64 × Runner)) : List (Action ι) :=
  steps.flatMap fun p => .perform j (.step p.1 p.2) :: Action.round i j

theorem traffic_cons (i j : ι) (p : Int64 × Runner) (steps : List (Int64 × Runner)) :
    traffic i j (p :: steps) =
      (.perform j (.step p.1 p.2) :: Action.round i j) ++ traffic i j steps :=
  List.flatMap_cons

section Traffic
variable [DecidableEq ι] {now : Int64} {snapshot : Runner}

/-- One repetition. The agent's fresh row is above the watermark, so the
guard of the resend is not met and the row that is sent is the floor. -/
structure Repeated (s : Cluster ι) (i j : ι) (snapshot : Runner) (t : Cluster ι) : Prop where
  mark_le : mark s i j kindRunner ≤ mark t i j kindRunner
  advances : (s.node i).store.rows.Advances (t.node i).store.rows
  written : ∀ r ∈ (s.node j).store.rows, r.kind = kindRunner → snapshot.key = r.key →
    (t.node i).store.rows.Covers r
  kept : ∀ r ∈ (s.node j).store.rows, r.kind = kindRunner → snapshot.key ≠ r.key →
    r ∈ (t.node j).store.rows
  covers_iff : ∀ r ∈ (s.node j).store.rows, r.kind = kindRunner → snapshot.key ≠ r.key →
    ((t.node i).store.rows.Covers r ↔
      (s.node i).store.rows.Covers r ∨ mark s i j kindRunner < r.hlc)

theorem repeated_of_run (hs : Stamps s) (hb : Bounds s)
    (h : Run (step E) NoWrap s (.perform j (.step now snapshot) :: Action.round i j) t) :
    Repeated s i j snapshot t := by
  cases h with
  | @cons _ v _ _ _ hok hst h =>
  have hp : Pulled E v i j t := pulled_of_round h
  have hk : kindRunner ∈ kinds := by decide
  -- the step: a row stamped past the clock, hence past the watermark
  have hvj : v.node j = ((s.node j).step E now snapshot).1 := node_of_perform hst
  have hvi : v.node i = s.node i := node_of_perform_ne hst hp.ne
  obtain ⟨st, hn, hrows, -, -⟩ := (s.node j).step_spec E now snapshot
  have hvrows : (v.node j).store.rows =
      (s.node j).store.rows.upsert ((s.node j).stepRow E now snapshot) := by
    rw [hvj, hn, hrows]
  have hmark : mark v i j kindRunner = mark s i j kindRunner := by
    unfold mark
    rw [hvi, (step_identity hst j).syncAddr]
  have hstamp : (s.node j).clock.reading < ((s.node j).stepRow E now snapshot).hlc :=
    Clock.reading_lt_tick hok
  have hnew : (s.node j).stepRow E now snapshot ∈ (v.node j).store.rows := by
    rw [hvrows]
    exact KeyedTable.mem_upsert_self _ _
  have habove : mark v i j kindRunner < ((s.node j).stepRow E now snapshot).hlc := by
    rw [hmark]
    exact (hb.watermark_le i j _ hk).trans_lt hstamp
  have hres : ¬Resends v i j kindRunner := fun hres =>
    not_lt.mpr (((resends_iff hk).mp hres).1 _ hnew rfl) habove
  have hkept : ∀ r ∈ (s.node j).store.rows, r.kind = kindRunner → snapshot.key ≠ r.key →
      r ∈ (v.node j).store.rows := by
    intro r hr _ hkey
    rw [hvrows]
    exact KeyedTable.mem_upsert_of_ne hr fun hid => hkey (congrArg Prod.snd hid).symm
  refine ⟨hmark ▸ mark_le hp hk, hvi ▸ hp.advances, fun r hr hrk hkey => ?_,
    fun r hr hrk hkey => ?_, fun r hr hrk hkey => ?_⟩
  · have hcov := (round_covers_iff hp hnew hk).mpr
      (.inr ((floor_lt_iff hk _).mpr (.inl habove)))
    refine hcov.of_le ?_ (Row.version_lt_of_hlc_lt ?_).le
    · exact Row.id_eq.mpr ⟨hrk, hkey.symm⟩
    · exact (hs.clock_rows j r hr).trans_lt hstamp
  · rw [hp.others j (Ne.symm hp.ne)]
    exact hkept r hr hrk hkey
  · rw [round_covers_iff hp (hkept r hr hrk hkey) (hrk ▸ hk), hrk, floor_lt_iff hk, hvi, hmark]
    exact or_congr_right (or_iff_left fun hc => hres hc.1)

theorem traffic_advances {steps : List (Int64 × Runner)} (hs : Stamps s) (hb : Bounds s)
    (h : Run (step E) NoWrap s (traffic i j steps) t) :
    (s.node i).store.rows.Advances (t.node i).store.rows := by
  induction steps generalizing s with
  | nil =>
    cases h
    exact .refl _
  | cons p steps ih =>
    obtain ⟨u, h₁, h₂⟩ := (traffic_cons i j p steps ▸ h).split
    obtain ⟨hu, hub⟩ := bounded_run h₁ hs hb
    exact (repeated_of_run hs hb h₁).advances.trans (ih hu hub h₂)

theorem traffic_covers_iff {steps : List (Int64 × Runner)} (hs : Stamps s) (hb : Bounds s)
    (h : Run (step E) NoWrap s (traffic i j steps) t) {r : Row}
    (hr : r ∈ (s.node j).store.rows) (hk : r.kind = kindRunner) :
    (t.node i).store.rows.Covers r ↔
      (s.node i).store.rows.Covers r ∨ (steps ≠ [] ∧ mark s i j kindRunner < r.hlc) ∨
        ∃ p ∈ steps, p.2.key = r.key := by
  induction steps generalizing s with
  | nil =>
    cases h
    simp
  | cons p steps ih =>
    obtain ⟨u, h₁, h₂⟩ := (traffic_cons i j p steps ▸ h).split
    have hrep := repeated_of_run hs hb h₁
    obtain ⟨hu, hub⟩ := bounded_run h₁ hs hb
    by_cases hkey : p.2.key = r.key
    · refine iff_of_true ?_ (.inr (.inr ⟨p, List.mem_cons_self, hkey⟩))
      exact (hrep.written r hr hk hkey).advance (traffic_advances hu hub h₂)
    · rw [ih hu hub h₂ (hrep.kept r hr hk hkey), hrep.covers_iff r hr hk hkey]
      constructor
      · rintro ((hcov | hlt) | ⟨-, hlt⟩ | ⟨q, hq, hqk⟩)
        · exact .inl hcov
        · exact .inr (.inl ⟨List.cons_ne_nil _ _, hlt⟩)
        · exact .inr (.inl ⟨List.cons_ne_nil _ _, hrep.mark_le.trans_lt hlt⟩)
        · exact .inr (.inr ⟨q, List.mem_cons_of_mem _ hq, hqk⟩)
      · rintro (hcov | ⟨-, hlt⟩ | ⟨q, hq, hqk⟩)
        · exact .inl (.inl hcov)
        · exact .inl (.inr hlt)
        · rcases List.mem_cons.mp hq with rfl | hq
          · exact absurd hqk hkey
          · exact .inr (.inr ⟨q, hq, hqk⟩)

/-- **When agent traffic starves a relay.** If the agent of `j` steps before
each round of `i` on `j`, then however often this repeats, `i` ends up with
the runner rows `j` had that lay above its watermark, that it had itself, or
that the steps rewrote, and with no others. -/
theorem agent_traffic_repair_iff (E : Env) {id : ι → String} {epoch : ι → Epoch}
    {addr : ι → String} (haddr : Function.Injective addr) {s t : Cluster ι}
    {as : List (Action ι)} (hreach : Run (step E) NoWrap (boot id epoch addr) as s) {i j : ι}
    {steps : List (Int64 × Runner)} (hn : 2 ≤ steps.length)
    (h : Run (step E) NoWrap s (traffic i j steps) t) :
    (∀ r ∈ (s.node j).store.rows, r.kind = kindRunner → (t.node i).store.rows.Covers r) ↔
      ∀ r ∈ (s.node j).store.rows, r.kind = kindRunner → r.hlc ≤ mark s i j kindRunner →
        (s.node i).store.rows.Covers r ∨ ∃ p ∈ steps, p.2.key = r.key := by
  obtain ⟨hs, hb⟩ := bounded_run hreach (stamps_boot id epoch addr) (bounds_boot haddr)
  have hne : steps ≠ [] := by
    rintro rfl
    simp at hn
  constructor
  · intro hcov r hr hk hle
    rcases (traffic_covers_iff hs hb h hr hk).mp (hcov r hr hk) with hc | ⟨-, hlt⟩ | hw
    · exact .inl hc
    · exact absurd hlt (not_lt.mpr hle)
    · exact .inr hw
  · intro hcond r hr hk
    rw [traffic_covers_iff hs hb h hr hk]
    by_cases hlt : mark s i j kindRunner < r.hlc
    · exact .inr (.inl ⟨hne, hlt⟩)
    · exact (hcond r hr hk (not_lt.mp hlt)).imp_right .inr

end Traffic

/-- Had `n1` the row of `n2` before `n0` first pulled from it, the traffic
would carry it over. -/
theorem early_relay_delivered : ∃ s t : Cluster (Fin 3),
    Run (step .escapeFree) NoWrap (Demo.cluster 3)
        ([.perform 2 (.start 5 (Demo.runner 2)), .perform 1 (.start 90 (Demo.runner 1))] ++
          Action.round 1 2) s ∧
      Run (step .escapeFree) NoWrap s
        (traffic 0 1 [(91, Demo.runner 1), (92, Demo.runner 1)]) t ∧
      ∀ r ∈ (s.node 1).store.rows, r.kind = kindRunner → (t.node 0).store.rows.Covers r := by
  obtain ⟨s, t, hs, ht, habove⟩ : ∃ s t : Cluster (Fin 3),
      Run (step .escapeFree) NoWrap (Demo.cluster 3)
          ([.perform 2 (.start 5 (Demo.runner 2)), .perform 1 (.start 90 (Demo.runner 1))] ++
            Action.round 1 2) s ∧
        Run (step .escapeFree) NoWrap s
          (traffic 0 1 [(91, Demo.runner 1), (92, Demo.runner 1)]) t ∧
        ∀ r ∈ (s.node 1).store.rows, mark s 0 1 kindRunner < r.hlc :=
    exists_two_runs (by decide +kernel)
  refine ⟨s, t, hs, ht, (agent_traffic_repair_iff .escapeFree
    (by unfold Function.Injective; decide) hs (by decide) ht).mpr fun r hr _ hle => ?_⟩
  exact absurd (habove r hr) (not_lt.mpr hle)

/-- The runner row of `n2` that two quiet rounds repair is starved by the
traffic of `n1`. -/
theorem relayed_runner_starved : ∃ s t : Cluster (Fin 3),
    Run (step .escapeFree) WriteStep (Demo.cluster 3) (relayRunner 0 1 2) s ∧
      Run (step .escapeFree) (fun s a => WriteStep s a ∧ NoCollision s 0 1) s
        (traffic 0 1 [(91, Demo.runner 1), (92, Demo.runner 1)]) t ∧
      ∃ r ∈ (s.node 1).store.rows, r.kind = kindRunner ∧ ¬(t.node 0).store.rows.Covers r := by
  exact exists_two_runs (by decide +kernel)

end Cluster

end Takl
