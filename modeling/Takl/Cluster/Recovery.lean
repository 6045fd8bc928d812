import Takl.Cluster.AntiEntropy

/-!
# A node that was pruned by mistake comes back

A membership layer can report a node as gone that is not. The peer that
believes it marks the node's rows as deleted with a timestamp of its own clock,
which may be far ahead of the node's. What brings the node back is that a pull
moves the puller's clock past everything it was sent: once the node has pulled
from the peer, its next heartbeat beats the tombstone, and the peer's next pull
brings it.

`Heeds` is the invariant behind it: what a watermark says has been seen, the
node's own clock has passed. `Awaits` follows the heartbeat until it arrives.
-/

namespace Takl

namespace Cluster

open Runs

variable {ι : Type}

/-- A node's clock has passed its watermarks. -/
def Heeds (s : Cluster ι) : Prop :=
  ∀ i peer, ∀ kind ∈ kinds,
    ((s.node i).store.watermark peer kind).val ≤ (s.node i).clock.reading

theorem heeds_boot (id : ι → String) (epoch : ι → Epoch) (addr : ι → String) :
    Heeds (boot id epoch addr) := fun _ _ _ _ => le_rfl

variable [DecidableEq ι] {E : Env} {s t : Cluster ι} {a : Action ι} {i j k : ι}

/-- **Every step keeps the clocks past the watermarks**: a round witnesses the
rows it raises a watermark to. -/
theorem Heeds.step (hs : Stamps s) (hh : Heeds s) (h : step E s a = some t) (hw : s.NoWrap a) :
    Heeds t := by
  intro i peer kind hk
  have hclock := clock_mono h hw i
  generalize hn : t.node i = n at hclock
  have hstep := hn ▸ step_node h i
  cases hstep with
  | same => exact hh i peer kind hk
  | stamped _ hst =>
    rw [hst.watermark]
    exact (hh i peer kind hk).trans hclock
  | received _ _ hrec =>
    have hold := (hh i peer kind hk).trans hclock
    rw [hrec.watermark peer kind (ne_kindEvent hk)]
    split
    · refine max_le hold (Store.top_le_iff.mpr ⟨(hs.clock_nonneg i).trans hclock, ?_⟩)
      exact fun r hr _ => hrec.clock_rows r hr
    · exact hold

/-- **The clocks stay past the watermarks.** -/
theorem heeds_run {as : List (Action ι)} (hr : Run (step E) NoWrap s as t) (hs : Stamps s)
    (hb : Bounds s) (hh : Heeds s) : Stamps t ∧ Bounds t ∧ Heeds t :=
  hr.invariant (I := fun s => Stamps s ∧ Bounds s ∧ Heeds s)
    (fun _ _ _ ⟨hs, hb, hh⟩ hw h => ⟨hs.step h hw, hb.step hs h hw, hh.step hs h hw⟩) ⟨hs, hb, hh⟩

/-- The step leaves the row that `k` has under `key`. -/
def Keeps (E : Env) (key : Kind × String) (k : ι) (s : Cluster ι) (a : Action ι) : Prop :=
  ∀ t ∈ step E s a, (t.node k).store.rows.get key = (s.node k).store.rows.get key

/-- A run in which no clock wraps and these nodes keep their rows of the key. -/
def Beside (E : Env) (key : Kind × String) (ks : List ι) (s : Cluster ι) (a : Action ι) : Prop :=
  s.NoWrap a ∧ ∀ k ∈ ks, Keeps E key k s a

instance (E : Env) (key : Kind × String) (k : ι) (s : Cluster ι) :
    DecidablePred (Keeps E key k s) :=
  fun _ => inferInstanceAs (Decidable (∀ t ∈ step _ _ _, _))

instance (E : Env) (key : Kind × String) (ks : List ι) (s : Cluster ι) :
    DecidablePred (Beside E key ks s) :=
  fun _ => inferInstanceAs (Decidable (_ ∧ ∀ k ∈ ks, _))

theorem get_of_beside {key : Kind × String} {ks : List ι} {as : List (Action ι)}
    (hr : Run (step E) (Beside E key ks) s as t) (hk : k ∈ ks) :
    (t.node k).store.rows.get key = (s.node k).store.rows.get key :=
  hr.invariant (I := fun t => (t.node k).store.rows.get key = (s.node k).store.rows.get key)
    (fun _ _ _ hu hok h => (hok.2 k hk _ h).trans hu) rfl

/-- Clocks never go back, over a run. -/
theorem clock_mono_run {as : List (Action ι)} (hr : Run (step E) NoWrap s as t) (k : ι) :
    (s.node k).clock.reading ≤ (t.node k).clock.reading :=
  hr.related (R := fun s t => (s.node k).clock.reading ≤ (t.node k).clock.reading)
    (I := fun _ => True) (fun _ => le_rfl) (fun _ _ _ h h' => h.trans h')
    (fun _ _ _ _ _ _ => trivial) (fun _ _ _ _ hok h => clock_mono h hok k) trivial

omit [DecidableEq ι] in
/-- After a pull of `i` from `j`, the clock of `i` has passed the rows of `j`. -/
theorem hlc_le_clock (h : Pulled E s i j t) (hh : Heeds t) {r : Row}
    (hr : r ∈ (s.node j).store.rows) (hk : r.kind ∈ kinds) :
    r.hlc ≤ (t.node i).clock.reading :=
  (hlc_le_mark h hr hk).trans (hh i _ _ hk)

omit [DecidableEq ι] in
/-- A pull installs a row that is above the floor and beats what is there. -/
theorem get_of_pulled (h : Pulled E s j i t) {r : Row} (hr : r ∈ (s.node i).store.rows)
    (hk : r.kind ∈ kinds) (hlt : mark s j i r.kind < r.hlc) (hpay : r.payload ≠ some [])
    (hnew : ∀ c ∈ (s.node j).store.rows, c.id = r.id → c.version < r.version) :
    (t.node j).store.rows.get r.id = some r := by
  obtain ⟨resp, hpull, hrec⟩ := h.received
  have hdel : r.delivered = r := by simp [Row.delivered, hpay]
  have hsent : r ∈ resp.wire.toRows :=
    (Server.mem_delivered hpull).mpr ⟨r, hr, hk, (floor_lt_iff hk r.hlc).mpr (.inl hlt), hdel⟩
  have huniq : ∀ y ∈ resp.wire.toRows, y.id = r.id → y = r := by
    intro y hy hid
    obtain ⟨z, hz, -, -, rfl⟩ := (Server.mem_delivered hpull).mp hy
    have hzr : z = r := KeyedTable.eq_of_key_eq hz hr hid
    rw [hzr, hdel]
  rw [hrec.rows]
  refine (KeyedTable.get_mergeAll_of_unique _ hsent huniq).trans ?_
  rcases KeyedTable.merge_cases Row.version (s.node j).store.rows r with ⟨-, hcov⟩ | ⟨heq, -⟩
  · obtain ⟨c, hc, hid, hle⟩ := hcov
    exact absurd (hnew c hc hid) (not_lt.mpr hle)
  · rw [heq, KeyedTable.get_upsert_self]

/-! ## A row on its way -/

/-- `i` has a row that `j` has not been sent: it beats the one `j` has, it is
above the watermark of `j`, and stays so when `j` applies what is in flight,
unless that brings it. -/
structure Awaits (i j : ι) (r : Row) (s : Cluster ι) : Prop where
  holds : (s.node i).store.rows.get r.id = some r
  beats : ∀ c, (s.node j).store.rows.get r.id = some c → c.version < r.version
  above : mark s j i r.kind < r.hlc
  flight : ∀ req resp, s.exchange j i = .responded req resp →
    (∀ x ∈ resp.toRows, x.kind = r.kind → x.hlc < r.hlc) ∨ Brings resp r

/-- **The row stays on its way** while both nodes keep theirs: a response that
brings it is not applied, for `j` would then have another. -/
theorem Awaits.step {r : Row} (hk : r.kind ∈ kinds) (hb : Bounds s) (hw : Awaits i j r s)
    (h : step E s a = some t) (hi : Keeps E r.id i s a) (hj : Keeps E r.id j s a) :
    Awaits i j r t := by
  have hbeats : ∀ c, (t.node j).store.rows.get r.id = some c → c.version < r.version :=
    fun c hc => hw.beats c ((hj t h).symm.trans hc)
  have hzero : HLC.zero ≤ mark s j i r.kind := Subtype.property _
  refine ⟨(hi t h).trans hw.holds, hbeats, ?_, fun req resp hx => ?_⟩
  · have hmark : mark t j i r.kind =
        ((t.node j).store.watermark (s.node i).syncAddr r.kind).val := by
      rw [mark, (step_identity h i).syncAddr]
    rw [hmark]
    rcases watermark_step hb.addr_inj h j i hk with hwm | ⟨_, _, resp, -, hx, hrec, hwm⟩
    · exact hwm ▸ hw.above
    · rcases hw.flight _ resp hx with hbelow | hbrings
      · exact hwm ▸ Store.max_top_lt hw.above hzero hbelow
      · obtain ⟨c, hc, hid, hle⟩ := covers_of_brings hrec hbrings
        exact absurd (hbeats c (KeyedTable.get_eq_some.mpr ⟨hc, hid⟩)) (not_lt.mpr hle)
  · rcases responded_cases h hx with hx | ⟨-, hreq, sent, hpull, rfl⟩
    · exact hw.flight req resp hx
    · have hwm := hb.requested hreq r.kind hk
      have hr : r ∈ (s.node i).store.rows := (KeyedTable.get_eq_some.mp hw.holds).1
      exact .inr ⟨r.delivered, Server.delivered_mem hpull hr hk (hwm ▸ hzero) (hwm ▸ hw.above),
        rfl, le_rfl⟩

/-- **The row arrives**: it is still on its way when `j` pulls, and then `j`
has it. -/
theorem Awaits.arrives {x : Cluster ι} {as : List (Action ι)} {r : Row} (hk : r.kind ∈ kinds)
    (hpay : r.payload ≠ some []) (hs : Stamps s) (hb : Bounds s) (hw : Awaits i j r s)
    (hrun : Run (Cluster.step E) (Beside E r.id [i, j]) s as x)
    (hback : Run (Cluster.step E) NoWrap x (Action.round j i) t) :
    (t.node j).store.rows.get r.id = some r := by
  obtain ⟨-, -, hx⟩ := hrun.invariant (I := fun s => Stamps s ∧ Bounds s ∧ Awaits i j r s)
    (fun _ _ _ ⟨hs, hb, hw⟩ hok h => ⟨hs.step h hok.1, hb.step hs h hok.1,
      hw.step hk hb h (hok.2 i (by simp)) (hok.2 j (by simp))⟩) ⟨hs, hb, hw⟩
  have hr : r ∈ (x.node i).store.rows := (KeyedTable.get_eq_some.mp hx.holds).1
  exact get_of_pulled (pulled_of_round hback) hr hk hx.above hpay
    fun c hc hid => hx.beats c (KeyedTable.get_eq_some.mpr ⟨hc, hid⟩)

/-- An agent's step sends its row on the way to a peer whose row it has heeded. -/
theorem awaits_of_step {v w : Cluster ι} {now : Int64} {snapshot : Runner} (hij : i ≠ j)
    (hb : Bounds v) (hst : step E v (.perform i (.step now snapshot)) = some w)
    (hok : v.NoWrap (.perform i (.step now snapshot)))
    (hheeded : ∀ c, (v.node j).store.rows.get (kindRunner, snapshot.key) = some c →
      c.hlc ≤ (v.node i).clock.reading) :
    Awaits i j ((v.node i).stepRow E now snapshot) w := by
  have hkind : kindRunner ∈ kinds := by decide
  have hclock : (v.node i).clock.reading < ((v.node i).stepRow E now snapshot).hlc :=
    Clock.reading_lt_tick hok
  obtain ⟨st, hn, hrows, -, -⟩ := (v.node i).step_spec E now snapshot
  have hwi : w.node i = ((v.node i).step E now snapshot).1 := node_of_perform hst
  have hwj : w.node j = v.node j := node_of_perform_ne hst hij.symm
  have hexchange : w.exchange = v.exchange := by
    rw [step_perform hst, setNode_exchange, note_exchange]
  refine ⟨?_, fun c hc => ?_, ?_, fun req resp hx => ?_⟩
  · rw [hwi, hn, hrows]
    exact KeyedTable.get_upsert_self _ _
  · rw [hwj] at hc
    exact Row.version_lt_of_hlc_lt ((hheeded c hc).trans_lt hclock)
  · unfold mark
    rw [hwj, (step_identity hst i).syncAddr]
    exact (hb.watermark_le j i kindRunner hkind).trans_lt hclock
  · -- what was served before the step is older
    rw [hexchange] at hx
    exact .inl fun x hmem _ => (hb.flight_le hx x hmem).trans_lt hclock

/-- Node 1 is half a second ahead; it has pulled from node 0 and then prunes it. -/
def prunedByMistake {ι : Type} (i j : ι) : List (Action ι) :=
  [.perform i (.start 100 (Demo.runner 0)), .perform j (.start 600 (Demo.runner 1))] ++
    Action.round j i ++ [.perform j (.member 601 ⟨.leave, Demo.nodeID 0, "10.0.0.0"⟩)]

/-- Both agents step. -/
def bothStep {ι : Type} (i j : ι) : List (Action ι) :=
  [.perform j (.step 602 (Demo.runner 1))] ++ [.perform i (.step 101 (Demo.runner 0))]

end Cluster

end Takl
