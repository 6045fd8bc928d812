import Takl.Cluster.Model

/-!
# Where rows come from

The part of the invariant that every run keeps as long as no clock counter
wraps, whatever the operations are and whatever the nodes are called:

* a node's clock is at or past every row it holds;
* every row held or in flight was once written by some node;
* a writer's timestamps are positive, at most its clock, and used for one
  row per key;
* a watermark on a node is at most that node's clock (`Bounds`).
-/

namespace Takl

namespace Cluster

open Runs

variable {ι : Type}

/-- The rows and the history agree with the clocks. -/
structure Stamps (s : Cluster ι) : Prop where
  clock_nonneg : ∀ i, HLC.zero ≤ (s.node i).clock.reading
  clock_rows : ∀ i, ∀ r ∈ (s.node i).store.rows, r.hlc ≤ (s.node i).clock.reading
  written_of_mem : ∀ i, ∀ r ∈ (s.node i).store.rows, ∃ j, (j, r) ∈ s.written
  written_of_flight : ∀ {i j req resp}, s.exchange i j = .responded req resp →
    ∀ r ∈ resp.toRows, ∃ k w, (k, w) ∈ s.written ∧ w.delivered = r
  zero_lt : ∀ {j w}, (j, w) ∈ s.written → HLC.zero < w.hlc
  le_clock : ∀ {j w}, (j, w) ∈ s.written → w.hlc ≤ (s.node j).clock.reading
  unique : ∀ {j w v}, (j, w) ∈ s.written → (j, v) ∈ s.written → w.id = v.id →
    w.hlc = v.hlc → w = v

theorem stamps_boot (id : ι → String) (epoch : ι → Epoch) (addr : ι → String) :
    Stamps (boot id epoch addr) where
  clock_nonneg _ := le_rfl
  clock_rows _ r hr := absurd hr (KeyedTable.not_mem_empty r)
  written_of_mem _ r hr := absurd hr (KeyedTable.not_mem_empty r)
  written_of_flight hx := nomatch hx
  zero_lt hw := nomatch hw
  le_clock hw := nomatch hw
  unique hw := nomatch hw

variable [DecidableEq ι] {E : Env} {s t : Cluster ι} {a : Action ι}

/-- Clocks never go back. -/
theorem clock_mono (h : step E s a = some t) (hw : s.NoWrap a) (k : ι) :
    (s.node k).clock.reading ≤ (t.node k).clock.reading := by
  generalize hn : t.node k = n
  have hstep := hn ▸ step_node h k
  cases hstep with
  | same => exact le_rfl
  | stamped ha hst =>
    subst ha
    exact (hst.reading_lt hw).le
  | received _ _ hrec => exact hrec.clock_mono

/-- What is new in the history carries the writer's new clock reading. -/
theorem written_new (h : step E s a = some t) (hw : s.NoWrap a) {k : ι} {r : Row}
    (hr : (k, r) ∈ t.written) : (k, r) ∈ s.written ∨
      ((∃ op, a = .perform k op) ∧ r ∈ (t.node k).store.rows ∧
        r.hlc = (t.node k).clock.reading ∧ (s.node k).clock.reading < r.hlc) := by
  rcases (step_written h).mp hr with hr | ⟨⟨op, rfl⟩, hr, hnew⟩
  · exact .inl hr
  · generalize hn : t.node k = n at hr
    have hstep := hn ▸ step_node h k
    cases hstep with
    | same => exact absurd hr hnew
    | stamped ha hst =>
      cases ha
      have hhlc := hst.hlc_of_new hr hnew
      exact .inr ⟨⟨_, rfl⟩, hr, hhlc, hhlc ▸ hst.reading_lt hw⟩
    | received ha => cases ha

/-- **Every step keeps rows and history within the clocks**, since a write
ticks the clock it is stamped with and an exchange witnesses what it brings. -/
theorem Stamps.step (hs : Stamps s) (h : step E s a = some t) (hw : s.NoWrap a) : Stamps t where
  clock_nonneg i := (hs.clock_nonneg i).trans (clock_mono h hw i)
  clock_rows i r hr := by
    generalize hn : t.node i = n at hr
    have hstep := hn ▸ step_node h i
    cases hstep with
    | same => exact hs.clock_rows i r hr
    | stamped ha hst =>
      subst ha
      by_cases hold : r ∈ (s.node i).store.rows
      · exact (hs.clock_rows i r hold).trans (hst.reading_lt hw).le
      · exact (hst.hlc_of_new hr hold).le
    | received _ _ hrec =>
      rcases hrec.mem_rows hr with hold | ⟨hnew, -⟩
      · exact (hs.clock_rows i r hold).trans hrec.clock_mono
      · exact hrec.clock_rows r hnew
  written_of_mem i r hr := by
    by_cases hold : r ∈ (s.node i).store.rows
    · obtain ⟨j, hj⟩ := hs.written_of_mem i r hold
      exact ⟨j, (step_written h).mpr (.inl hj)⟩
    · generalize hn : t.node i = n at hr
      have hstep := hn ▸ step_node h i
      cases hstep with
      | same => exact absurd hr hold
      | stamped ha => exact ⟨i, (step_written h).mpr (.inr ⟨⟨_, ha⟩, hn ▸ hr, hold⟩)⟩
      | received _ hx hrec =>
        obtain ⟨hnew, hpay⟩ := (hrec.mem_rows hr).resolve_left hold
        obtain ⟨k, w, hk, rfl⟩ := hs.written_of_flight hx r hnew
        rw [Row.delivered_eq hpay]
        exact ⟨k, (step_written h).mpr (.inl hk)⟩
  written_of_flight {i j _ _} hx r hr := by
    rcases responded_cases h hx with hx | ⟨-, -, sent, hpull, rfl⟩
    · obtain ⟨k, w, hk, hwr⟩ := hs.written_of_flight hx r hr
      exact ⟨k, w, (step_written h).mpr (.inl hk), hwr⟩
    · obtain ⟨x, hxmem, -, -, hxr⟩ := (Server.mem_delivered hpull).mp hr
      obtain ⟨k, hk⟩ := hs.written_of_mem j x hxmem
      exact ⟨k, x, (step_written h).mpr (.inl hk), hxr⟩
  zero_lt hr := by
    rcases written_new h hw hr with hr | ⟨-, -, -, hlt⟩
    · exact hs.zero_lt hr
    · exact (hs.clock_nonneg _).trans_lt hlt
  le_clock hr := by
    rcases written_new h hw hr with hr | ⟨-, -, he, -⟩
    · exact (hs.le_clock hr).trans (clock_mono h hw _)
    · exact he.le
  unique hr hv hid hhlc := by
    rcases written_new h hw hr with hr | ⟨-, hr, -, hlt⟩ <;>
      rcases written_new h hw hv with hv | ⟨-, hv, -, hlt'⟩
    · exact hs.unique hr hv hid hhlc
    · exact absurd (hs.le_clock hr) (not_le.mpr (hhlc ▸ hlt'))
    · exact absurd (hs.le_clock hv) (not_le.mpr (hhlc ▸ hlt))
    · exact KeyedTable.eq_of_key_eq hr hv hid

/-- **Rows and history stay within the clocks**, however the nodes act. -/
theorem Stamps.run {as : List (Action ι)} (hr : Run (Cluster.step E) NoWrap s as t)
    (hs : Stamps s) : Stamps t :=
  hr.invariant (fun _ _ _ hs hw h => hs.step h hw) hs

/-! ## Watermarks -/

theorem step_identity (h : step E s a = some t) (k : ι) :
    Node.SameIdentity (s.node k) (t.node k) := by
  generalize hn : t.node k = n
  have hstep := hn ▸ step_node h k
  cases hstep with
  | same => exact .refl _
  | stamped _ hst => exact hst.identity
  | received _ _ hrec => exact hrec.identity

/-- A watermark moves only when its own exchange is applied, and then to the
top of the response. -/
theorem watermark_step (haddr : Function.Injective fun i => (s.node i).syncAddr)
    (h : step E s a = some t) (i j : ι) {kind : Kind} (hk : kind ∈ kinds) :
    ((t.node i).store.watermark (s.node j).syncAddr kind).val =
        ((s.node i).store.watermark (s.node j).syncAddr kind).val ∨
      ∃ out req resp, a = .apply i j out ∧ s.exchange i j = .responded req resp ∧
        (s.node i).Received (s.node j).syncAddr resp (t.node i) ∧
        ((t.node i).store.watermark (s.node j).syncAddr kind).val =
          max ((s.node i).store.watermark (s.node j).syncAddr kind).val
            (Store.top kind resp.toRows) := by
  have hne := ne_kindEvent hk
  generalize hn : t.node i = n
  have hstep := hn ▸ step_node h i
  cases hstep with
  | same => exact .inl rfl
  | stamped _ hst => rw [hst.watermark]; exact .inl rfl
  | @received l out req resp _ hact hx hrec =>
    by_cases hl : l = j
    · subst hl
      exact .inr ⟨out, req, resp, hact, hx, hrec, by rw [hrec.watermark _ _ hne, if_pos rfl]⟩
    · left
      rw [hrec.watermark _ _ hne, if_neg fun hc => hl (haddr hc.symm)]

/-- A watermark, and what a response in flight will raise it to, stay within
the peer's clock. -/
structure Bounds (s : Cluster ι) : Prop where
  addr_inj : Function.Injective fun i => (s.node i).syncAddr
  watermark_le : ∀ i j, ∀ kind ∈ kinds,
    ((s.node i).store.watermark (s.node j).syncAddr kind).val ≤ (s.node j).clock.reading
  requested : ∀ {i j req}, s.exchange i j = .requested req → ∀ kind ∈ kinds,
    Server.requestedWatermark req kind = (s.node i).store.watermark (s.node j).syncAddr kind
  flight_le : ∀ {i j req resp}, s.exchange i j = .responded req resp → ∀ r ∈ resp.toRows,
    r.hlc ≤ (s.node j).clock.reading

omit [DecidableEq ι] in
theorem bounds_boot {id : ι → String} {epoch : ι → Epoch} {addr : ι → String}
    (haddr : Function.Injective addr) : Bounds (boot id epoch addr) where
  addr_inj := haddr
  watermark_le _ _ _ _ := le_rfl
  requested hx := nomatch hx
  flight_le hx := nomatch hx

/-- **No step takes a watermark past its peer's clock**: it is raised to what
the peer was asked and answered, and the peer's clock does not go back. -/
theorem Bounds.step (hs : Stamps s) (hb : Bounds s) (h : step E s a = some t)
    (hnw : s.NoWrap a) : Bounds t := by
  have haddr : ∀ k, (t.node k).syncAddr = (s.node k).syncAddr := fun k =>
    (step_identity h k).syncAddr
  refine ⟨fun i j hij => hb.addr_inj (by simpa only [haddr] using hij), fun i j kind hk => ?_,
    fun {i j req} hx kind hk => ?_, fun {i j req resp} hx r hr => ?_⟩
  · rw [haddr]
    refine le_trans ?_ (clock_mono h hnw j)
    rcases watermark_step hb.addr_inj h i j hk with hwm | ⟨_, _, resp, -, hx, -, hwm⟩
    · exact hwm ▸ hb.watermark_le i j kind hk
    · rw [hwm]
      refine max_le (hb.watermark_le i j kind hk) (Store.top_le_iff.mpr ⟨hs.clock_nonneg j, ?_⟩)
      exact fun r hr _ => hb.flight_le hx r hr
  · rw [haddr]
    have hwm := watermark_step hb.addr_inj h i j hk
    rcases requested_cases h hx with hx | ⟨hact, rfl⟩
    · -- only an applied response moves the watermark, and this one is not back yet
      rcases hwm with hwm | ⟨_, _, _, -, hx', -⟩
      · rw [hwm, hb.requested hx kind hk]
      · cases hx.symm.trans hx'
    · rcases hwm with hwm | ⟨_, _, _, hact', -⟩
      · rw [hwm, Node.requestedWatermark_request _ _ hk]
      · cases hact.symm.trans hact'
  · refine le_trans ?_ (clock_mono h hnw j)
    rcases responded_cases h hx with hx | ⟨-, -, sent, hpull, rfl⟩
    · exact hb.flight_le hx r hr
    · obtain ⟨y, hy, -, -, rfl⟩ := (Server.mem_delivered hpull).mp hr
      exact hs.clock_rows j y hy

/-- **Watermarks stay within the clocks of their peers.** -/
theorem bounded_run {as : List (Action ι)} (hr : Run (Cluster.step E) NoWrap s as t)
    (hs : Stamps s) (hb : Bounds s) : Stamps t ∧ Bounds t :=
  hr.invariant (I := fun s => Stamps s ∧ Bounds s)
    (fun _ _ _ hs hw h => ⟨hs.1.step h hw, hs.2.step hs.1 h hw⟩) ⟨hs, hb⟩

end Cluster

end Takl
