import Takl.Cluster.Stamps

/-!
# Full-mesh convergence

Rows reach a peer only by being above its watermark when they are pulled, or
by the checksum-triggered resend. What makes the watermark safe for the rows
a node wrote itself is a chain of bounds: a watermark on `j` never passes
`j`'s clock, and `j` stamps past its clock. `Marks` is that invariant, for
runs of agent and API writes and exchanges cut into their three steps.

Rows `j` merely relays may lie below the watermark, and the invariant says
nothing about them. That is why convergence is claimed for a full mesh: every
node asks every writer.
-/

namespace Takl

namespace Cluster

open Runs

variable {ι : Type} [DecidableEq ι] {E : Env} {s t : Cluster ι} {a : Action ι} {i j : ι}

/-! ## Rows only get newer -/

/-- Without collection and pruning no key goes back. -/
theorem rows_advance (hs : Stamps s) (h : step E s a = some t) (hw : s.NoWrap a)
    (ha : a.Writes) (k : ι) :
    (s.node k).store.rows.Advances (t.node k).store.rows := by
  generalize hn : t.node k = n
  have hstep := hn ▸ step_node h k
  cases hstep with
  | same => exact .refl _
  | stamped hact hst =>
    subst hact
    rcases hst.rows_of_isWrite ha with hrows | ⟨r, hrows, hhlc, -⟩
    · rw [hrows]
      exact .refl _
    · rw [hrows]
      refine KeyedTable.advances_upsert fun c hc _ => (Row.version_lt_of_hlc_lt ?_).le
      rw [hhlc]
      exact (hs.clock_rows k c hc).trans_lt (hst.reading_lt hw)
  | received _ _ hrec =>
    rw [hrec.rows]
    exact KeyedTable.advances_mergeAll _ _

/-! ## The invariant -/

/-- The response brings `w`, or something that beats it. -/
def Brings (resp : PullResponse) (w : Row) : Prop :=
  ∃ r ∈ resp.toRows, r.id = w.id ∧ w.version ≤ r.version

/-- Watermarks, exchanges in flight, and the rows their peers wrote. -/
structure Marks (s : Cluster ι) : Prop extends Bounds s where
  id_inj : Function.Injective fun i => (s.node i).nodeID
  owns : ∀ {j w}, (j, w) ∈ s.written → (s.node j).Owns w
  /-- A writer keeps at least its own version. -/
  keeps : ∀ {j w}, (j, w) ∈ s.written → (s.node j).store.rows.Covers w
  /-- What `j` wrote is above `i`'s watermark on `j`, or `i` has it. -/
  above : ∀ {i j w}, (j, w) ∈ s.written →
    ((s.node i).store.watermark (s.node j).syncAddr w.kind).val < w.hlc ∨
      (s.node i).store.rows.Covers w
  /-- It also stays above whatever the response in flight will raise the
  watermark to. -/
  flight : ∀ {i j req resp w}, s.exchange i j = .responded req resp → (j, w) ∈ s.written →
    (∀ r ∈ resp.toRows, r.kind = w.kind → r.hlc < w.hlc) ∨ Brings resp w ∨
      (s.node i).store.rows.Covers w

omit [DecidableEq ι] in
theorem marks_boot {id : ι → String} {epoch : ι → Epoch} {addr : ι → String}
    (hid : Function.Injective id) (haddr : Function.Injective addr) :
    Marks (boot id epoch addr) where
  toBounds := bounds_boot haddr
  id_inj := hid
  owns hw := nomatch hw
  keeps hw := nomatch hw
  above hw := nomatch hw
  flight hx := nomatch hx

/-- Rows a response brings are covered once it is merged. -/
theorem covers_of_brings {n n' : Node} {peer : String} {resp : PullResponse} {w : Row}
    (hn : n.Received peer resp n') (h : Brings resp w) : n'.store.rows.Covers w := by
  obtain ⟨r, hr, hid, hv⟩ := h
  rw [hn.rows]
  exact (KeyedTable.covers_mergeAll hr).of_le hid.symm hv

theorem Marks.owns_step (hm : Marks s) (h : step E s a = some t) (ha : a.Writes)
    {w : Row} (hw : (j, w) ∈ t.written) : (t.node j).Owns w := by
  rcases (step_written h).mp hw with hw | ⟨⟨op, rfl⟩, hnew, hold⟩
  · exact (hm.owns hw).of_identity (step_identity h j)
  · generalize hn : t.node j = n at hnew
    have hstep := hn ▸ step_node h j
    cases hstep with
    | same => exact absurd hnew hold
    | received hact => cases hact
    | stamped hact hst =>
      cases hact
      rcases hst.rows_of_isWrite ha with hrows | ⟨r, hrows, -, hown⟩
      · exact absurd (hrows ▸ hnew) hold
      · rw [hrows] at hnew
        rcases KeyedTable.mem_upsert.mp hnew with rfl | ⟨hmem, -⟩
        · exact hown.of_identity hst.identity
        · exact absurd hmem hold

theorem Marks.above_step (hs : Stamps s) (hm : Marks s) (h : step E s a = some t)
    (hnw : s.NoWrap a) (ha : a.Writes) {w : Row} (hw : (j, w) ∈ t.written) :
    ((t.node i).store.watermark (s.node j).syncAddr w.kind).val < w.hlc ∨
      (t.node i).store.rows.Covers w := by
  have hkind := (hm.owns_step h ha hw).kind_mem
  rcases written_new h hnw hw with hold | ⟨⟨op, rfl⟩, -, -, hlt⟩
  · rcases hm.above (i := i) hold with habove | hcov
    · rcases watermark_step hm.addr_inj h i j hkind with hwm | ⟨_, _, resp, -, hx, hrec, hwm⟩
      · exact .inl (hwm ▸ habove)
      · rcases hm.flight hx hold with hbelow | hbr | hcov
        · exact .inl (hwm ▸ Store.max_top_lt habove (Subtype.property _) hbelow)
        · exact .inr (covers_of_brings hrec hbr)
        · exact .inr (hcov.advance (rows_advance hs h hnw ha i))
    · exact .inr (hcov.advance (rows_advance hs h hnw ha i))
  · -- the writer stamped past its clock, and the watermark had not passed it
    rcases watermark_step hm.addr_inj h i j hkind with hwm | ⟨_, _, _, hact, -⟩
    · exact .inl (hwm ▸ (hm.watermark_le i j _ hkind).trans_lt hlt)
    · cases hact

omit [DecidableEq ι] in
/-- A served request brings everything its peer wrote that the puller does
not have: the rows above the floor are sent, and the floor is no higher than
the puller's watermark. -/
theorem Marks.brings_of_pull (hm : Marks s) {req : PullRequest}
    {resp : PullResponse} (hx : s.exchange i j = .requested req)
    (hpull : (s.node j).server.pull E req = some resp) {w : Row} (hw : (j, w) ∈ s.written) :
    Brings resp.wire w ∨ (s.node i).store.rows.Covers w := by
  obtain ⟨y, hy, hid, hv⟩ := hm.keeps hw
  have hkind : y.kind = w.kind := (Row.id_eq.mp hid).1
  have hmem : y.kind ∈ kinds := hkind ▸ (hm.owns hw).kind_mem
  have hwm := hm.requested hx _ hmem
  rcases hm.above (i := i) hw with habove | hcov
  · have hlt : Server.requestedWatermark req y.kind < y.hlc := by
      rw [hwm, hkind]
      exact habove.trans_le (Row.hlc_le_of_version_le hv)
    have hzero : HLC.zero ≤ Server.requestedWatermark req y.kind := hwm ▸ Subtype.property _
    exact .inl ⟨y.delivered, Server.delivered_mem hpull hy hmem hzero hlt, hid, hv⟩
  · exact .inr hcov

theorem Marks.flight_step (hs : Stamps s) (hm : Marks s) (h : step E s a = some t)
    (hnw : s.NoWrap a) (ha : a.Writes) {req : PullRequest} {resp : PullResponse}
    (hx : t.exchange i j = .responded req resp) {w : Row} (hw : (j, w) ∈ t.written) :
    (∀ r ∈ resp.toRows, r.kind = w.kind → r.hlc < w.hlc) ∨ Brings resp w ∨
      (t.node i).store.rows.Covers w := by
  rcases responded_cases h hx with hx | ⟨hact, hreq, sent, hpull, rfl⟩
  · rcases written_new h hnw hw with hold | ⟨-, -, -, hlt⟩
    · rcases hm.flight hx hold with hbelow | hbr | hcov
      · exact .inl hbelow
      · exact .inr (.inl hbr)
      · exact .inr (.inr (hcov.advance (rows_advance hs h hnw ha i)))
    · exact .inl fun r hr _ => (hm.flight_le hx r hr).trans_lt hlt
  · rcases written_new h hnw hw with hold | ⟨⟨op, hc⟩, -⟩
    · rcases hm.brings_of_pull hreq hpull hold with hbr | hcov
      · exact .inr (.inl hbr)
      · exact .inr (.inr (hcov.advance (rows_advance hs h hnw ha i)))
    · cases hact.symm.trans hc

/-- **Every step of writes and exchanges keeps the watermarks honest**: what a
peer wrote below one has been received. -/
theorem Marks.step (hs : Stamps s) (hm : Marks s) (h : step E s a = some t)
    (hnw : s.NoWrap a) (ha : a.Writes) : Marks t := by
  have haddr : ∀ k, (t.node k).syncAddr = (s.node k).syncAddr := fun k =>
    (step_identity h k).syncAddr
  exact {
    toBounds := hm.toBounds.step hs h hnw
    id_inj := fun i j hij => hm.id_inj (by simpa only [(step_identity h _).nodeID] using hij)
    owns := fun hw => hm.owns_step h ha hw
    keeps := fun {j w} hw => by
      rcases written_new h hnw hw with hold | ⟨-, hnew, -, -⟩
      · exact (hm.keeps hold).advance (rows_advance hs h hnw ha j)
      · exact KeyedTable.covers_of_mem hnew
    above := fun hw => by simpa only [haddr] using hm.above_step hs h hnw ha hw
    flight := fun hx hw => hm.flight_step hs h hnw ha hx hw }

/-! ## Runs of writes and exchanges -/

/-- Agent and API writes whose clocks do not wrap, and any exchange step. -/
def WriteStep (s : Cluster ι) (a : Action ι) : Prop := s.NoWrap a ∧ a.Writes

/-- Every step is an exchange step. -/
def QuietStep (_ : Cluster ι) (a : Action ι) : Prop := a.Quiet

omit [DecidableEq ι] in
theorem QuietStep.writeStep (h : QuietStep s a) : WriteStep s a := by
  cases a with
  | perform => exact absurd h not_false
  | _ => exact ⟨trivial, trivial⟩

instance (s : Cluster ι) : DecidablePred (WriteStep s) :=
  fun _ => inferInstanceAs (Decidable (_ ∧ _))

instance (s : Cluster ι) : DecidablePred (QuietStep s) :=
  fun a => inferInstanceAs (Decidable a.Quiet)

/-- Both invariants. -/
def Sound (s : Cluster ι) : Prop := Stamps s ∧ Marks s

omit [DecidableEq ι] in
theorem sound_boot {id : ι → String} {epoch : ι → Epoch} {addr : ι → String}
    (hid : Function.Injective id) (haddr : Function.Injective addr) :
    Sound (boot id epoch addr) :=
  ⟨stamps_boot id epoch addr, marks_boot hid haddr⟩

theorem Sound.step (hs : Sound s) (h : step E s a = some t) (hok : WriteStep s a) : Sound t :=
  ⟨hs.1.step h hok.1, hs.2.step hs.1 h hok.1 hok.2⟩

/-- **Watermarks stay honest** in a run of agent and API writes. -/
theorem Sound.run {as : List (Action ι)} (hs : Sound s)
    (hr : Run (Cluster.step E) WriteStep s as t) : Sound t :=
  hr.invariant (I := Sound) (fun _ _ _ hs hok h => hs.step h hok) hs

theorem Sound.rows_advance (hs : Sound s) (h : Cluster.step E s a = some t)
    (hok : WriteStep s a) (k : ι) : (s.node k).store.rows.Advances (t.node k).store.rows :=
  Cluster.rows_advance hs.1 h hok.1 hok.2 k

/-- What quiet steps preserve in sound states lasts through a quiet run. -/
theorem quiet_run {P : Cluster ι → Prop} {bs : List (Action ι)}
    (hP : ∀ s a t, Sound s → P s → QuietStep s a → step E s a = some t → P t)
    (hr : Run (step E) QuietStep s bs t) (hs : Sound s) (hp : P s) : Sound t ∧ P t :=
  hr.invariant (I := fun u => Sound u ∧ P u)
    (fun _ _ _ hu hq h => ⟨hu.1.step h hq.writeStep, hP _ _ _ hu.1 hu.2 hq h⟩) ⟨hs, hp⟩

theorem written_quiet (h : step E s a = some t) (ha : QuietStep s a) {k : ι} {w : Row} :
    (k, w) ∈ t.written ↔ (k, w) ∈ s.written := by
  rw [step_written h]
  refine or_iff_left ?_
  rintro ⟨⟨op, rfl⟩, -⟩
  exact ha

/-- A response of `j` that `i` has yet to apply brings everything `j` wrote. -/
def Complete (s : Cluster ι) (i j : ι) : Prop :=
  ∀ req resp, s.exchange i j = .responded req resp → ∀ w, (j, w) ∈ s.written →
    Brings resp w ∨ (s.node i).store.rows.Covers w

/-- `i` has everything `j` wrote. -/
def CaughtUp (s : Cluster ι) (i j : ι) : Prop :=
  ∀ w, (j, w) ∈ s.written → (s.node i).store.rows.Covers w

/-- A request issued now can only be answered completely, -/
theorem complete_of_request (h : step E s (.request i j) = some t) : Complete t i j := by
  obtain ⟨-, -, rfl⟩ := step_request h
  intro req resp hx
  simp [setExchange_exchange] at hx

/-- as long as nobody writes, -/
theorem Complete.step (hs : Sound s) (hc : Complete s i j)
    (h : step E s a = some t) (ha : QuietStep s a) : Complete t i j := by
  intro req resp hx w hw
  rw [written_quiet h ha] at hw
  have hadv := hs.rows_advance h ha.writeStep i
  rcases responded_cases h hx with hx | ⟨-, hreq, sent, hpull, rfl⟩
  · exact (hc req resp hx w hw).imp_right fun hcov => hcov.advance hadv
  · exact (hs.2.brings_of_pull hreq hpull hw).imp_right fun hcov => hcov.advance hadv

/-- and applying it catches up, -/
theorem caughtUp_of_apply (hs : Sound s) (hc : Complete s i j)
    (h : step E s (.apply i j .ok) = some t) : CaughtUp t i j := by
  intro w hw
  have hq : QuietStep s (.apply i j .ok) := trivial
  rw [written_quiet h hq] at hw
  have hadv := hs.rows_advance h hq.writeStep i
  obtain ⟨req, resp, n, hx, hfin, rfl⟩ := step_apply h
  rcases hc req resp hx w hw with hbr | hcov
  · rcases Node.finishRound_cases hfin with ⟨-, e, he, -⟩ | hrec
    · cases he
    · rw [setExchange_node, setNode_node_self]
      exact covers_of_brings hrec hbr
  · exact hcov.advance hadv

/-- for good. -/
theorem CaughtUp.step (hs : Sound s) (hc : CaughtUp s i j)
    (h : step E s a = some t) (ha : QuietStep s a) : CaughtUp t i j := by
  intro w hw
  rw [written_quiet h ha] at hw
  exact (hc w hw).advance (hs.rows_advance h ha.writeStep i)

/-- One round begun and completed while nobody writes. -/
theorem caughtUp_of_round {b₁ b₂ b₃ : List (Action ι)} (hs : Sound s)
    (hr : Run (Cluster.step E) QuietStep s
      (b₁ ++ .request i j :: b₂ ++ .apply i j .ok :: b₃) t) : CaughtUp t i j := by
  obtain ⟨u₂, h₁₂, h₃⟩ := hr.split
  obtain ⟨u₁, h₁, h₂⟩ := h₁₂.split
  have hs₁ : Sound u₁ := hs.run (h₁.mono fun _ _ h => h.writeStep)
  cases h₂ with
  | cons hq hreq h₂ =>
  cases h₃ with
  | cons hq' happ h₃ =>
  -- the exchange stays complete until it is applied
  obtain ⟨hs₂, hcomp⟩ := quiet_run (P := fun u => Complete u i j)
    (fun _ _ _ hu hc hok h => hc.step hu h hok) h₂ (hs₁.step hreq hq.writeStep)
    (complete_of_request hreq)
  exact (quiet_run (P := fun u => CaughtUp u i j) (fun _ _ _ hu hc hok h => hc.step hu h hok) h₃
    (hs₂.step happ hq'.writeStep) (caughtUp_of_apply hs₂ hcomp happ)).2

omit [DecidableEq ι] in
/-- Version and key determine a written row: the owner tells the node, and
the node uses a timestamp once. -/
theorem Sound.consistent (hs : Sound s) :
    KeyedTable.Consistent Row.version Row.id fun w => ∃ j, (j, w) ∈ s.written := by
  rintro w v ⟨j, hw⟩ ⟨k, hv⟩ hid hver
  obtain ⟨hhlc, howner⟩ := Row.version_eq.mp hver
  have hjk : j = k := hs.2.id_inj
    ((hs.2.owns hw).nodeID_eq (hs.2.owns hv) (Row.id_eq.mp hid).1 howner)
  subst hjk
  exact hs.1.unique hw hv hid hhlc

omit [DecidableEq ι] in
/-- A node that has caught up with every other holds the greatest versions. -/
theorem mem_iff_greatest_of_caughtUp (hs : Sound s) {i : ι} (hc : ∀ j, CaughtUp s i j) (r : Row) :
    r ∈ (s.node i).store.rows ↔
      KeyedTable.Greatest Row.version Row.id (fun w => ∃ j, (j, w) ∈ s.written) r :=
  KeyedTable.mem_iff_greatest hs.consistent (hs.1.written_of_mem i)
    (fun w ⟨j, hw⟩ => hc j w hw) r

/-- **Full-mesh convergence.** However writes and exchanges interleave, once
the writing stops and every node completes one round on every other, each
node holds exactly the greatest version of every key ever written. -/
theorem full_mesh_convergence (E : Env) {id : ι → String} {epoch : ι → Epoch}
    {addr : ι → String} (hid : Function.Injective id) (haddr : Function.Injective addr)
    {s t : Cluster ι} {as bs : List (Action ι)}
    (hrun : Run (step E) WriteStep (boot id epoch addr) as s)
    (hquiet : Run (step E) QuietStep s bs t)
    (hmesh : ∀ i j, i ≠ j →
      ∃ b₁ b₂ b₃, bs = b₁ ++ .request i j :: b₂ ++ .apply i j .ok :: b₃) :
    (∀ i r, r ∈ (t.node i).store.rows ↔
        KeyedTable.Greatest Row.version Row.id (fun w => ∃ j, (j, w) ∈ t.written) r) ∧
      ∀ i j kind key,
        (t.node i).store.rows.get (kind, key) = (t.node j).store.rows.get (kind, key) := by
  have hs : Sound s := (sound_boot hid haddr).run hrun
  have ht : Sound t := hs.run (hquiet.mono fun _ _ h => h.writeStep)
  have hcaught : ∀ i j, CaughtUp t i j := by
    intro i j
    by_cases hij : i = j
    · subst hij
      exact fun w hw => ht.2.keeps hw
    · obtain ⟨b₁, b₂, b₃, rfl⟩ := hmesh i j hij
      exact caughtUp_of_round hs hquiet
  have hgreatest := fun i => mem_iff_greatest_of_caughtUp ht (hcaught i)
  refine ⟨hgreatest, fun i j kind key => ?_⟩
  exact KeyedTable.get_eq_of_mem_iff (fun r => (hgreatest i r).trans (hgreatest j r).symm) _

/-- Two nodes; the write of `n1` falls between the evaluation of a pull and
its application, and a second response is lost. -/
def meshWrites {ι : Type} (i j : ι) : List (Action ι) :=
  [.perform i (.start 100 (Demo.runner 0)), .perform j (.start 90 (Demo.runner 1)),
    .request i j, .serve i j,
    .perform j (.putLabels 95 "n1" (some (some (Demo.labels "zone" "a")))),
    .apply i j .ok, .request j i, .serve j i, .lose j i,
    .perform i (.step 101 (Demo.runner 0))]

theorem two_nodes_converge : ∃ s t : Cluster (Fin 2),
    Run (step .escapeFree) WriteStep (Demo.cluster 2) (meshWrites 0 1) s ∧
      Run (step .escapeFree) QuietStep s (Action.round 1 0 ++ Action.round 0 1) t ∧
      (t.written.length = 4 ∧ ((t.node 0).store.rows.get (kindMeta, "n1")).isSome) ∧
      ∀ i j kind key,
        (t.node i).store.rows.get (kind, key) = (t.node j).store.rows.get (kind, key) := by
  obtain ⟨s, t, hs, ht, hex⟩ : ∃ s t : Cluster (Fin 2),
      Run (step .escapeFree) WriteStep (Demo.cluster 2) (meshWrites 0 1) s ∧
        Run (step .escapeFree) QuietStep s (Action.round 1 0 ++ Action.round 0 1) t ∧
        (t.written.length = 4 ∧ ((t.node 0).store.rows.get (kindMeta, "n1")).isSome) :=
    exists_two_runs (by decide +kernel)
  refine ⟨s, t, hs, ht, hex, ?_⟩
  refine (full_mesh_convergence .escapeFree (by unfold Function.Injective; decide)
    (by unfold Function.Injective; decide) hs ht fun i j hij => ?_).2
  match i, j, hij with
  | 0, 0, h => exact absurd rfl h
  | 1, 1, h => exact absurd rfl h
  | 0, 1, _ => exact ⟨Action.round 1 0, [.serve 0 1], [], rfl⟩
  | 1, 0, _ => exact ⟨[], [.serve 1 0], Action.round 0 1, rfl⟩

end Cluster

end Takl
