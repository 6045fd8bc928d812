import Takl.Cluster.Convergence

/-!
# A version and its content

`Put` and `Delete` sign a row with the writer's own owner string, and a
writer uses a timestamp once, so the rows they write never clash.
`DeleteByNode` is different: it stamps rows with the local clock and leaves
the departed node's signature on them. Two nodes can then sign one version
of one key, and last-write-wins has no way to tell their rows apart.

`PrunesApart` is the condition under which that does no harm; everything
else that runs in a cluster, garbage collection included, is harmless.
-/

namespace Takl

/-- Decidable, so that a run's side conditions can be evaluated. -/
instance (n : Node) (r : Row) : Decidable (n.Owns r) :=
  inferInstanceAs (Decidable ((_ ∧ _) ∨ (_ ∧ _)))

namespace Cluster

open Runs

variable {ι : Type} [DecidableEq ι] {E : Env} {s t : Cluster ι} {a : Action ι}

/-- `i` is about to prune the rows of a departed node: whatever another node
has stored under a version this makes up is the very tombstone it makes. -/
def PruneApart (s : Cluster ι) (i : ι) (now : Int64) (ev : MemberEvent) : Prop :=
  ev.type = .leave → ∀ x ∈ (s.node i).store.rows.rows, Store.ownedBy ev.nodeID x = true →
    ∀ p ∈ s.written, p.1 ≠ i → p.2.id = x.id → p.2.owner = x.owner →
      p.2.hlc = ((s.node i).clock.tick now).1 → p.2.tombstone = true ∧ p.2.payload = x.payload

/-- `i` is about to write: no other node has put a timestamp of its own on a
row of that key that `i` has signed, equal to the one `i` is about to take. -/
def WriteApart (s : Cluster ι) (i : ι) (op : NodeOp) : Prop :=
  ∀ p ∈ s.written, (s.node i).Owns p.2 → ¬(s.node p.1).Owns p.2 → op.target = some p.2.id →
    p.2.hlc ≠ ((s.node i).clock.tick op.now).1

/-- Prunes do not coincide with other stamps of the same key. -/
def PrunesApart (s : Cluster ι) : Action ι → Prop
  | .perform i (.member now ev) => PruneApart s i now ev
  | .perform i op => WriteApart s i op
  | _ => True

instance (s : Cluster ι) (i : ι) (now : Int64) (ev : MemberEvent) :
    Decidable (PruneApart s i now ev) :=
  inferInstanceAs (Decidable (_ → ∀ x ∈ _, _ → ∀ p ∈ _, _ → _ → _ → _ → _ ∧ _))

instance (s : Cluster ι) (i : ι) (op : NodeOp) : Decidable (WriteApart s i op) :=
  inferInstanceAs (Decidable (∀ p ∈ _, _ → _ → _ → _))

instance (s : Cluster ι) : DecidablePred (PrunesApart s)
  | .perform i (.member now ev) => inferInstanceAs (Decidable (PruneApart s i now ev))
  | .perform i (.start now r) => inferInstanceAs (Decidable (WriteApart s i (.start now r)))
  | .perform i (.step now r) => inferInstanceAs (Decidable (WriteApart s i (.step now r)))
  | .perform i (.putLabels now id b) =>
      inferInstanceAs (Decidable (WriteApart s i (.putLabels now id b)))
  | .perform i (.deleteLabels now id) =>
      inferInstanceAs (Decidable (WriteApart s i (.deleteLabels now id)))
  | .perform i (.gc now) => inferInstanceAs (Decidable (WriteApart s i (.gc now)))
  | .request .. | .serve .. | .apply .. | .lose .. => isTrue trivial

omit [DecidableEq ι] in
theorem PrunesApart.write {i : ι} {op : NodeOp} (h : PrunesApart s (.perform i op))
    (hop : op.IsWrite) : WriteApart s i op := by
  cases op with
  | member => exact absurd hop not_false
  | _ => exact h

omit [DecidableEq ι] in
/-- All fields of a row are its key, its version and its content. -/
theorem row_ext {w v : Row} (hid : w.id = v.id) (hver : w.version = v.version)
    (htomb : w.tombstone = v.tombstone) (hpay : w.payload = v.payload) : w = v := by
  obtain ⟨hk, hk'⟩ := Row.id_eq.mp hid
  obtain ⟨hh, ho⟩ := Row.version_eq.mp hver
  cases w
  cases v
  simp_all

omit [DecidableEq ι] in
/-- A new row against one that another node has written before. -/
theorem content_eq_of_apart (hid : Function.Injective fun i => (s.node i).nodeID) {i j : ι}
    {op : NodeOp} {n : Node} {w v : Row}
    (hst : Stamped E (s.node i) op n) (hap : PrunesApart s (.perform i op))
    (hw : w ∈ n.store.rows) (hnew : w ∉ (s.node i).store.rows) (hv : (j, v) ∈ s.written)
    (hji : j ≠ i) (hkey : w.id = v.id) (hver : w.version = v.version) :
    w.tombstone = v.tombstone ∧ w.payload = v.payload := by
  obtain ⟨hhlc, howner⟩ := Row.version_eq.mp hver
  obtain ⟨hkind, -⟩ := Row.id_eq.mp hkey
  -- a signed row would bear `i`'s signature on what `j` has stamped
  have hclash : op.IsWrite → op.target = some w.id → (s.node i).Owns w →
      w.hlc ≠ ((s.node i).clock.tick op.now).1 := by
    intro hop htarget hown hstamp
    have hownv : (s.node i).Owns v := by
      rcases hown with ⟨hk, ho⟩ | ⟨hk, ho⟩
      · exact .inl ⟨hkind ▸ hk, howner ▸ ho⟩
      · exact .inr ⟨hkind ▸ hk, howner ▸ ho⟩
    refine hap.write hop (j, v) hv hownv ?_ (hkey ▸ htarget) (hhlc ▸ hstamp)
    exact fun hownj => hji (hid (hownj.nodeID_eq hownv rfl rfl))
  generalize ht : n.store.rows = t at hw
  have heff := ht ▸ hst.rows
  cases heff with
  | same => exact absurd hw hnew
  | put hop htarget hown hstamp =>
    rcases KeyedTable.mem_upsert.mp hw with rfl | ⟨hw, -⟩
    · exact absurd hstamp (hclash hop htarget hown)
    · exact absurd hw hnew
  | delete =>
    rcases KeyedTable.mem_upsert.mp hw with rfl | ⟨hw, -⟩
    · exact absurd rfl (hclash trivial rfl (.inr ⟨rfl, rfl⟩))
    · exact absurd hw hnew
  | prune htype =>
    rcases Store.mem_deleteByNode.mp hw with ⟨x, hx, hown, rfl⟩ | ⟨hw, -⟩
    · obtain ⟨htomb, hpay⟩ := hap htype x hx hown (j, v) hv hji hkey.symm howner.symm hhlc.symm
      exact ⟨htomb.symm, hpay.symm⟩
    · exact absurd hw hnew
  | collect => exact absurd (Store.mem_gcTombstones.mp hw).1 hnew

/-- A new row against one already in the history. -/
theorem new_eq_old (hs : Stamps s) (hid : Function.Injective fun i => (s.node i).nodeID)
    (h : step E s a = some t) (hnw : s.NoWrap a) (hap : PrunesApart s a) {i j : ι} {w v : Row}
    (hw : (i, w) ∈ t.written) (hnew : (i, w) ∉ s.written) (hv : (j, v) ∈ s.written)
    (hkey : w.id = v.id) (hver : w.version = v.version) : w = v := by
  obtain ⟨⟨op, rfl⟩, hmem, hold⟩ := ((step_written h).mp hw).resolve_left hnew
  obtain ⟨-, -, -, hlt⟩ := (written_new h hnw hw).resolve_left hnew
  have hhlc : w.hlc = v.hlc := (Row.version_eq.mp hver).1
  have hji : j ≠ i := by
    -- a node stamps past everything it has stamped
    rintro rfl
    exact absurd (hs.le_clock hv) (not_le.mpr (hhlc ▸ hlt))
  generalize hn : t.node i = n at hmem
  have hstep := hn ▸ step_node h i
  cases hstep with
  | same => exact absurd hmem hold
  | received ha => cases ha
  | stamped ha hst =>
    cases ha
    obtain ⟨htomb, hpay⟩ := content_eq_of_apart hid hst hap hmem hold hv hji hkey hver
    exact row_ext hkey hver htomb hpay

/-- The history determines content by version. -/
structure Identified (s : Cluster ι) : Prop where
  stamps : Stamps s
  id_inj : Function.Injective fun i => (s.node i).nodeID
  consistent : KeyedTable.Consistent Row.version Row.id fun w => ∃ j, (j, w) ∈ s.written

/-- **No step gives one version two contents.** -/
theorem Identified.step (hs : Identified s) (h : step E s a = some t)
    (hok : s.NoWrap a ∧ PrunesApart s a) : Identified t where
  stamps := hs.stamps.step h hok.1
  id_inj i j hij := hs.id_inj (by simpa only [(step_identity h _).nodeID] using hij)
  consistent := by
    rintro w v ⟨i, hw⟩ ⟨j, hv⟩ hkey hver
    by_cases hwold : (i, w) ∈ s.written <;> by_cases hvold : (j, v) ∈ s.written
    · exact hs.consistent w v ⟨i, hwold⟩ ⟨j, hvold⟩ hkey hver
    · exact (new_eq_old hs.stamps hs.id_inj h hok.1 hok.2 hv hvold hwold hkey.symm hver.symm).symm
    · exact new_eq_old hs.stamps hs.id_inj h hok.1 hok.2 hw hwold hvold hkey hver
    · -- both are new: rows of the one node that has performed
      obtain ⟨⟨op, hop⟩, hwmem, -⟩ := ((step_written h).mp hw).resolve_left hwold
      obtain ⟨⟨op', hop'⟩, hvmem, -⟩ := ((step_written h).mp hv).resolve_left hvold
      cases hop.symm.trans hop'
      exact KeyedTable.eq_of_key_eq hwmem hvmem hkey

/-- **A version identifies its content** in every run whose prunes agree with
what other nodes have stamped under the same version. -/
theorem version_identifies_content (E : Env) {id : ι → String} {epoch : ι → Epoch}
    {addr : ι → String} (hid : Function.Injective id) {s : Cluster ι} {as : List (Action ι)}
    (hrun : Run (step E) (fun s a => s.NoWrap a ∧ PrunesApart s a) (boot id epoch addr) as s)
    (i j : ι) {r r' : Row} (hr : r ∈ (s.node i).store.rows) (hr' : r' ∈ (s.node j).store.rows)
    (hkind : r.kind = r'.kind) (hkey : r.key = r'.key) (hhlc : r.hlc = r'.hlc)
    (howner : r.owner = r'.owner) :
    r.tombstone = r'.tombstone ∧ r.payload = r'.payload := by
  have hboot : Identified (boot id epoch addr) :=
    ⟨stamps_boot id epoch addr, hid, fun w _ ⟨_, hw⟩ => nomatch hw⟩
  have hs : Identified s :=
    hrun.invariant (I := Identified) (fun _ _ _ hs hok h => hs.step h hok) hboot
  have heq : r = r' := hs.consistent r r' (hs.stamps.written_of_mem i r hr)
    (hs.stamps.written_of_mem j r' hr') (Row.id_eq.mpr ⟨hkind, hkey⟩)
    (Row.version_eq.mpr ⟨hhlc, howner⟩)
  rw [heq]
  exact ⟨rfl, rfl⟩

/-- Two nodes notice the departure of `n0` in the same millisecond and prune
its row alike. -/
def prunedTwice {ι : Type} (i j k : ι) : List (Action ι) :=
  [.perform i (.start 100 (Demo.runner 0))] ++ Action.round j i ++ Action.round k i ++
    [.perform j (.member 200 ⟨.leave, "n0", "10.0.0.1"⟩),
      .perform k (.member 200 ⟨.leave, "n0", "10.0.0.1"⟩)]

theorem pruned_twice_agrees : ∃ s : Cluster (Fin 3),
    Run (step .escapeFree) (fun s a => s.NoWrap a ∧ PrunesApart s a) (Demo.cluster 3)
        (prunedTwice 0 1 2) s ∧
      ∃ r ∈ (s.node 1).store.rows, ∃ r' ∈ (s.node 2).store.rows,
        (r.kind = r'.kind ∧ r.key = r'.key ∧ r.hlc = r'.hlc ∧ r.owner = r'.owner) ∧
          r.tombstone = r'.tombstone ∧ r.payload = r'.payload := by
  obtain ⟨s, hs, r, hr, r', hr', hkind, hkey, hhlc, howner⟩ : ∃ s : Cluster (Fin 3),
      Run (step .escapeFree) (fun s a => s.NoWrap a ∧ PrunesApart s a) (Demo.cluster 3)
          (prunedTwice 0 1 2) s ∧
        ∃ r ∈ (s.node 1).store.rows, ∃ r' ∈ (s.node 2).store.rows,
          r.kind = r'.kind ∧ r.key = r'.key ∧ r.hlc = r'.hlc ∧ r.owner = r'.owner :=
    exists_run (by decide +kernel)
  refine ⟨s, hs, r, hr, r', hr', ⟨hkind, hkey, hhlc, howner⟩, ?_⟩
  exact version_identifies_content .escapeFree (by unfold Function.Injective; decide)
    hs 1 2 hr hr' hkind hkey hhlc howner

/-- `n1` takes `n0` for departed and prunes its row in the millisecond in
which `n0` steps. -/
def prunedAlive {ι : Type} (i j : ι) : List (Action ι) :=
  [.perform i (.start 100 (Demo.runner 0))] ++ Action.round j i ++
    [.perform i (.step 200 (Demo.runner 0)),
      .perform j (.member 200 ⟨.leave, "n0", "10.0.0.1"⟩)] ++
    Action.round i j ++ Action.round j i

/-- One version, a live row at `n0` and a tombstone at `n1`; pulling in both
directions has not reconciled them. -/
theorem pruned_alive_clashes : ∃ s : Cluster (Fin 2),
    Run (step .escapeFree) NoWrap (Demo.cluster 2) (prunedAlive 0 1) s ∧
      ∃ r ∈ (s.node 0).store.rows, ∃ r' ∈ (s.node 1).store.rows,
        r.kind = r'.kind ∧ r.key = r'.key ∧ r.hlc = r'.hlc ∧ r.owner = r'.owner ∧
          r.tombstone = false ∧ r'.tombstone = true := by
  exact exists_run (by decide +kernel)

end Cluster

end Takl
