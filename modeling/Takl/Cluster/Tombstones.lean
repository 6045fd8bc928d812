import Takl.Cluster.Stamps

/-!
# Deleted rows and garbage collection

Nothing but garbage collection takes a version away from a node. As long as
a tombstone is there, last-write-wins keeps older rows out; once it has been
collected, an older live row may return from a peer that still has it, or be
written by a node whose clock is behind.

`Settled` says that neither can happen any more for a given tombstone. It
lasts once it holds, so collecting settled tombstones only is safe.
-/

namespace Takl

namespace Cluster

open Runs

variable {ι : Type} {s : Cluster ι}

/-- No live row older than `x` is left in a store or in flight, and no clock
can stamp one. -/
structure Settled (s : Cluster ι) (x : Row) : Prop where
  rows : ∀ k, ∀ y ∈ (s.node k).store.rows.rows, y.id = x.id → y.tombstone = false →
    x.version ≤ y.version
  flight : ∀ k l, ∀ y ∈ (s.exchange k l).rows, y.id = x.id → y.tombstone = false →
    x.version ≤ y.version
  clocks : ∀ k, x.hlc ≤ (s.node k).clock.reading

/-- What is settled for a version is settled for the ones before it. -/
theorem Settled.of_le {x y : Row} (h : Settled s y) (hid : x.id = y.id)
    (hv : x.version ≤ y.version) : Settled s x where
  rows k z hz hzid hlive := hv.trans (h.rows k z hz (hzid.trans hid) hlive)
  flight k l z hz hzid hlive := hv.trans (h.flight k l z hz (hzid.trans hid) hlive)
  clocks k := (Row.hlc_le_of_version_le hv).trans (h.clocks k)

/-- A collection removes settled tombstones only. -/
def GcSettled (s : Cluster ι) : Action ι → Prop
  | .perform i (.gc now) =>
      ∀ x ∈ (s.node i).store.rows.rows,
        Store.collectable ((s.node i).gcFloor now) x = true → Settled s x
  | _ => True

variable [DecidableEq ι] {E : Env} {t : Cluster ι} {a : Action ι} {i : ι}

/-- **Settled stays settled**: stored rows come from what is stored, from what
is in flight, or from a clock. -/
theorem Settled.step {x : Row} (hx : Settled s x) (h : step E s a = some t) (hnw : s.NoWrap a) :
    Settled t x where
  rows k y hy hid hlive := by
    generalize hn : t.node k = n at hy
    have hstep := hn ▸ step_node h k
    cases hstep with
    | same => exact hx.rows k y hy hid hlive
    | stamped ha hst =>
      subst ha
      by_cases hold : y ∈ (s.node k).store.rows
      · exact hx.rows k y hold hid hlive
      · refine (Row.version_lt_of_hlc_lt ?_).le
        rw [hst.hlc_of_new hy hold]
        exact (hx.clocks k).trans_lt (hst.reading_lt hnw)
    | @received l _ req resp _ _ hxch hrec =>
      rcases hrec.mem_rows hy with hold | ⟨hnew, -⟩
      · exact hx.rows k y hold hid hlive
      · refine hx.flight k l y ?_ hid hlive
        rwa [hxch]
  flight k l y hy hid hlive := by
    have hstep := step_exchange h k l
    generalize t.exchange k l = x at hy hstep
    cases hstep with
    | same => exact hx.flight k l y hy hid hlive
    | idle => cases hy
    | requested => cases hy
    | responded _ _ hpull =>
      obtain ⟨z, hz, -, -, rfl⟩ := (Server.mem_delivered hpull).mp hy
      exact hx.rows l z hz hid hlive
  clocks k := (hx.clocks k).trans (clock_mono h hnw k)

/-- A covered version is lost to garbage collection only. -/
theorem covers_step (hs : Stamps s) (h : step E s a = some t) (hnw : s.NoWrap a) {x : Row}
    (hx : (s.node i).store.rows.Covers x) :
    (t.node i).store.rows.Covers x ∨
      ∃ now, a = .perform i (.gc now) ∧ ∃ y ∈ (s.node i).store.rows, y.id = x.id ∧
        x.version ≤ y.version ∧ Store.collectable ((s.node i).gcFloor now) y = true := by
  obtain ⟨y, hy, hid, hv⟩ := hx
  generalize hn : t.node i = n
  have hstep := hn ▸ step_node h i
  cases hstep with
  | same => exact .inl ⟨y, hy, hid, hv⟩
  | received _ _ hrec =>
    left
    rw [hrec.rows]
    exact (KeyedTable.covers_of_mem hy).advance (KeyedTable.advances_mergeAll _ _)
      |>.of_le hid.symm hv
  | @stamped op _ ha hst =>
    subst ha
    -- whatever the operation stamps is past every row of the node
    have hnewer : ∀ w : Row, w.hlc = n.clock.reading → y.version ≤ w.version := by
      intro w hw
      refine (Row.version_lt_of_hlc_lt ?_).le
      rw [hw]
      exact (hs.clock_rows i y hy).trans_lt (hst.reading_lt hnw)
    have hupsert : ∀ w : Row, w.hlc = n.clock.reading →
        KeyedTable.Covers Row.version ((s.node i).store.rows.upsert w) x := by
      intro w hw
      by_cases hwy : y.id = w.id
      · exact ⟨w, KeyedTable.mem_upsert_self _ _, hwy.symm.trans hid, hv.trans (hnewer w hw)⟩
      · exact ⟨y, KeyedTable.mem_upsert_of_ne hy hwy, hid, hv⟩
    have hread := hst.reading
    generalize ht : n.store.rows = rows
    have heff := ht ▸ hst.rows
    cases heff with
    | same => exact .inl ⟨y, hy, hid, hv⟩
    | put _ _ _ hhlc => exact .inl (hupsert _ (hhlc.trans hread.symm))
    | delete => exact .inl (hupsert _ hread.symm)
    | @prune now ev _ =>
      left
      by_cases hown : Store.ownedBy ev.nodeID y = true
      · exact ⟨Store.entomb _ y, Store.mem_deleteByNode.mpr (.inl ⟨y, hy, hown, rfl⟩), hid,
          hv.trans (hnewer _ hread.symm)⟩
      · exact ⟨y, Store.mem_deleteByNode.mpr (.inr ⟨hy, Bool.eq_false_iff.mpr hown⟩), hid, hv⟩
    | @collect now =>
      by_cases hc : Store.collectable ((s.node i).gcFloor now) y = true
      · exact .inr ⟨now, rfl, y, hy, hid, hv, hc⟩
      · exact .inl ⟨y, Store.mem_gcTombstones.mpr ⟨hy, Bool.eq_false_iff.mpr hc⟩, hid, hv⟩

/-- `i` is safe from rows older than `x`: it holds something as new, or there
are none. -/
def Guarded (s : Cluster ι) (i : ι) (x : Row) : Prop :=
  (s.node i).store.rows.Covers x ∨ Settled s x

/-- **A guard lasts**: what has been covered is lost to settled collections
only, and then nothing older is left. -/
theorem Guarded.step {x : Row} (hs : Stamps s) (hx : Guarded s i x) (h : step E s a = some t)
    (hok : s.NoWrap a ∧ GcSettled s a) : Guarded t i x := by
  rcases hx with hcov | hset
  · rcases covers_step hs h hok.1 hcov with hcov | ⟨now, rfl, y, hy, hid, hv, hc⟩
    · exact .inl hcov
    · have hset : Settled s y := hok.2 y hy hc
      exact .inr ((hset.of_le hid.symm hv).step h hok.1)
  · exact .inr (hset.step h hok.1)

/-- **Deleted rows stay deleted** in every run whose collections remove
settled tombstones only: a node that has held a row, in particular a
tombstone, never holds an older live row of that key again. -/
theorem deleted_stays_deleted (E : Env) {id : ι → String} {epoch : ι → Epoch}
    {addr : ι → String} {s t : Cluster ι} {as bs : List (Action ι)}
    (hrun : Run (step E) (fun s a => s.NoWrap a ∧ GcSettled s a) (boot id epoch addr) as s)
    (hrun' : Run (step E) (fun s a => s.NoWrap a ∧ GcSettled s a) s bs t)
    {i : ι} {x y : Row} (hx : x ∈ (s.node i).store.rows) (hy : y ∈ (t.node i).store.rows)
    (hkind : y.kind = x.kind) (hkey : y.key = x.key) (hlive : y.tombstone = false) :
    newer x y = false := by
  have hs : Stamps s :=
    (stamps_boot id epoch addr).run (hrun.mono fun _ _ hok => hok.1)
  obtain ⟨-, hguard⟩ := hrun'.invariant (I := fun u => Stamps u ∧ Guarded u i x)
    (fun _ _ _ hu hok h => ⟨hu.1.step h hok.1, hu.2.step hu.1 h hok⟩)
    ⟨hs, .inl (KeyedTable.covers_of_mem hx)⟩
  have hid : y.id = x.id := Row.id_eq.mpr ⟨hkind, hkey⟩
  rw [newer_eq_false]
  rcases hguard with ⟨z, hz, hzid, hv⟩ | hset
  · rwa [KeyedTable.eq_of_key_eq hz hy (hzid.trans hid.symm)] at hv
  · exact hset.rows i y hy hid hlive

instance {n : Nat} (s : Cluster (Fin n)) (x : Row) : Decidable (Settled s x) :=
  decidable_of_iff
    ((∀ k, ∀ y ∈ (s.node k).store.rows.rows, y.id = x.id → y.tombstone = false →
        x.version ≤ y.version) ∧
      (∀ k l, ∀ y ∈ (s.exchange k l).rows, y.id = x.id → y.tombstone = false →
        x.version ≤ y.version) ∧
      ∀ k, x.hlc ≤ (s.node k).clock.reading)
    ⟨fun h => ⟨h.1, h.2.1, h.2.2⟩, fun h => ⟨h.rows, h.flight, h.clocks⟩⟩

instance {n : Nat} (s : Cluster (Fin n)) : DecidablePred (GcSettled s)
  | .perform i (.gc now) => inferInstanceAs (Decidable
      (∀ x ∈ (s.node i).store.rows.rows,
        Store.collectable ((s.node i).gcFloor now) x = true → Settled s x))
  | .perform _ (.start ..) | .perform _ (.step ..) | .perform _ (.putLabels ..)
  | .perform _ (.deleteLabels ..) | .perform _ (.member ..)
  | .request .. | .serve .. | .apply .. | .lose .. => isTrue trivial

/-- `n1` has pulled a label row of `n0` that `n0` then deletes. -/
def labelDeleted {ι : Type} (i j : ι) : List (Action ι) :=
  [.perform i (.start 100 (Demo.runner 0)), .perform j (.start 100 (Demo.runner 1)),
    .perform i (.putLabels 101 "n0" (some (some (Demo.labels "zone" "a"))))] ++
    Action.round j i ++ [.perform i (.deleteLabels 200 "n0")]

/-- `n0` collects the tombstone two hours later and pulls from `n1`. -/
def collectAndPull {ι : Type} (i j : ι) : List (Action ι) :=
  .perform i (.gc 7200200) :: Action.round i j

/-- If `n1` has pulled the tombstone in between, all is well. -/
theorem collected_after_pull : ∃ s t : Cluster (Fin 2),
    Run (step .escapeFree) (fun s a => s.NoWrap a ∧ GcSettled s a) (Demo.cluster 2)
        (labelDeleted 0 1) s ∧
      Run (step .escapeFree) (fun s a => s.NoWrap a ∧ GcSettled s a) s
        (Action.round 1 0 ++ collectAndPull 0 1) t ∧
      ∃ x ∈ (s.node 0).store.rows, x.kind = kindMeta ∧ x.tombstone = true ∧
        ∀ y ∈ (t.node 0).store.rows, y.kind = x.kind → y.key = x.key → y.tombstone = false →
          newer x y = false := by
  obtain ⟨s, t, hs, ht, x, hx, hk, htomb⟩ : ∃ s t : Cluster (Fin 2),
      Run (step .escapeFree) (fun s a => s.NoWrap a ∧ GcSettled s a) (Demo.cluster 2)
          (labelDeleted 0 1) s ∧
        Run (step .escapeFree) (fun s a => s.NoWrap a ∧ GcSettled s a) s
          (Action.round 1 0 ++ collectAndPull 0 1) t ∧
        ∃ x ∈ (s.node 0).store.rows, x.kind = kindMeta ∧ x.tombstone = true :=
    exists_two_runs (by decide +kernel)
  refine ⟨s, t, hs, ht, x, hx, hk, htomb, fun y hy hkind hkey hlive => ?_⟩
  exact deleted_stays_deleted .escapeFree hs ht hx hy hkind hkey hlive

/-- Otherwise the deleted row comes back from `n1`. -/
theorem collected_too_early : ∃ s t : Cluster (Fin 2),
    Run (step .escapeFree) NoWrap (Demo.cluster 2) (labelDeleted 0 1) s ∧
      Run (step .escapeFree) NoWrap s (collectAndPull 0 1) t ∧
      ∃ x ∈ (s.node 0).store.rows, x.tombstone = true ∧
        ∃ y ∈ (t.node 0).store.rows, y.kind = x.kind ∧ y.key = x.key ∧ y.tombstone = false ∧
          newer x y = true := by
  exact exists_two_runs (by decide +kernel)

end Cluster

end Takl
