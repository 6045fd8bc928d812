import Takl.Node.Effect

/-!
# Rows a peer cannot store

A zero-length payload is fine in the node's own table. It goes over the wire
as nothing, comes back as nil, binds as NULL, and the constraint rolls back
the puller's whole batch; the watermark stays, so the next round gets the
same batch. `Node.Replicable` says that this happens to no puller.

The one operation that stores such a row is a label DELETE on a key without
a label row: `Store.Delete` writes `[]byte{}` there and keeps the old payload
otherwise.
-/

namespace Takl

namespace Node

/-- Whoever asks the node for rows, for whatever rows, can store what it
gets. -/
def Replicable (E : Env) (n : Node) : Prop :=
  ∀ (a : Store) (peer : String) (req : PullRequest) (resp : PullResponse),
    n.server.pull E req = some resp → ∃ st, a.applyRemote peer resp.wire.toRows = .ok st

/-- No stored payload is empty. -/
def PayloadsKept (n : Node) : Prop := ∀ r ∈ n.store.rows, r.payload ≠ some []

theorem PayloadsKept.replicable {E : Env} {n : Node} (h : n.PayloadsKept) :
    n.Replicable E := by
  intro a peer req resp hresp
  refine Store.applyRemote_total _ _ fun r hr => ?_
  obtain ⟨x, hx, -, -, rfl⟩ := (Server.mem_delivered hresp).mp hr
  have hpay : x.delivered.payload = x.payload := if_neg (h x hx)
  rw [hpay]
  exact n.store.payload_notNull x hx

/-- A request for all rows and no events. -/
def allRows : PullRequest :=
  { watermarks := kinds.map fun kind => (kind.name, ⟨Int64.minValue, Int64.minValue⟩)
    checksums := []
    eventWatermark := some ⟨Int64.maxValue, Int64.maxValue⟩
    eventChecksum := 0 }

theorem eventsSince_max (E : Env) (st : Store) :
    st.eventsSince E ⟨Int64.maxValue, Int64.maxValue⟩ = some [] := by
  have hnone : (st.events.rows.filter fun e =>
      e.hlc.beyond ⟨Int64.maxValue, Int64.maxValue⟩) = [] := by
    refine List.filter_eq_nil_iff.mpr fun e _ => ?_
    rw [HLC.beyond_iff, HLC.lt_iff]
    rintro (h | ⟨-, h⟩)
    · exact absurd h (Int64.not_lt.mpr (Int64.le_maxValue _))
    · exact absurd h (Int64.not_lt.mpr (Int64.le_maxValue _))
  simp [Store.eventsSince, hnone]

theorem pull_allRows (E : Env) (s : Server) : ∃ resp, s.pull E allRows = some resp := by
  have hev : s.pullEvents E allRows = some [] := by
    simp [Server.pullEvents, allRows, eventsSince_max]
  exact ⟨_, by rw [Server.pull, hev, Option.map_some]⟩

theorem floor_allRows (s : Server) {kind : Kind} (hkind : kind ∈ kinds) :
    s.floor allRows kind = ⟨Int64.minValue, Int64.minValue⟩ := by
  have hwm : Server.requestedWatermark allRows kind = ⟨Int64.minValue, Int64.minValue⟩ := by
    simp only [kinds, List.mem_cons, List.not_mem_nil, or_false] at hkind
    rcases hkind with rfl | rfl <;> rfl
  rw [Server.floor, if_neg fun h => h.2.1 rfl, hwm]

/-- **One empty payload is enough**: an empty store rolls back. -/
theorem not_replicable {E : Env} {n : Node} {r : Row} (hr : r ∈ n.store.rows)
    (hkind : r.kind ∈ kinds) (hts : 0 ≤ r.hlc.ts) (hempty : r.payload = some []) :
    ¬ n.Replicable E := by
  intro h
  obtain ⟨resp, hresp⟩ := pull_allRows E n.server
  obtain ⟨st, hst⟩ := h .fresh "" _ resp hresp
  have hrows := (Store.applyRemote_ok hst).rows
  have hfloor : (⟨Int64.minValue, Int64.minValue⟩ : HLC) < r.hlc :=
    HLC.lt_iff.mpr (.inl (Int64.lt_of_lt_of_le (by decide) hts))
  have hsent : r.delivered ∈ resp.wire.toRows :=
    (Server.mem_delivered hresp).mpr ⟨r, hr, hkind, by rwa [floor_allRows _ hkind], rfl⟩
  -- what the store holds for the key afterwards came with the batch, so it is this row
  obtain ⟨y, hy, hid, -⟩ : RowTable.Covers st.rows r.delivered :=
    hrows ▸ KeyedTable.covers_mergeAll hsent
  rcases KeyedTable.mem_of_mem_mergeAll (hrows ▸ hy) with hold | hnew
  · exact absurd hold (KeyedTable.not_mem_empty y)
  · obtain ⟨x, hx, -, -, rfl⟩ := (Server.mem_delivered hresp).mp hnew
    have hxr : x = r := KeyedTable.eq_of_key_eq hx hr hid
    refine st.payload_notNull _ hy ?_
    rw [hxr]
    exact if_pos hempty

/-! ## The operations -/

/-- A payload that is read back is the one stored. -/
theorem deletePayload_ne_nil {E : Env} {n : Node} (h : n.PayloadsKept) {kind : Kind} {key : String}
    (hhit : (n.store.rows.get (kind, key)).isSome) :
    n.store.deletePayload E kind key ≠ some [] := by
  obtain ⟨cur, hcur⟩ := Option.isSome_iff_exists.mp hhit
  simp only [Store.deletePayload, Store.get, hcur, Option.map_some, Store.scanRow]
  split
  · exact (Option.some_ne_none _).symm
  · exact h cur (KeyedTable.get_eq_some.mp hcur).1

/-- The condition on an operation: a label DELETE finds a label row. -/
def DeleteHits (n : Node) : NodeOp → Prop
  | .deleteLabels _ id => (n.store.rows.get (kindMeta, id)).isSome
  | _ => True

instance (n : Node) : DecidablePred n.DeleteHits
  | .deleteLabels _ id => inferInstanceAs (Decidable ((n.store.rows.get (kindMeta, id)).isSome))
  | .start .. | .step .. | .putLabels .. | .member .. | .gc .. => isTrue trivial

/-- **No operation empties a payload**, deletions of labels that find none
apart. -/
theorem PayloadsKept.exec {E : Env} {n : Node} {op : NodeOp} (h : n.PayloadsKept)
    (hhit : n.DeleteHits op) : (op.exec E n).PayloadsKept := by
  intro r hr
  rcases op.exec_cases E n with he | he
  · exact h r (he ▸ hr)
  generalize ht : (op.exec E n).store.rows = t at hr
  have heff := ht ▸ he.rows
  cases heff with
  | same => exact h r hr
  | put _ _ _ _ _ hpayload hb =>
    rcases KeyedTable.mem_upsert.mp hr with rfl | ⟨hr, -⟩
    · rw [hpayload]
      exact fun hc => hb (Option.some.inj hc)
    · exact h r hr
  | delete hpayload =>
    rcases KeyedTable.mem_upsert.mp hr with rfl | ⟨hr, -⟩
    · exact hpayload ▸ deletePayload_ne_nil h hhit
    · exact h r hr
  | prune =>
    rcases Store.mem_deleteByNode.mp hr with ⟨x, hx, -, rfl⟩ | ⟨hr, -⟩
    · exact h x hx
    · exact h r hr
  | collect => exact h r (Store.mem_gcTombstones.mp hr).1

/-- A DELETE that finds no row writes an empty payload. -/
theorem empty_of_delete (E : Env) (n : Node) (now : Int64) {id : String}
    (hmiss : n.store.rows.get (kindMeta, id) = none) :
    Store.tombstoneRow kindMeta id n.apiOwner (n.clock.tick now).1 (some []) ∈
      (NodeOp.exec E n (.deleteLabels now id)).store.rows := by
  have hpay : n.store.deletePayload E kindMeta id = some [] := by
    simp [Store.deletePayload, Store.get, hmiss]
  rcases call_cases { n with clock := (n.clock.tick now).2 } fun st =>
    st.delete E kindMeta id n.apiOwner (n.clock.tick now).1 with ⟨st, h1, h2⟩ | ⟨e, h1, -⟩
  · obtain ⟨hrows, -⟩ := Store.upsert_ok h1
    rw [hpay] at hrows
    simp only [NodeOp.exec, handleDeleteLabels, tick, apiOwner] at h2 ⊢
    rw [h2]
    simp only [hrows]
    exact KeyedTable.mem_upsert_self _ _
  · simp [Store.delete, Store.upsert, Store.tombstoneRow, hpay] at h1

/-! ## Sequences of operations -/

/-- The node after some operations. -/
def performAll (E : Env) (n : Node) (ops : List NodeOp) : Node := ops.foldl (NodeOp.exec E) n

theorem performAll_take_succ (E : Env) (n : Node) {ops : List NodeOp} {k : Nat} {op : NodeOp}
    (h : ops[k]? = some op) :
    n.performAll E (ops.take (k + 1)) = op.exec E (n.performAll E (ops.take k)) := by
  rw [List.take_add_one, h, performAll, List.foldl_append]
  rfl

theorem performAll_take_of_none (E : Env) (n : Node) {ops : List NodeOp} {k : Nat}
    (h : ops[k]? = none) :
    n.performAll E (ops.take (k + 1)) = n.performAll E (ops.take k) := by
  rw [List.take_add_one, h, Option.toList_none, List.append_nil]

/-- What every operation preserves holds along the sequence. -/
theorem performAll_invariant {E : Env} {n : Node} {ops : List NodeOp} {I : Node → Prop}
    (h0 : I n) (hstep : ∀ k op, ops[k]? = some op → I (n.performAll E (ops.take k)) →
      I (op.exec E (n.performAll E (ops.take k)))) (k : Nat) :
    I (n.performAll E (ops.take k)) := by
  induction k with
  | zero => exact h0
  | succ k ih =>
    cases hop : ops[k]? with
    | none => exact performAll_take_of_none E n hop ▸ ih
    | some op => exact performAll_take_succ E n hop ▸ hstep k op hop ih

/-- The clock of a node never falls below where it started. -/
theorem zero_le_ts (E : Env) (nodeID : String) (epoch : Epoch) (syncAddr : String)
    (ops : List NodeOp) (k : Nat) :
    0 ≤ ((fresh nodeID epoch syncAddr).performAll E (ops.take k)).clock.ts := by
  have hfresh : 0 ≤ (fresh nodeID epoch syncAddr).clock.ts := Int64.le_refl 0
  refine performAll_invariant (I := fun n => 0 ≤ n.clock.ts) hfresh (fun k op hop hle => ?_) k
  rcases op.exec_cases E ((fresh nodeID epoch syncAddr).performAll E (ops.take k)) with he | he
  · rwa [he]
  · rw [he.clock]
    exact Int64.le_trans hle (Clock.ts_le_tick _ _)

/-- **A node stays replicable exactly as long as its label DELETEs find a
row.** Along any sequence of operations of a node that starts on an empty
database, every state can be pulled by everybody if and only if every DELETE
in it is for a key that has a label row then. -/
theorem replicable_iff_deletes_hit (E : Env) (nodeID : String) (epoch : Epoch) (syncAddr : String)
    (ops : List NodeOp) :
    (∀ k, ((fresh nodeID epoch syncAddr).performAll E (ops.take k)).Replicable E) ↔
      ∀ k op, ops[k]? = some op →
        ((fresh nodeID epoch syncAddr).performAll E (ops.take k)).DeleteHits op := by
  constructor
  · intro h k op hop
    cases op with
    | deleteLabels now id =>
      by_contra hmiss
      -- the DELETE leaves a state with an empty payload
      have hempty := empty_of_delete E _ now (Option.not_isSome_iff_eq_none.mp hmiss)
      have hnext := h (k + 1)
      rw [performAll_take_succ E _ hop] at hnext
      refine not_replicable hempty (show kindMeta ∈ kinds by decide) ?_ rfl hnext
      exact Int64.le_trans (zero_le_ts E nodeID epoch syncAddr ops k) (Clock.ts_le_tick _ now)
    | start | step | putLabels | member | gc => exact trivial
  · intro h k
    refine (performAll_invariant (I := PayloadsKept) (fun r hr => ?_)
      (fun k op hop hkept => hkept.exec (h k op hop)) k).replicable
    exact absurd hr (KeyedTable.not_mem_empty r)

/-- Start, label, remove the labels, remove them again. -/
def labelsRemoved : List NodeOp :=
  [.start 10 (Demo.runner 0), .putLabels 11 "n0" (some (some (Demo.labels "zone" "a"))),
    .deleteLabels 12 "n0", .deleteLabels 12 "n0", .step 13 (Demo.runner 0)]

/-- The node the two runs below are of. -/
def labelled (ops : List NodeOp) : Node :=
  (fresh (Demo.nodeID 0) Demo.epoch "10.0.0.0:7001").performAll .escapeFree ops

theorem labels_removed_replicable :
    (∃ r ∈ (labelled labelsRemoved).store.rows.rows, r.kind = kindMeta ∧ r.tombstone = true) ∧
      ∀ k, (labelled (labelsRemoved.take k)).Replicable .escapeFree := by
  have hall : ∀ i : Fin labelsRemoved.length,
      (labelled (labelsRemoved.take i)).DeleteHits (labelsRemoved.get i) := by
    decide +kernel
  have htomb : ∃ r ∈ (labelled labelsRemoved).store.rows.rows,
      r.kind = kindMeta ∧ r.tombstone = true := by
    decide +kernel
  refine ⟨htomb, ?_⟩
  unfold labelled
  rw [replicable_iff_deletes_hit]
  intro k op hop
  obtain ⟨hk, rfl⟩ := List.getElem?_eq_some_iff.mp hop
  exact hall ⟨k, hk⟩

/-- A DELETE for a runner nobody has heard of is answered 204, and a peer
that pulls afterwards fails and is left as it was, to fail again. -/
theorem ghost_delete_wedges : ∃ resp,
    (labelled [.deleteLabels 5 "ghost"]).server.pull .escapeFree
        ((fresh (Demo.nodeID 1) Demo.epoch "10.0.0.1:7001").request "10.0.0.0:7001") =
      some resp ∧
    ((labelled []).handleDeleteLabels .escapeFree 5 "ghost").2.status = 204 ∧
    (fresh (Demo.nodeID 1) Demo.epoch "10.0.0.1:7001").finishRound .escapeFree "10.0.0.0:7001"
        HLC.zero resp.wire =
      (fresh (Demo.nodeID 1) Demo.epoch "10.0.0.1:7001", .failed .notNull) := by
  have hex : ((labelled [.deleteLabels 5 "ghost"]).server.pull .escapeFree
        ((fresh (Demo.nodeID 1) Demo.epoch "10.0.0.1:7001").request "10.0.0.0:7001")).map
      (fun resp => ((fresh (Demo.nodeID 1) Demo.epoch "10.0.0.1:7001").finishRound .escapeFree
        "10.0.0.0:7001" HLC.zero resp.wire).2) = some (.failed .notNull) := by
    decide +kernel
  obtain ⟨resp, hresp, hout⟩ := Option.map_eq_some_iff.mp hex
  refine ⟨resp, hresp, by decide +kernel, ?_⟩
  generalize hround : (fresh (Demo.nodeID 1) Demo.epoch "10.0.0.1:7001").finishRound .escapeFree
    "10.0.0.0:7001" HLC.zero resp.wire = round at hout ⊢
  obtain ⟨a, out⟩ := round
  cases hout
  exact congrArg (·, Outcome.failed .notNull) (eq_of_finishRound_failed hround)

end Node

end Takl
