import Takl.Cluster.Convergence
import Takl.Lib.Replicas

/-!
# The cluster refines replicas that learn writes

`Takl.Lib.Replicas` is what the replication is for: nodes learn writes, and
each shows the greatest version it has learnt of every key. The pull protocol,
with its watermarks, checksums, resends, responses that overlap, cross and get
lost, is one way of doing that. `Simulates` relates a state of the cluster to
what its nodes have learnt; every step of a run of writes and exchanges is
matched by a step of the abstract replicas, or by none.

Nothing here is about how much gets through, and no topology is assumed: what
a node shows is determined by what it has learnt, on the way to convergence as
well as after it.
-/

namespace Takl

namespace Cluster

open Runs Replicas

variable {ι : Type}

/-- The rows and responses of `s`, in terms of what the nodes have learnt. -/
structure Simulates (s : Cluster ι) (K : Knowledge ι Row) : Prop where
  holds : ∀ i, Holds Row.version (K i) (s.node i).store.rows
  /-- What is on its way the sender has learnt. -/
  flight : ∀ {i j req resp}, s.exchange i j = .responded req resp →
    ∀ r ∈ resp.toRows, r.payload ≠ none → r ∈ K j
  written : ∀ r, (∃ i, r ∈ K i) ↔ ∃ j, (j, r) ∈ s.written

theorem simulates_boot (id : ι → String) (epoch : ι → Epoch) (addr : ι → String) :
    Simulates (boot id epoch addr) fun _ => ∅ where
  holds _ := ⟨fun r hr => absurd hr (KeyedTable.not_mem_empty r), nofun⟩
  flight hx := nomatch hx
  written r := by simp [boot]

variable [DecidableEq ι] {E : Env} {s t : Cluster ι} {a : Action ι} {K : Knowledge ι Row}

/-- Responses stay sourced while knowledge grows. -/
theorem Simulates.flight_step (hs : Simulates s K) (h : step E s a = some t)
    {K' : Knowledge ι Row} (hK : ∀ j, ∀ r ∈ K j, r ∈ K' j) {i j : ι} {req : PullRequest}
    {resp : PullResponse} (hx : t.exchange i j = .responded req resp) :
    ∀ r ∈ resp.toRows, r.payload ≠ none → r ∈ K' j := by
  intro r hr hpay
  rcases responded_cases h hx with hx | ⟨-, -, sent, hpull, rfl⟩
  · exact hK j r (hs.flight hx r hr hpay)
  · obtain ⟨x, hxmem, -, -, rfl⟩ := (Server.mem_delivered hpull).mp hr
    rw [Row.delivered_eq hpay]
    exact hK j x ((hs.holds j).known x hxmem)

/-- A step that changes no table and writes nothing is matched by none. -/
theorem Simulates.stay (hs : Simulates s K) (h : step E s a = some t)
    (hrows : ∀ k, (t.node k).store.rows = (s.node k).store.rows)
    (hwritten : ∀ k r, (k, r) ∈ t.written ↔ (k, r) ∈ s.written) : Simulates t K where
  holds k := hrows k ▸ hs.holds k
  flight hx := hs.flight_step h (fun _ _ hr => hr) hx
  written r := by simp only [hwritten, hs.written]

/-- A node learns something, and its table covers it. -/
theorem Simulates.learn (hs : Simulates s K) (h : step E s a = some t) {i : ι} {S : Set Row}
    (hothers : ∀ k, k ≠ i → t.node k = s.node k)
    (hadv : (s.node i).store.rows.Advances (t.node i).store.rows)
    (hmem : ∀ r ∈ (t.node i).store.rows, r ∈ (s.node i).store.rows ∨ r ∈ S)
    (hcov : ∀ r ∈ S, (t.node i).store.rows.Covers r)
    (hwritten : ∀ r, (∃ j, (j, r) ∈ t.written) ↔ (∃ j, (j, r) ∈ s.written) ∨ r ∈ S) :
    Simulates t (Replicas.learn K i S) where
  holds k := by
    by_cases hk : k = i
    · subst hk
      refine ⟨fun r hr => mem_learn.mpr ?_, fun r hr => ?_⟩
      · exact (hmem r hr).imp ((hs.holds k).known r) fun hS => ⟨rfl, hS⟩
      · rcases mem_learn.mp hr with hr | ⟨-, hr⟩
        · exact ((hs.holds k).covered r hr).advance hadv
        · exact hcov r hr
    · rw [hothers k hk]
      refine ⟨fun r hr => mem_learn.mpr (.inl ((hs.holds k).known r hr)), fun r hr => ?_⟩
      exact (hs.holds k).covered r ((mem_learn.mp hr).resolve_right fun hc => hk hc.1)
  flight hx := hs.flight_step h (fun _ _ hr => mem_learn.mpr (.inl hr)) hx
  written r := by rw [exists_mem_learn, hwritten, hs.written]

theorem written_of_not_perform (h : step E s a = some t) (ha : ∀ i op, a ≠ .perform i op)
    (k : ι) (r : Row) : (k, r) ∈ t.written ↔ (k, r) ∈ s.written := by
  rw [step_written h]
  refine or_iff_left ?_
  rintro ⟨⟨op, hop⟩, -⟩
  exact ha k op hop

/-- **The cluster does nothing the replicas could not do.** -/
theorem Simulates.step (hs : Simulates s K) (hsound : Sound s)
    (h : Cluster.step E s a = some t) (hok : WriteStep s a) :
    ∃ K', Step Row.version Row.id K K' ∧ Simulates t K' := by
  cases a with
  | perform i op =>
    have hother : ∀ k, k ≠ i → t.node k = s.node k := fun _ => node_of_perform_ne h
    have hadv := hsound.rows_advance h hok i
    have hstep := step_node h i
    generalize hn : t.node i = n at hstep
    cases hstep with
    | same =>
      have hrows : ∀ k, t.node k = s.node k := fun k =>
        if hk : k = i then hk ▸ hn else hother k hk
      refine ⟨K, .stay, hs.stay h (fun k => by rw [hrows k]) fun k r => ?_⟩
      rw [step_written h, hrows k]
      exact or_iff_left fun hc => hc.2.2 hc.2.1
    | received hact => cases hact
    | stamped hact hst =>
      cases hact
      rw [← hn] at hst
      rcases hst.rows_of_isWrite hok.2 with hrows | ⟨r, hrows, hhlc, -⟩
      · have hrows : ∀ k, (t.node k).store.rows = (s.node k).store.rows := fun k =>
          if hk : k = i then hk ▸ hrows else by rw [hother k hk]
        refine ⟨K, .stay, hs.stay h hrows fun k r => ?_⟩
        rw [step_written h, hrows k]
        exact or_iff_left fun hc => hc.2.2 hc.2.1
      · -- the row is stamped past everything the node holds
        have hnew : ∀ c ∈ (s.node i).store.rows, c.hlc < r.hlc := fun c hc => by
          rw [hhlc]
          exact (hsound.1.clock_rows i c hc).trans_lt (hst.reading_lt hok.1)
        have hfresh : r ∉ (s.node i).store.rows := fun hc => lt_irrefl _ (hnew r hc)
        refine ⟨Replicas.learn K i {r}, .write fun y hy hid => ?_,
          hs.learn h hother hadv (fun x hx => ?_) (fun x hx => ?_) fun x => ?_⟩
        · obtain ⟨c, hc, -, hle⟩ := (hs.holds i).covered y hy
          exact hle.trans_lt (Row.version_lt_of_hlc_lt (hnew c hc))
        · rw [hrows] at hx
          exact (KeyedTable.mem_upsert.mp hx).symm.imp_left And.left
        · cases hx
          rw [hrows]
          exact KeyedTable.covers_upsert_self _ _
        · simp only [step_written h, exists_or]
          refine or_congr_right ⟨?_, ?_⟩
          · rintro ⟨k, ⟨op', hop⟩, hx, hold⟩
            cases hop
            rw [hrows] at hx
            exact (KeyedTable.mem_upsert.mp hx).resolve_right fun hc => hold hc.1
          · rintro rfl
            exact ⟨i, ⟨op, rfl⟩, hrows ▸ KeyedTable.mem_upsert_self _ _, hfresh⟩
  | apply i j out =>
    have hwritten := written_of_not_perform h (by simp)
    obtain ⟨req, resp, n, hx, hfin, rfl⟩ := step_apply h
    rcases Node.finishRound_cases hfin with ⟨rfl, -⟩ | hrec
    · refine ⟨K, .stay, hs.stay h (fun k => ?_) hwritten⟩
      by_cases hk : k = i
      · subst hk
        simp
      · simp [setNode_node_of_ne _ _ hk]
    · have hni : ((s.setNode i n).setExchange i j .idle).node i = n := by simp
      refine ⟨Replicas.learn K i {r | r ∈ resp.toRows ∧ r.payload ≠ none},
        .receive fun r hr => ⟨j, hs.flight hx r hr.1 hr.2⟩,
        hs.learn h (fun k hk => ?_) ?_ (fun r hr => ?_) (fun r hr => ?_) fun r => ?_⟩
      · simp [setNode_node_of_ne _ _ hk]
      · rw [hni, hrec.rows]
        exact KeyedTable.advances_mergeAll _ _
      · exact hrec.mem_rows (hni ▸ hr)
      · rw [hni, hrec.rows]
        exact KeyedTable.covers_mergeAll hr.1
      · simp only [hwritten]
        refine (or_iff_left_of_imp fun hr => ?_).symm
        exact (hs.written r).mp ⟨j, hs.flight hx r hr.1 hr.2⟩
  | request i j =>
    have hwritten := written_of_not_perform h (by simp)
    obtain ⟨-, -, rfl⟩ := step_request h
    exact ⟨K, .stay, hs.stay h (fun _ => rfl) hwritten⟩
  | serve i j =>
    have hwritten := written_of_not_perform h (by simp)
    obtain ⟨req, -, ⟨resp, -, rfl⟩ | rfl⟩ := step_serve h <;>
      exact ⟨K, .stay, hs.stay h (fun _ => rfl) hwritten⟩
  | lose i j =>
    have hwritten := written_of_not_perform h (by simp)
    obtain rfl := step_lose h
    exact ⟨K, .stay, hs.stay h (fun _ => rfl) hwritten⟩

/-- **A run of the cluster is one of the replicas.** -/
theorem simulates_run {as : List (Action ι)} (hr : Run (Cluster.step E) WriteStep s as t)
    (hsound : Sound s) (hK : Reachable Row.version Row.id K) (hs : Simulates s K) :
    Sound t ∧ ∃ K', Reachable Row.version Row.id K' ∧ Simulates t K' :=
  hr.invariant (I := fun u => Sound u ∧ ∃ K, Reachable Row.version Row.id K ∧ Simulates u K)
    (fun _ _ _ ⟨hu, _, hK, hsim⟩ hok h =>
      ⟨hu.step h hok, by
        obtain ⟨K', hstep, hsim'⟩ := hsim.step hu h hok
        exact ⟨K', hK.step hstep, hsim'⟩⟩)
    ⟨hsound, K, hK, hs⟩

/-- **Refinement.** After every run of writes and exchanges, in any topology
and with any losses, there is what the nodes have learnt: it came about by
nodes learning their own new writes and what others had learnt, it is made of
the rows written, and every node holds exactly the greatest of each key it has
learnt. So two nodes that have learnt the same writes hold the same rows. -/
theorem cluster_refines_replicas (E : Env) {id : ι → String} {epoch : ι → Epoch}
    {addr : ι → String} (hid : Function.Injective id) (haddr : Function.Injective addr)
    {s : Cluster ι} {as : List (Action ι)}
    (hrun : Run (step E) WriteStep (boot id epoch addr) as s) :
    ∃ K : Knowledge ι Row, Reachable Row.version Row.id K ∧
      (∀ r, (∃ i, r ∈ K i) ↔ ∃ j, (j, r) ∈ s.written) ∧
      (∀ i r, r ∈ (s.node i).store.rows ↔
        KeyedTable.Greatest Row.version Row.id (· ∈ K i) r) ∧
      ∀ i j, K i = K j → ∀ kind key,
        (s.node i).store.rows.get (kind, key) = (s.node j).store.rows.get (kind, key) := by
  obtain ⟨hsound, K, hK, hsim⟩ := simulates_run hrun (sound_boot hid haddr) .start
    (simulates_boot id epoch addr)
  have hcons : ∀ i, KeyedTable.Consistent Row.version Row.id (· ∈ K i) := fun i a b ha hb =>
    hsound.consistent a b ((hsim.written a).mp ⟨i, ha⟩) ((hsim.written b).mp ⟨i, hb⟩)
  refine ⟨K, hK, hsim.written, fun i => (hsim.holds i).mem_iff (hcons i),
    fun i j hij kind key => ?_⟩
  exact (hsim.holds i).get_eq (hij ▸ hsim.holds j) (hcons i) (kind, key)

/-- The nodes of `meshWrites`, which do not agree yet. -/
theorem meshWrites_refines : ∃ s : Cluster (Fin 2),
    Run (step .escapeFree) WriteStep (Demo.cluster 2) (meshWrites 0 1) s ∧
      (s.node 0).store.rows.rows ≠ (s.node 1).store.rows.rows ∧
      ∃ K : Knowledge (Fin 2) Row, Reachable Row.version Row.id K ∧
        ∀ i r, r ∈ (s.node i).store.rows ↔
          KeyedTable.Greatest Row.version Row.id (· ∈ K i) r := by
  obtain ⟨s, hs, hne⟩ : ∃ s : Cluster (Fin 2),
      Run (step .escapeFree) WriteStep (Demo.cluster 2) (meshWrites 0 1) s ∧
        (s.node 0).store.rows.rows ≠ (s.node 1).store.rows.rows :=
    exists_run (by decide +kernel)
  obtain ⟨K, hK, -, hrows, -⟩ := cluster_refines_replicas .escapeFree
    (by unfold Function.Injective; decide) (by unfold Function.Injective; decide) hs
  exact ⟨s, hs, hne, K, hK, hrows⟩

end Cluster

end Takl
