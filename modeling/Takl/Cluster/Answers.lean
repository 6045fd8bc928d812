import Takl.Api.Aggregates
import Takl.Api.Labels
import Takl.Api.Provenance
import Takl.Cluster.Convergence
import Takl.Membership.Peers

/-!
# Any node answers for the cluster

The parts put together: gossip tells a node its peers, the sync engine pulls
from each of them, the tables become equal, and the API answers from the
table. Once the writing has stopped and every node has pulled once from each
peer that its `peerProvider` hands out, it does not matter which node is
asked.
-/

namespace Takl

namespace Cluster

open Runs Gossip

variable {ι : Type} [DecidableEq ι]

/-- `i` completes a round on `j` in the run through `bs`. -/
def Completes (bs : List (Action ι)) (i j : ι) : Prop :=
  ∃ b₁ b₂ b₃, bs = b₁ ++ .request i j :: b₂ ++ .apply i j .ok :: b₃

omit [DecidableEq ι] in
/-- Every node has caught up with every other. -/
theorem sameRows_of_caughtUp {s : Cluster ι} (hs : Sound s) (hc : ∀ i j, CaughtUp s i j)
    (i j : ι) : (s.node i).store.SameRows (s.node j).store := fun r =>
  (mem_iff_greatest_of_caughtUp hs (hc i) r).trans (mem_iff_greatest_of_caughtUp hs (hc j) r).symm

/-- The sync engines have done their work: every node knows of every other, and
in the quiet run `bs` it completes a round on each peer it is handed. -/
structure Synced (M : MetaCodec) (id addr : ι → String) (peerList : ι → List String)
    (mlist : ι → Option Memberlist) (bs : List (Action ι)) : Prop where
  knows : ∀ i j, j ≠ i → Knows M (peerList i) (id j) (addr j) (mlist i)
  completes : ∀ i, ∀ peer ∈ peerProvider M (peerList i) (mlist i), ∀ j, j ≠ i → addr j = peer →
    Completes bs i j

section Synced
variable {E : Env} {M : MetaCodec} {id : ι → String} {epoch : ι → Epoch} {addr : ι → String}
  {peerList : ι → List String} {mlist : ι → Option Memberlist} {s t : Cluster ι}
  {as bs : List (Action ι)}

theorem Synced.caughtUp (hM : M.ReadsBack) (h : Synced M id addr peerList mlist bs)
    (hs : Sound s) (hquiet : Run (step E) QuietStep s bs t) (i j : ι) : CaughtUp t i j := by
  have ht : Sound t := hs.run (hquiet.mono fun _ _ h => h.writeStep)
  by_cases hij : j = i
  · subst hij
    exact fun w hw => ht.2.keeps hw
  · have hpeer := mem_peerProvider_of_knows hM (h.knows i j hij)
    obtain ⟨b₁, b₂, b₃, rfl⟩ := h.completes i _ hpeer j hij rfl
    exact caughtUp_of_round hs hquiet

/-- **Any node answers for the cluster.** -/
theorem any_node_answers_alike (C : Codec) (hM : M.ReadsBack) (hid : Function.Injective id)
    (haddr : Function.Injective addr) (hsync : Synced M id addr peerList mlist bs)
    (hrun : Run (step C.toEnv) WriteStep (boot id epoch addr) as s)
    (hquiet : Run (step C.toEnv) QuietStep s bs t) (i j : ι) (q : Api.ReadRequest) :
    (Api.read C (id i) (t.node i).store q).anonymous =
      (Api.read C (id j) (t.node j).store q).anonymous := by
  have hs : Sound s := (sound_boot hid haddr).run hrun
  have ht : Sound t := hs.run (hquiet.mono fun _ _ h => h.writeStep)
  exact Api.read_congr (sameRows_of_caughtUp ht (hsync.caughtUp hM hs hquiet) i j) (id i) (id j) q

end Synced

/-! ## Two nodes that gossip -/

/-- What `i` knows when gossip has reached all of `nodes`. -/
def fullGossip (M : MetaCodec) (id addr : ι → String) (nodes : List ι) (i : ι) :
    Option Memberlist :=
  some ⟨id i, nodes.map fun j => ⟨id j, M.encode (addr j)⟩⟩

omit [DecidableEq ι] in
theorem knows_fullGossip (M : MetaCodec) {id addr : ι → String} (hid : Function.Injective id)
    (haddr : ∀ j, addr j ≠ "") {nodes : List ι} {i j : ι} (hj : j ∈ nodes) (hij : j ≠ i) :
    Knows M [] (id j) (addr j) (fullGossip M id addr nodes i) := by
  refine ⟨fun h => hij (hid h), haddr j, ?_⟩
  exact List.mem_map_of_mem hj

/-- Where the nodes of `Demo.cluster` listen. -/
def demoAddr (i : Fin 2) : String := "10.0.0." ++ toString i.val ++ ":7001"

/-- The two rounds of a sync, one after the other. -/
theorem demo_synced (M : MetaCodec) : Synced M (fun i : Fin 2 => Demo.nodeID i) demoAddr
    (fun _ => [])
    (fullGossip M (fun i : Fin 2 => Demo.nodeID i) demoAddr (List.finRange 2))
    (Action.round 1 0 ++ Action.round 0 1) where
  knows i j hij := by
    have hid : Function.Injective fun i : Fin 2 => Demo.nodeID i := by
      unfold Function.Injective
      decide
    have haddr : ∀ j, demoAddr j ≠ "" := by decide
    exact knows_fullGossip M hid haddr (List.mem_finRange j) hij
  completes i _ _ j hij _ := by
    match i, j, hij with
    | 0, 0, h => exact absurd rfl h
    | 1, 1, h => exact absurd rfl h
    | 0, 1, _ => exact ⟨Action.round 1 0, [.serve 0 1], [], rfl⟩
    | 1, 0, _ => exact ⟨[], [.serve 1 0], Action.round 0 1, rfl⟩

/-- What node 0 reports last. -/
def lastReport : Runner := { Demo.runner 0 with freeDiskMB := 4000 }

/-- The payloads of the reports below are decoded. -/
def demoCodec : Codec := Api.knowing [Demo.runner 0, Demo.runner 1, lastReport]

/-- Both nodes start, and node 0 is sent a label. -/
def demoWrites (i j : ι) : List (Action ι) :=
  [.perform i (.start 10 (Demo.runner 0)), .perform j (.start 11 (Demo.runner 1)),
    .perform i (.putLabels 12 "n0" (some (some (Demo.labels "env" "prod"))))]

/-- Both nodes answer alike after the sync; before, node 0 finds one runner only. -/
theorem two_nodes_answer_alike : ∃ s t : Cluster (Fin 2),
    Run (step .escaping) WriteStep (Demo.cluster 2) (demoWrites 0 1) s ∧
      Run (step .escaping) QuietStep s (Action.round 1 0 ++ Action.round 0 1) t ∧
      (Api.handleMetrics demoCodec (s.node 0).store).runners = 1 ∧
      (Api.handleMetrics demoCodec (t.node 0).store).runners = 2 ∧
      ∀ q, (Api.read demoCodec (Demo.nodeID 0) (t.node 0).store q).anonymous =
        (Api.read demoCodec (Demo.nodeID 1) (t.node 1).store q).anonymous := by
  obtain ⟨s, t, hs, ht, hbefore, hafter⟩ : ∃ s t : Cluster (Fin 2),
      Run (step .escaping) WriteStep (Demo.cluster 2) (demoWrites 0 1) s ∧
        Run (step .escaping) QuietStep s (Action.round 1 0 ++ Action.round 0 1) t ∧
        (Api.handleMetrics demoCodec (s.node 0).store).runners = 1 ∧
        (Api.handleMetrics demoCodec (t.node 0).store).runners = 2 :=
    exists_two_runs (by decide +kernel)
  exact ⟨s, t, hs, ht, hbefore, hafter, any_node_answers_alike demoCodec
    (MetaCodec.ofEnv_readsBack Env.escaping_labelsReadBack) (by unfold Function.Injective; decide)
    (by unfold Function.Injective; decide) (demo_synced _) hs ht 0 1⟩

/-! ## The last write under a key -/

section LastWrite
variable {E : Env} {s t : Cluster ι} {a : Action ι} {j : ι} {w : Row}

/-- A new row is the target of the operation that wrote it. -/
theorem target_of_written (h : step E s a = some t) (hok : WriteStep s a) {k : ι} {x : Row}
    (hx : (k, x) ∈ t.written) : (k, x) ∈ s.written ∨
      ∃ op, a = .perform k op ∧ op.target = some x.id := by
  rcases (step_written h).mp hx with hx | ⟨⟨op, rfl⟩, hx, hnew⟩
  · exact .inl hx
  · rw [node_of_perform h] at hx
    rcases Api.rows_exec E (s.node k) hok.2 with hrows | ⟨r, hrows, htarget, -⟩
    · exact absurd (hrows ▸ hx) hnew
    · rw [hrows] at hx
      rcases KeyedTable.mem_upsert.mp hx with rfl | ⟨hx, -⟩
      · exact .inr ⟨op, rfl, htarget⟩
      · exact absurd hx hnew

/-- Only `j` has written under `key`. -/
def Sole (key : Kind × String) (j : ι) (s : Cluster ι) : Prop :=
  ∀ k x, (k, x) ∈ s.written → x.id = key → k = j

theorem Sole.step {key : Kind × String} (hs : Sole key j s) (h : Cluster.step E s a = some t)
    (hok : WriteStep s a) (ha : ∀ k op, a = .perform k op → op.target = some key → k = j) :
    Sole key j t := by
  intro k x hx hid
  rcases target_of_written h hok hx with hx | ⟨op, hop, htarget⟩
  · exact hs k x hx hid
  · exact ha k op hop (hid ▸ htarget)

/-- `w` is the last row that `j` has written under its key. -/
structure Latest (j : ι) (w : Row) (s : Cluster ι) : Prop where
  written : (j, w) ∈ s.written
  le : ∀ x, (j, x) ∈ s.written → x.id = w.id → x.hlc ≤ w.hlc

/-- A row that carries the operation's own stamp. -/
theorem latest_of_write {op : NodeOp} (hs : Stamps s) (h : step E s (.perform j op) = some t)
    (hok : s.NoWrap (.perform j op)) (hw : w ∈ (t.node j).store.rows)
    (hhlc : w.hlc = ((s.node j).clock.tick op.now).1) : Latest j w t := by
  have hnew : (s.node j).clock.reading < w.hlc := hhlc ▸ Clock.reading_lt_tick hok
  have hold : w ∉ (s.node j).store.rows := fun hold =>
    absurd (hs.clock_rows j w hold) (not_le.mpr hnew)
  have hreading : (t.node j).clock.reading = w.hlc := by
    rw [node_of_perform h] at hw ⊢
    rcases op.exec_cases E (s.node j) with hsame | hstamped
    · exact absurd (hsame ▸ hw) hold
    · exact hstamped.reading.trans hhlc.symm
  refine ⟨(step_written h).mpr (.inr ⟨⟨_, rfl⟩, hw, hold⟩), fun x hx _ => ?_⟩
  exact hreading ▸ (hs.step h hok).le_clock hx

/-- It stays so while `j` does not write there. -/
theorem Latest.step (hs : Latest j w s) (h : Cluster.step E s a = some t) (hok : WriteStep s a)
    (hno : ∀ op, a = .perform j op → op.target ≠ some w.id) : Latest j w t where
  written := (step_written h).mpr (.inl hs.written)
  le x hx hid := by
    rcases target_of_written h hok hx with hx | ⟨op, ha, htarget⟩
    · exact hs.le x hx hid
    · exact absurd (hid ▸ htarget) (hno op ha)

/-- A quiet run leaves the history as it is. -/
theorem written_of_quiet {bs : List (Action ι)} (hr : Run (step E) QuietStep s bs t) {k : ι}
    {x : Row} : (k, x) ∈ t.written ↔ (k, x) ∈ s.written :=
  hr.invariant (I := fun u => (k, x) ∈ u.written ↔ (k, x) ∈ s.written)
    (fun _ _ _ hu ha h => (written_quiet h ha).trans hu) .rfl

omit [DecidableEq ι] in
/-- Whoever has caught up with `j` holds it. -/
theorem Latest.get_eq (hw : Latest j w t) (ht : Sound t) (hsole : Sole w.id j t) {i : ι}
    (hc : CaughtUp t i j) : (t.node i).store.rows.get w.id = some w := by
  obtain ⟨c, hmem, hcid, hle⟩ := hc w hw.written
  obtain ⟨k, hk⟩ := ht.1.written_of_mem i c hmem
  have hkj : k = j := hsole k c hk hcid
  subst hkj
  have hhlc : c.hlc = w.hlc := le_antisymm (hw.le c hk hcid) (Row.hlc_le_of_version_le hle)
  have hcw : c = w := ht.1.unique hk hw.written hcid hhlc
  subst hcw
  exact KeyedTable.get_eq_some.mpr ⟨hmem, rfl⟩

end LastWrite

/-- **The last write under a key is what every node holds**, if `j` alone
writes there. -/
theorem last_write_everywhere {E : Env} {M : MetaCodec} (hM : M.ReadsBack)
    {id : ι → String} {epoch : ι → Epoch} {addr : ι → String} (hid : Function.Injective id)
    (haddr : Function.Injective addr) {peerList : ι → List String}
    {mlist : ι → Option Memberlist} {s t u v : Cluster ι} {as cs bs : List (Action ι)} {j : ι}
    {op : NodeOp} {w : Row} (hrun : Run (step E) WriteStep (boot id epoch addr) as v)
    (hok : WriteStep v (.perform j op)) (hst : step E v (.perform j op) = some u)
    (hw : w ∈ (u.node j).store.rows) (hhlc : w.hlc = ((v.node j).clock.tick op.now).1)
    (hrest : Run (step E) WriteStep u cs s)
    (hsole : ∀ k op', .perform k op' ∈ as ++ [.perform j op] ++ cs →
      op'.target = some w.id → k = j)
    (hlast : ∀ op', .perform j op' ∈ cs → op'.target ≠ some w.id)
    (hsync : Synced M id addr peerList mlist bs)
    (hquiet : Run (step E) QuietStep s bs t) (i : ι) :
    (t.node i).store.rows.get w.id = some w := by
  have hv : Sound v := (sound_boot hid haddr).run hrun
  have hs : Sound s := (hv.step hst hok).run hrest
  have ht : Sound t := hs.run (hquiet.mono fun _ _ h => h.writeStep)
  -- `w` is the last row of `j` from here on
  have hlatest : Latest j w u := latest_of_write hv.1 hst hok.1 hw hhlc
  have hlatest : Latest j w s := hrest.of_mem.invariant (I := Latest j w)
    (fun _ _ _ hs ha h => hs.step h ha.1 fun op' hop => hlast op' (hop ▸ ha.2)) hlatest
  have hlatest : Latest j w t := ⟨(written_of_quiet hquiet).mpr hlatest.written,
    fun x hx => hlatest.le x ((written_of_quiet hquiet).mp hx)⟩
  -- and every row under its key is a row of `j`
  have hsolev : Sole w.id j v := hrun.of_mem.invariant (I := Sole w.id j)
    (fun _ _ _ hs ha h => hs.step h ha.1 fun k op' hop =>
      hsole k op' (List.mem_append_left _ (List.mem_append_left _ (hop ▸ ha.2))))
    (fun _ _ hx => nomatch hx)
  have hsoleu : Sole w.id j u := hsolev.step hst hok fun k op' hop htarget => by
    cases hop
    rfl
  have hsoles : Sole w.id j s := hrest.of_mem.invariant (I := Sole w.id j)
    (fun _ _ _ hs ha h => hs.step h ha.1 fun k op' hop =>
      hsole k op' (List.mem_append_right _ (hop ▸ ha.2))) hsoleu
  have hsolet : Sole w.id j t := fun k x hx => hsoles k x ((written_of_quiet hquiet).mp hx)
  exact hlatest.get_eq ht hsolet (hsync.caughtUp hM hs hquiet i j)

/-! ## The last report of an agent -/

/-- Agents report under the ids of their nodes. -/
def OwnID (id : ι → String) : Action ι → Prop
  | .perform k op => ∀ x ∈ op.target, x.1 = kindRunner → x.2 = id k
  | _ => True

instance (id : ι → String) : DecidablePred (OwnID id)
  | .perform k op => inferInstanceAs (Decidable (∀ x ∈ op.target, x.1 = kindRunner → x.2 = id k))
  | .request .. | .serve .. | .apply .. | .lose .. => isTrue trivial

/-- The agent of `j` steps and does not report again; agents report under the
ids of their nodes. After the sync, every node holds the row of that step. -/
theorem last_row_everywhere {E : Env} {M : MetaCodec} (hM : M.ReadsBack)
    {id : ι → String} {epoch : ι → Epoch} {addr : ι → String} (hid : Function.Injective id)
    (haddr : Function.Injective addr) {peerList : ι → List String}
    {mlist : ι → Option Memberlist} {s t u : Cluster ι} {as cs bs : List (Action ι)} {j : ι}
    {now : Int64} {snapshot : Runner}
    (hrun : Run (step E) WriteStep (boot id epoch addr)
      (as ++ [.perform j (.step now snapshot)]) u)
    (hrest : Run (step E) WriteStep u cs s)
    (hown : ∀ a ∈ as ++ [.perform j (.step now snapshot)] ++ cs, OwnID id a)
    (hlast : ∀ op key, .perform j op ∈ cs → op.target ≠ some (kindRunner, key))
    (hsync : Synced M id addr peerList mlist bs)
    (hquiet : Run (step E) QuietStep s bs t) (i : ι) :
    ∃ r, (t.node i).store.rows.get (kindRunner, id j) = some r ∧ r.tombstone = false ∧
      r.payload = some (E.encodeRunner
        { snapshot with status := (u.node j).agent.status }) := by
  obtain ⟨v, hrunv, hstep⟩ := hrun.split
  cases hstep with
  | cons hok hst hnil =>
  cases hnil
  obtain ⟨st, hn, hrows, -⟩ := (v.node j).step_spec E now snapshot
  have hnode : u.node j = ((v.node j).step E now snapshot).1 :=
    node_of_perform hst
  have hw : (v.node j).stepRow E now snapshot ∈ (u.node j).store.rows := by
    rw [hnode, hn, hrows]
    exact KeyedTable.mem_upsert_self _ _
  have hkey : snapshot.key = id j :=
    hown (.perform j (.step now snapshot)) (by simp) (kindRunner, snapshot.key) rfl rfl
  have hsole : ∀ k op, .perform k op ∈ as ++ [.perform j (.step now snapshot)] ++ cs →
      op.target = some (kindRunner, snapshot.key) → k = j := by
    intro k op hop htarget
    have hk : snapshot.key = id k := hown (.perform k op) hop _ htarget rfl
    exact hid (hk.symm.trans hkey)
  have hget := last_write_everywhere hM hid haddr hrunv hok hst hw rfl hrest hsole
    (fun op => hlast op snapshot.key) hsync hquiet i
  refine ⟨(v.node j).stepRow E now snapshot, ?_, rfl, ?_⟩
  · rw [← hkey]
    exact hget
  · rw [hnode, hn]
    rfl

/-- **Every node shows the last report of every agent.** After the sync,
`GET /runners/{id}` answers that snapshot on every node, with the status the
agent gave it; only labels may have been added. -/
theorem latest_report_everywhere (C : Codec) {M : MetaCodec} (hM : M.ReadsBack)
    {id : ι → String} {epoch : ι → Epoch} {addr : ι → String} (hid : Function.Injective id)
    (haddr : Function.Injective addr) {peerList : ι → List String}
    {mlist : ι → Option Memberlist} {s t u : Cluster ι} {as cs bs : List (Action ι)} {j : ι}
    {now : Int64} {snapshot : Runner}
    (hrun : Run (step C.toEnv) WriteStep (boot id epoch addr)
      (as ++ [.perform j (.step now snapshot)]) u)
    (hrest : Run (step C.toEnv) WriteStep u cs s)
    (hown : ∀ a ∈ as ++ [.perform j (.step now snapshot)] ++ cs, OwnID id a)
    (hlast : ∀ op key, .perform j op ∈ cs → op.target ≠ some (kindRunner, key))
    (hread : C.ReadsBack { snapshot with status := (u.node j).agent.status })
    (hsync : Synced M id addr peerList mlist bs)
    (hquiet : Run (step C.toEnv) QuietStep s bs t) (i : ι) :
    ∃ y, Api.handleRunner C (t.node i).store (id j) = .ok y ∧
      { y with labels := snapshot.labels } =
        { snapshot with status := (u.node j).agent.status } := by
  obtain ⟨r, hget, hlive, hpay⟩ :=
    last_row_everywhere hM hid haddr hrun hrest hown hlast hsync hquiet i
  exact Api.handleRunner_of_get hread hget hlive hpay

/-- Node 0 reports a last time, and node 1 shows it. -/
theorem last_report_shown : ∃ u t : Cluster (Fin 2),
    Run (step .escaping) WriteStep (Demo.cluster 2)
        (demoWrites 0 1 ++ [.perform 0 (.step 13 lastReport)]) u ∧
      Run (step .escaping) QuietStep u (Action.round 1 0 ++ Action.round 0 1) t ∧
      ∃ y, Api.handleRunner demoCodec (t.node 1).store (Demo.nodeID 0) = .ok y ∧
        { y with labels := lastReport.labels } = lastReport := by
  obtain ⟨u, t, hu, ht, hstatus⟩ : ∃ u t : Cluster (Fin 2),
      Run (step .escaping) WriteStep (Demo.cluster 2)
          (demoWrites 0 1 ++ [.perform 0 (.step 13 lastReport)]) u ∧
        Run (step .escaping) QuietStep u (Action.round 1 0 ++ Action.round 0 1) t ∧
        (u.node 0).agent.status = .active := exists_two_runs (by decide +kernel)
  have hown : ∀ a ∈ demoWrites (0 : Fin 2) 1 ++ [.perform 0 (.step 13 lastReport)] ++ [],
      OwnID (fun i : Fin 2 => Demo.nodeID i) a := by decide
  have hread : demoCodec.ReadsBack { lastReport with status := (u.node 0).agent.status } := by
    rw [hstatus]
    exact ⟨lastReport, by decide +kernel, rfl, fun _ => rfl⟩
  obtain ⟨y, hy, hsame⟩ := latest_report_everywhere demoCodec
    (MetaCodec.ofEnv_readsBack Env.escaping_labelsReadBack) (by unfold Function.Injective; decide)
    (by unfold Function.Injective; decide) hu (.nil u) hown (fun _ _ h => nomatch h) hread
    (demo_synced _) ht 1
  rw [hstatus] at hsame
  exact ⟨u, t, hu, ht, y, hy, hsame⟩

end Cluster

end Takl
