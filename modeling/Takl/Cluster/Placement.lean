import Takl.Api.Placement
import Takl.Cluster.Answers
import Takl.Cluster.Provenance
import Takl.Node.Draining

/-!
# What placement queries depend on

From the samples an agent takes, and from the labels an API is sent, to the
placement queries of every node.

The agent turns five hot samples in a row into the status `draining` and five
normal ones back into `active`, the status travels with the runner's row, and
`handleBestRunner` passes over runners that are not active. So a node that has
drained itself is proposed by no node, once they have synced, and one that has
not is found by all of them. Labels travel in a row of their own, and a runner
is found under them wherever they were sent.
-/

namespace Takl

/-! ## Candidates -/

namespace Api

variable {C : Codec} {st : Store} {region : String} {labels : List String} {y : Runner}

/-- A candidate is active and has a free worker. -/
theorem eligible_of_handleBestRunner {rs : List Runner} {penalty : Bool}
    (h : handleBestRunner C st region labels = .ok (rs, penalty)) (hy : y ∈ rs) :
    eligible labels y = true := by
  simp only [handleBestRunner] at h
  split_ifs at h
  · cases h
    exact (List.mem_filter.mp (List.mem_of_mem_filter hy)).2
  · cases h
    exact (List.mem_filter.mp hy).2

/-- An eligible runner of the region is a candidate. -/
theorem mem_handleBestRunner (hy : y ∈ handleRunners C st none none)
    (heligible : eligible labels y = true) :
    ∃ rs, handleBestRunner C st y.region labels = .ok (rs, false) ∧ y ∈ rs := by
  have hmem : y ∈ ((handleRunners C st none none).filter (eligible labels)).filter
      fun rn => y.region == "" || rn.region == y.region := by
    refine List.mem_filter.mpr ⟨List.mem_filter.mpr ⟨hy, heligible⟩, ?_⟩
    simp
  exact ⟨_, if_pos (List.ne_nil_of_mem hmem), hmem⟩

end Api

namespace Cluster

open Runs Gossip
open Streak (Decisive)

variable {ι : Type} [DecidableEq ι]

section Agent
variable {E : Env} {s t : Cluster ι} {j : ι}

/-- The status at the end of a run from the start of the cluster. -/
theorem status_of_run {ok : Cluster ι → Action ι → Prop} {id : ι → String} {epoch : ι → Epoch}
    {addr : ι → String} {as : List (Action ι)} (hr : Run (step E) ok (boot id epoch addr) as t) :
    (t.node j).agent.status = .draining ↔ Decisive 5 (samples j as) := by
  rw [AgentState.status_eq_draining_iff, agent_of_run hr]
  exact (AgentState.tracks_foldl (samples j as)).draining

/-- Nothing is performed in a quiet run. -/
theorem Authentic.quiet {P : NodeCall → Prop} (hs : Authentic E P s) (hjson : E.LabelsReadBack)
    {bs : List (Action ι)} (hr : Run (Cluster.step E) QuietStep s bs t) : Authentic E P t := by
  refine hr.invariant (I := Authentic E P) (fun _ a _ hs ha h => ?_) hs
  refine hs.step hjson (fun k op hop => ?_) h
  subst hop
  exact absurd ha not_false

end Agent

/-- **Placement follows the agents.** The agent of `j` steps, and does not
report again. If some five of its samples in a row were hot and no five in a
row normal after them, then after the sync no node proposes `j` for anything;
and if not, and it has a free worker, every node proposes it to whoever asks
for its region. -/
theorem placement_follows_agents (C : Codec) (hjson : C.LabelsReadBack) {M : MetaCodec}
    (hM : M.ReadsBack) {id : ι → String} {epoch : ι → Epoch} {addr : ι → String}
    (hid : Function.Injective id) (haddr : Function.Injective addr) {peerList : ι → List String}
    {mlist : ι → Option Memberlist} {s t u : Cluster ι} {as cs bs : List (Action ι)} {j : ι}
    {now : Int64} {snapshot : Runner}
    (hrun : Run (step C.toEnv) WriteStep (boot id epoch addr)
      (as ++ [.perform j (.step now snapshot)]) u)
    (hrest : Run (step C.toEnv) WriteStep u cs s)
    (hown : ∀ a ∈ as ++ [.perform j (.step now snapshot)] ++ cs, OwnID id a)
    (hlast : ∀ op key, .perform j op ∈ cs → op.target ≠ some (kindRunner, key))
    (hread : ∀ c x, Performed (as ++ [.perform j (.step now snapshot)] ++ cs) c →
      x ∈ c.reports → C.ReadsBack x)
    (hsync : Synced M id addr peerList mlist bs)
    (hquiet : Run (step C.toEnv) QuietStep s bs t) (i : ι) :
    (Decisive 5 (samples j (as ++ [.perform j (.step now snapshot)])) →
        ∀ region labels rs penalty,
          Api.handleBestRunner C (t.node i).store region labels = .ok (rs, penalty) →
            ∀ y ∈ rs, y.runnerID ≠ id j) ∧
      (¬Decisive 5 (samples j (as ++ [.perform j (.step now snapshot)])) →
        snapshot.availableWorkers ≠ 0 →
          ∃ rs, Api.handleBestRunner C (t.node i).store snapshot.region [] = .ok (rs, false) ∧
            ∃ y ∈ rs, y.runnerID = id j) := by
  -- the tables are authentic all the way
  have hst : (t.node i).store.Authentic C.toEnv
      (Performed (as ++ [.perform j (.step now snapshot)] ++ cs)) :=
    ((authentic_run hjson (hrun.append hrest)).quiet hjson hquiet).held i
  -- the runner of `j` is found as the agent reported it
  have hreport : { snapshot with status := (u.node j).agent.status } ∈
      (⟨agentAfter j as, .step now snapshot⟩ : NodeCall).reports := by
    rw [agent_of_run hrun, agentAfter_step]
    exact List.mem_singleton_self _
  have hperf : Performed (as ++ [.perform j (.step now snapshot)] ++ cs)
      ⟨agentAfter j as, .step now snapshot⟩ := ⟨j, as, cs, by simp, rfl⟩
  obtain ⟨r, hget, hlive, hpay⟩ :=
    last_row_everywhere hM hid haddr hrun hrest hown hlast hsync hquiet i
  obtain ⟨z, hz, hsame⟩ := Api.handleRunner_of_get (hread _ _ hperf hreport) hget hlive hpay
  have hstatus : z.status = (u.node j).agent.status := congrArg Runner.status hsame
  refine ⟨fun hdrain region labels rs penalty hbest y hy hyid => ?_, fun hnot hfree => ?_⟩
  · have hlisted := Api.mem_of_handleBestRunner hbest hy
    have hfound := Api.handleRunner_of_listed hjson hst hread hlisted
    rw [hyid] at hfound
    cases hfound.symm.trans hz
    have heligible := Api.eligible_of_handleBestRunner hbest hy
    have hactive : z.status = .active := by
      simp only [Api.eligible, Bool.and_eq_true, decide_eq_true_eq] at heligible
      exact heligible.1.1
    rw [hstatus, (status_of_run hrun).mpr hdrain] at hactive
    exact absurd hactive (by decide)
  · have hactive : z.status = .active := by
      rw [hstatus]
      exact ((u.node j).agent.status_cases).resolve_right (mt (status_of_run hrun).mp hnot)
    have hworkers := congrArg Runner.availableWorkers hsame
    have hregion := congrArg Runner.region hsame
    simp only at hworkers hregion
    have hlisted := (Api.mem_handleRunners_iff hjson hst hread).mpr ⟨id j, hz⟩
    have heligible : Api.eligible [] z = true := by
      simp [Api.eligible, Api.matchLabels, hactive, hworkers, hfree]
    obtain ⟨rs, hbest, hmem⟩ := Api.mem_handleBestRunner hlisted heligible
    rw [hregion] at hbest
    exact ⟨rs, hbest, z, hmem, (Api.shown_of_handleRunner hjson hst hread hz).1⟩

/-- What node 0 reports when it is busy. -/
def hotReport : Runner := { Demo.runner 0 with cpuUtil := 1 }

def hotCodec : Codec := Api.knowing [Demo.runner 0, Demo.runner 1, hotReport,
  { hotReport with status := .draining }]

/-- Both nodes start, and the first takes four hot samples. -/
def fourHot (i j : ι) : List (Action ι) :=
  [.perform i (.start 10 (Demo.runner 0)), .perform j (.start 11 (Demo.runner 1)),
    .perform i (.step 12 hotReport), .perform i (.step 13 hotReport),
    .perform i (.step 14 hotReport), .perform i (.step 15 hotReport)]

theorem hotCodec_decoded : ∀ x ∈ reported
    (fourHot (0 : Fin 2) 1 ++ [.perform 0 (.step 16 hotReport)] ++ []),
    hotCodec.decodeRunner (some (hotCodec.encodeRunner x)) = some x := by
  decide +kernel

/-- With the fifth, node 1 proposes itself only. -/
theorem drained_node_not_proposed : ∃ u t : Cluster (Fin 2),
    Run (step .escaping) WriteStep (Demo.cluster 2)
        (fourHot 0 1 ++ [.perform 0 (.step 16 hotReport)]) u ∧
      Run (step .escaping) QuietStep u (Action.round 1 0 ++ Action.round 0 1) t ∧
      ∃ rs, Api.handleBestRunner hotCodec (t.node 1).store "eu" [] = .ok (rs, false) ∧
        rs.length = 1 ∧ ∀ y ∈ rs, y.runnerID ≠ "n0" := by
  obtain ⟨u, t, hu, ht, hbest⟩ : ∃ u t : Cluster (Fin 2),
      Run (step .escaping) WriteStep (Demo.cluster 2)
          (fourHot 0 1 ++ [.perform 0 (.step 16 hotReport)]) u ∧
        Run (step .escaping) QuietStep u (Action.round 1 0 ++ Action.round 0 1) t ∧
        (Api.handleBestRunner hotCodec (t.node 1).store "eu" []).toOption.map
          (fun x => (x.1.length, x.2)) = some (1, false) := exists_two_runs (by decide +kernel)
  have hown : ∀ a ∈ fourHot (0 : Fin 2) 1 ++ [.perform 0 (.step 16 hotReport)] ++ [],
      OwnID (fun i : Fin 2 => Demo.nodeID i) a := by decide
  have hhot : Decisive 5 (samples 0 (fourHot 0 1 ++ [.perform 0 (.step 16 hotReport)])) :=
    ⟨[], 5, [], by decide +kernel, Nat.le_refl 5, by decide⟩
  cases hres : Api.handleBestRunner hotCodec (t.node 1).store "eu" [] with
  | error e =>
    rw [hres] at hbest
    cases hbest
  | ok x =>
    obtain ⟨rs, penalty⟩ := x
    rw [hres] at hbest
    simp only [Except.toOption, Option.map_some, Option.some.injEq, Prod.mk.injEq] at hbest
    obtain ⟨hlen, rfl⟩ := hbest
    refine ⟨u, t, hu, ht, rs, hres, hlen, ?_⟩
    exact (placement_follows_agents hotCodec Env.escaping_labelsReadBack
      (MetaCodec.ofEnv_readsBack Env.escaping_labelsReadBack)
      (by unfold Function.Injective; decide) (by unfold Function.Injective; decide) hu (.nil u)
      hown (fun _ _ h => absurd h List.not_mem_nil)
      (fun _ _ => readsBack_of_decoded hotCodec_decoded)
      (demo_synced _) ht 1).1 hhot "eu" [] rs false hres

/-! ## Labels -/

section Labelled
variable {C : Codec} {st : Store} {key : String} {w : Row} {m : Labels}

/-- A listed runner has the labels of its label row. -/
theorem entry_of_labelsRow (hjson : C.LabelsReadBack)
    (hget : st.rows.get (kindMeta, key) = some w) (hlive : w.tombstone = false)
    (hpay : w.payload = some (C.encodeLabels (some m))) {y : Runner}
    (hy : y ∈ Api.handleRunners C st none none) (hkey : y.runnerID = key) {name : String}
    {e : String × String} (he : m.get name = some e) : Labels.entry y.labels name = some e := by
  have hne : w.payload ≠ some [] := by simpa [hpay] using C.encodeLabels_ne_nil (some m)
  have hrow := Store.get_eq_self C.toEnv hget hne
  obtain ⟨m', hread, hsame⟩ := hjson none m
  have hextra : st.extraLabels C.toEnv key = some (some m') := by
    simp only [Store.extraLabels, hrow, hlive, hpay, hread, Bool.false_eq_true, if_false]
  have he' : m'.get name = some e := by
    rw [hsame name, Option.getD_none, Labels.empty_setAll m name, he]
  obtain ⟨x, -, rfl⟩ := List.mem_map.mp hy
  rw [Api.mergeMetaLabelsOne_runnerID] at hkey
  rw [← hkey] at hextra
  simp only [Api.mergeMetaLabelsOne, hextra]
  show ((x.labels.getD .empty).update (some m')).get name = some e
  rw [Labels.get_update]
  show (m'.get name).or _ = some e
  rw [he', Option.some_or]

/-- The parameters of a query match a runner with these labels. -/
theorem matchLabels_of_entries {y : Runner} {wanted : List (String × String)}
    (hwanted : ∀ p ∈ wanted, ':' ∉ p.1.toList ∧ Labels.entry y.labels p.1 = some p) :
    Api.matchLabels (wanted.map Api.labelParam) y = true := by
  rw [Api.matchLabels, List.all_map, List.all_eq_true]
  intro p hp
  obtain ⟨hcolon, hentry⟩ := hwanted p hp
  simp only [Function.comp_apply, Api.splitLabel_labelParam hcolon, Api.labelValue, hentry,
    Option.map_some, Option.getD_some, beq_self_eq_true]

end Labelled

/-- **Labels sent to one node count on every node.** A node `k` that knows the
runner `key` is sent labels for it; only `k` is sent labels for that runner,
and none later. After the sync, every node that lists the runner lists it with
these labels, and proposes it to whoever asks for some of them and its region,
if it is active and has a free worker. -/
theorem labels_count_everywhere (C : Codec) (hjson : C.LabelsReadBack) {M : MetaCodec}
    (hM : M.ReadsBack) {id : ι → String} {epoch : ι → Epoch} {addr : ι → String}
    (hid : Function.Injective id) (haddr : Function.Injective addr) {peerList : ι → List String}
    {mlist : ι → Option Memberlist} {s t u v : Cluster ι} {as cs bs : List (Action ι)} {k : ι}
    {now : Int64} {key : String} {l : Labels}
    (hrun : Run (step C.toEnv) WriteStep (boot id epoch addr) as v)
    (hlive : (v.node k).store.Live C.toEnv key)
    (hok : WriteStep v (.perform k (.putLabels now key (some (some l)))))
    (hst : step C.toEnv v (.perform k (.putLabels now key (some (some l)))) = some u)
    (hrest : Run (step C.toEnv) WriteStep u cs s)
    (hsole : ∀ j op, .perform j op ∈
      as ++ [.perform k (.putLabels now key (some (some l)))] ++ cs →
        op.target = some (kindMeta, key) → j = k)
    (hlast : ∀ op, .perform k op ∈ cs → op.target ≠ some (kindMeta, key))
    (hsync : Synced M id addr peerList mlist bs)
    (hquiet : Run (step C.toEnv) QuietStep s bs t) (i : ι) {y : Runner}
    (hy : y ∈ Api.handleRunners C (t.node i).store none none) (hkey : y.runnerID = key) :
    (∀ name e, l.get name = some e → Labels.entry y.labels name = some e) ∧
      (y.status = .active → y.availableWorkers ≠ 0 → ∀ wanted : List (String × String),
        (∀ p ∈ wanted, ':' ∉ p.1.toList ∧ l.get p.1 = some p) →
          ∃ rs, Api.handleBestRunner C (t.node i).store y.region (wanted.map Api.labelParam) =
            .ok (rs, false) ∧ y ∈ rs) := by
  -- the row the update puts
  obtain ⟨l₀, hl₀, -⟩ := ((authentic_run hjson hrun).held k).storedLabels hjson key
  have hspec := (v.node k).updateLabels_spec now (some (some l)) hl₀
  have hnode : u.node k =
      ((v.node k).handleUpdateLabels C.toEnv now key (some (some l))).1 :=
    node_of_perform hst
  have hw : (v.node k).labelsRow C.toEnv key (some (l₀.update (some l)))
      ((v.node k).clock.tick now).1 ∈ (u.node k).store.rows := by
    rw [hnode]
    generalize (v.node k).handleUpdateLabels C.toEnv now key (some (some l)) = res at hspec
    cases hspec with
    | notFound _ hdead => exact absurd hlive hdead
    | put _ _ hrows =>
      show _ ∈ Store.rows _
      rw [hrows]
      exact KeyedTable.mem_upsert_self _ _
  have hget := last_write_everywhere hM hid haddr hrun hok hst hw rfl hrest hsole hlast hsync
    hquiet i
  have hentry : ∀ name e, l.get name = some e → Labels.entry y.labels name = some e := by
    intro name e he
    refine entry_of_labelsRow hjson hget rfl rfl hy hkey ?_
    rw [Labels.get_update]
    show (l.get name).or _ = some e
    rw [he, Option.some_or]
  refine ⟨hentry, fun hactive hfree wanted hwanted => ?_⟩
  have hmatch := matchLabels_of_entries (y := y) fun p hp =>
    ⟨(hwanted p hp).1, hentry p.1 p (hwanted p hp).2⟩
  refine Api.mem_handleBestRunner hy ?_
  simp [Api.eligible, hactive, hfree, hmatch]

/-- A node starts, and another pulls its runner. -/
def knownAway (i j : ι) : List (Action ι) :=
  .perform i (.start 10 (Demo.runner 0)) :: Action.round j i

/-- Node 1 is sent the label, and node 0 proposes its runner to who asks for it. -/
theorem labelled_away_proposed : ∃ v u t : Cluster (Fin 2),
    Run (step .escaping) WriteStep (Demo.cluster 2) (knownAway 0 1) v ∧
      step .escaping v (.perform 1 (.putLabels 12 "n0" (some (some (Demo.labels "env" "prod"))))) =
        some u ∧
      Run (step .escaping) QuietStep u (Action.round 1 0 ++ Action.round 0 1) t ∧
      ∃ rs, Api.handleBestRunner oneRunner (t.node 0).store "eu" ["env:prod"] = .ok (rs, false) ∧
        ∃ y ∈ rs, y.runnerID = "n0" ∧ Labels.entry y.labels "env" = some ("env", "prod") := by
  obtain ⟨v, u, hv, hu, ⟨hok, hlive⟩, hrounds⟩ : ∃ v u : Cluster (Fin 2),
      Run (step .escaping) WriteStep (Demo.cluster 2) (knownAway 0 1) v ∧
        step .escaping v
          (.perform 1 (.putLabels 12 "n0" (some (some (Demo.labels "env" "prod"))))) = some u ∧
        (WriteStep v (.perform 1 (.putLabels 12 "n0" (some (some (Demo.labels "env" "prod"))))) ∧
          (v.node 1).store.Live .escaping "n0") ∧
        (exec (step .escaping) QuietStep u (Action.round 1 0 ++ Action.round 0 1)).map (fun t =>
          decide (((Api.handleRunners oneRunner (t.node 0).store none none).map fun y =>
            (y.runnerID, y.status, y.region, y.availableWorkers)) =
              [("n0", .active, "eu", 4)])) = some true :=
    exists_run_step (by decide +kernel)
  obtain ⟨t, ht, hlist⟩ := exists_run hrounds
  obtain ⟨y, hlisted, hfields⟩ := List.map_eq_singleton_iff.mp hlist
  simp only [Prod.mk.injEq] at hfields
  obtain ⟨hkey, hactive, hregion, hfree⟩ := hfields
  have hsole : ∀ (j : Fin 2) op, .perform j op ∈ knownAway 0 1 ++
      [.perform 1 (.putLabels 12 "n0" (some (some (Demo.labels "env" "prod"))))] ++ [] →
        op.target = some (kindMeta, "n0") → j = 1 := by
    intro j op hop
    simp [knownAway, Action.round] at hop
    rcases hop with ⟨-, rfl⟩ | ⟨rfl, -⟩
    · exact fun h => absurd h (by decide)
    · exact fun _ => rfl
  obtain ⟨hentry, hproposed⟩ := labels_count_everywhere oneRunner Env.escaping_labelsReadBack
    (MetaCodec.ofEnv_readsBack Env.escaping_labelsReadBack)
    (by unfold Function.Injective; decide) (by unfold Function.Injective; decide) hv hlive hok hu
    (.nil u) hsole (fun _ h => absurd h List.not_mem_nil) (demo_synced _) ht 0
    (hlisted ▸ List.mem_singleton_self y) hkey
  obtain ⟨rs, hbest, hmem⟩ := hproposed hactive (by rw [hfree]; decide) [("env", "prod")]
    (by decide)
  rw [hregion] at hbest
  exact ⟨v, u, t, hv, hu, ht, rs, hbest, y, hmem, hkey, hentry "env" _ (by decide)⟩

end Cluster

end Takl
