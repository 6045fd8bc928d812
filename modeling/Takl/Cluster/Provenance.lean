import Takl.Api.Labels
import Takl.Api.Pages
import Takl.Api.Provenance
import Takl.Cluster.Agents

/-!
# Nothing is invented

Rows reach a node by its own operations and from its peers' responses, and a
row that arrives is one the peer held. So the tables of all nodes, and the
responses in flight, stay authentic along every run: whatever a node answers,
an agent has reported and an API has been sent.

No assumption is made on the clocks, on the names of the nodes or on what is
lost; which version of a row a node holds is not said here.
-/

namespace Takl

namespace Cluster

open Runs

variable {ι : Type}

/-- The operation is performed by some node in `as`, in this state of its agent. -/
def Performed [DecidableEq ι] (as : List (Action ι)) (c : NodeCall) : Prop :=
  ∃ i bs cs, as = bs ++ Action.perform i c.op :: cs ∧ c.agent = agentAfter i bs

/-- The tables and the rows in flight are authentic. -/
structure Authentic (E : Env) (P : NodeCall → Prop) (s : Cluster ι) : Prop where
  held : ∀ i, (s.node i).store.Authentic E P
  flight : ∀ {i j req resp}, s.exchange i j = .responded req resp →
    ∀ r ∈ resp.toRows, r.payload ≠ none → r.Authentic E P

theorem authentic_boot (E : Env) (P : NodeCall → Prop) (id : ι → String) (epoch : ι → Epoch)
    (addr : ι → String) : Authentic E P (boot id epoch addr) where
  held _ r hr := absurd hr (KeyedTable.not_mem_empty r)
  flight hx := nomatch hx

variable [DecidableEq ι] {E : Env} {P : NodeCall → Prop} {s t : Cluster ι}

/-- **A step keeps the tables authentic**, if its operation counts as performed. -/
theorem Authentic.step (hjson : E.LabelsReadBack) (hs : Authentic E P s) {a : Action ι}
    (ha : ∀ i op, a = .perform i op → P ⟨(s.node i).agent, op⟩) (h : Cluster.step E s a = some t) :
    Authentic E P t where
  held i := by
    intro r hr
    generalize hn : t.node i = n at hr
    have hstep := hn ▸ step_node h i
    cases hstep with
    | same => exact hs.held i r hr
    | @stamped op _ hop =>
      subst hop
      rw [node_of_perform h] at hn
      subst hn
      exact (hs.held i).exec hjson (ha i op rfl) r hr
    | received _ hx hrec =>
      rcases hrec.mem_rows hr with hold | ⟨hnew, hpay⟩
      · exact hs.held i r hold
      · exact hs.flight hx r hnew hpay
  flight hx r hr hpay := by
    rcases responded_cases h hx with hx | ⟨-, -, sent, hpull, rfl⟩
    · exact hs.flight hx r hr hpay
    · obtain ⟨x, hxmem, -, -, rfl⟩ := (Server.mem_delivered hpull).mp hr
      rw [Row.delivered_eq hpay]
      exact hs.held _ x hxmem

/-- **A run keeps the tables authentic.** `bs` has been performed before it. -/
theorem Authentic.run (hjson : E.LabelsReadBack) {ok : Cluster ι → Action ι → Prop}
    {as bs cs : List (Action ι)} (hr : Run (Cluster.step E) ok s cs t) (has : as = bs ++ cs)
    (hagent : ∀ j, (s.node j).agent = agentAfter j bs) (hs : Authentic E (Performed as) s) :
    Authentic E (Performed as) t := by
  induction hr generalizing bs with
  | nil => exact hs
  | @cons s u t a cs _ hst _ ih =>
    have hsplit : as = (bs ++ [a]) ++ cs := by rw [has, List.append_assoc, List.singleton_append]
    refine ih hsplit (fun j => ?_) ?_
    · rw [agent_step hst, hagent j, agentAfter_append]
    · refine hs.step hjson (fun i op hop => ⟨i, bs, cs, ?_, hagent i⟩) hst
      rw [has, hop]

/-- What a booted cluster holds was performed. -/
theorem authentic_run (hjson : E.LabelsReadBack) {ok : Cluster ι → Action ι → Prop}
    {id : ι → String} {epoch : ι → Epoch} {addr : ι → String} {as : List (Action ι)}
    (hr : Run (Cluster.step E) ok (boot id epoch addr) as t) : Authentic E (Performed as) t := by
  have hnil : as = [] ++ as := rfl
  exact Authentic.run hjson hr hnil (fun _ => rfl) (authentic_boot E _ id epoch addr)

/-- Node `i` starts and is sent a label for its runner, and `j` pulls. -/
def labelledAway (i j : ι) : List (Action ι) :=
  .perform i (.start 10 (Demo.runner 0)) ::
    .perform i (.putLabels 11 "n0" (some (some (Demo.labels "env" "prod")))) :: Action.round j i

/-- The one runner reported there is decoded. -/
def oneRunner : Codec := Api.knowing [Demo.runner 0]

/-- The runners encoded in `as`. -/
def reported (as : List (Action ι)) : List Runner :=
  (List.range as.length).flatMap fun (k : Nat) =>
    match as[k]? with
    | some (.perform i op) => NodeCall.reports ⟨agentAfter i (as.take k), op⟩
    | _ => []

/-- For evaluated runs: what is decoded to itself reads back. -/
theorem readsBack_of_decoded {C : Codec} {as : List (Action ι)}
    (h : ∀ x ∈ reported as, C.decodeRunner (some (C.encodeRunner x)) = some x) {c : NodeCall}
    {x : Runner} (hc : Performed as c) (hx : x ∈ c.reports) : C.ReadsBack x := by
  obtain ⟨i, bs, cs, rfl, hagent⟩ := hc
  refine ⟨x, h x (List.mem_flatMap.mpr ⟨bs.length, by simp, ?_⟩), rfl, fun _ => rfl⟩
  rw [List.getElem?_append_right (Nat.le_refl _), Nat.sub_self, List.getElem?_cons_zero,
    List.take_left]
  show x ∈ NodeCall.reports ⟨agentAfter i bs, c.op⟩
  rw [← hagent]
  exact hx

theorem oneRunner_decoded : ∀ x ∈ reported (labelledAway (0 : Fin 2) 1),
    oneRunner.decodeRunner (some (oneRunner.encodeRunner x)) = some x := by
  decide +kernel

section Answers
variable (C : Codec) {id : ι → String} {epoch : ι → Epoch}
  {addr : ι → String} {ok : Cluster ι → Action ι → Prop} {as : List (Action ι)}

/-- **No answer is invented.** Whatever has happened in the cluster, the
runners a node lists, finds or proposes are snapshots that some agent has
taken, with the status it gave them after the samples it had seen by then, and
their labels are the agent's or were sent to some node for that runner. -/
theorem answers_were_reported (hjson : C.LabelsReadBack)
    (hrun : Run (Cluster.step C.toEnv) ok (boot id epoch addr) as s)
    (hread : ∀ c x, Performed as c → x ∈ c.reports → C.ReadsBack x) (i : ι) :
    (∀ limit offset, ∀ y ∈ Api.handleRunners C (s.node i).store limit offset,
        y.Shown (Performed as)) ∧
      (∀ key y, Api.handleRunner C (s.node i).store key = .ok y →
        y.runnerID = key ∧ y.Shown (Performed as)) ∧
      ∀ region labels ys penalty,
        Api.handleBestRunner C (s.node i).store region labels = .ok (ys, penalty) →
          ∀ y ∈ ys, y.Shown (Performed as) := by
  have hst := (authentic_run hjson hrun).held i
  refine ⟨fun _ _ y hy => Api.shown_of_mem_handleRunners hjson hst hread hy, fun key y hy => ?_,
    fun _ _ _ _ hbest y hy => ?_⟩
  · exact Api.shown_of_handleRunner hjson hst hread hy
  · exact Api.shown_of_mem_handleRunners hjson hst hread (Api.mem_of_handleBestRunner hbest hy)

/-- The label arrives with the runner. -/
theorem labelled_runner_was_reported : ∃ s : Cluster (Fin 2),
    Run (Cluster.step .escaping) NoWrap (Demo.cluster 2) (labelledAway 0 1) s ∧
      ∃ y, Api.handleRunner oneRunner (s.node 1).store "n0" = .ok y ∧
        Labels.entry y.labels "env" = some ("env", "prod") ∧
        y.runnerID = "n0" ∧ y.Shown (Performed (labelledAway (0 : Fin 2) 1)) := by
  obtain ⟨s, hr, hs⟩ : ∃ s : Cluster (Fin 2),
      Run (Cluster.step .escaping) NoWrap (Demo.cluster 2) (labelledAway 0 1) s ∧
        ((Api.handleRunner oneRunner (s.node 1).store "n0").toOption.bind fun y =>
          Labels.entry y.labels "env") = some ("env", "prod") := exists_run (by decide +kernel)
  obtain ⟨y, hy, henv⟩ := Option.bind_eq_some_iff.mp hs
  have hok : Api.handleRunner oneRunner (s.node 1).store "n0" = .ok y := by
    cases hres : Api.handleRunner oneRunner (s.node 1).store "n0" with
    | error err => simp [hres, Except.toOption] at hy
    | ok z =>
      rw [hres] at hy
      exact congrArg _ (Option.some.inj hy)
  exact ⟨s, hr, y, hok, henv, (answers_were_reported oneRunner Env.escaping_labelsReadBack hr
    (fun _ _ => readsBack_of_decoded oneRunner_decoded) 1).2.1 "n0" y hok⟩

/-- **The endpoints agree with each other, and read every row they find.** -/
theorem endpoints_agree (hjson : C.LabelsReadBack)
    (hrun : Run (Cluster.step C.toEnv) ok (boot id epoch addr) as s)
    (hread : ∀ c x, Performed as c → x ∈ c.reports → C.ReadsBack x) (i : ι) :
    (∀ y, y ∈ Api.handleRunners C (s.node i).store none none ↔
        ∃ key, Api.handleRunner C (s.node i).store key = .ok y) ∧
      (∀ key, (∃ err, Api.handleRunner C (s.node i).store key = .error err) ↔
        ¬(s.node i).store.Live C.toEnv key) ∧
      (∀ key err, Api.handleRunner C (s.node i).store key = .error err →
        err = .notFound "runner not found" ∧
          Api.handleGetLabels C (s.node i).store key = .error err) ∧
      (∀ key y, Api.handleRunner C (s.node i).store key = .ok y →
        ∃ l, Api.handleGetLabels C (s.node i).store key = .ok l ∧
          ∀ k, l.get k = Labels.entry y.labels k) ∧
      ∀ now key body, ∃ reply,
        ((s.node i).handleUpdateLabels C.toEnv now key body).2 = some reply ∧
          reply.status = if (s.node i).store.Live C.toEnv key then
            if body.isSome then 200 else 400 else 404 := by
  have hst := (authentic_run hjson hrun).held i
  refine ⟨fun y => Api.mem_handleRunners_iff hjson hst hread,
    fun key => Api.handleRunner_error_iff hjson hst hread key, fun key err herr => ?_,
    fun key => (Api.handleGetLabels_of_handleRunner hjson hst hread key).2,
    fun now key body => ?_⟩
  · have hlabels := (Api.handleGetLabels_of_handleRunner hjson hst hread key).1 err herr
    rcases Api.handleRunner_cases hjson hst hread key with ⟨-, h⟩ | ⟨_, -, -, -, _, -, -, -, h⟩
    · cases herr.symm.trans h
      exact ⟨rfl, hlabels⟩
    · cases herr.symm.trans h
  · obtain ⟨l, hl, -⟩ := hst.storedLabels hjson key
    have hspec := (s.node i).updateLabels_spec now body hl
    generalize (s.node i).handleUpdateLabels C.toEnv now key body = res at hspec
    cases hspec with
    | notFound _ hdead => exact ⟨_, rfl, by rw [if_neg hdead]⟩
    | invalid hlive => exact ⟨_, rfl, by rw [if_pos hlive]; rfl⟩
    | put hlive => exact ⟨_, rfl, by rw [if_pos hlive]; rfl⟩

/-- On the node that has pulled the runner, a `PUT` is accepted. -/
theorem labelled_runner_answered : ∃ s : Cluster (Fin 2),
    Run (Cluster.step .escaping) NoWrap (Demo.cluster 2) (labelledAway 0 1) s ∧
      (s.node 1).store.Live .escaping "n0" ∧
      ∀ now body, ∃ reply, ((s.node 1).handleUpdateLabels .escaping now "n0" (some body)).2 =
        some reply ∧ reply.status = 200 := by
  obtain ⟨s, hr, hlive⟩ : ∃ s : Cluster (Fin 2),
      Run (Cluster.step .escaping) NoWrap (Demo.cluster 2) (labelledAway 0 1) s ∧
        (s.node 1).store.Live .escaping "n0" := exists_run (by decide +kernel)
  refine ⟨s, hr, hlive, fun now body => ?_⟩
  obtain ⟨reply, hreply, hstatus⟩ := (endpoints_agree oneRunner Env.escaping_labelsReadBack hr
    (fun _ _ => readsBack_of_decoded oneRunner_decoded) 1).2.2.2.2 now "n0" (some body)
  exact ⟨reply, hreply, hstatus.trans (if_pos hlive)⟩

/-- **What is listed can be fetched.** `GET` on the path of a listed runner
answers that runner, with the labels it was listed with, on whatever node and
after whatever has happened. There are three exceptions: a runner called
`best`, whose path is that of the placement query, and the ids `""` and `"/"`,
whose path ends in a slash and is no one's. -/
theorem listed_runner_fetched (hjson : C.LabelsReadBack)
    (hrun : Run (Cluster.step C.toEnv) ok (boot id epoch addr) as s)
    (hread : ∀ c x, Performed as c → x ∈ c.reports → C.ReadsBack x) (i : ι)
    (S : SortSlice Store.later) (opts : Api.Options) (now : Int64) {y : Runner}
    (hy : y ∈ Api.handleRunners C (s.node i).store none none) {req : Api.Request}
    (hmethod : req.method = "GET") (hpath : req.path = Api.runnerPath y.runnerID) :
    Api.serve S opts C (s.node i) now req = (s.node i,
      if y.runnerID = "" ∨ y.runnerID = "/" then .reply 404 (.error "404 page not found")
      else if y.runnerID = "best" then
        (Api.read C (s.node i).nodeID (s.node i).store (.best req.region req.label)).outcome
      else .reply 200 (.read (.runner (.ok y)))) := by
  have hst := (authentic_run hjson hrun).held i
  have hfetch := Api.handleRunner_of_listed hjson hst hread hy
  rw [Api.serve_runner S opts C (s.node i) now hmethod hpath]
  split
  · rfl
  · split
    · rfl
    · simp only [Api.read, hfetch, Api.ReadAnswer.outcome]

/-- Asked of the node that has pulled the runner. -/
def fetchRequest : Api.Request :=
  { method := "GET", path := Api.runnerPath "n0", header := fun _ => "", limit := none
    offset := none, region := "", label := [], runner := "", body := none }

theorem labelled_runner_fetched : ∃ s : Cluster (Fin 2), ∃ y,
    Run (Cluster.step .escaping) NoWrap (Demo.cluster 2) (labelledAway 0 1) s ∧
      y ∈ Api.handleRunners oneRunner (s.node 1).store none none ∧
      Api.serve Api.insertionOrder ⟨"", false⟩ oneRunner (s.node 1) 12 fetchRequest =
        (s.node 1, .reply 200 (.read (.runner (.ok y)))) := by
  obtain ⟨s, hr, hs⟩ : ∃ s : Cluster (Fin 2),
      Run (Cluster.step .escaping) NoWrap (Demo.cluster 2) (labelledAway 0 1) s ∧
        ∃ y ∈ Api.handleRunners oneRunner (s.node 1).store none none, y.runnerID = "n0" :=
    exists_run (by decide +kernel)
  obtain ⟨y, hy, hid⟩ := hs
  have hpath : fetchRequest.path = Api.runnerPath y.runnerID := by rw [hid]; rfl
  have hfetch := listed_runner_fetched oneRunner Env.escaping_labelsReadBack hr
    (fun _ _ => readsBack_of_decoded oneRunner_decoded) 1 Api.insertionOrder ⟨"", false⟩ 12 hy rfl
    hpath
  rw [hid, if_neg (by decide), if_neg (by decide)] at hfetch
  exact ⟨s, y, hr, hy, hfetch⟩

/-- **Pages.** A client that asks for the pages of length `p` one after
another, each from whatever node `i k` it reaches and in whatever state `s k`
it finds, is named every runner once and in order, if the same runners are
live there each time. -/
theorem pages_name_each_once (hjson : C.LabelsReadBack) {as : Nat → List (Action ι)}
    {s : Nat → Cluster ι}
    (hrun : ∀ k, Run (Cluster.step C.toEnv) ok (boot id epoch addr) (as k) (s k))
    (hread : ∀ k c x, Performed (as k) c → x ∈ c.reports → C.ReadsBack x) (i : Nat → ι)
    {live : List String}
    (hlive : ∀ k key, ((s k).node (i k)).store.Live C.toEnv key ↔ key ∈ live) {p m : Nat}
    (hp : 0 < p) (hm : live.length ≤ m * p) :
    let ids := (List.range m).flatMap fun k =>
      (Api.handleRunners C ((s k).node (i k)).store (some p) (some (k * p : Nat))).map
        Runner.runnerID
    ids.Pairwise (· < ·) ∧ ∀ key, key ∈ ids ↔ key ∈ live := by
  have hst : ∀ k, ((s k).node (i k)).store.Authentic C.toEnv (Performed (as k)) := fun k =>
    (authentic_run hjson (hrun k)).held (i k)
  intro ids
  have hids : ids = ((s 0).node (i 0)).store.liveKeys C.toEnv :=
    Api.ids_pages hjson hst hread hlive hp hm
  rw [hids]
  exact ⟨Store.sorted_liveKeys _ _, fun key => Store.mem_liveKeys.trans (hlive 0 key)⟩

/-- Both nodes start, and each pulls from the other. -/
def bothStarted (i j : ι) : List (Action ι) :=
  .perform i (.start 10 (Demo.runner 0)) :: .perform j (.start 11 (Demo.runner 1)) ::
    (Action.round i j ++ Action.round j i)

/-- What node 0 reports between the two pages. -/
def busyReport : Runner := { Demo.runner 0 with availableWorkers := 1 }

def pagedCodec : Codec :=
  Api.knowing [Demo.runner 0, Demo.runner 1, busyReport, { busyReport with status := .draining }]

/-- What has happened when page `k` is asked for: at the second, node 0 has
reported and node 1 has pulled. -/
def paged : Nat → List (Action (Fin 2))
  | 0 => bothStarted 0 1
  | _ + 1 => bothStarted 0 1 ++ .perform 0 (.step 12 busyReport) :: Action.round 1 0

theorem paged_succ (k : Nat) : paged (k + 1) = paged 1 := rfl

theorem pagedCodec_decoded : ∀ k, ∀ x ∈ reported (paged k),
    pagedCodec.decodeRunner (some (pagedCodec.encodeRunner x)) = some x
  | 0 => by decide +kernel
  | k + 1 => by
      rw [paged_succ]
      decide +kernel

/-- One page of node 0 and then one of node 1 name both runners. -/
theorem two_pages_name_both : ∃ s : Nat → Cluster (Fin 2),
    (∀ k, Run (Cluster.step .escaping) NoWrap (Demo.cluster 2) (paged k) (s k)) ∧
      ∀ key, key ∈ ((List.range 2).flatMap fun k =>
        (Api.handleRunners pagedCodec ((s k).node (Fin.ofNat 2 k)).store (some (1 : Nat))
          (some (k * 1 : Nat))).map Runner.runnerID) ↔ key ∈ ["n0", "n1"] := by
  have hruns : ∀ k, ∃ s : Cluster (Fin 2),
      Run (Cluster.step .escaping) NoWrap (Demo.cluster 2) (paged k) s ∧
        ∀ i, (s.node i).store.liveKeys .escaping = ["n0", "n1"]
    | 0 => exists_run (by decide +kernel)
    | k + 1 => exists_run (by rw [paged_succ]; decide +kernel)
  choose s hs hkeys using hruns
  refine ⟨s, hs, (pages_name_each_once pagedCodec Env.escaping_labelsReadBack hs
    (fun k _ _ => readsBack_of_decoded (pagedCodec_decoded k)) (Fin.ofNat 2) (fun k key => ?_)
    Nat.one_pos (Nat.le_refl 2)).2⟩
  rw [← hkeys k (Fin.ofNat 2 k)]
  exact Store.mem_liveKeys.symm

end Answers

end Cluster

end Takl
