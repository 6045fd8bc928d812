import Mathlib.Logic.Function.Basic
import Takl.Lib.Runs
import Takl.Node.Effect

/-!
# A cluster of nodes that pull from each other

The nodes `ι`, and for every ordered pair the one exchange that may be in
flight. An exchange takes three steps with anything in between: the puller
builds its request from its own store, the peer evaluates it, the puller
applies the response. A request or a response can be lost at any time.

`written` is a history variable: every row a local operation has put into
its node's table, with the node. No step reads it.

The step function is total on what the code can do and `none` where a label
is not enabled, so a run of labels determines its states.
-/

namespace Takl

/-- What is in flight between a puller and a peer. -/
inductive Exchange where
  | idle
  | requested (req : PullRequest)
  /-- The response as the puller's client decodes it. -/
  | responded (req : PullRequest) (resp : PullResponse)

/-- The rows a puller is about to merge. -/
def Exchange.rows : Exchange → List Row
  | .responded _ resp => resp.toRows
  | .idle | .requested _ => []

/-- The nodes, the exchanges `exchange puller peer`, and the history. -/
structure Cluster (ι : Type) where
  node : ι → Node
  exchange : ι → ι → Exchange
  written : List (ι × Row)

/-- The labels of a run. -/
inductive Action (ι : Type) where
  | perform (i : ι) (op : NodeOp)
  | request (i j : ι)
  | serve (i j : ι)
  /-- `i` applies the response of `j`, and the round ends with `out`. -/
  | apply (i j : ι) (out : Outcome)
  | lose (i j : ι)

namespace Cluster

variable {ι : Type}

/-- Every node started on an empty database, nothing in flight. -/
def boot (id : ι → String) (epoch : ι → Epoch) (addr : ι → String) : Cluster ι :=
  { node := fun i => .fresh (id i) (epoch i) (addr i)
    exchange := fun _ _ => .idle
    written := [] }

/-- Note what `i` wrote in going to `n`. -/
def note (s : Cluster ι) (i : ι) (n : Node) : Cluster ι :=
  { s with written := s.written ++ ((s.node i).newRows n).map fun r => (i, r) }

@[simp] theorem note_node (s : Cluster ι) (i : ι) (n : Node) : (s.note i n).node = s.node := rfl

@[simp] theorem note_exchange (s : Cluster ι) (i : ι) (n : Node) :
    (s.note i n).exchange = s.exchange := rfl

theorem mem_note {s : Cluster ι} {i k : ι} {n : Node} {r : Row} :
    (k, r) ∈ (s.note i n).written ↔
      (k, r) ∈ s.written ∨ (k = i ∧ r ∈ n.store.rows ∧ r ∉ (s.node i).store.rows) := by
  simp only [note, List.mem_append, List.mem_map, Prod.mk.injEq, Node.mem_newRows]
  constructor
  · rintro (h | ⟨r', hr', rfl, rfl⟩)
    · exact .inl h
    · exact .inr ⟨rfl, hr'⟩
  · rintro (h | ⟨rfl, hr⟩)
    · exact .inl h
    · exact .inr ⟨r, hr, rfl, rfl⟩

/-- No operation makes a clock counter wrap. -/
def NoWrap (s : Cluster ι) : Action ι → Prop
  | .perform i op => (s.node i).clock.NoWrap op.now
  | _ => True

variable [DecidableEq ι]

def setNode (s : Cluster ι) (i : ι) (n : Node) : Cluster ι :=
  { s with node := Function.update s.node i n }

def setExchange (s : Cluster ι) (i j : ι) (x : Exchange) : Cluster ι :=
  { s with exchange := Function.update s.exchange i (Function.update (s.exchange i) j x) }

/-- One step. -/
def step (E : Env) (s : Cluster ι) : Action ι → Option (Cluster ι)
  | .perform i op =>
      let n := op.exec E (s.node i)
      some ((s.note i n).setNode i n)
  | .request i j =>
      match s.exchange i j with
      | .idle =>
          -- a node is not its own peer
          if i = j then none
          else some (s.setExchange i j (.requested ((s.node i).request (s.node j).syncAddr)))
      | _ => none
  | .serve i j =>
      match s.exchange i j with
      | .requested req =>
          match (s.node j).server.pull E req with
          | some resp => some (s.setExchange i j (.responded req resp.wire))
          | none => some (s.setExchange i j .idle)
      | _ => none
  | .apply i j out =>
      match s.exchange i j with
      | .responded req resp =>
          let r := (s.node i).finishRound E (s.node j).syncAddr
            (req.eventWatermark.getD HLC.zero) resp
          if r.2 = out then some ((s.setNode i r.1).setExchange i j .idle) else none
      | _ => none
  | .lose i j => some (s.setExchange i j .idle)

/-! ## Reading a changed cluster -/

section Access
variable (s : Cluster ι) (i j k l : ι) (n : Node) (x : Exchange)

@[simp] theorem setNode_exchange : (s.setNode i n).exchange = s.exchange := rfl
@[simp] theorem setNode_written : (s.setNode i n).written = s.written := rfl
@[simp] theorem setExchange_node : (s.setExchange i j x).node = s.node := rfl
@[simp] theorem setExchange_written : (s.setExchange i j x).written = s.written := rfl

@[simp] theorem setNode_node_self : (s.setNode i n).node i = n := by simp [setNode]

theorem setNode_node_of_ne {i k : ι} (h : k ≠ i) : (s.setNode i n).node k = s.node k := by
  simp [setNode, h]

theorem setExchange_exchange :
    (s.setExchange i j x).exchange k l = if k = i ∧ l = j then x else s.exchange k l := by
  by_cases hk : k = i
  · subst hk
    by_cases hl : l = j
    · subst hl
      simp [setExchange]
    · simp [setExchange, hl]
  · simp [setExchange, hk]

end Access

/-! ## Inversion -/

section Inversion
variable {E : Env} {s t : Cluster ι} {i j : ι}

theorem step_perform {op : NodeOp} (h : step E s (.perform i op) = some t) :
    t = (s.note i (op.exec E (s.node i))).setNode i (op.exec E (s.node i)) :=
  (Option.some.inj h).symm

theorem node_of_perform {op : NodeOp} (h : step E s (.perform i op) = some t) :
    t.node i = op.exec E (s.node i) := by
  rw [step_perform h, setNode_node_self]

theorem node_of_perform_ne {op : NodeOp} (h : step E s (.perform i op) = some t) {k : ι}
    (hk : k ≠ i) : t.node k = s.node k := by
  rw [step_perform h, setNode_node_of_ne _ _ hk]
  rfl

theorem step_request (h : step E s (.request i j) = some t) :
    i ≠ j ∧ s.exchange i j = .idle ∧
      t = s.setExchange i j (.requested ((s.node i).request (s.node j).syncAddr)) := by
  simp only [step] at h
  split at h
  · next hx =>
    split at h
    · cases h
    · next hne => exact ⟨hne, hx, (Option.some.inj h).symm⟩
  · cases h

theorem step_serve (h : step E s (.serve i j) = some t) :
    ∃ req, s.exchange i j = .requested req ∧
      ((∃ resp, (s.node j).server.pull E req = some resp ∧
          t = s.setExchange i j (.responded req resp.wire)) ∨
        t = s.setExchange i j .idle) := by
  simp only [step] at h
  split at h
  · next req hx =>
    refine ⟨req, hx, ?_⟩
    split at h
    · next resp hresp => exact .inl ⟨resp, hresp, (Option.some.inj h).symm⟩
    · exact .inr (Option.some.inj h).symm
  · cases h

theorem step_apply {out : Outcome} (h : step E s (.apply i j out) = some t) :
    ∃ req resp n, s.exchange i j = .responded req resp ∧
      (s.node i).finishRound E (s.node j).syncAddr (req.eventWatermark.getD HLC.zero) resp
        = (n, out) ∧
      t = (s.setNode i n).setExchange i j .idle := by
  simp only [step] at h
  split at h
  · next req resp hx =>
    split at h
    · next hout => exact ⟨req, resp, _, hx, Prod.ext rfl hout, (Option.some.inj h).symm⟩
    · cases h
  · cases h

theorem step_lose (h : step E s (.lose i j) = some t) : t = s.setExchange i j .idle :=
  (Option.some.inj h).symm

/-! The same, seen from one node, one exchange, and the history. -/

/-- What a step can do to node `k`. -/
inductive NodeStep (E : Env) (s : Cluster ι) (a : Action ι) (k : ι) : Node → Prop
  | same : NodeStep E s a k (s.node k)
  | stamped {op : NodeOp} {n : Node} (ha : a = .perform k op) (hn : Stamped E (s.node k) op n) :
      NodeStep E s a k n
  | received {l : ι} {out : Outcome} {req : PullRequest} {resp : PullResponse} {n : Node}
      (ha : a = .apply k l out) (hx : s.exchange k l = .responded req resp)
      (hn : (s.node k).Received (s.node l).syncAddr resp n) : NodeStep E s a k n

theorem step_node {a : Action ι} (h : step E s a = some t) (k : ι) :
    NodeStep E s a k (t.node k) := by
  cases a with
  | perform i op =>
    rw [step_perform h]
    by_cases hk : k = i
    · subst hk
      rw [setNode_node_self]
      rcases op.exec_cases E (s.node k) with he | he
      · rw [he]
        exact .same
      · exact .stamped rfl he
    · rw [setNode_node_of_ne _ _ hk]
      exact .same
  | request i j =>
    obtain ⟨-, -, rfl⟩ := step_request h
    exact .same
  | serve i j =>
    obtain ⟨req, -, ⟨resp, -, rfl⟩ | rfl⟩ := step_serve h <;> exact .same
  | apply i j out =>
    obtain ⟨req, resp, n, hx, hfin, rfl⟩ := step_apply h
    rw [setExchange_node]
    by_cases hk : k = i
    · subst hk
      rw [setNode_node_self]
      rcases Node.finishRound_cases hfin with ⟨rfl, -⟩ | hrec
      · exact .same
      · exact .received rfl hx hrec
    · rw [setNode_node_of_ne _ _ hk]
      exact .same
  | lose i j =>
    rw [step_lose h]
    exact .same

/-- What a step can do to the exchange of `k` with `l`. -/
inductive ExchangeStep (E : Env) (s : Cluster ι) (a : Action ι) (k l : ι) : Exchange → Prop
  | same : ExchangeStep E s a k l (s.exchange k l)
  | idle : ExchangeStep E s a k l .idle
  | requested (ha : a = .request k l) (hne : k ≠ l) (hx : s.exchange k l = .idle) :
      ExchangeStep E s a k l (.requested ((s.node k).request (s.node l).syncAddr))
  | responded {req : PullRequest} {resp : PullResponse} (ha : a = .serve k l)
      (hx : s.exchange k l = .requested req)
      (hpull : (s.node l).server.pull E req = some resp) :
      ExchangeStep E s a k l (.responded req resp.wire)

theorem step_exchange {a : Action ι} (h : step E s a = some t) (k l : ι) :
    ExchangeStep E s a k l (t.exchange k l) := by
  have hset : ∀ (u : Cluster ι) (i j : ι) (x : Exchange), u.exchange = s.exchange →
      ExchangeStep E s a i j x → ExchangeStep E s a k l ((u.setExchange i j x).exchange k l) := by
    intro u i j x hu hx
    rw [setExchange_exchange]
    split
    · next hkl =>
      obtain ⟨rfl, rfl⟩ := hkl
      exact hx
    · rw [hu]
      exact .same
  cases a with
  | perform i op =>
    rw [step_perform h]
    exact .same
  | request i j =>
    obtain ⟨hne, hx, rfl⟩ := step_request h
    exact hset s i j _ rfl (.requested rfl hne hx)
  | serve i j =>
    obtain ⟨req, hx, ⟨resp, hpull, rfl⟩ | rfl⟩ := step_serve h
    · exact hset s i j _ rfl (.responded rfl hx hpull)
    · exact hset s i j _ rfl .idle
  | apply i j out =>
    obtain ⟨req, resp, n, hx, -, rfl⟩ := step_apply h
    exact hset _ i j _ rfl .idle
  | lose i j =>
    rw [step_lose h]
    exact hset s i j _ rfl .idle

/-- A request in flight was so before, or has just been sent. -/
theorem requested_cases {a : Action ι} (h : step E s a = some t) {k l : ι} {req : PullRequest}
    (hx : t.exchange k l = .requested req) :
    s.exchange k l = .requested req ∨
      (a = .request k l ∧ req = (s.node k).request (s.node l).syncAddr) := by
  have hstep := step_exchange h k l
  generalize t.exchange k l = x at hx hstep
  cases hstep with
  | same => exact .inl hx
  | idle => cases hx
  | requested ha =>
    cases hx
    exact .inr ⟨ha, rfl⟩
  | responded => cases hx

/-- A response in flight was so before, or has just been served. -/
theorem responded_cases {a : Action ι} (h : step E s a = some t) {k l : ι} {req : PullRequest}
    {resp : PullResponse} (hx : t.exchange k l = .responded req resp) :
    s.exchange k l = .responded req resp ∨
      (a = .serve k l ∧ s.exchange k l = .requested req ∧
        ∃ sent, (s.node l).server.pull E req = some sent ∧ resp = sent.wire) := by
  have hstep := step_exchange h k l
  generalize t.exchange k l = x at hx hstep
  cases hstep with
  | same => exact .inl hx
  | idle => cases hx
  | requested => cases hx
  | responded ha hreq hpull =>
    cases hx
    exact .inr ⟨ha, hreq, _, hpull, rfl⟩

/-- The history grows by what the performing node's table has gained. -/
theorem step_written {a : Action ι} (h : step E s a = some t) {k : ι} {r : Row} :
    (k, r) ∈ t.written ↔ (k, r) ∈ s.written ∨
      ((∃ op, a = .perform k op) ∧ r ∈ (t.node k).store.rows ∧ r ∉ (s.node k).store.rows) := by
  cases a with
  | perform i op =>
    rw [step_perform h, setNode_written, mem_note]
    refine or_congr_right ⟨?_, ?_⟩
    · rintro ⟨rfl, hr⟩
      exact ⟨⟨op, rfl⟩, by rwa [setNode_node_self]⟩
    · rintro ⟨⟨op', hop⟩, hr⟩
      cases hop
      exact ⟨rfl, by rwa [setNode_node_self] at hr⟩
  | request i j =>
    obtain ⟨-, -, rfl⟩ := step_request h
    simp
  | serve i j =>
    obtain ⟨req, -, ⟨resp, -, rfl⟩ | rfl⟩ := step_serve h <;> simp
  | apply i j out =>
    obtain ⟨req, resp, n, -, -, rfl⟩ := step_apply h
    simp
  | lose i j =>
    rw [step_lose h]
    simp

end Inversion

end Cluster

/-- `RoundOnce` of `i` on `j`, successful and with nothing in between. -/
def Action.round {ι : Type} (i j : ι) : List (Action ι) :=
  [.request i j, .serve i j, .apply i j .ok]

/-- The local operations of the run are the agent's and the API's writes. -/
def Action.Writes {ι : Type} : Action ι → Prop
  | .perform _ op => op.IsWrite
  | _ => True

/-- No local operation. -/
def Action.Quiet {ι : Type} : Action ι → Prop
  | .perform _ _ => False
  | _ => True

instance {ι : Type} : DecidablePred (Action.Writes (ι := ι))
  | .perform _ op => inferInstanceAs (Decidable op.IsWrite)
  | .request .. | .serve .. | .apply .. | .lose .. => isTrue trivial

instance {ι : Type} : DecidablePred (Action.Quiet (ι := ι))
  | .perform .. => isFalse not_false
  | .request .. | .serve .. | .apply .. | .lose .. => isTrue trivial

instance {ι : Type} (s : Cluster ι) : DecidablePred s.NoWrap
  | .perform i op => inferInstanceAs (Decidable ((s.node i).clock.NoWrap op.now))
  | .request .. | .serve .. | .apply .. | .lose .. => isTrue trivial

/-! ## A cluster to evaluate runs in -/

namespace Demo

/-- `n` nodes, not started yet. -/
def cluster (n : Nat) : Cluster (Fin n) :=
  .boot (fun i => nodeID i) (fun _ => epoch) (fun i => "10.0.0." ++ toString i.val ++ ":7001")

end Demo

end Takl
