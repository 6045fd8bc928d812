import Takl.Api.Server
import Takl.Cluster.Model

/-!
# The agents of a cluster

Only `Step` moves an agent, and by the sample it takes. So the state of each
agent, at any point of a run, is a function of the samples it has taken by
then (`agent_of_run`): neither requests nor rounds nor the other nodes touch it.
-/

namespace Takl

/-! ## Only `Step` moves the agent -/

theorem Node.call_agent (n : Node) (f : Store → Except DbError Store) :
    (n.call f).1.agent = n.agent := by
  rcases n.call_cases f with ⟨st, -, hcall⟩ | ⟨e, -, hcall⟩
  · rw [hcall]
  · rw [hcall]

theorem NodeOp.exec_agent (E : Env) (n : Node) (op : NodeOp) :
    (op.exec E n).agent =
      match op with
      | step _ snapshot => n.agent.observe snapshot.isHot
      | _ => n.agent := by
  cases op with
  | start now snapshot =>
    obtain ⟨st, hst, -⟩ := n.start_spec E now snapshot
    simp only [NodeOp.exec, hst]
  | step now snapshot =>
    obtain ⟨st, hst, -⟩ := n.step_spec E now snapshot
    simp only [NodeOp.exec, hst]
  | putLabels now id body => exact (Api.labelsOnly_updateLabels E n now id body).agent
  | deleteLabels now id => exact (Api.labelsOnly_deleteLabels E n now id).agent
  | member now ev =>
    simp only [NodeOp.exec, Node.handleMembershipEvent]
    split <;> simp [Node.emit, Node.call_agent, Node.tick]
  | gc now => rfl

theorem Node.finishRound_agent (E : Env) (n : Node) (peer : String) (evWm : HLC)
    (resp : PullResponse) : (n.finishRound E peer evWm resp).1.agent = n.agent := by
  have hrows : ∀ {n₁ : Node}, n.applyRows peer resp = .ok n₁ → n₁.agent = n.agent := by
    intro n₁ h
    unfold Node.applyRows at h
    split at h
    · cases h
      rfl
    · obtain ⟨st, -, rfl⟩ := Except.map_eq_ok.mp h
      rfl
  have hevents : ∀ {n₁ n₂ : Node}, n₁.applyEvents E peer evWm resp = some n₂ →
      n₂.agent = n₁.agent := by
    intro n₁ n₂ h
    unfold Node.applyEvents at h
    split at h
    · cases h
      rfl
    · obtain ⟨xs, -, rfl⟩ := Option.map_eq_some_iff.mp h
      rfl
  unfold Node.finishRound
  split
  · rfl
  · next n₁ h₁ =>
    split
    · next n₂ h₂ => exact (hevents h₂).trans (hrows h₁)
    · exact hrows h₁

namespace Cluster

open Runs

variable {ι : Type} [DecidableEq ι]

/-- The samples the agent of `j` takes in `as`, hot ones `true`. -/
def samples (j : ι) (as : List (Action ι)) : List Bool :=
  as.flatMap fun
    | .perform k (.step _ snapshot) => if k = j then [snapshot.isHot] else []
    | _ => []

section Agent
variable {E : Env} {s t : Cluster ι} {j : ι}

theorem agent_step {a : Action ι} (h : step E s a = some t) :
    (t.node j).agent = (samples j [a]).foldl AgentState.observe (s.node j).agent := by
  cases a with
  | perform k op =>
    by_cases hk : j = k
    · subst hk
      rw [node_of_perform h, NodeOp.exec_agent]
      cases op <;> simp [samples]
    · rw [node_of_perform_ne h hk]
      have hk' : k ≠ j := fun he => hk he.symm
      cases op <;> simp [samples, hk']
  | request i k =>
    obtain ⟨-, -, rfl⟩ := step_request h
    rfl
  | serve i k =>
    obtain ⟨req, -, ⟨resp, -, rfl⟩ | rfl⟩ := step_serve h
    · rfl
    · rfl
  | apply i k out =>
    obtain ⟨req, resp, n, -, hfin, rfl⟩ := step_apply h
    by_cases hi : j = i
    · subst hi
      have hagent := (s.node j).finishRound_agent E (s.node k).syncAddr
        (req.eventWatermark.getD HLC.zero) resp
      rw [hfin] at hagent
      simpa [samples] using hagent
    · simp [samples, setNode_node_of_ne _ _ hi]
  | lose i k =>
    rw [step_lose h]
    rfl

theorem agent_run {ok : Cluster ι → Action ι → Prop} {as : List (Action ι)}
    (hr : Run (step E) ok s as t) :
    (t.node j).agent = (samples j as).foldl AgentState.observe (s.node j).agent := by
  induction hr with
  | nil => rfl
  | @cons s u t a as _ hst _ ih =>
    have hcons : samples j (a :: as) = samples j [a] ++ samples j as := by simp [samples]
    rw [ih, agent_step hst, hcons, List.foldl_append]

/-- The agent of `j` after `as`, from the start of its process. -/
def agentAfter (j : ι) (as : List (Action ι)) : AgentState :=
  (samples j as).foldl AgentState.observe .new

theorem agentAfter_append (j : ι) (as bs : List (Action ι)) :
    agentAfter j (as ++ bs) = (samples j bs).foldl AgentState.observe (agentAfter j as) := by
  rw [agentAfter, samples, List.flatMap_append, List.foldl_append]
  rfl

theorem agentAfter_step (j : ι) (as : List (Action ι)) (now : Int64) (snapshot : Runner) :
    agentAfter j (as ++ [.perform j (.step now snapshot)]) =
      (agentAfter j as).observe snapshot.isHot := by
  rw [agentAfter_append]
  simp [samples]

/-- **An agent has seen its samples and nothing else.** -/
theorem agent_of_run {ok : Cluster ι → Action ι → Prop} {id : ι → String} {epoch : ι → Epoch}
    {addr : ι → String} {as : List (Action ι)} (hr : Run (step E) ok (boot id epoch addr) as t) :
    (t.node j).agent = agentAfter j as :=
  agent_run hr

end Agent

end Cluster

end Takl
