import Takl.Interleaving.Writer
import Takl.Lib.Channel

/-!
# Departures (`internal/membership`, `handleMembershipEvents`)

The gossip layer raises notifications and hands them to the agent through a
channel of 256 places; a notification that finds it full is dropped. The
agent's handler takes one event after the other and makes its clock and store
calls for it. `Watch` is the two of them, with the history of what was raised
and which nodes were pruned.

A departure is forgotten if nothing is left that would prune the node. That
cannot happen as long as no `NotifyLeave` finds the channel full
(`no_departure_forgotten`).
-/

namespace Takl

/-- What is remembered of a run. -/
inductive Mark where
  /-- A notification was raised. -/
  | raised (ev : MemberEvent)
  /-- `DeleteByNode` was executed. -/
  | pruned (nodeID : String)
  deriving DecidableEq

/-- The gossip layer's side of the channel, and the handler's. -/
structure Watch where
  node : Node
  channel : Channel MemberEvent 256
  /-- What the handler is doing; `none` while it waits for an event. -/
  handler : Option Writer
  /-- The last mark comes first. -/
  history : List Mark

namespace Watch

/-- `NewCluster` and a handler that has just been started. -/
def init (node : Node) : Watch := ⟨node, .empty, none, []⟩

inductive Act where
  /-- `NotifyJoin`, `NotifyLeave` or `NotifyUpdate`. -/
  | notify (ev : MemberEvent)
  /-- `ev := <-a.cluster.Events()`. -/
  | take
  /-- The handler's next call of the clock or the store. -/
  | call (now : Int64)
  /-- Anything else the process does. -/
  | other (op : NodeOp)

/-- The mark a handler's call leaves. -/
def markOf : Writer → List Mark
  | .prune ev _ => [.pruned ev.nodeID]
  | _ => []

def step (E : Env) (w : Watch) : Act → Option Watch
  | .notify ev =>
      some { w with channel := w.channel.trySend ev, history := .raised ev :: w.history }
  | .take =>
      if w.handler.isSome then none
      else w.channel.receive.map fun (ev, channel) =>
        { w with channel, handler := some (.member ev) }
  | .call now =>
      w.handler.map fun writer =>
        { w with
          node := (writer.next E w.node now).1
          handler := (writer.next E w.node now).2
          history := markOf writer ++ w.history }
  | .other op => some { w with node := op.exec E w.node }

/-- The node's last join or leave was a leave, and it has not been pruned
since. -/
def Unpruned (nodeID : String) (history : List Mark) : Prop :=
  ∃ newer ev older, history = newer ++ .raised ev :: older ∧ ev.type = .leave ∧
    ev.nodeID = nodeID ∧ .pruned nodeID ∉ newer ∧
    ∀ ev', .raised ev' ∈ newer → ev'.nodeID = nodeID → ev'.type = .update

/-- No `NotifyLeave` finds the channel full. -/
def HasRoom (w : Watch) : Act → Prop
  | .notify ev => ev.type = .leave → w.channel.queue.length < 256
  | _ => True

instance (w : Watch) : DecidablePred w.HasRoom
  | .notify ev => inferInstanceAs (Decidable (ev.type = .leave → w.channel.queue.length < 256))
  | .take | .call _ | .other _ => isTrue trivial

/-! ## What is still owed -/

/-- The event will make the handler prune the node. -/
def IsLeave (nodeID : String) (ev : MemberEvent) : Prop := ev.type = .leave ∧ ev.nodeID = nodeID

/-- A leave of the node waits in the channel, or the handler is on the way
from taking it to pruning. -/
inductive Owed (nodeID : String) (w : Watch) : Prop
  | waiting {ev : MemberEvent} : ev ∈ w.channel.queue → IsLeave nodeID ev → Owed nodeID w
  | taken {ev : MemberEvent} : w.handler = some (.member ev) → IsLeave nodeID ev → Owed nodeID w
  | stamped {ev : MemberEvent} {hlc : HLC} :
      w.handler = some (.prune ev hlc) → ev.nodeID = nodeID → Owed nodeID w

/-- Whoever has left and was not pruned will be. -/
def Owes (w : Watch) : Prop := ∀ nodeID, Unpruned nodeID w.history → Owed nodeID w

theorem owes_init (node : Node) : (init node).Owes := by
  rintro nodeID ⟨newer, ev, older, h, -⟩
  simp [init] at h

/-- A mark that is not the node's last leave leaves the question as it was. -/
theorem Unpruned.of_cons {nodeID : String} {m : Mark} {history : List Mark}
    (h : Unpruned nodeID (m :: history)) :
    (∃ ev, m = .raised ev ∧ IsLeave nodeID ev) ∨
      (m ≠ .pruned nodeID ∧ Unpruned nodeID history) := by
  obtain ⟨newer, ev, older, h, htype, hid, hpruned, hlast⟩ := h
  cases newer with
  | nil =>
    rw [List.nil_append, List.cons.injEq] at h
    exact .inl ⟨ev, h.1, htype, hid⟩
  | cons m' newer =>
    rw [List.cons_append, List.cons.injEq] at h
    obtain ⟨rfl, rfl⟩ := h
    refine .inr ⟨fun hm => hpruned (hm ▸ List.mem_cons_self), newer, ev, older, rfl, htype, hid,
      fun hc => hpruned (List.mem_cons_of_mem _ hc), fun ev' hev' => ?_⟩
    exact hlast ev' (List.mem_cons_of_mem _ hev')

/-- What is owed stays owed while the handler is where it was and no event is
taken out of the channel. -/
theorem Owed.mono {nodeID : String} {w w' : Watch} (h : Owed nodeID w)
    (hqueue : ∀ ev ∈ w.channel.queue, ev ∈ w'.channel.queue) (hhandler : w'.handler = w.handler) :
    Owed nodeID w' := by
  cases h with
  | waiting hmem hleave => exact .waiting (hqueue _ hmem) hleave
  | taken hmember hleave => exact .taken (hhandler.trans hmember) hleave
  | stamped hprune hid => exact .stamped (hhandler.trans hprune) hid

/-- While the handler waits, the leave is in the channel. -/
theorem Owed.of_idle {nodeID : String} {w : Watch} (h : Owed nodeID w) (hidle : w.handler = none) :
    ∃ ev ∈ w.channel.queue, IsLeave nodeID ev := by
  cases h with
  | waiting hmem hleave => exact ⟨_, hmem, hleave⟩
  | taken hmember => rw [hidle] at hmember; cases hmember
  | stamped hprune => rw [hidle] at hprune; cases hprune

/-- A node that is unpruned after a call was so before, and the call did not
prune it. -/
theorem Unpruned.of_call {nodeID : String} {writer : Writer} {history : List Mark}
    (h : Unpruned nodeID (markOf writer ++ history)) :
    (∀ ev hlc, writer = .prune ev hlc → ev.nodeID ≠ nodeID) ∧ Unpruned nodeID history := by
  cases writer with
  | prune ev hlc =>
    rcases h.of_cons with ⟨_, hc, -⟩ | ⟨hne, h⟩
    · cases hc
    · refine ⟨fun ev' hlc' heq hid => hne ?_, h⟩
      cases heq
      rw [hid]
  | _ => exact ⟨fun _ _ hc => (by cases hc), h⟩

/-- A step leaves nobody out whose leave was queued. -/
theorem Owes.step {E : Env} {w w' : Watch} {a : Act} (h : w.Owes) (hroom : w.HasRoom a)
    (hstep : w.step E a = some w') : w'.Owes := by
  intro nodeID hun
  cases a with
  | notify ev =>
    cases hstep
    rcases hun.of_cons with ⟨ev', hev', hleave⟩ | ⟨-, hun⟩
    · cases hev'
      exact .waiting (Channel.mem_trySend_self (hroom hleave.1) ev) hleave
    · exact (h nodeID hun).mono (fun _ hmem => Channel.mem_trySend hmem ev) rfl
  | take =>
    simp only [Watch.step] at hstep
    split at hstep
    · cases hstep
    · next hidle =>
      obtain ⟨⟨ev, channel⟩, hreceive, rfl⟩ := Option.map_eq_some_iff.mp hstep
      rw [Bool.not_eq_true, Option.isSome_eq_false_iff, Option.isNone_iff_eq_none] at hidle
      -- the handler waits, so the leave is in the channel: at its head or behind
      obtain ⟨ev', hmem, hleave⟩ := (h nodeID hun).of_idle hidle
      rw [Channel.queue_of_receive hreceive, List.mem_cons] at hmem
      rcases hmem with rfl | hmem
      · exact .taken rfl hleave
      · exact .waiting hmem hleave
  | call now =>
    obtain ⟨writer, hwriter, rfl⟩ := Option.map_eq_some_iff.mp hstep
    -- a handler that has taken the leave stamps it now; one that has stamped it prunes
    obtain ⟨hnot, hun⟩ := hun.of_call
    cases h nodeID hun with
    | waiting hmem hleave => exact .waiting hmem hleave
    | @taken ev hhandler hleave =>
      rw [hwriter, Option.some_inj] at hhandler
      cases hhandler
      have hnext : ((Writer.member ev).next E w.node now).2 =
          some (.prune ev (w.node.tick now).1) := by
        simp only [Writer.next, hleave.1]
      exact .stamped hnext hleave.2
    | stamped hhandler hid =>
      rw [hwriter, Option.some_inj] at hhandler
      exact absurd hid (hnot _ _ hhandler)
  | other op =>
    cases hstep
    exact (h nodeID hun).mono (fun _ hmem => hmem) rfl

/-- **No departure is forgotten while the channel has room.** In every run in
which no `NotifyLeave` finds the channel full, when the channel is empty and
the handler waits, every node whose last join or leave was a leave has been
pruned after it. -/
theorem no_departure_forgotten (E : Env) (node : Node) {as : List Act} {w : Watch}
    (hrun : Runs.Run (step E) HasRoom (init node) as w) (hempty : w.channel.queue = [])
    (hidle : w.handler = none) (nodeID : String) : ¬Unpruned nodeID w.history := by
  intro hun
  have howes : w.Owes := hrun.invariant (fun s a u hs hok hst => hs.step hok hst) (owes_init node)
  obtain ⟨ev, hmem, -⟩ := (howes nodeID hun).of_idle hidle
  rw [hempty] at hmem
  cases hmem

/-! ## Two runs -/

/-- The node whose handler is watched. -/
def watcher : Node := .fresh "n1" Demo.epoch "10.0.0.1:8100"

def leaves (nodeID : String) : MemberEvent := ⟨.leave, nodeID, "10.0.0.2"⟩

def updates (nodeID : String) : MemberEvent := ⟨.update, nodeID, "10.0.0.3"⟩

/-- A leave that is taken and handled: `Tick`, `DeleteByNode`, `AppendEvent`. -/
theorem leave_is_pruned : ∃ w,
    Runs.Run (step .escapeFree) HasRoom (init watcher)
      [.notify (leaves "n2"), .take, .call 1, .call 2, .call 3] w ∧
      w.history = [.pruned "n2", .raised (leaves "n2")] ∧ ¬Unpruned "n2" w.history := by
  obtain ⟨w, hrun, hempty, hidle, hhistory⟩ : ∃ w,
      Runs.Run (step .escapeFree) HasRoom (init watcher)
        [.notify (leaves "n2"), .take, .call 1, .call 2, .call 3] w ∧
        w.channel.queue = [] ∧ w.handler.isNone = true ∧
        w.history = [.pruned "n2", .raised (leaves "n2")] := Runs.exists_run (by decide +kernel)
  refine ⟨w, hrun, hhistory, ?_⟩
  exact no_departure_forgotten .escapeFree watcher hrun hempty (Option.isNone_iff_eq_none.mp hidle)
    "n2"

/-- 256 updates wait when a node leaves; the handler then works them off. -/
def backlog : List Act :=
  List.replicate 256 (.notify (updates "n3")) ++
    .notify (leaves "n2") :: (List.replicate 256 [.take, .call 1]).flatten

/-- The leave is dropped: at the end nothing waits, the handler is idle, and
the node that left has not been pruned. -/
theorem leave_dropped_at_full_channel : ∃ w,
    Runs.Run (step .escapeFree) (fun _ _ => True) (init watcher) backlog w ∧
      w.channel.queue = [] ∧ w.handler = none ∧ Unpruned "n2" w.history := by
  obtain ⟨w, hrun, hempty, hidle, hlast⟩ : ∃ w,
      Runs.Run (step .escapeFree) (fun _ _ => True) (init watcher) backlog w ∧
        w.channel.queue = [] ∧ w.handler.isNone = true ∧
        w.history.head? = some (.raised (leaves "n2")) := Runs.exists_run (by decide +kernel)
  refine ⟨w, hrun, hempty, Option.isNone_iff_eq_none.mp hidle, ?_⟩
  obtain ⟨older, holder⟩ := List.head?_eq_some_iff.mp hlast
  exact ⟨[], leaves "n2", older, holder, rfl, rfl, by simp, by simp⟩

end Watch

end Takl
