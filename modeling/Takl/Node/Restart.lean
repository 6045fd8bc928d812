import Takl.Lib.Runs
import Takl.Node.Effect

/-!
# One node across restarts

The clock lives in memory, the HLCs it has to stay ahead of live on disk.
Within one process every stored HLC passes the clock first; a restart begins
again at zero with the tables as they are (`cmd/takld/main.go`).

The runs here are those of one node: its operations, rounds with whatever
responses its peers send, and restarts. `Life.restarted` is a history
variable: the process has not stamped yet since a restart. What matters is
that one first stamp (`Outruns`); from it on the clock is ahead again.
-/

namespace Takl

namespace Node

/-- Every HLC in the rows and events tables. -/
def stored (n : Node) : List HLC :=
  n.store.rows.rows.map Row.hlc ++ n.store.events.rows.map EventRow.hlc

theorem mem_stored {n : Node} {h : HLC} :
    h ∈ n.stored ↔ (∃ r ∈ n.store.rows, r.hlc = h) ∨ ∃ e ∈ n.store.events, e.hlc = h := by
  simp [stored, KeyedTable.mem_def]

/-- The clock accounts for everything stored. -/
def Dominates (n : Node) : Prop := ∀ h ∈ n.stored, h ≤ n.clock.reading

/-- A wall clock reading that puts the next stamp past everything stored:
either it is itself past it, or the clock ignores it and has been raised that
far by what was received. -/
def Outruns (n : Node) (now : Int64) : Prop :=
  if n.clock.ts < now then ∀ h ∈ n.stored, h < ⟨now, 0⟩ else n.Dominates

instance (n : Node) : Decidable n.Dominates :=
  inferInstanceAs (Decidable (∀ h ∈ n.stored, h ≤ n.clock.reading))

instance (n : Node) (now : Int64) : Decidable (n.Outruns now) :=
  inferInstanceAs (Decidable (if n.clock.ts < now then ∀ h ∈ n.stored, h < ⟨now, 0⟩
    else n.Dominates))

/-- `Outruns` is exact. -/
theorem outruns_iff {n : Node} {now : Int64} (hw : n.clock.NoWrap now) :
    n.Outruns now ↔ ∀ x ∈ n.stored, x < (n.clock.tick now).1 := by
  unfold Outruns
  split
  · next hlt =>
    have htick : (n.clock.tick now).1 = ⟨now, 0⟩ := by simp [Clock.tick, hlt]
    rw [htick]
  · next hlt => exact forall₂_congr fun x _ => (Clock.lt_tick_iff hw hlt).symm

theorem lt_tick_of_dominates {n : Node} {now : Int64} (hw : n.clock.NoWrap now)
    (h : n.Dominates) : ∀ x ∈ n.stored, x < (n.clock.tick now).1 :=
  fun x hx => (h x hx).trans_lt (Clock.reading_lt_tick hw)

end Node

/-- A node, and whether it has yet to stamp since its last restart. -/
structure Life where
  node : Node
  restarted : Bool

/-- What can happen to one node. -/
inductive LifeAction where
  | op (op : NodeOp)
  /-- A round from its response on; the response is any message a peer sends. -/
  | round (peer : String) (evWm : HLC) (resp : PullResponse)
  | restart (epoch : Epoch)

namespace Life

open Runs

/-- One step. An operation that leaves the clock alone was refused. -/
def step (E : Env) (l : Life) : LifeAction → Option Life
  | .op op =>
      let n := op.exec E l.node
      some ⟨n, if n.clock = l.node.clock then l.restarted else false⟩
  | .round peer evWm resp => some ⟨(l.node.finishRound E peer evWm resp).1, l.restarted⟩
  | .restart epoch => some ⟨l.node.restart epoch, true⟩

/-- A first start on an empty database. -/
def begin (nodeID : String) (epoch : Epoch) (syncAddr : String) : Life :=
  ⟨.fresh nodeID epoch syncAddr, false⟩

/-- No counter wraps, and the first stamp after a restart outruns the tables. -/
def FirstStampOutruns (l : Life) : LifeAction → Prop
  | .op op => l.node.clock.NoWrap op.now ∧ (l.restarted = true → l.node.Outruns op.now)
  | _ => True

instance (l : Life) : DecidablePred (FirstStampOutruns l)
  | .op op => inferInstanceAs (Decidable (l.node.clock.NoWrap op.now ∧ (_ → _)))
  | .round .. | .restart .. => isTrue trivial

/-- Between a stamp and the next restart the clock is ahead of the tables. -/
def Ahead (l : Life) : Prop := l.restarted = false → l.node.Dominates

/-- An admitted operation stamps past everything stored. -/
theorem Ahead.lt_tick {l : Life} {op : NodeOp} (h : l.Ahead)
    (hok : l.FirstStampOutruns (.op op)) :
    ∀ x ∈ l.node.stored, x < (l.node.clock.tick op.now).1 := by
  cases hr : l.restarted with
  | false => exact Node.lt_tick_of_dominates hok.1 (h hr)
  | true => exact (Node.outruns_iff hok.1).mp (hok.2 hr)

/-- Events an operation adds carry its timestamp. -/
theorem event_of_new {E : Env} {n n' : Node} {op : NodeOp} (h : Stamped E n op n')
    {e : EventRow} (he : e ∈ n'.store.events) (hnew : e ∉ n.store.events) :
    e.hlc = n'.clock.reading ∧ e.runnerID = n.nodeID ∧
      e.seq = n.store.maxSeq n.nodeID + 1 := by
  rw [h.reading]
  generalize ht : n'.store.events = t at he
  have heff := ht ▸ h.events
  cases heff with
  | same => exact absurd he hnew
  | emit hhlc hrunner hseq =>
    rcases KeyedTable.mem_upsert.mp he with rfl | ⟨he, -⟩
    · exact ⟨hhlc, hrunner, hseq⟩
    · exact absurd he hnew

theorem dominates_of_stamped {E : Env} {n n' : Node} {op : NodeOp} (h : Stamped E n op n')
    (hlt : ∀ x ∈ n.stored, x < (n.clock.tick op.now).1) : n'.Dominates := by
  intro x hx
  rw [← h.reading] at hlt
  rcases Node.mem_stored.mp hx with ⟨r, hr, rfl⟩ | ⟨e, he, rfl⟩
  · by_cases hold : r ∈ n.store.rows
    · exact (hlt _ (Node.mem_stored.mpr (.inl ⟨r, hold, rfl⟩))).le
    · exact (h.hlc_of_new hr hold).le
  · by_cases hold : e ∈ n.store.events
    · exact (hlt _ (Node.mem_stored.mpr (.inr ⟨e, hold, rfl⟩))).le
    · exact (event_of_new h he hold).1.le

theorem dominates_of_received {n n' : Node} {peer : String} {resp : PullResponse}
    (h : n.Received peer resp n') (hd : n.Dominates) : n'.Dominates := by
  intro x hx
  rcases Node.mem_stored.mp hx with ⟨r, hr, rfl⟩ | ⟨e, he, rfl⟩
  · rcases h.mem_rows hr with hold | ⟨hnew, -⟩
    · exact (hd _ (Node.mem_stored.mpr (.inl ⟨r, hold, rfl⟩))).trans h.clock_mono
    · exact h.clock_rows r hnew
  · rcases h.events e he with hold | hle
    · exact (hd _ (Node.mem_stored.mpr (.inr ⟨e, hold, rfl⟩))).trans h.clock_mono
    · exact hle

/-- **A step keeps the clock ahead of the tables**: a stamp puts it there, and
nothing but a restart takes it back. -/
theorem Ahead.step {E : Env} {l l' : Life} {a : LifeAction} (h : l.Ahead)
    (hok : l.FirstStampOutruns a) (hst : step E l a = some l') : l'.Ahead := by
  cases a with
  | op op =>
    cases hst
    rcases op.exec_cases E l.node with he | he
    · intro hr
      simp only [he, if_true] at hr ⊢
      exact h hr
    · exact fun _ => dominates_of_stamped he (h.lt_tick hok)
  | round peer evWm resp =>
    cases hst
    intro hr
    rcases Node.finishRound_cases (Prod.eta _).symm with ⟨he, -⟩ | hrec
    · rw [he]
      exact h hr
    · exact dominates_of_received hrec (h hr)
  | restart epoch =>
    cases hst
    exact fun hr => nomatch hr

/-- **Restarts do not let the tables overtake the clock** for longer than to
the next stamp. -/
theorem Ahead.run {E : Env} {l l' : Life} {as : List LifeAction}
    (hr : Run (Life.step E) FirstStampOutruns l as l') (h : l.Ahead) : l'.Ahead :=
  hr.invariant (I := Ahead) (fun _ _ _ h hok hst => h.step hok hst) h

theorem ahead_begin (nodeID : String) (epoch : Epoch) (syncAddr : String) :
    (begin nodeID epoch syncAddr).Ahead :=
  fun _ _ hh => nomatch hh

/-- **Writes keep winning across restarts** whose first stamp outruns the
tables: a row an operation stores is after everything stored and beats the
row it replaces wherever that one is held, and an event is after everything
stored, under a sequence number past those of the node's other events. -/
theorem stamps_after_restart (E : Env) {nodeID syncAddr : String} {epoch : Epoch}
    {l l' : Life} {as : List LifeAction} {op : NodeOp}
    (hr : Run (step E) FirstStampOutruns (begin nodeID epoch syncAddr) as l)
    (hok : l.FirstStampOutruns (.op op)) (hst : step E l (.op op) = some l') :
    (∀ r ∈ l'.node.store.rows, r ∉ l.node.store.rows →
      (∀ h ∈ l.node.stored, r.hlc.after h = true) ∧
        ∀ c ∈ l.node.store.rows, c.id = r.id → newer r c = true) ∧
    (∀ e ∈ l'.node.store.events, e ∉ l.node.store.events →
      (∀ h ∈ l.node.stored, e.hlc.after h = true) ∧
        (l.node.store.maxSeq l.node.nodeID < Int64.maxValue →
          ∀ e' ∈ l.node.store.events, e'.runnerID = e.runnerID → e'.seq < e.seq)) := by
  have hlt := ((ahead_begin nodeID epoch syncAddr).run hr).lt_tick hok
  cases hst
  rcases op.exec_cases E l.node with he | he
  · simp only [he]
    exact ⟨fun r hr hn => absurd hr hn, fun e he hn => absurd he hn⟩
  · rw [← he.reading] at hlt
    refine ⟨fun r hr hn => ⟨fun h hh => ?_, fun c hc _ => ?_⟩,
      fun e hev hn => ⟨fun h hh => ?_, fun hmax e' he' hid => ?_⟩⟩
    · exact HLC.after_iff.mpr (he.hlc_of_new hr hn ▸ hlt h hh)
    · refine newer_iff.mpr (Row.version_lt_of_hlc_lt ?_)
      exact he.hlc_of_new hr hn ▸ hlt _ (Node.mem_stored.mpr (.inl ⟨c, hc, rfl⟩))
    · exact HLC.after_iff.mpr ((event_of_new he hev hn).1 ▸ hlt h hh)
    · obtain ⟨-, hrunner, hseq⟩ := event_of_new he hev hn
      rw [hseq]
      exact Store.lt_nextSeq hmax he' (hid.trans hrunner)

/-- A peer whose clock runs ahead sends its runner row. -/
def fromAhead : PullResponse :=
  { nodeId := Demo.nodeID 1, checksums := [], events := [], eventChecksum := 0
    rows := [⟨"runner", Demo.nodeID 1, "n1/1", some ⟨1000, 0⟩, false, some [1]⟩] }

/-- Node 0 starts, pulls from the peer ahead, steps at the peer's time, and is
restarted. -/
def upToRestart : List LifeAction :=
  [.op (.start 10 (Demo.runner 0)), .round "10.0.0.1:7001" HLC.zero fromAhead,
    .op (.step 12 (Demo.runner 0)), .restart Demo.epoch]

/-- The first stamp after the restart may come late enough. -/
theorem late_restart_wins : ∃ l l' : Life,
    Run (step .escapeFree) FirstStampOutruns (begin (Demo.nodeID 0) Demo.epoch "10.0.0.0:7001")
      upToRestart l ∧
    step .escapeFree l (.op (.start 2000 (Demo.runner 0))) = some l' ∧
    (∃ r ∈ l'.node.store.rows.rows, r ∉ l.node.store.rows.rows ∧ r.hlc = ⟨2000, 0⟩) ∧
    ∀ r ∈ l'.node.store.rows, r ∉ l.node.store.rows →
      ∀ c ∈ l.node.store.rows, c.id = r.id → newer r c = true := by
  obtain ⟨l, l', hr, hst, hok, hnew⟩ : ∃ l l' : Life,
      Run (step .escapeFree) FirstStampOutruns (begin (Demo.nodeID 0) Demo.epoch "10.0.0.0:7001")
        upToRestart l ∧
      step .escapeFree l (.op (.start 2000 (Demo.runner 0))) = some l' ∧
      l.FirstStampOutruns (.op (.start 2000 (Demo.runner 0))) ∧
      ∃ r ∈ l'.node.store.rows.rows, r ∉ l.node.store.rows.rows ∧ r.hlc = ⟨2000, 0⟩ :=
    exists_run_step (by decide +kernel)
  refine ⟨l, l', hr, hst, hnew, fun r hnew hold => ?_⟩
  exact ((stamps_after_restart .escapeFree hr hok hst).1 r hnew hold).2

/-- A restart before the wall clock has reached the peer's time: the new
runner row and the new event are stamped before what they follow, and a peer
that holds the previous runner row refuses the new one. -/
theorem early_restart_loses : ∃ l l' : Life,
    Run (step .escapeFree) (fun _ _ => True)
      (begin (Demo.nodeID 0) Demo.epoch "10.0.0.0:7001") upToRestart l ∧
    step .escapeFree l (.op (.start 20 (Demo.runner 0))) = some l' ∧
    (∃ c ∈ l.node.store.rows.rows, ∃ r ∈ l'.node.store.rows.rows,
      r ∉ l.node.store.rows.rows ∧ c.id = r.id ∧ c.hlc = ⟨1000, 1⟩ ∧ r.hlc = ⟨20, 0⟩ ∧
        newer r c = false) ∧
    ∃ h ∈ l.node.stored, ∃ e ∈ l'.node.store.events.rows,
      e ∉ l.node.store.events.rows ∧ e.hlc.after h = false := by
  have hex : ((exec (step .escapeFree) (fun _ _ => True)
        (begin (Demo.nodeID 0) Demo.epoch "10.0.0.0:7001") upToRestart).bind fun l =>
      (step .escapeFree l (.op (.start 20 (Demo.runner 0)))).map fun l' => decide (
        (∃ c ∈ l.node.store.rows.rows, ∃ r ∈ l'.node.store.rows.rows,
          r ∉ l.node.store.rows.rows ∧ c.id = r.id ∧ c.hlc = ⟨1000, 1⟩ ∧ r.hlc = ⟨20, 0⟩ ∧
            newer r c = false) ∧
        ∃ h ∈ l.node.stored, ∃ e ∈ l'.node.store.events.rows,
          e ∉ l.node.store.events.rows ∧ e.hlc.after h = false)) = some true := by
    decide +kernel
  obtain ⟨l, hl, hex⟩ := Option.bind_eq_some_iff.mp hex
  obtain ⟨l', hl', hex⟩ := Option.map_eq_some_iff.mp hex
  exact ⟨l, l', run_of_exec hl, hl', of_decide_eq_true hex⟩

end Life

end Takl
