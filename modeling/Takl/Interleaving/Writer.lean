import Takl.Lib.Runs
import Takl.Node.Effect

/-!
# Local writers, one store or clock call at a time

An agent step, a label request and a membership event run in goroutines of
their own and share the clock and the store. `Writer` is such a goroutine
between two calls: what it is about to do and what it has in its variables.
`Writer.next` makes the call. A writer that nobody interrupts does what
`NodeOp.exec` says (`finish_ofOp`); in a `Crew` they take turns in any order.

Of a writer that has its timestamp the rest of the development knows the
`Write` it is going to make, and of a call that it is one of four (`Called`).
-/

namespace Takl

/-- A goroutine that writes, before its next call. -/
inductive Writer where
  /-- `Agent.Start` before its `Tick`. -/
  | start (snapshot : Runner)
  /-- `Agent.Step` before its `Tick`. -/
  | step (snapshot : Runner)
  /-- `handleUpdateLabels` before the `Get` of the runner row. -/
  | putLabels (id : String) (body : Option (Option Labels))
  /-- `handleUpdateLabels` before the `Get` of the label row. -/
  | mergeLabels (id : String) (incoming : Option Labels)
  /-- `handleUpdateLabels` before its `Tick`. -/
  | stampLabels (id : String) (labels : Option Labels)
  /-- `handleDeleteLabels` before its `Tick`. -/
  | deleteLabels (id : String)
  /-- `handleMembershipEvents` before its `Tick`. -/
  | member (ev : MemberEvent)
  /-- Before a `Put` that is the last call. -/
  | put (r : Row)
  /-- `Agent.Start` before its `Put`. -/
  | putThenEmit (r : Row)
  /-- `Store.Delete` before its `get`. -/
  | deleteGet (kind : Kind) (key owner : String) (hlc : HLC)
  /-- `Store.Delete` before its `upsert`. -/
  | deleteUpsert (kind : Kind) (key owner : String) (hlc : HLC) (payload : Option Bytes)
  /-- `handleMembershipEvents` before `DeleteByNode`. -/
  | prune (ev : MemberEvent) (hlc : HLC)
  /-- Before the `AppendEvent` of `emit`. -/
  | emit (type : EventType) (payload : EventPayload) (hlc : HLC)

namespace Writer

/-- The goroutine of an operation; the collector is not one of the writers. -/
def ofOp : NodeOp → Option Writer
  | .start _ snapshot => some (.start snapshot)
  | .step _ snapshot => some (.step snapshot)
  | .putLabels _ id body => some (.putLabels id body)
  | .deleteLabels _ id => some (.deleteLabels id)
  | .member _ ev => some (.member ev)
  | .gc _ => none

/-- The payload of the event a membership event becomes. -/
def memberPayload (ev : MemberEvent) : EventPayload :=
  some [("node_id", .str ev.nodeID), ("ip", .str ev.ip)]

/-- One call, and what is left to do. A `Tick` reads `now`. -/
def next (E : Env) (n : Node) (now : Int64) : Writer → Node × Option Writer
  | start snapshot =>
      let (hlc, n) := n.tick now
      (n, some (.putThenEmit (n.runnerRow E { snapshot with status := .active } hlc)))
  | step snapshot =>
      let (hlc, n) := n.tick now
      let agent := n.agent.observe snapshot.isHot
      ({ n with agent }, some (.put (n.runnerRow E { snapshot with status := agent.status } hlc)))
  | putLabels id body =>
      match n.store.get E kindRunner id with
      | none => (n, none)
      | some runnerRow =>
          if runnerRow.tombstone then (n, none)
          else (n, body.map fun incoming => .mergeLabels id incoming)
  | mergeLabels id incoming =>
      (n, (Node.mergeLabels (Node.storedLabels E n.store id) incoming).map fun labels =>
        .stampLabels id labels)
  | stampLabels id labels =>
      let (hlc, n) := n.tick now
      (n, some (.put (n.labelsRow E id labels hlc)))
  | deleteLabels id =>
      let (hlc, n) := n.tick now
      (n, some (.deleteGet kindMeta id n.apiOwner hlc))
  | member ev =>
      let (hlc, n) := n.tick now
      match ev.type with
      | .join => (n, some (.emit .runnerJoined (memberPayload ev) hlc))
      | .leave => (n, some (.prune ev hlc))
      | .update => (n, none)
  | put r => ((n.call fun st => st.put r).1, none)
  | putThenEmit r =>
      match n.call fun st => st.put r with
      | (n, some _) => (n, none)
      | (n, none) => (n, some (.emit .runnerJoined none r.hlc))
  | deleteGet kind key owner hlc =>
      (n, some (.deleteUpsert kind key owner hlc (n.store.deletePayload E kind key)))
  | deleteUpsert kind key owner hlc payload =>
      ((n.call fun st => st.upsert (Store.tombstoneRow kind key owner hlc payload)).1, none)
  | prune ev hlc =>
      ({ n with store := n.store.deleteByNode ev.nodeID hlc },
        some (.emit .runnerLeft (memberPayload ev) hlc))
  | emit type payload hlc => ((n.emit E type payload hlc).1, none)

/-- The writer makes all its calls, one right after the other. -/
def finish (E : Env) (now : Int64) : Nat → Node → Option Writer → Node
  | k + 1, n, some w => finish E now k (w.next E n now).1 (w.next E n now).2
  | _, n, _ => n

/-- The two calls of `Store.Delete` in one. -/
theorem call_delete (E : Env) (n : Node) (kind : Kind) (key owner : String) (hlc : HLC) :
    (n.call fun st => st.delete E kind key owner hlc) = n.call fun st =>
      st.upsert (Store.tombstoneRow kind key owner hlc (n.store.deletePayload E kind key)) := rfl

/-- **An uninterrupted writer is the operation.** -/
theorem finish_ofOp (E : Env) (n : Node) {op : NodeOp} {w : Writer} (h : ofOp op = some w) :
    finish E op.now 4 n (some w) = op.exec E n := by
  cases op with
  | start now snapshot =>
    cases h
    simp only [NodeOp.now, NodeOp.exec, Node.start, finish, next, Node.tick, Node.putRow]
    generalize Node.call _ _ = c
    obtain ⟨m, _ | e⟩ := c <;> rfl
  | step now snapshot =>
    cases h
    rfl
  | putLabels now id body =>
    cases h
    simp only [NodeOp.now, NodeOp.exec, Node.handleUpdateLabels, finish, next]
    cases n.store.get E kindRunner id with
    | none => rfl
    | some runnerRow =>
      cases hdead : runnerRow.tombstone with
      | true => simp [finish, hdead]
      | false =>
        cases body with
        | none => simp [finish, hdead]
        | some incoming =>
          simp only [hdead, Bool.false_eq_true, if_false, Option.map_some, finish, next]
          cases Node.mergeLabels (Node.storedLabels E n.store id) incoming with
          | none => rfl
          | some labels =>
            simp only [Option.map_some, finish, next, Node.tick]
            generalize Node.call _ _ = c
            obtain ⟨m, _ | e⟩ := c <;> rfl
  | deleteLabels now id =>
    cases h
    simp only [NodeOp.now, NodeOp.exec, Node.handleDeleteLabels, finish, next, Node.tick]
    rw [call_delete]
    generalize Node.call _ _ = c
    obtain ⟨m, _ | e⟩ := c <;> rfl
  | member now ev =>
    cases h
    simp only [NodeOp.now, NodeOp.exec, Node.handleMembershipEvent, finish, next, Node.tick]
    cases ev.type <;> rfl
  | gc now => cases h

end Writer

/-! ## What a writer is going to write -/

/-- A write whose timestamp is taken. -/
inductive Write where
  | row (kind : Kind) (key owner : String) (hlc : HLC)
  | prune (nodeID : String) (hlc : HLC)

namespace Write

def hlc : Write → HLC
  | row _ _ _ hlc | prune _ hlc => hlc

/-- The write replaces `r` if it finds it. -/
def Hits : Write → Row → Prop
  | row kind key _ _, r => r.kind = kind ∧ r.key = key
  | prune nodeID _, r => Store.ownedBy nodeID r = true

/-- The version it leaves in the place of `r`. -/
def version : Write → Row → HLC ×ₗ String
  | row _ _ owner hlc, _ => toLex (hlc, owner)
  | prune _ hlc, r => toLex (hlc, r.owner)

/-- Replacing `r` would be no step back. -/
def Outranks (p : Write) (r : Row) : Prop := p.Hits r → r.version ≤ p.version r

instance (p : Write) (r : Row) : Decidable (p.Hits r) :=
  match p with
  | row kind key _ _ => inferInstanceAs (Decidable (r.kind = kind ∧ r.key = key))
  | prune nodeID _ => inferInstanceAs (Decidable (Store.ownedBy nodeID r = true))

instance (p : Write) (r : Row) : Decidable (p.Outranks r) :=
  inferInstanceAs (Decidable (p.Hits r → r.version ≤ p.version r))

theorem version_of_hlc_lt {p : Write} {r : Row} (h : r.hlc < p.hlc) :
    r.version ≤ p.version r := by
  have hlt : ∀ owner : String, r.version < toLex (p.hlc, owner) := fun owner =>
    Prod.Lex.toLex_lt_toLex.mpr (.inl h)
  cases p with
  | row kind key owner hlc => exact (hlt owner).le
  | prune nodeID hlc => exact (hlt r.owner).le

end Write

namespace Writer

/-- The write of a writer that has its timestamp. -/
def write : Writer → Option Write
  | put r | putThenEmit r => some (.row r.kind r.key r.owner r.hlc)
  | deleteGet kind key owner hlc | deleteUpsert kind key owner hlc _ =>
      some (.row kind key owner hlc)
  | prune ev hlc => some (.prune ev.nodeID hlc)
  | start .. | step .. | putLabels .. | mergeLabels .. | stampLabels .. | deleteLabels ..
  | member .. | emit .. => none

/-- A new writer has no timestamp. -/
theorem write_ofOp {op : NodeOp} {w : Writer} (h : ofOp op = some w) : w.write = none := by
  cases op <;> cases h <;> rfl

/-- The write a writer that is about to `Tick` has once it got `hlc`. -/
def planned (n : Node) (hlc : HLC) : Writer → Option Write
  | start snapshot | step snapshot => some (.row kindRunner snapshot.key n.owner hlc)
  | stampLabels id _ | deleteLabels id => some (.row kindMeta id n.apiOwner hlc)
  | member ev => if ev.type = .leave then some (.prune ev.nodeID hlc) else none
  | putLabels .. | mergeLabels .. | put .. | putThenEmit .. | deleteGet .. | deleteUpsert ..
  | prune .. | emit .. => none

theorem planned_hlc {n : Node} {hlc : HLC} {w : Writer} {p : Write}
    (h : w.planned n hlc = some p) : p.hlc = hlc := by
  cases w with
  | start | step | stampLabels | deleteLabels =>
    cases h
    rfl
  | member ev =>
    simp only [planned] at h
    split at h
    · cases h
      rfl
    · cases h
  | putLabels | mergeLabels | put | putThenEmit | deleteGet | deleteUpsert | prune | emit => cases h

/-- The next call is a `Tick`. -/
def Ticks : Writer → Prop
  | start .. | step .. | stampLabels .. | deleteLabels .. | member .. => True
  | putLabels .. | mergeLabels .. | put .. | putThenEmit .. | deleteGet .. | deleteUpsert ..
  | prune .. | emit .. => False

/-- The rows the next call stores. -/
def stores (n : Node) : Writer → List Row
  | put r | putThenEmit r => [r]
  | deleteUpsert kind key owner hlc payload => [Store.tombstoneRow kind key owner hlc payload]
  | prune ev hlc =>
      (n.store.rows.rows.filter (Store.ownedBy ev.nodeID)).map (Store.entomb hlc)
  | start .. | step .. | putLabels .. | mergeLabels .. | stampLabels .. | deleteLabels ..
  | member .. | deleteGet .. | emit .. => []

instance : DecidablePred Ticks
  | start .. | step .. | stampLabels .. | deleteLabels .. | member .. => isTrue trivial
  | putLabels .. | mergeLabels .. | put .. | putThenEmit .. | deleteGet .. | deleteUpsert ..
  | prune .. | emit .. => isFalse not_false

/-- What a call can be, as far as rows and clock go. -/
inductive Called (n : Node) (now : Int64) (w : Writer) (n' : Node) (w' : Option Writer) : Prop
  /-- A read, an event, or a call that failed. -/
  | other (hrows : n'.store.rows = n.store.rows) (hclock : n'.clock = n.clock)
      (hw : ∀ w₁ ∈ w', ∀ p, w₁.write = some p → w.write = some p)
  | tick (hticks : w.Ticks) (hrows : n'.store.rows = n.store.rows)
      (hclock : n'.clock = (n.clock.tick now).2)
      (hw : ∀ w₁ ∈ w', w₁.write = w.planned n (n.clock.tick now).1)
  | put {r : Row} (hwrite : w.write = some (.row r.kind r.key r.owner r.hlc))
      (hstores : w.stores n = [r]) (hrows : n'.store.rows = n.store.rows.upsert r)
      (hclock : n'.clock = n.clock) (hw : ∀ w₁ ∈ w', w₁.write = none)
  | prune {nodeID : String} {hlc : HLC} (hwrite : w.write = some (.prune nodeID hlc))
      (hstores : w.stores n =
        (n.store.rows.rows.filter (Store.ownedBy nodeID)).map (Store.entomb hlc))
      (hrows : n'.store.rows = (n.store.deleteByNode nodeID hlc).rows)
      (hclock : n'.clock = n.clock) (hw : ∀ w₁ ∈ w', w₁.write = none)

/-- An `upsert` stores its row or fails. -/
theorem called_upsert {n n' : Node} {now : Int64} {w : Writer} {w' : Option Writer} {r : Row}
    {e : Option DbError} (h : (n.call fun st => st.upsert r) = (n', e))
    (hwrite : w.write = some (.row r.kind r.key r.owner r.hlc)) (hstores : w.stores n = [r])
    (hw : ∀ w₁ ∈ w', w₁.write = none) : Called n now w n' w' := by
  rcases Node.call_cases n fun st => st.upsert r with ⟨st, h1, h2⟩ | ⟨e, -, h2⟩
  · cases h2.symm.trans h
    exact .put hwrite hstores (Store.upsert_ok h1).1 rfl hw
  · cases h2.symm.trans h
    exact .other rfl rfl fun w₁ hw₁ p hp => by simp [hw w₁ hw₁] at hp

/-- **What one call of a writer can do.** -/
theorem next_called (E : Env) (n : Node) (now : Int64) (w : Writer) :
    Called n now w (w.next E n now).1 (w.next E n now).2 := by
  cases w with
  | start snapshot => exact .tick trivial rfl rfl (by simp [next, Node.tick, write, planned,
      Node.runnerRow, Runner.key, Node.owner])
  | step snapshot => exact .tick trivial rfl rfl (by simp [next, Node.tick, write, planned,
      Node.runnerRow, Runner.key, Node.owner])
  | stampLabels id labels => exact .tick trivial rfl rfl (by simp [next, Node.tick, write, planned,
      Node.labelsRow, Node.apiOwner])
  | deleteLabels id => exact .tick trivial rfl rfl (by simp [next, Node.tick, write, planned,
      Node.apiOwner])
  | member ev =>
    refine .tick trivial ?_ ?_ ?_ <;> cases ht : ev.type <;>
      simp [next, Node.tick, write, planned, ht]
  | putLabels id body =>
    simp only [next]
    split
    · exact .other rfl rfl (by simp)
    · split
      · exact .other rfl rfl (by simp)
      · refine .other rfl rfl ?_
        cases body <;> simp [write]
  | mergeLabels id incoming =>
    refine .other rfl rfl ?_
    cases h : Node.mergeLabels (Node.storedLabels E n.store id) incoming <;>
      simp [next, h, write]
  | put r =>
    show Called n now (put r) (n.call fun st => st.upsert r).1 none
    exact called_upsert (Prod.eta _).symm rfl rfl (by simp)
  | putThenEmit r =>
    simp only [next]
    split
    · next heq => exact called_upsert heq rfl rfl (by simp)
    · next heq => exact called_upsert heq rfl rfl (by simp [write])
  | deleteGet kind key owner hlc => exact .other rfl rfl (by simp [next, write])
  | deleteUpsert kind key owner hlc payload =>
    show Called n now (deleteUpsert kind key owner hlc payload)
      (n.call fun st => st.upsert (Store.tombstoneRow kind key owner hlc payload)).1 none
    exact called_upsert (Prod.eta _).symm rfl rfl (by simp)
  | prune ev hlc => exact .prune rfl rfl rfl rfl (by simp [next, write])
  | emit type payload hlc =>
    obtain ⟨st, hst, hrows, -⟩ := Node.emit_cases E n type payload hlc
    simp only [next, hst]
    exact .other hrows rfl (by simp)

section Called
variable {n n' : Node} {now : Int64} {w : Writer} {w' : Option Writer}

/-- A row found after a call was there or has been stored by it. -/
theorem Called.mem_rows (h : Called n now w n' w') {r : Row} (hr : r ∈ n'.store.rows) :
    r ∈ n.store.rows ∨ r ∈ w.stores n := by
  cases h with
  | other hrows | tick _ hrows => exact .inl (hrows ▸ hr)
  | put _ hstores hrows =>
    rcases KeyedTable.mem_upsert.mp (hrows ▸ hr) with rfl | ⟨hr, -⟩
    · exact .inr (hstores ▸ List.mem_singleton_self r)
    · exact .inl hr
  | prune _ hstores hrows =>
    rcases Store.mem_deleteByNode.mp (hrows ▸ hr) with ⟨x, hx, howned, rfl⟩ | ⟨hr, -⟩
    · exact .inr (hstores ▸ List.mem_map_of_mem (List.mem_filter.mpr ⟨hx, howned⟩))
    · exact .inl hr

/-- A call whose write outranks what it replaces takes no key back. -/
theorem Called.advances (h : Called n now w n' w')
    (hsafe : ∀ p ∈ w.write, ∀ r ∈ n.store.rows, p.Outranks r) :
    RowTable.Advances n.store.rows n'.store.rows := by
  cases h with
  | other hrows | tick _ hrows =>
    rw [hrows]
    exact .refl _
  | put hwrite _ hrows =>
    rw [hrows]
    refine KeyedTable.advances_upsert fun c hc hid => ?_
    exact hsafe _ hwrite c hc (Row.id_eq.mp hid)
  | @prune nodeID hlc hwrite _ hrows =>
    rw [hrows]
    intro x hx
    cases howned : Store.ownedBy nodeID x with
    | true =>
      refine ⟨Store.entomb hlc x, Store.mem_deleteByNode.mpr (.inl ⟨x, hx, howned, rfl⟩), rfl, ?_⟩
      exact hsafe _ hwrite x hx howned
    | false => exact KeyedTable.covers_of_mem (Store.mem_deleteByNode.mpr (.inr ⟨hx, howned⟩))

theorem Called.reading_le (h : Called n now w n' w') (hwrap : w.Ticks → n.clock.NoWrap now) :
    n.clock.reading ≤ n'.clock.reading := by
  cases h with
  | other _ hclock | put _ _ _ hclock | prune _ _ _ hclock => rw [hclock]
  | tick hticks _ hclock =>
    rw [hclock, Clock.tick_reading]
    exact (Clock.reading_lt_tick (hwrap hticks)).le

/-- The write after a call is the one before, or has just got its timestamp. -/
theorem Called.write_cases (h : Called n now w n' w') (hwrap : w.Ticks → n.clock.NoWrap now)
    {w₁ : Writer} (hw₁ : w₁ ∈ w') {p : Write} (hp : p ∈ w₁.write) :
    p ∈ w.write ∨ (n.clock.reading < p.hlc ∧ p.hlc = n'.clock.reading) := by
  cases h with
  | other _ _ hkeep => exact .inl (hkeep w₁ hw₁ p hp)
  | tick hticks _ hclock hplan =>
    have hhlc := planned_hlc ((hplan w₁ hw₁).symm.trans hp)
    rw [hclock, Clock.tick_reading, hhlc]
    exact .inr ⟨Clock.reading_lt_tick (hwrap hticks), rfl⟩
  | put _ _ _ _ hdone => exact absurd (hp.symm.trans (hdone w₁ hw₁)) nofun
  | prune _ _ _ _ hdone => exact absurd (hp.symm.trans (hdone w₁ hw₁)) nofun

end Called

theorem call_identity (n : Node) (f : Store → Except DbError Store) :
    Node.SameIdentity n (n.call f).1 := by
  rcases Node.call_cases n f with ⟨st, -, h⟩ | ⟨e, -, h⟩ <;> rw [h] <;> exact ⟨rfl, rfl, rfl⟩

theorem next_identity (E : Env) (n : Node) (now : Int64) (w : Writer) :
    Node.SameIdentity n (w.next E n now).1 := by
  cases w with
  | start | step | stampLabels | deleteLabels | mergeLabels | deleteGet | prune =>
    exact ⟨rfl, rfl, rfl⟩
  | member ev => cases ht : ev.type <;> simp only [next, Node.tick, ht] <;> exact ⟨rfl, rfl, rfl⟩
  | putLabels id body =>
    simp only [next]
    split
    · exact .refl n
    · split <;> exact .refl n
  | put r => exact call_identity n _
  | deleteUpsert => exact call_identity n _
  | emit => exact call_identity n _
  | putThenEmit r =>
    have h := call_identity n fun st => st.put r
    simp only [next]
    split
    · next heq => exact (congrArg Prod.fst heq) ▸ h
    · next heq => exact (congrArg Prod.fst heq) ▸ h

end Writer

/-! ## Writers that take turns -/

/-- A node and the writers under way in it. -/
structure Crew where
  node : Node
  active : List Writer

/-- The scheduler's choices. -/
inductive CrewAction where
  | spawn (op : NodeOp)
  /-- The writer at that place makes its next call; a `Tick` reads `now`. -/
  | call (k : Nat) (now : Int64)

namespace Crew

/-- One step. The place of a writer in the list means nothing. -/
def step (E : Env) (s : Crew) : CrewAction → Option Crew
  | .spawn op => (Writer.ofOp op).map fun w => { s with active := w :: s.active }
  | .call k now => (s.active[k]?).map fun w =>
      let (n, w') := w.next E s.node now
      { node := n, active := w'.toList ++ s.active.eraseIdx k }

/-- The two kinds of step. -/
theorem step_cases {E : Env} {s t : Crew} {a : CrewAction} (h : step E s a = some t) :
    (∃ op w, a = .spawn op ∧ Writer.ofOp op = some w ∧ t = { s with active := w :: s.active }) ∨
    ∃ k now w n w', a = .call k now ∧ s.active[k]? = some w ∧ Writer.Called s.node now w n w' ∧
      Node.SameIdentity s.node n ∧ t = ⟨n, w'.toList ++ s.active.eraseIdx k⟩ := by
  cases a with
  | spawn op =>
    obtain ⟨w, hw, rfl⟩ := Option.map_eq_some_iff.mp h
    exact .inl ⟨op, w, rfl, hw, rfl⟩
  | call k now =>
    obtain ⟨w, hw, rfl⟩ := Option.map_eq_some_iff.mp h
    exact .inr ⟨k, now, w, _, _, rfl, hw, w.next_called E s.node now,
      w.next_identity E s.node now, rfl⟩

theorem mem_active_cases {k : Nat} {w : Writer} {w' : Option Writer} {l : List Writer}
    (h : w ∈ w'.toList ++ l.eraseIdx k) : w ∈ w' ∨ w ∈ l.eraseIdx k :=
  (List.mem_append.mp h).imp_left Option.mem_toList.mp

end Crew

end Takl
