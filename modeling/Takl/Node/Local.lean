import Takl.Node.Sync

/-!
# Local operations (`internal/agent`, label endpoints of `internal/api`)

The operations that stamp with the node's clock: the agent's `Start` and
`Step`, its membership handler, the two writing label endpoints, and the
sync engine's tombstone collection. Each takes the wall-clock reading of its
one `Tick` and the data it is given from outside (a backend snapshot, a
request body, a membership event).

`NodeOp.exec_cases` says once what an operation can do to a node; every
invariant of the development is derived from it.
-/

namespace Takl

/-! ## The agent -/

/-- The condition `Step` calls `isHot`. -/
def Runner.isHot (r : Runner) : Bool :=
  decide (r.cpuUtil ≥ 9 / 10) || decide (r.memUtil ≥ 9 / 10) || decide (r.freeDiskMB < 2000)

/-- The counters after a sample, and whether the node drains itself. -/
def AgentState.observe (a : AgentState) (hot : Bool) : AgentState :=
  let a :=
    if hot then
      { a with highMetricsCount := a.highMetricsCount + 1, normalMetricsCount := 0 }
    else
      { a with normalMetricsCount := a.normalMetricsCount + 1, highMetricsCount := 0 }
  if a.highMetricsCount ≥ 5 then { a with isDraining := true }
  else if a.normalMetricsCount ≥ 5 then { a with isDraining := false }
  else a

/-- The status `Step` writes. -/
def AgentState.status (a : AgentState) : RunnerStatus :=
  if a.isDraining then .draining else .active

/-- `membership.EventType`. -/
inductive MemberEventType where
  | join
  | leave
  | update
  deriving DecidableEq, Repr

/-- `membership.Event`. -/
structure MemberEvent where
  type : MemberEventType
  nodeID : String
  ip : String
  deriving DecidableEq, Repr

namespace Node

/-- `Clock.Tick` on the node's clock. -/
def tick (n : Node) (now : Int64) : HLC × Node :=
  ((n.clock.tick now).1, { n with clock := (n.clock.tick now).2 })

/-- A store call and the error it returns; an error leaves the store alone. -/
def call (n : Node) (f : Store → Except DbError Store) : Node × Option DbError :=
  match f n.store with
  | .ok st => ({ n with store := st }, none)
  | .error e => (n, some e)

/-- The row `putRow` makes of a runner. -/
def runnerRow (E : Env) (n : Node) (runner : Runner) (hlc : HLC) : Row :=
  { kind := kindRunner, key := runner.key, owner := n.owner, hlc, tombstone := false
    payload := some (E.encodeRunner runner) }

/-- `Agent.putRow`. -/
def putRow (E : Env) (n : Node) (runner : Runner) (hlc : HLC) : Node × Option DbError :=
  n.call fun st => st.put (n.runnerRow E runner hlc)

/-- `Agent.emit`. -/
def emit (E : Env) (n : Node) (type : EventType) (payload : EventPayload) (hlc : HLC) :
    Node × Option DbError :=
  n.call fun st => st.appendEvent E { seq := 0, type, runnerID := n.nodeID, payload, hlc }

/-- `Agent.Start`. -/
def start (E : Env) (n : Node) (now : Int64) (snapshot : Runner) : Node × Option DbError :=
  let (hlc, n) := n.tick now
  let runner := { snapshot with status := .active }
  match n.putRow E runner hlc with
  | (n, some e) => (n, some e)
  | (n, none) => n.emit E .runnerJoined none hlc

/-- `Agent.Step`. -/
def step (E : Env) (n : Node) (now : Int64) (snapshot : Runner) : Node × Option DbError :=
  let (hlc, n) := n.tick now
  let agent := n.agent.observe snapshot.isHot
  let runner := { snapshot with status := agent.status }
  { n with agent }.putRow E runner hlc

/-- One iteration of `handleMembershipEvents`. -/
def handleMembershipEvent (E : Env) (n : Node) (now : Int64) (ev : MemberEvent) : Node :=
  let (hlc, n) := n.tick now
  let payload : EventPayload := some [("node_id", .str ev.nodeID), ("ip", .str ev.ip)]
  match ev.type with
  | .join => (n.emit E .runnerJoined payload hlc).1
  | .leave =>
      let n := { n with store := n.store.deleteByNode ev.nodeID hlc }
      (n.emit E .runnerLeft payload hlc).1
  | .update => n

/-! ## The label endpoints -/

/-- What a label endpoint answers with. -/
inductive ReplyBody where
  | labels (l : Option Labels)
  | error (text : String)
  /-- `writeError` with the driver's text. -/
  | dbError (e : DbError)
  | empty

/-- Status and body. -/
structure Reply where
  status : Nat
  body : ReplyBody

/-- `existing` after it has been read from the stored label row. -/
def storedLabels (E : Env) (st : Store) (id : String) : Option Labels :=
  match st.get E kindMeta id with
  | some row =>
      if row.tombstone then some .empty else (E.decodeLabels (some .empty) row.payload).1
  | none => some .empty

/-- `for k, v := range incoming { existing[k] = v }`; `none` is the panic of
an assignment into a nil map. -/
def mergeLabels : Option Labels → Option Labels → Option (Option Labels)
  | existing, none => some existing
  | some existing, some incoming => some (some (existing.setAll incoming))
  | none, some incoming => if incoming.rows.isEmpty then some none else none

/-- The row `handleUpdateLabels` puts. -/
def labelsRow (E : Env) (n : Node) (id : String) (labels : Option Labels) (hlc : HLC) : Row :=
  { kind := kindMeta, key := id, owner := n.apiOwner, hlc, tombstone := false
    payload := some (E.encodeLabels labels) }

/-- `handleUpdateLabels`. `body` is what the request body decodes to: `none`
is a decoding error, `some none` the nil map. No reply is a panic, which
`net/http` confines to the request. -/
def handleUpdateLabels (E : Env) (n : Node) (now : Int64) (id : String)
    (body : Option (Option Labels)) : Node × Option Reply :=
  match n.store.get E kindRunner id with
  | none => (n, some ⟨404, .error "runner not found"⟩)
  | some runnerRow =>
      if runnerRow.tombstone then (n, some ⟨404, .error "runner not found"⟩)
      else match body with
        | none =>
            (n, some ⟨400, .error
              "invalid json: expected \x7b\"key\": \"value\", ...\x7d"⟩)
        | some incoming =>
            match mergeLabels (storedLabels E n.store id) incoming with
            | none => (n, none)
            | some labels =>
                let (hlc, n) := n.tick now
                match n.call fun st => st.put (n.labelsRow E id labels hlc) with
                | (n, some e) => (n, some ⟨500, .dbError e⟩)
                | (n, none) => (n, some ⟨200, .labels labels⟩)

/-- `handleDeleteLabels`. -/
def handleDeleteLabels (E : Env) (n : Node) (now : Int64) (id : String) : Node × Reply :=
  let (hlc, n) := n.tick now
  match n.call fun st => st.delete E kindMeta id n.apiOwner hlc with
  | (n, some e) => (n, ⟨500, .dbError e⟩)
  | (n, none) => (n, ⟨204, .empty⟩)

end Node

/-! ## Operations as labels -/

/-- An operation of one node. -/
inductive NodeOp where
  | start (now : Int64) (snapshot : Runner)
  | step (now : Int64) (snapshot : Runner)
  | putLabels (now : Int64) (id : String) (body : Option (Option Labels))
  | deleteLabels (now : Int64) (id : String)
  | member (now : Int64) (ev : MemberEvent)
  | gc (now : Int64)

namespace NodeOp

/-- The wall-clock reading the operation's `Tick` gets. -/
def now : NodeOp → Int64
  | start now _ | step now _ | putLabels now _ _ | deleteLabels now _ | member now _ | gc now => now

/-- The node afterwards. -/
def exec (E : Env) (n : Node) : NodeOp → Node
  | start now snapshot => (n.start E now snapshot).1
  | step now snapshot => (n.step E now snapshot).1
  | putLabels now id body => (n.handleUpdateLabels E now id body).1
  | deleteLabels now id => (n.handleDeleteLabels E now id).1
  | member now ev => n.handleMembershipEvent E now ev
  | gc now => n.gcTombstones now

/-- The primary key an agent or API write is for. -/
def target : NodeOp → Option (Kind × String)
  | start _ snapshot | step _ snapshot => some (kindRunner, snapshot.key)
  | putLabels _ id _ | deleteLabels _ id => some (kindMeta, id)
  | member .. | gc .. => none

/-- The agent's and the API's writes: everything but membership handling and
garbage collection. -/
def IsWrite : NodeOp → Prop
  | start .. | step .. | putLabels .. | deleteLabels .. => True
  | member .. | gc .. => False

instance : DecidablePred IsWrite
  | start .. | step .. | putLabels .. | deleteLabels .. => isTrue trivial
  | member .. | gc .. => isFalse not_false

end NodeOp

/-! ## Concrete data for evaluated runs -/

namespace Demo

def epoch : Epoch := ⟨[0x1f, 0x8b, 0, 0, 0, 0, 0, 7], rfl⟩

def nodeID (i : Nat) : String := "n" ++ toString i

/-- What the stub backend of node `i` reports on an idle machine. -/
def runner (i : Nat) : Runner :=
  { runnerID := nodeID i, hostname := "host", ip := "10.0.0.1", region := "eu", version := "v1"
    status := .active, lastHeartbeat := 0, cpuUtil := 0, memUtil := 0, freeDiskMB := 5000
    workerCapacity := 4, availableWorkers := 4, labels := some .empty }

def labels (k v : String) : Labels := KeyedTable.empty.upsert (k, v)

end Demo

end Takl
