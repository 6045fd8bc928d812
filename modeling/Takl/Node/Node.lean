import Takl.Transport.Pull

/-!
# A node: its identity, its store, its clock

What `takld` wires together: the store, the clock, and the agent's identity
and counters (`internal/agent`). The API server and the sync engine hold the
same store and clock and nothing else that changes.

Owner strings tell who wrote a row. The agent's is `nodeID/epoch` with a
random epoch of fixed length, the API's is `api/nodeID`; within a kind only
one of the two forms is used, so `owner_inj` and `apiOwner_inj` make the
owner determine the writer.
-/

namespace Takl

/-- The eight bytes `agent.New` draws. -/
structure Epoch where
  bytes : List UInt8
  length_eq : bytes.length = 8

namespace Epoch

/-- One byte under the `%x` verb. -/
def hexByte (b : UInt8) : List Char := [(b.toNat / 16).digitChar, (b.toNat % 16).digitChar]

/-- `fmt.Sprintf("%x", b)`. -/
def text (e : Epoch) : String := String.ofList (e.bytes.flatMap hexByte)

theorem length_text (e : Epoch) : e.text.toList.length = 16 := by
  simp [text, hexByte, List.length_flatMap, e.length_eq]

end Epoch

/-- The counters of `agent.Agent`. -/
structure AgentState where
  highMetricsCount : Nat
  normalMetricsCount : Nat
  isDraining : Bool
  deriving DecidableEq, Repr

/-- `agent.New`. -/
def AgentState.new : AgentState := ⟨0, 0, false⟩

/-- A running `takld`. -/
structure Node where
  nodeID : String
  epoch : Epoch
  /-- The address its peers pull from it at. -/
  syncAddr : String
  store : Store
  clock : Clock
  agent : AgentState

namespace Node

/-- `Agent.owner`. -/
def owner (n : Node) : String := n.nodeID ++ "/" ++ n.epoch.text

/-- The owner the label endpoints write under. -/
def apiOwner (n : Node) : String := "api/" ++ n.nodeID

/-- The sync server of the node. -/
def server (n : Node) : Server := ⟨n.nodeID, n.store⟩

/-- A first start: an empty database and a new process. -/
def fresh (nodeID : String) (epoch : Epoch) (syncAddr : String) : Node :=
  { nodeID, epoch, syncAddr, store := .fresh, clock := .new, agent := .new }

/-- A process restart on the same database: `main` rebuilds the clock and the
agent, and keeps the tables. -/
def restart (n : Node) (epoch : Epoch) : Node :=
  { n with epoch, clock := .new, agent := .new }

/-- What a node is known by does not change while its process runs. -/
structure SameIdentity (n n' : Node) : Prop where
  nodeID : n'.nodeID = n.nodeID
  epoch : n'.epoch = n.epoch
  syncAddr : n'.syncAddr = n.syncAddr

theorem SameIdentity.refl (n : Node) : SameIdentity n n := ⟨rfl, rfl, rfl⟩

theorem SameIdentity.owner_eq {n n' : Node} (h : SameIdentity n n') : n'.owner = n.owner := by
  rw [owner, owner, h.nodeID, h.epoch]

theorem SameIdentity.apiOwner_eq {n n' : Node} (h : SameIdentity n n') :
    n'.apiOwner = n.apiOwner := by
  rw [apiOwner, apiOwner, h.nodeID]

/-- Agents of different nodes write under different owners: the epochs have
one length, so the node ids can be read off. -/
theorem owner_inj {n m : Node} (h : n.owner = m.owner) : n.nodeID = m.nodeID := by
  have hl : (n.nodeID.toList ++ ['/']) ++ n.epoch.text.toList =
      (m.nodeID.toList ++ ['/']) ++ m.epoch.text.toList := by
    have := congrArg String.toList h
    simpa [owner] using this
  have hlen : n.epoch.text.toList.length = m.epoch.text.toList.length := by
    rw [Epoch.length_text, Epoch.length_text]
  have hid := List.append_cancel_right (List.append_inj_left' hl hlen)
  exact String.toList_inj.mp hid

theorem apiOwner_inj {n m : Node} (h : n.apiOwner = m.apiOwner) : n.nodeID = m.nodeID := by
  have := congrArg String.toList h
  exact String.toList_inj.mp (by simpa [apiOwner] using this)

end Node

end Takl
