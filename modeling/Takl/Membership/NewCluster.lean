import Takl.Lib.Except
import Takl.Membership.Peers
import Takl.Membership.SecretKey

/-!
# The memberlist is created (`internal/membership/cluster.go`)

`NewCluster` fills in the library's configuration and creates the memberlist.
A key that cannot be read is an error, and so is a failure of the library; if
the seeds cannot be joined, that is logged only.
-/

namespace Takl

namespace Gossip

/-- `DefaultLANConfig` or `DefaultWANConfig`. -/
inductive Defaults where
  | lan
  | wan
  deriving DecidableEq, Repr

/-- What `NewCluster` sets of a `memberlist.Config`. -/
structure MemberlistConfig where
  defaults : Defaults
  name : String
  bindPort : Int
  advertisePort : Int
  /-- `none` is that of the defaults. -/
  advertiseAddr : Option String
  secretKey : Option Bytes
  /-- What the delegate answers to `NodeMeta`. -/
  nodeMeta : Bytes
  deriving DecidableEq, Repr

/-- `membership.Cluster`: the configuration of its memberlist, and the seeds
that were to be joined. -/
structure Cluster where
  config : MemberlistConfig
  seeds : List String
  deriving DecidableEq, Repr

section NewCluster
variable (M : MetaCodec) (create : MemberlistConfig → Except String Unit)

/-- `NewCluster`. -/
def newCluster (nodeID : String) (bindPort : Int)
    (advertiseAddr syncAddr profile gossipKey : String) (seeds : List String) :
    Except String Cluster := do
  let secretKey ← clusterKey gossipKey
  let config : MemberlistConfig :=
    { defaults := if profile = "wan" then .wan else .lan
      name := nodeID
      bindPort
      advertisePort := bindPort
      advertiseAddr := if advertiseAddr ≠ "" then some advertiseAddr else none
      secretKey
      nodeMeta := M.encode syncAddr }
  create config
  .ok ⟨config, seeds⟩

/-- What a cluster that was made is. -/
structure Made (nodeID syncAddr profile gossipKey : String) (c : Cluster) : Prop where
  created : create c.config = .ok ()
  defaults : c.config.defaults = if profile = "wan" then .wan else .lan
  name : c.config.name = nodeID
  nodeMeta : c.config.nodeMeta = M.encode syncAddr
  key : clusterKey gossipKey = .ok c.config.secretKey

variable {M create} {nodeID advertiseAddr syncAddr profile gossipKey : String} {bindPort : Int}
  {seeds : List String} {c : Cluster}

theorem newCluster_ok (h : newCluster M create nodeID bindPort advertiseAddr syncAddr profile
    gossipKey seeds = .ok c) : Made M create nodeID syncAddr profile gossipKey c := by
  obtain ⟨secretKey, hkey, h⟩ := Except.bind_eq_ok.mp h
  obtain ⟨_, hcreate, h⟩ := Except.bind_eq_ok.mp h
  cases h
  exact ⟨hcreate, rfl, rfl, rfl, hkey⟩

/-- A key that was set is one AES has. -/
theorem Made.valid (h : Made M create nodeID syncAddr profile gossipKey c) {k : Bytes}
    (hk : c.config.secretKey = some k) : validSecretKeyLen k.length = true := by
  have hkey := h.key
  rw [hk, clusterKey_eq] at hkey
  exact valid_of_parseSecretKey hkey

/-- None is set for a blank text only. -/
theorem Made.blank (h : Made M create nodeID syncAddr profile gossipKey c)
    (hk : c.config.secretKey = none) : Daemon.trimSpace gossipKey = "" := by
  have hkey := h.key
  rw [hk, clusterKey_eq] at hkey
  exact blank_of_parseSecretKey hkey

end NewCluster

end Gossip

end Takl
