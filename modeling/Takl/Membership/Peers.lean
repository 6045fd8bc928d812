import Takl.Model.Labels

/-!
# Who is pulled from (`internal/membership`, `cmd/takld/main.go`)

A node gossips the address of its sync listener as its `NodeMeta`. `Members`
keeps the other members whose metadata can be read and has an address, and
the sync engine's `peerProvider` hands out these addresses; without gossip it
hands out the configured ones.
-/

namespace Takl

namespace Gossip

/-- `encoding/json` on a `NodeMeta`, which is its sync address. -/
structure MetaCodec where
  encode : String → Bytes
  /-- `none` is an error. -/
  decode : Bytes → Option String

/-- A marshalled address is read back. -/
def MetaCodec.ReadsBack (M : MetaCodec) : Prop := ∀ addr, M.decode (M.encode addr) = some addr

/-- What `Members` reads of a `memberlist.Node`. -/
structure GossipNode where
  name : String
  nodeMeta : Bytes
  deriving DecidableEq, Repr

/-- `memberlist.Memberlist`: the name of the node, and the members, itself
among them. -/
structure Memberlist where
  localName : String
  nodes : List GossipNode

/-- `membership.Member`. -/
structure Member where
  nodeID : String
  syncAddr : String
  deriving DecidableEq, Repr

variable (M : MetaCodec)

/-- `Cluster.Members`. -/
def members (g : Memberlist) : List Member :=
  g.nodes.filterMap fun m =>
    if m.name = g.localName then none
    else match M.decode m.nodeMeta with
      | some addr => if addr ≠ "" then some ⟨m.name, addr⟩ else none
      | none => none

/-- The `peerProvider` that `main` gives to the sync engine. -/
def peerProvider (peerList : List String) : Option Memberlist → List String
  | some g => (members M g).map Member.syncAddr
  | none => peerList

variable {M}

theorem mem_members {g : Memberlist} {x : Member} :
    x ∈ members M g ↔ ∃ m ∈ g.nodes, m.name = x.nodeID ∧ m.name ≠ g.localName ∧
      M.decode m.nodeMeta = some x.syncAddr ∧ x.syncAddr ≠ "" := by
  simp only [members, List.mem_filterMap]
  refine exists_congr fun m => and_congr_right fun _ => ?_
  obtain ⟨nodeID, syncAddr⟩ := x
  constructor
  · intro h
    split at h
    · cases h
    · next hname =>
      split at h
      · next addr hdec =>
        split at h
        · next hne =>
          cases h
          exact ⟨rfl, hname, hdec, hne⟩
        · cases h
      · cases h
  · rintro ⟨rfl, hname, hdec, hne⟩
    simp only at hdec hne
    simp [hname, hdec, hne]

/-- A node and its address are known: from gossip, or from the configuration. -/
def Knows (M : MetaCodec) (peerList : List String) (name addr : String) : Option Memberlist → Prop
  | some g => name ≠ g.localName ∧ addr ≠ "" ∧ ⟨name, M.encode addr⟩ ∈ g.nodes
  | none => addr ∈ peerList

theorem mem_peerProvider_of_knows (hM : M.ReadsBack) {peerList : List String}
    {name addr : String} {gossip : Option Memberlist} (h : Knows M peerList name addr gossip) :
    addr ∈ peerProvider M peerList gossip := by
  cases gossip with
  | none => exact h
  | some g =>
    obtain ⟨hname, hne, hmem⟩ := h
    exact List.mem_map.mpr ⟨⟨name, addr⟩, mem_members.mpr ⟨_, hmem, rfl, hname, hM addr, hne⟩, rfl⟩

/-! ## A concrete codec

The struct has one string field, so its text is that of a map with one
entry. -/

/-- The field of a decoded map; a missing one is the zero value. -/
def metaField : Option Labels × Bool → Option String
  | (some l, true) => some (((l.get "sync_addr").map Prod.snd).getD "")
  | _ => none

def MetaCodec.ofEnv (E : Env) : MetaCodec where
  encode addr := E.encodeLabels (some (KeyedTable.empty.upsert ("sync_addr", addr)))
  decode b := metaField (E.decodeLabels none (some b))

theorem MetaCodec.ofEnv_readsBack {E : Env} (hjson : E.LabelsReadBack) : (ofEnv E).ReadsBack := by
  intro addr
  let l : Labels := KeyedTable.empty.upsert ("sync_addr", addr)
  obtain ⟨l', hread, hsame⟩ := hjson none l
  have hget : l'.get "sync_addr" = some ("sync_addr", addr) := by
    rw [hsame "sync_addr", Option.getD_none, Labels.empty_setAll l "sync_addr"]
    exact KeyedTable.get_upsert_self _ ("sync_addr", addr)
  show metaField (E.decodeLabels none (some (E.encodeLabels (some l)))) = some addr
  rw [hread, metaField, hget]
  rfl

end Gossip

end Takl
