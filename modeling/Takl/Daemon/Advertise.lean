import Takl.Daemon.Startup
import Takl.Lib.HostPort

/-!
# The address a node announces (`cmd/takld/main.go`)

`main` looks for an address of the node: the one configured, the hosts of the
two listeners, the interfaces of the machine, and loopback if there is none.
A listener on every interface is announced under it, any other under its own
host. The announced address is gossiped, and the peers dial it.
-/

namespace Takl

namespace Daemon

/-! ## Addresses (`net.IP`) -/

namespace IP

/-- What an IPv4 address begins with in sixteen bytes. -/
def v4InV6 : List UInt8 := [0, 0, 0, 0, 0, 0, 0, 0, 0, 0, 0xff, 0xff]

/-- `IPv4zero`. -/
def v4Zero : IP := v4InV6 ++ [0, 0, 0, 0]

/-- `IPv6unspecified`. -/
def v6Unspecified : IP := List.replicate 16 0

/-- `IPv6loopback`. -/
def v6Loopback : IP := List.replicate 15 0 ++ [1]

/-- `To4`. -/
def to4 (ip : IP) : Option IP :=
  if ip.length = 4 then some ip
  else if ip.length = 16 ∧ ip.take 12 = v4InV6 then some (ip.drop 12)
  else none

/-- `Equal`. -/
def equal (ip x : IP) : Bool :=
  if ip.length = x.length then decide (ip = x)
  else if ip.length = 4 ∧ x.length = 16 then decide (x.take 12 = v4InV6 ∧ ip = x.drop 12)
  else if ip.length = 16 ∧ x.length = 4 then decide (ip.take 12 = v4InV6 ∧ ip.drop 12 = x)
  else false

/-- `IsLoopback`. -/
def isLoopback (ip : IP) : Bool :=
  match ip.to4 with
  | some ip4 => decide (ip4.head? = some 127)
  | none => ip.equal v6Loopback

/-- `IsUnspecified`. -/
def isUnspecified (ip : IP) : Bool := ip.equal v4Zero || ip.equal v6Unspecified

/-- The address is not passed over. -/
def usable (ip : IP) : Bool := !(ip.isLoopback || ip.isUnspecified)

variable {ip ip4 : IP}

theorem to4_eq_some (h : ip.to4 = some ip4) : ip4.length = 4 ∧ (ip = ip4 ∨ ip = v4InV6 ++ ip4) := by
  unfold to4 at h
  split_ifs at h with h4 h16
  · cases h
    exact ⟨h4, .inl rfl⟩
  · cases h
    refine ⟨by simp [h16.1], .inr ?_⟩
    rw [← h16.2, List.take_append_drop]

theorem to4_of_length (h : ip.length = 4) : ip.to4 = some ip := if_pos h

/-- The two forms of an IPv4 address are passed over alike. -/
theorem usable_to4 (h : ip.to4 = some ip4) : ip4.usable = ip.usable := by
  obtain ⟨hlen, hform⟩ := to4_eq_some h
  have hloop : ip4.isLoopback = ip.isLoopback := by
    simp only [isLoopback, h, to4_of_length hlen]
  have hzero : ip4.isUnspecified = ip.isUnspecified := by
    rcases hform with rfl | rfl
    · rfl
    · obtain ⟨a, b, c, d, rfl⟩ := List.length_eq_four.mp hlen
      simp [isUnspecified, equal, v4Zero, v6Unspecified, v4InV6, List.replicate]
  rw [usable, usable, hloop, hzero]

/-- The first usable IPv4 address, in four bytes. -/
def firstV4 (ips : List IP) : Option IP :=
  ips.findSome? fun ip => if ip.isLoopback || ip.isUnspecified then none else ip.to4

theorem firstV4_some {ips : List IP} (h : firstV4 ips = some ip4) :
    ip4.usable = true ∧ ∃ ip ∈ ips, ip.to4 = some ip4 := by
  obtain ⟨ip, hmem, hip⟩ := List.exists_of_findSome?_eq_some h
  split_ifs at hip with hskip
  refine ⟨?_, ip, hmem, hip⟩
  rw [usable_to4 hip, usable, Bool.not_eq_true']
  exact Bool.not_eq_true _ ▸ hskip

theorem firstV4_none {ips : List IP} (h : firstV4 ips = none) (hip : ip ∈ ips)
    (husable : ip.usable = true) : ip.to4 = none := by
  have hnone := List.findSome?_eq_none_iff.mp h ip hip
  rw [usable, Bool.not_eq_true'] at husable
  rwa [husable, if_neg Bool.false_ne_true] at hnone

end IP

/-! ## The network of the host -/

/-- What `main` reads of a `net.Interface`. -/
structure Interface where
  up : Bool
  loopback : Bool
  /-- `Addrs`; `none` is an error. An address that is no `IPNet`, or one
  without an `IP`, is `none`. -/
  addrs : Option (List (Option IP))

/-- `net`, as `main` uses it to find an address. -/
structure Network where
  /-- `net.ParseIP`; `none` is a nil address. -/
  parseIP : String → Option IP
  /-- `net.LookupIP`; `none` is an error. -/
  lookupIP : String → Option (List IP)
  /-- `IP.String`. -/
  string : IP → String
  /-- `net.Interfaces`; `none` is an error. -/
  interfaces : Option (List Interface)
  string_ne : ∀ ip, string ip ≠ ""
  string_open : ∀ ip, '[' ∉ (string ip).toList
  string_close : ∀ ip, ']' ∉ (string ip).toList

/-- `net.SplitHostPort`. -/
def splitHostPort (addr : String) : Option (String × String) :=
  (HostPort.split addr.toList).map fun x => (String.ofList x.1, String.ofList x.2)

/-- `net.JoinHostPort`. -/
def joinHostPort (host port : String) : String :=
  String.ofList (HostPort.join host.toList port.toList)

theorem splitHostPort_eq_some {addr host port : String} :
    splitHostPort addr = some (host, port) ↔
      HostPort.split addr.toList = some (host.toList, port.toList) := by
  simp only [splitHostPort, Option.map_eq_some_iff, Prod.mk.injEq]
  constructor
  · rintro ⟨⟨h, p⟩, hsplit, rfl, rfl⟩
    simpa using hsplit
  · intro hsplit
    exact ⟨_, hsplit, String.ofList_toList, String.ofList_toList⟩

theorem splitHostPort_joinHostPort {host port : String}
    (h : HostPort.Plain host.toList port.toList) :
    splitHostPort (joinHostPort host port) = some (host, port) := by
  rw [splitHostPort_eq_some, joinHostPort, String.toList_ofList, HostPort.split_join h]

namespace Network

variable (N : Network)

/-- `resolveAdvertiseIP`. -/
def resolveAdvertiseIP (value : String) : String :=
  let host := trimSpace value
  if host = "" then ""
  else match N.parseIP host with
    | some ip => if ip.isLoopback || ip.isUnspecified then "" else N.string ip
    | none =>
        match N.lookupIP host with
        | none => ""
        | some ips =>
            match IP.firstV4 ips with
            | some v4 => N.string v4
            | none =>
                match ips.find? fun ip => !(ip.isLoopback || ip.isUnspecified) with
                | some ip => N.string ip
                | none => ""

/-- The loop over the addresses in `discoverAdvertiseIP`. -/
def listenerIP (addrs : List String) : Option String :=
  addrs.findSome? fun addr =>
    match splitHostPort addr with
    | none => none
    | some (host, _) =>
        let ip := N.resolveAdvertiseIP host
        if ip ≠ "" then some ip else none

/-- The loop over the interfaces in `discoverAdvertiseIP`. -/
def interfaceIP (ifaces : List Interface) : Option IP :=
  ifaces.findSome? fun iface =>
    if !iface.up || iface.loopback then none
    else iface.addrs.bind fun addrs => IP.firstV4 (addrs.filterMap id)

/-- `discoverAdvertiseIP`. -/
def discoverAdvertiseIP (addrs : List String) : String :=
  match N.listenerIP addrs with
  | some ip => ip
  | none => ((N.interfaces.bind interfaceIP).map N.string).getD ""

/-- `runnerIP` of `main`. -/
def runnerIP (advertiseAddr syncAddr httpAddr : String) : String :=
  let ip := N.resolveAdvertiseIP advertiseAddr
  let ip := if ip = "" then N.discoverAdvertiseIP [syncAddr, httpAddr] else ip
  if ip = "" then "127.0.0.1" else ip

/-- A host with this network, and the two addresses the start-up is not
otherwise given. -/
def host {κ : Type} (H : Host κ) (advertiseAddr httpAddr : String) : Host κ :=
  { H with
    splitHostPort := splitHostPort
    joinHostPort := joinHostPort
    parseIP := N.parseIP
    lookupIP := N.lookupIP
    isLoopback := IP.isLoopback
    runnerIP := fun cfg => N.runnerIP advertiseAddr cfg.syncAddr httpAddr }

section Host
variable {κ : Type} (H : Host κ) (advertiseAddr httpAddr : String)

@[simp] theorem host_splitHostPort (addr : String) :
    (N.host H advertiseAddr httpAddr).splitHostPort addr = Daemon.splitHostPort addr := rfl

@[simp] theorem host_runnerIP (cfg : Config) :
    (N.host H advertiseAddr httpAddr).runnerIP cfg =
      N.runnerIP advertiseAddr cfg.syncAddr httpAddr := by
  simp only [host]

theorem host_newCluster (cfg : Config) (advertised : String) :
    newCluster (N.host H advertiseAddr httpAddr) cfg advertised =
      Gossip.newCluster H.metaCodec H.createMemberlist cfg.nodeID cfg.bind
        (N.runnerIP advertiseAddr cfg.syncAddr httpAddr) advertised (clusterProfile cfg.profile)
        cfg.gossipKey (compactList cfg.join) := by
  simp only [newCluster, host]

end Host

/-! ## What can be found -/

/-- The addresses a configured text stands for. -/
def addressesOf (value : String) : List IP :=
  let host := trimSpace value
  if host = "" then []
  else match N.parseIP host with
    | some ip => [ip]
    | none => (N.lookupIP host).getD []

/-- The IPv4 addresses of the interfaces that are up, loopback apart. -/
def interfaceAddresses : List IP :=
  (N.interfaces.getD []).flatMap fun iface =>
    if !iface.up || iface.loopback then []
    else ((iface.addrs.getD []).filterMap id).filterMap IP.to4

/-- The addresses of the host of a listener. -/
def listenerAddresses (addr : String) : List IP :=
  match splitHostPort addr with
  | none => []
  | some (host, _) => N.addressesOf host

/-- All `main` looks at. -/
def offered (advertiseAddr syncAddr httpAddr : String) : List IP :=
  N.addressesOf advertiseAddr ++
    ([syncAddr, httpAddr].flatMap N.listenerAddresses ++ N.interfaceAddresses)

/-- The text is that of a usable address among these. -/
def Found (ips : List IP) (text : String) : Prop :=
  ∃ ip, ip.usable = true ∧ text = N.string ip ∧ ∃ x ∈ ips, x = ip ∨ x.to4 = some ip

/-- The outcome of a search: a usable address, or none was there. -/
def Searched (ips : List IP) (text : String) : Prop :=
  N.Found ips text ∨ text = "" ∧ ∀ ip ∈ ips, ip.usable = false

variable {N} {ips ips' : List IP} {text : String}

theorem Found.ne (h : N.Found ips text) : text ≠ "" := by
  obtain ⟨ip, -, rfl, -⟩ := h
  exact N.string_ne ip

theorem Found.mono (h : N.Found ips text) (hsub : ips ⊆ ips') : N.Found ips' text := by
  obtain ⟨ip, husable, htext, x, hx, hform⟩ := h
  exact ⟨ip, husable, htext, x, hsub hx, hform⟩

/-- The next search is made if this one found nothing. -/
theorem Searched.orElse {text' : String} (h : N.Searched ips text) (h' : N.Searched ips' text') :
    N.Searched (ips ++ ips') (if text = "" then text' else text) := by
  rcases h with hfound | ⟨rfl, hnone⟩
  · rw [if_neg hfound.ne]
    exact .inl (hfound.mono (List.subset_append_left _ _))
  · rw [if_pos rfl]
    rcases h' with hfound | ⟨rfl, hnone'⟩
    · exact .inl (hfound.mono (List.subset_append_right _ _))
    · exact .inr ⟨rfl, fun ip hip => (List.mem_append.mp hip).elim (hnone ip) (hnone' ip)⟩

theorem searched_resolveAdvertiseIP (N : Network) (value : String) :
    N.Searched (N.addressesOf value) (N.resolveAdvertiseIP value) := by
  unfold addressesOf resolveAdvertiseIP
  dsimp only
  split_ifs with hblank
  · exact .inr ⟨rfl, fun _ h => absurd h List.not_mem_nil⟩
  cases N.parseIP (trimSpace value) with
  | some ip =>
    dsimp only
    split_ifs with hskip
    · refine .inr ⟨rfl, fun x hx => ?_⟩
      rw [List.mem_singleton.mp hx, IP.usable, hskip, Bool.not_true]
    · refine .inl ⟨ip, ?_, rfl, ip, List.mem_singleton_self ip, .inl rfl⟩
      simpa [IP.usable] using hskip
  | none =>
    cases N.lookupIP (trimSpace value) with
    | none => exact .inr ⟨rfl, fun _ h => absurd h List.not_mem_nil⟩
    | some ips =>
      dsimp only [Option.getD_some]
      split
      · next v4 hv4 =>
        obtain ⟨husable, x, hx, hform⟩ := IP.firstV4_some hv4
        exact .inl ⟨v4, husable, rfl, x, hx, .inr hform⟩
      · split
        · next ip hip =>
          exact .inl ⟨ip, List.find?_some hip, rfl, ip, List.mem_of_find?_eq_some hip, .inl rfl⟩
        · next hnone =>
          refine .inr ⟨rfl, fun ip hip => ?_⟩
          exact Bool.not_eq_true _ ▸ List.find?_eq_none.mp hnone ip hip

theorem searched_interfaces (N : Network) :
    N.Searched N.interfaceAddresses (((N.interfaces.bind interfaceIP).map N.string).getD "") := by
  cases hif : N.interfaces.bind interfaceIP with
  | some ip =>
    obtain ⟨ifaces, hifaces, hip⟩ := Option.bind_eq_some_iff.mp hif
    obtain ⟨iface, hmem, hip⟩ := List.exists_of_findSome?_eq_some hip
    split_ifs at hip with hskip
    obtain ⟨addrs, haddrs, hip⟩ := Option.bind_eq_some_iff.mp hip
    obtain ⟨husable, x, hx, hform⟩ := IP.firstV4_some hip
    refine .inl ⟨ip, husable, rfl, ip, ?_, .inl rfl⟩
    rw [interfaceAddresses, hifaces, Option.getD_some]
    refine List.mem_flatMap.mpr ⟨iface, hmem, ?_⟩
    rw [if_neg hskip, haddrs, Option.getD_some]
    exact List.mem_filterMap.mpr ⟨x, hx, hform⟩
  | none =>
    refine .inr ⟨rfl, fun ip hip => ?_⟩
    cases hifaces : N.interfaces with
    | none => simp [interfaceAddresses, hifaces] at hip
    | some ifaces =>
      rw [hifaces, Option.bind_some] at hif
      rw [interfaceAddresses, hifaces, Option.getD_some] at hip
      obtain ⟨iface, hmem, hip⟩ := List.mem_flatMap.mp hip
      have hnone := List.findSome?_eq_none_iff.mp hif iface hmem
      split_ifs at hip hnone with hskip
      · exact absurd hip List.not_mem_nil
      obtain ⟨x, hx, hform⟩ := List.mem_filterMap.mp hip
      cases haddrs : iface.addrs with
      | none => simp [haddrs] at hx
      | some addrs =>
        rw [haddrs, Option.bind_some] at hnone
        rw [haddrs, Option.getD_some] at hx
        by_contra husable
        rw [Bool.not_eq_false, IP.usable_to4 hform] at husable
        rw [IP.firstV4_none hnone hx husable] at hform
        cases hform

theorem listenerIP_ne (N : Network) {addrs : List String} (h : N.listenerIP addrs = some text) :
    text ≠ "" := by
  obtain ⟨addr, -, haddr⟩ := List.exists_of_findSome?_eq_some h
  split at haddr
  · cases haddr
  · dsimp only at haddr
    split_ifs at haddr with hne
    cases haddr
    exact hne

theorem searched_listenerIP (N : Network) (addrs : List String) :
    N.Searched (addrs.flatMap N.listenerAddresses) ((N.listenerIP addrs).getD "") := by
  induction addrs with
  | nil => exact .inr ⟨rfl, fun _ h => absurd h List.not_mem_nil⟩
  | cons addr addrs ih =>
    rw [listenerIP] at ih ⊢
    rw [List.flatMap_cons, List.findSome?_cons]
    cases hsplit : splitHostPort addr with
    | none => simpa [listenerAddresses, hsplit] using ih
    | some hp =>
      have hstep := (searched_resolveAdvertiseIP N hp.1).orElse ih
      simp only [listenerAddresses, hsplit]
      by_cases hempty : N.resolveAdvertiseIP hp.1 = ""
      · simpa [hempty] using hstep
      · simpa [hempty] using hstep

theorem searched_discoverAdvertiseIP (N : Network) (addrs : List String) :
    N.Searched (addrs.flatMap N.listenerAddresses ++ N.interfaceAddresses)
      (N.discoverAdvertiseIP addrs) := by
  have h := (searched_listenerIP N addrs).orElse (searched_interfaces N)
  unfold discoverAdvertiseIP
  cases hip : N.listenerIP addrs with
  | none => simpa [hip] using h
  | some ip =>
    rw [hip, Option.getD_some, if_neg (listenerIP_ne N hip)] at h
    exact h

/-- A usable address is announced if there is one, and loopback otherwise. -/
def Advertised (N : Network) (ips : List IP) (text : String) : Prop :=
  N.Found ips text ∨ text = "127.0.0.1" ∧ ∀ ip ∈ ips, ip.usable = false

theorem advertised_runnerIP (N : Network) (advertiseAddr syncAddr httpAddr : String) :
    N.Advertised (N.offered advertiseAddr syncAddr httpAddr)
      (N.runnerIP advertiseAddr syncAddr httpAddr) := by
  have h := (searched_resolveAdvertiseIP N advertiseAddr).orElse
    (searched_discoverAdvertiseIP N [syncAddr, httpAddr])
  unfold runnerIP
  dsimp only
  generalize (if N.resolveAdvertiseIP advertiseAddr = "" then
    N.discoverAdvertiseIP [syncAddr, httpAddr] else N.resolveAdvertiseIP advertiseAddr) = ip at h ⊢
  rcases h with hfound | ⟨rfl, hnone⟩
  · rw [if_neg hfound.ne]
    exact .inl hfound
  · exact .inr ⟨rfl, hnone⟩

theorem Advertised.plain (h : N.Advertised ips text) :
    '[' ∉ text.toList ∧ ']' ∉ text.toList := by
  rcases h with ⟨ip, -, rfl, -⟩ | ⟨rfl, -⟩
  · exact ⟨N.string_open ip, N.string_close ip⟩
  · decide

end Network

/-! ## The address the peers dial -/

section Announced
variable {κ : Type}

open Gossip (MetaCodec Memberlist peerProvider)

/-- The hosts `advertisedAddr` replaces. -/
def Wildcard (host : String) : Prop := host = "" ∨ host = "0.0.0.0" ∨ host = "::"

instance : DecidablePred Wildcard := fun _ => inferInstanceAs (Decidable (_ ∨ _))

/-- The address keeps the listener's port, and its host unless that is replaced. -/
theorem split_advertisedAddr {N : Network} {H : Host κ} {advertiseAddr httpAddr : String}
    {addr ip host port announced : String} (hne : addr ≠ "")
    (hsplit : splitHostPort addr = some (host, port))
    (hip : '[' ∉ ip.toList ∧ ']' ∉ ip.toList)
    (h : advertisedAddr (N.host H advertiseAddr httpAddr) addr ip = some announced) :
    splitHostPort announced = some (if Wildcard host then ip else host, port) := by
  have hplain := HostPort.plain_of_split (splitHostPort_eq_some.mp hsplit)
  simp only [advertisedAddr, if_neg hne, Network.host_splitHostPort, hsplit, Option.map_some,
    Option.some.injEq] at h
  rw [← h]
  refine splitHostPort_joinHostPort ?_
  split_ifs
  · exact ⟨hip.1, hip.2, hplain.port_open, hplain.port_close, hplain.port_colon⟩
  · exact hplain

theorem ne_of_splitHostPort {addr : String} {x : String × String}
    (h : splitHostPort addr = some x) : addr ≠ "" := by
  rintro rfl
  simp [splitHostPort, HostPort.split, HostPort.cutLast] at h

/-- **The announced address leads back to the listener.** A node that gossips
has announced an address with the port of its sync listener and with the
listener's host, or, for a listener on every interface, with a usable address
of the node (loopback only where there is none). The memberlist was created to
gossip it, and every member that hears of the node pulls from that address. -/
theorem announced_addr_leads_back (N : Network) (H : Host κ) {advertiseAddr httpAddr : String}
    {cfg : Config} {flags : Flags} {server : SyncServer κ}
    (h : startUp (N.host H advertiseAddr httpAddr) cfg flags = .ok (some server))
    (hbind : 0 < (cfg.override flags).bind) :
    ∃ host port ip announced cluster,
      splitHostPort server.addr = some (host, port) ∧
      N.Advertised (N.offered advertiseAddr server.addr httpAddr) ip ∧
      Gossip.newCluster H.metaCodec H.createMemberlist (cfg.override flags).nodeID
        (cfg.override flags).bind ip announced (clusterProfile (cfg.override flags).profile)
        (cfg.override flags).gossipKey (compactList (cfg.override flags).join) = .ok cluster ∧
      H.createMemberlist cluster.config = .ok () ∧
      cluster.config.name = (cfg.override flags).nodeID ∧
      cluster.config.nodeMeta = H.metaCodec.encode announced ∧
      splitHostPort announced = some (if Wildcard host then ip else host, port) ∧
      ∀ (M : MetaCodec), M.ReadsBack → ∀ (g : Memberlist) (peerList : List String),
        (cfg.override flags).nodeID ≠ g.localName →
          ⟨(cfg.override flags).nodeID, M.encode announced⟩ ∈ g.nodes →
            announced ∈ peerProvider M peerList (some g) := by
  have hp := passed_of_startUp _ h
  obtain ⟨hne, haddr, -⟩ := hp.listening server rfl
  obtain ⟨host, port, hsplit⟩ := hp.splits _ hne
  obtain ⟨announced, hadv, hcluster⟩ := hp.announced
  obtain ⟨cluster, hcluster⟩ := hcluster hbind
  rw [Network.host_splitHostPort] at hsplit
  rw [Network.host_runnerIP] at hadv
  rw [Network.host_newCluster] at hcluster
  have hmade := Gossip.newCluster_ok hcluster
  have hip := Network.advertised_runnerIP N advertiseAddr (cfg.override flags).syncAddr httpAddr
  have hannounced := split_advertisedAddr hne hsplit hip.plain hadv
  rw [haddr]
  refine ⟨host, port, _, announced, cluster, hsplit, hip, hcluster, hmade.created, hmade.name,
    hmade.nodeMeta, hannounced, ?_⟩
  intro M hM g peerList hname hmem
  exact Gossip.mem_peerProvider_of_knows hM
    ⟨hname, ne_of_splitHostPort hannounced, hmem⟩

end Announced

/-- A machine with one network card. -/
def oneCard : Network where
  parseIP text :=
    if text = "0.0.0.0" then some [0, 0, 0, 0]
    else if text = "127.0.0.1" then some [127, 0, 0, 1]
    else none
  lookupIP _ := none
  string ip := if ip = [10, 0, 0, 7] then "10.0.0.7" else "?"
  interfaces := some [⟨true, true, some [some [127, 0, 0, 1]]⟩,
    ⟨true, false, some [none, some (IP.v4InV6 ++ [10, 0, 0, 7])]⟩]
  string_ne ip := by split <;> decide
  string_open ip := by split <;> decide
  string_close ip := by split <;> decide

/-- Gossip starts with the metadata of one address only. -/
def cardHost : Host Unit :=
  { plainHost with
    createMemberlist := fun config =>
      if config.nodeMeta = plainHost.metaCodec.encode "10.0.0.7:8100" then .ok ()
      else .error "other metadata" }

/-- `--sync-addr 0.0.0.0:8100 --allow-insecure-sync`. -/
def everywhereFlags : Flags := { syncAddr := some "0.0.0.0:8100", allowInsecureSync := true }

/-- A listener on every interface is announced under the address of the card. -/
theorem card_announced :
    startUp (oneCard.host cardHost "" "127.0.0.1:8090") .default everywhereFlags =
        .ok (some ⟨"0.0.0.0:8100", none⟩) ∧
      ∃ ip announced, splitHostPort announced = some (ip, "8100") ∧ announced = "10.0.0.7:8100" ∧
        oneCard.Advertised (oneCard.offered "" "0.0.0.0:8100" "127.0.0.1:8090") ip := by
  have hstart : startUp (oneCard.host cardHost "" "127.0.0.1:8090") .default everywhereFlags =
      .ok (some ⟨"0.0.0.0:8100", none⟩) := by decide +kernel
  have hbind : 0 < (Config.default.override everywhereFlags).bind := by decide
  have hsplit : splitHostPort "0.0.0.0:8100" = some ("0.0.0.0", "8100") := by decide +kernel
  obtain ⟨host, port, ip, announced, cluster, hlisten, hip, -, hcreated, -, hmeta, hannounced, -⟩ :=
    announced_addr_leads_back oneCard cardHost hstart hbind
  rw [hsplit, Option.some.injEq, Prod.mk.injEq] at hlisten
  obtain ⟨rfl, rfl⟩ := hlisten
  rw [if_pos (by decide)] at hannounced
  have hmeta' : cluster.config.nodeMeta = plainHost.metaCodec.encode "10.0.0.7:8100" := by
    by_contra hother
    rw [show cardHost.createMemberlist cluster.config = .error "other metadata" from
      if_neg hother] at hcreated
    cases hcreated
  have hread : plainHost.metaCodec.ReadsBack :=
    Gossip.MetaCodec.ofEnv_readsBack Env.escaping_labelsReadBack
  have hdecoded : some announced = some "10.0.0.7:8100" := by
    rw [← hread announced, ← hread "10.0.0.7:8100", ← hmeta', hmeta]
    rfl
  exact ⟨hstart, ip, announced, hannounced, Option.some.inj hdecoded, hip⟩

end Daemon

end Takl
