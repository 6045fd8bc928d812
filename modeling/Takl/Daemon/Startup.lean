import Takl.Membership.NewCluster

/-!
# Start-up of the daemon (`cmd/takld/main.go`)

`main` from the configuration to the sync listener: the flags written over
the configuration, the checks that end the process, the credentials, and the
listener. What the process asks of its host (name resolution, files,
sockets) is in `Host`, as given functions. What a start has passed when it
succeeds is said once (`passed_of_startUp`).

The check against plaintext sync beyond loopback asks for a peer or a gossip
port as well; the listener is opened without either. So an exposed plaintext
listener is opened exactly by a node that has neither (`plaintext_iff`).
-/

namespace Takl

namespace Daemon

/-! ## Configuration -/

/-- `transport.TLSFiles`. -/
structure TLSFiles where
  caFile : String
  certFile : String
  keyFile : String
  deriving DecidableEq, Repr

/-- `TLSFiles.Enabled`. -/
def TLSFiles.enabled (t : TLSFiles) : Bool :=
  decide (t.caFile ≠ "") || decide (t.certFile ≠ "") || decide (t.keyFile ≠ "")

/-- `TLSFiles.Validate`. -/
def TLSFiles.validate (t : TLSFiles) : Except String Unit :=
  if t.caFile = "" ∨ t.certFile = "" ∨ t.keyFile = "" then
    .error "sync tls requires ca_file, cert_file, and key_file"
  else .ok ()

/-- The fields of `config.Config` that are read up to the sync listener. -/
structure Config where
  nodeID : String
  bind : Int
  join : List String
  peers : List String
  profile : String
  gossipKey : String
  syncAddr : String
  adminToken : String
  enablePprof : Bool
  syncTLS : TLSFiles
  dbPath : String

/-- `config.Default`. -/
def Config.default : Config where
  nodeID := "runner-1"
  bind := 7946
  join := []
  peers := []
  profile := "lan"
  gossipKey := ""
  syncAddr := "127.0.0.1:8100"
  adminToken := ""
  enablePprof := false
  syncTLS := ⟨"", "", ""⟩
  dbPath := "takl.db"

/-- The command line; `none` is a flag that is not set. -/
structure Flags where
  nodeID : Option String := none
  bind : Option Int := none
  join : Option String := none
  peers : Option String := none
  clusterProfile : Option String := none
  gossipKey : Option String := none
  syncAddr : Option String := none
  adminToken : Option String := none
  enablePprof : Option Bool := none
  syncTLSCAFile : Option String := none
  syncTLSCertFile : Option String := none
  syncTLSKeyFile : Option String := none
  db : Option String := none
  allowInsecureSync : Bool := false
  allowInsecureGossip : Bool := false

/-- `flag.Visit`: a flag that is set overrides the configuration. -/
def Config.override (cfg : Config) (flags : Flags) : Config where
  nodeID := flags.nodeID.getD cfg.nodeID
  bind := flags.bind.getD cfg.bind
  join := (flags.join.map splitComma).getD cfg.join
  peers := (flags.peers.map splitComma).getD cfg.peers
  profile := flags.clusterProfile.getD cfg.profile
  gossipKey := flags.gossipKey.getD cfg.gossipKey
  syncAddr := flags.syncAddr.getD cfg.syncAddr
  adminToken := flags.adminToken.getD cfg.adminToken
  enablePprof := flags.enablePprof.getD cfg.enablePprof
  syncTLS :=
    { caFile := flags.syncTLSCAFile.getD cfg.syncTLS.caFile
      certFile := flags.syncTLSCertFile.getD cfg.syncTLS.certFile
      keyFile := flags.syncTLSKeyFile.getD cfg.syncTLS.keyFile }
  dbPath := flags.db.getD cfg.dbPath

/-! ## The host -/

/-- `net.IP`. -/
abbrev IP := List UInt8

/-- What the process asks of its host; `κ` are transport credentials. -/
structure Host (κ : Type) where
  /-- `net.SplitHostPort`; `none` is an error. -/
  splitHostPort : String → Option (String × String)
  joinHostPort : String → String → String
  /-- `net.ParseIP`; `none` is a nil address. -/
  parseIP : String → Option IP
  /-- `net.LookupIP`; `none` is an error. -/
  lookupIP : String → Option (List IP)
  isLoopback : IP → Bool
  /-- `runnerIP`: the advertise address that was given or found. -/
  runnerIP : Config → String
  /-- The rest of `LoadClientTLSCredentials`, after the check of the names. -/
  clientCredentials : TLSFiles → Option κ
  /-- The rest of `LoadServerTLSCredentials`. -/
  serverCredentials : TLSFiles → Option κ
  /-- `store.Open` succeeds. -/
  openStore : String → String → Bool
  /-- `encoding/json` on the metadata of a node. -/
  metaCodec : Gossip.MetaCodec
  /-- `memberlist.Create`. -/
  createMemberlist : Gossip.MemberlistConfig → Except String Unit
  /-- `net.Listen` succeeds. -/
  listen : String → Bool

/-- The sync server: where it listens, and the credentials it was given. -/
structure SyncServer (κ : Type) where
  addr : String
  creds : Option κ
  deriving DecidableEq

section Start
variable {κ : Type} (H : Host κ)

/-- `advertisedAddr`. -/
def advertisedAddr (listenAddr advertiseIP : String) : Option String :=
  if listenAddr = "" then some ""
  else (H.splitHostPort listenAddr).map fun (host, port) =>
    H.joinHostPort (if host = "" ∨ host = "0.0.0.0" ∨ host = "::" then advertiseIP else host) port

/-- `addrExposed`. -/
def addrExposed (addr : String) : Bool :=
  match H.splitHostPort addr with
  | none => false
  | some (host, _) =>
      let host := trimSpace host
      if host = "" ∨ host = "0.0.0.0" ∨ host = "::" then true
      else match H.parseIP host with
        | none =>
            if host = "localhost" then false
            else match H.lookupIP host with
              | none => true
              | some ips => ips.any fun ip => !H.isLoopback ip
        | some ip => !H.isLoopback ip

/-- The cluster profile `main` goes on with. Lower case is that of ASCII: no
other letter is lowered to one of `lan` or `wan`. -/
def clusterProfile (profile : String) : String :=
  let profile := String.ofList ((trimSpace profile).toList.map Char.toLower)
  if profile = "wan" then "wan" else "lan"

/-- A check that logs `text` and exits. -/
def refuse (condition : Bool) (text : String) : Except String Unit :=
  if condition then .error text else .ok ()

/-- `LoadClientTLSCredentials` or `LoadServerTLSCredentials`; an error is
logged as `text`. -/
def loadCredentials (rest : TLSFiles → Option κ) (files : TLSFiles) (text : String) :
    Except String κ :=
  match files.validate, rest files with
  | .ok (), some creds => .ok creds
  | _, _ => .error text

/-- `serverCreds`; the client's credentials are loaded first. -/
def serverCreds (files : TLSFiles) : Except String (Option κ) :=
  if files.enabled then do
    let _ ← loadCredentials H.clientCredentials files "load sync tls client credentials"
    let creds ← loadCredentials H.serverCredentials files "load sync tls server credentials"
    .ok (some creds)
  else .ok none

/-- The call of `membership.NewCluster`. -/
def newCluster (cfg : Config) (advertised : String) : Except String Gossip.Cluster :=
  Gossip.newCluster H.metaCodec H.createMemberlist cfg.nodeID cfg.bind (H.runnerIP cfg) advertised
    (clusterProfile cfg.profile) cfg.gossipKey (compactList cfg.join)

/-- `main` up to the sync listener. An error is the text logged before the
exit; without a sync address no listener is opened. -/
def startUp (cfg : Config) (flags : Flags) : Except String (Option (SyncServer κ)) := do
  let cfg := cfg.override flags
  let profile := clusterProfile cfg.profile
  let advertised ← (advertisedAddr H cfg.syncAddr (H.runnerIP cfg)).elim
    (.error "invalid sync address") .ok
  let peerList := compactList cfg.peers
  refuse (cfg.syncTLS.enabled && !cfg.syncTLS.validate.toBool) "invalid sync tls config"
  refuse (decide (cfg.syncAddr ≠ "") && addrExposed H cfg.syncAddr &&
      (!peerList.isEmpty || decide (cfg.bind > 0)) && !cfg.syncTLS.enabled &&
      !flags.allowInsecureSync)
    "refusing insecure sync on non-loopback address"
  refuse (decide (cfg.bind > 0) && decide (profile = "wan") &&
      decide (trimSpace cfg.gossipKey = "") && !flags.allowInsecureGossip)
    "refusing wan gossip without gossip key"
  refuse (cfg.enablePprof && decide (trimSpace cfg.adminToken = ""))
    "refusing to enable pprof without admin token"
  let serverCreds ← serverCreds H cfg.syncTLS
  refuse (!H.openStore cfg.dbPath cfg.nodeID) "store open"
  refuse (decide (cfg.bind > 0) && !(newCluster H cfg advertised).toBool) "membership cluster"
  if cfg.syncAddr ≠ "" then do
    refuse (!H.listen cfg.syncAddr) "sync listen"
    .ok (some ⟨cfg.syncAddr, serverCreds⟩)
  else .ok none

/-! ## What a successful start has passed -/

theorem refuse_bind_ok {α : Type} {condition : Bool} {text : String}
    {next : Unit → Except String α} {a : α} (h : (refuse condition text >>= next) = .ok a) :
    condition = false ∧ next () = .ok a := by
  cases condition with
  | true => cases h
  | false => exact ⟨rfl, h⟩

theorem loadCredentials_ok {rest : TLSFiles → Option κ} {files : TLSFiles} {text : String}
    {creds : κ} (h : loadCredentials rest files text = .ok creds) :
    files.validate = .ok () ∧ rest files = some creds := by
  unfold loadCredentials at h
  split at h
  · next hv hr =>
    cases h
    exact ⟨hv, hr⟩
  · cases h

theorem serverCreds_ok {files : TLSFiles} {loaded : Option κ}
    (h : serverCreds H files = .ok loaded) (henabled : files.enabled = true) :
    ∃ creds, loaded = some creds ∧ files.validate = .ok () ∧
      H.serverCredentials files = some creds := by
  rw [serverCreds, if_pos henabled] at h
  obtain ⟨_, -, h⟩ := Except.bind_eq_ok.mp h
  obtain ⟨creds, hload, h⟩ := Except.bind_eq_ok.mp h
  cases h
  exact ⟨creds, rfl, loadCredentials_ok hload⟩

theorem validate_ok {files : TLSFiles} (h : files.validate = .ok ()) :
    files.caFile ≠ "" ∧ files.certFile ≠ "" ∧ files.keyFile ≠ "" := by
  unfold TLSFiles.validate at h
  split at h
  · cases h
  · next hne => simpa [not_or] using hne

/-- What `main` has established when it goes on: each check it has made, and
the listener it has opened, if any. -/
structure Passed (cfg : Config) (flags : Flags) (server : Option (SyncServer κ)) : Prop where
  guarded : cfg.syncAddr ≠ "" → addrExposed H cfg.syncAddr = true →
    compactList cfg.peers ≠ [] ∨ 0 < cfg.bind →
      cfg.syncTLS.enabled = true ∨ flags.allowInsecureSync = true
  keyed : 0 < cfg.bind → clusterProfile cfg.profile = "wan" → flags.allowInsecureGossip = false →
    trimSpace cfg.gossipKey ≠ ""
  token : cfg.enablePprof = true → trimSpace cfg.adminToken ≠ ""
  announced : ∃ advertised, advertisedAddr H cfg.syncAddr (H.runnerIP cfg) = some advertised ∧
    (0 < cfg.bind → ∃ cluster, newCluster H cfg advertised = .ok cluster)
  listening : ∀ s, server = some s → cfg.syncAddr ≠ "" ∧ s.addr = cfg.syncAddr ∧
    (cfg.syncTLS.enabled = true → ∃ creds, s.creds = some creds ∧
      cfg.syncTLS.validate = .ok () ∧ H.serverCredentials cfg.syncTLS = some creds)

/-- **What a successful start has passed.** -/
theorem passed_of_startUp {cfg : Config} {flags : Flags} {server : Option (SyncServer κ)}
    (h : startUp H cfg flags = .ok server) : Passed H (cfg.override flags) flags server := by
  unfold startUp at h
  generalize cfg.override flags = cfg at h ⊢
  -- the checks in the order of `main`
  obtain ⟨advertised, hadv, h⟩ := Except.bind_eq_ok.mp h
  obtain ⟨-, h⟩ := refuse_bind_ok h
  obtain ⟨hguard, h⟩ := refuse_bind_ok h
  obtain ⟨hkey, h⟩ := refuse_bind_ok h
  obtain ⟨htoken, h⟩ := refuse_bind_ok h
  obtain ⟨loaded, hcreds, h⟩ := Except.bind_eq_ok.mp h
  obtain ⟨-, h⟩ := refuse_bind_ok h
  obtain ⟨hcluster, h⟩ := refuse_bind_ok h
  refine ⟨fun haddr hexposed hneeded => ?_, fun hbind hwan hallow hblank => ?_, fun hpprof => ?_,
    ⟨advertised, ?_, fun hbind => ?_⟩, ?_⟩
  · by_contra hnot
    rw [not_or, Bool.not_eq_true, Bool.not_eq_true] at hnot
    have hlinked : (!(compactList cfg.peers).isEmpty || decide (cfg.bind > 0)) = true := by
      simpa using hneeded
    rw [hexposed, hlinked, hnot.1, hnot.2] at hguard
    simp [haddr] at hguard
  · simp [hbind, hwan, hallow, hblank] at hkey
  · simpa [hpprof] using htoken
  · cases hsome : advertisedAddr H cfg.syncAddr (H.runnerIP cfg) with
    | none => simp [hsome] at hadv
    | some addr =>
      rw [hsome] at hadv
      exact congrArg some (Except.ok.inj hadv)
  · exact Except.toBool_eq_true.mp (by simpa [hbind] using hcluster)
  · rintro s rfl
    by_cases haddr : cfg.syncAddr = ""
    · rw [if_neg (not_not.mpr haddr)] at h
      cases h
    rw [if_pos haddr] at h
    obtain ⟨-, h⟩ := refuse_bind_ok h
    cases h
    exact ⟨haddr, rfl, serverCreds_ok H hcreds⟩

/-- The address of a listener has a host and a port. -/
theorem Passed.splits {cfg : Config} {flags : Flags} {server : Option (SyncServer κ)}
    (h : Passed H cfg flags server) (haddr : cfg.syncAddr ≠ "") :
    ∃ host port, H.splitHostPort cfg.syncAddr = some (host, port) := by
  obtain ⟨advertised, hadv, -⟩ := h.announced
  cases hsplit : H.splitHostPort cfg.syncAddr with
  | none => simp [advertisedAddr, haddr, hsplit] at hadv
  | some hp => exact ⟨hp.1, hp.2, rfl⟩

/-! ## Plaintext beyond loopback -/

/-- A loopback host: `localhost`, a loopback address, or a name all of whose
addresses are loopback. -/
def LoopbackHost (host : String) : Prop :=
  host = "localhost" ∨ (∃ ip, H.parseIP host = some ip ∧ H.isLoopback ip = true) ∨
    (H.parseIP host = none ∧ ∃ ips, H.lookupIP host = some ips ∧ ∀ ip ∈ ips, H.isLoopback ip = true)

/-- The host of the sync address, without blanks around it, is a loopback
one. -/
def LoopbackAddr (addr : String) : Prop :=
  ∃ host port, H.splitHostPort addr = some (host, port) ∧ LoopbackHost H (trimSpace host)

theorem loopbackAddr_of_not_exposed {addr host port : String}
    (hsplit : H.splitHostPort addr = some (host, port)) (h : addrExposed H addr = false) :
    LoopbackAddr H addr := by
  refine ⟨host, port, hsplit, ?_⟩
  simp only [addrExposed, hsplit] at h
  split at h
  · cases h
  cases hparse : H.parseIP (trimSpace host) with
  | some ip =>
    simp only [hparse, Bool.not_eq_false'] at h
    exact .inr (.inl ⟨ip, hparse, h⟩)
  | none =>
    simp only [hparse] at h
    split at h
    · next hlocal => exact .inl hlocal
    · cases hlookup : H.lookupIP (trimSpace host) with
      | none => simp [hlookup] at h
      | some ips =>
        simp only [hlookup, List.any_eq_false, Bool.not_eq_true', Bool.not_eq_false] at h
        exact .inr (.inr ⟨hparse, ips, hlookup, h⟩)

/-- The sync server does not speak plaintext beyond loopback by accident. -/
def Safe (cfg : Config) (flags : Flags) (server : SyncServer κ) : Prop :=
  (∃ creds, server.creds = some creds ∧ H.serverCredentials cfg.syncTLS = some creds ∧
    cfg.syncTLS.caFile ≠ "" ∧ cfg.syncTLS.certFile ≠ "" ∧ cfg.syncTLS.keyFile ≠ "") ∨
  flags.allowInsecureSync = true ∨ LoopbackAddr H server.addr

/-- **When the sync server is safe.** Of the configurations with which a
listener is opened, exactly those that have a peer, a gossip port, a TLS file,
the flag or a loopback address. -/
theorem plaintext_iff (cfg : Config) (flags : Flags) {server : SyncServer κ}
    (h : startUp H cfg flags = .ok (some server)) :
    Safe H (cfg.override flags) flags server ↔
      compactList (cfg.override flags).peers ≠ [] ∨ 0 < (cfg.override flags).bind ∨
        (cfg.override flags).syncTLS.enabled = true ∨ flags.allowInsecureSync = true ∨
        LoopbackAddr H (cfg.override flags).syncAddr := by
  have hp := passed_of_startUp H h
  obtain ⟨hne, haddr, hloaded⟩ := hp.listening server rfl
  have htls : (cfg.override flags).syncTLS.enabled = true →
      Safe H (cfg.override flags) flags server := by
    intro henabled
    obtain ⟨creds, hcreds, hvalid, hserver⟩ := hloaded henabled
    exact .inl ⟨creds, hcreds, hserver, validate_ok hvalid⟩
  -- with a peer or a gossip port the check has been made
  have hchecked : compactList (cfg.override flags).peers ≠ [] ∨ 0 < (cfg.override flags).bind →
      Safe H (cfg.override flags) flags server := by
    intro hneeded
    by_cases hexposed : addrExposed H (cfg.override flags).syncAddr = true
    · rcases hp.guarded hne hexposed hneeded with henabled | hallow
      · exact htls henabled
      · exact .inr (.inl hallow)
    · obtain ⟨host, port, hsplit⟩ := hp.splits H hne
      refine .inr (.inr ?_)
      rw [haddr]
      exact loopbackAddr_of_not_exposed H hsplit (Bool.not_eq_true _ ▸ hexposed)
  constructor
  · rintro (⟨-, -, -, hca, -⟩ | hallow | hloop)
    · exact .inr (.inr (.inl (by simp [TLSFiles.enabled, hca])))
    · exact .inr (.inr (.inr (.inl hallow)))
    · rw [haddr] at hloop
      exact .inr (.inr (.inr (.inr hloop)))
  · rintro (hpeers | hbind | henabled | hallow | hloop)
    · exact hchecked (.inl hpeers)
    · exact hchecked (.inr hbind)
    · exact htls henabled
    · exact .inr (.inl hallow)
    · exact .inr (.inr (by rw [haddr]; exact hloop))

/-! ## Gossip over a wide area -/

/-- **Wide-area gossip is encrypted.** If `main` passes its checks with the
`wan` profile and without the flag that allows it otherwise, the memberlist has
been created with a key, of a length AES has, whatever the configured text is. -/
theorem wan_gossip_encrypted {cfg : Config} {flags : Flags} {server : Option (SyncServer κ)}
    (h : startUp H cfg flags = .ok server) (hbind : 0 < (cfg.override flags).bind)
    (hwan : clusterProfile (cfg.override flags).profile = "wan")
    (hallow : flags.allowInsecureGossip = false) :
    ∃ advertised cluster k,
      advertisedAddr H (cfg.override flags).syncAddr (H.runnerIP (cfg.override flags)) =
        some advertised ∧
      newCluster H (cfg.override flags) advertised = .ok cluster ∧
      H.createMemberlist cluster.config = .ok () ∧ cluster.config.defaults = .wan ∧
      cluster.config.secretKey = some k ∧ Gossip.validSecretKeyLen k.length = true := by
  have hp := passed_of_startUp H h
  obtain ⟨advertised, hadv, hcluster⟩ := hp.announced
  obtain ⟨cluster, hcluster⟩ := hcluster hbind
  have hspec := Gossip.newCluster_ok hcluster
  refine ⟨advertised, cluster, ?_⟩
  cases hkey : cluster.config.secretKey with
  | none =>
    have hblank := hspec.blank hkey
    exact absurd hblank (hp.keyed hbind hwan hallow)
  | some k =>
    refine ⟨k, hadv, hcluster, hspec.created, ?_, rfl, hspec.valid hkey⟩
    rw [hspec.defaults, hwan]
    rfl

end Start

/-! ## Three starts -/

/-- A host without names or certificates, on which everything can be opened. -/
def plainHost : Host Unit where
  splitHostPort addr :=
    match addr.toList.splitOn ':' with
    | [host, port] => some (String.ofList host, String.ofList port)
    | _ => none
  joinHostPort host port := host ++ ":" ++ port
  parseIP host :=
    if host = "127.0.0.1" then some [127, 0, 0, 1]
    else if host = "0.0.0.0" then some [0, 0, 0, 0]
    else none
  lookupIP _ := none
  isLoopback ip := decide (ip.head? = some 127)
  runnerIP _ := "127.0.0.1"
  clientCredentials _ := none
  serverCredentials _ := none
  openStore _ _ := true
  metaCodec := .ofEnv .escaping
  createMemberlist _ := .ok ()
  listen _ := true

/-- The default configuration serves plaintext on loopback. -/
theorem default_config_safe :
    startUp plainHost .default {} = .ok (some ⟨"127.0.0.1:8100", none⟩) ∧
      Safe plainHost (Config.default.override {}) {} ⟨"127.0.0.1:8100", none⟩ := by
  have hstart : startUp plainHost .default {} = .ok (some ⟨"127.0.0.1:8100", none⟩) := by
    decide +kernel
  have hbind : 0 < (Config.default.override {}).bind := by decide
  exact ⟨hstart, (plaintext_iff plainHost .default {} hstart).mpr (.inr (.inl hbind))⟩

/-- `--cluster-profile WAN`, and a passphrase of 16 bytes. -/
def wanFlags : Flags := { clusterProfile := some " WAN", gossipKey := some "sixteen bytes ok" }

theorem wan_passphrase_encrypted : (startUp plainHost .default wanFlags).toBool = true ∧
    ∃ advertised cluster k,
      newCluster plainHost (Config.default.override wanFlags) advertised = .ok cluster ∧
        cluster.config.secretKey = some k ∧ Gossip.validSecretKeyLen k.length = true := by
  have hok : (startUp plainHost .default wanFlags).toBool = true := by decide +kernel
  obtain ⟨server, hstart⟩ := Except.toBool_eq_true.mp hok
  obtain ⟨advertised, cluster, k, -, hcluster, -, -, hkey⟩ :=
    wan_gossip_encrypted plainHost hstart (by decide) (by decide +kernel) rfl
  exact ⟨hok, advertised, cluster, k, hcluster, hkey⟩

/-- `--sync-addr 0.0.0.0:8100 --bind 0`. -/
def exposedFlags : Flags := { syncAddr := some "0.0.0.0:8100", bind := some 0 }

/-- A node without peers or gossip serves plaintext on every interface. -/
theorem standalone_serves_plaintext :
    startUp plainHost .default exposedFlags = .ok (some ⟨"0.0.0.0:8100", none⟩) ∧
      addrExposed plainHost "0.0.0.0:8100" = true ∧
      ¬Safe plainHost (Config.default.override exposedFlags) exposedFlags
        ⟨"0.0.0.0:8100", none⟩ := by
  refine ⟨by decide +kernel, by decide +kernel, ?_⟩
  rintro (⟨creds, hcreds, -⟩ | hallow | ⟨host, port, hsplit, hloop⟩)
  · cases hcreds
  · cases hallow
  · have hhost : plainHost.splitHostPort "0.0.0.0:8100" = some ("0.0.0.0", "8100") := by
      decide +kernel
    have htrim : trimSpace "0.0.0.0" = "0.0.0.0" := by decide +kernel
    have hparse : plainHost.parseIP "0.0.0.0" = some [0, 0, 0, 0] := by decide +kernel
    rw [hhost] at hsplit
    cases hsplit
    rw [htrim] at hloop
    rcases hloop with hlocal | ⟨ip, hip, hloop⟩ | ⟨hnone, -⟩
    · exact absurd hlocal (by decide)
    · rw [hparse] at hip
      cases hip
      exact absurd hloop (by decide)
    · rw [hparse] at hnone
      cases hnone

end Daemon

end Takl
