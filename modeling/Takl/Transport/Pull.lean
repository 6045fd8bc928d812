import Takl.Store.Merge

/-!
# The pull protocol (`internal/transport`, `internal/transport/pb`)

The messages as the generated code has them — a submessage is a pointer, so
an `Option` — the one effect the proto3 wire has on them, and `Server.pull`.

A stored row crosses four representations before the puller merges it:
scanned from SQLite, copied into a `pb.Row`, sent, rebuilt as a `store.Row`.
`delivered` is the composition, and `mem_delivered` says which rows arrive:
those above the floor the server picked for their kind, which is the
puller's watermark, or `HLC{}` when the server resends everything.
-/

namespace Takl

/-! ## Messages -/

/-- `pb.Row`. -/
structure PbRow where
  kind : String
  key : String
  owner : String
  hlc : Option HLC
  tombstone : Bool
  payload : Option Bytes
  deriving DecidableEq

/-- `pb.Event`. -/
structure PbEvent where
  runnerId : String
  seq : Int64
  type : String
  payload : String
  hlc : Option HLC
  deriving DecidableEq

/-- `pb.PullRequest`; the maps are keyed by kind. -/
structure PullRequest where
  watermarks : List (String × HLC)
  checksums : List (String × UInt64)
  eventWatermark : Option HLC
  eventChecksum : UInt64

/-- `pb.PullResponse`. -/
structure PullResponse where
  nodeId : String
  rows : List PbRow
  checksums : List (String × UInt64)
  events : List PbEvent
  eventChecksum : UInt64

/-- A proto3 `bytes` field is sent only when non-empty, and a field that was
not sent decodes to a nil slice. -/
def PbRow.wire (r : PbRow) : PbRow :=
  { r with payload := if r.payload = some [] then none else r.payload }

/-- What the client decodes of a response. -/
def PullResponse.wire (resp : PullResponse) : PullResponse :=
  { resp with rows := resp.rows.map PbRow.wire }

/-- The `pb.Row` `Server.Pull` makes of a row. -/
def Row.toPb (r : Row) : PbRow :=
  { kind := r.kind.name, key := r.key, owner := r.owner, hlc := some r.hlc,
    tombstone := r.tombstone, payload := r.payload }

/-- The `store.Row` `Engine.RoundOnce` makes of a `pb.Row`; `GetTs` and
`GetSeq` of an absent submessage are zero. -/
def PbRow.toRow (r : PbRow) : Row :=
  { kind := ⟨r.kind⟩, key := r.key, owner := r.owner, hlc := r.hlc.getD HLC.zero,
    tombstone := r.tombstone, payload := r.payload }

/-- The rows `Engine.RoundOnce` hands to `ApplyRemote`. -/
def PullResponse.toRows (resp : PullResponse) : List Row := resp.rows.map PbRow.toRow

/-- The `pb.Event` `Server.Pull` makes of an event. -/
def Event.toPb (E : Env) (e : Event) : PbEvent :=
  { runnerId := e.runnerID, seq := e.seq, type := e.type.name,
    payload := E.encodePayload e.payload, hlc := some e.hlc }

/-! ## The server -/

/-- `transport.Server`. -/
structure Server where
  nodeID : String
  store : Store

namespace Server

/-- The watermark the request carries for a kind. -/
def requestedWatermark (req : PullRequest) (kind : Kind) : HLC :=
  (req.watermarks.lookup kind.name).getD HLC.zero

/-- One iteration of the kind loop of `Server.Pull`: the rows it appends. -/
def pullKind (E : Env) (s : Server) (req : PullRequest) (kind : Kind) : List Row :=
  let wm := requestedWatermark req kind
  let chk := s.store.checksum kind
  let reqChk := (req.checksums.lookup kind.name).getD 0
  let rows := s.store.changesSince E kind wm
  if rows.isEmpty ∧ reqChk ≠ 0 ∧ reqChk ≠ chk then s.store.changesSince E kind HLC.zero
  else rows

/-- The events part of `Server.Pull`; `none` when `EventsSince` fails. -/
def pullEvents (E : Env) (s : Server) (req : PullRequest) : Option (List Event) :=
  match s.store.eventsSince E (req.eventWatermark.getD HLC.zero) with
  | some [] =>
      if req.eventChecksum ≠ 0 ∧ req.eventChecksum ≠ s.store.checksumEvents then
        s.store.eventsSince E HLC.zero
      else some []
  | evs => evs

/-- `Server.Pull`. -/
def pull (E : Env) (s : Server) (req : PullRequest) : Option PullResponse :=
  (s.pullEvents E req).map fun evs =>
    { nodeId := s.nodeID
      rows := kinds.flatMap fun kind => (s.pullKind E req kind).map Row.toPb
      checksums := kinds.map fun kind => (kind.name, s.store.checksum kind)
      events := evs.map (Event.toPb E)
      eventChecksum := s.store.checksumEvents }

end Server

/-! ## What arrives -/

/-- A stored row as the puller rebuilds it: an empty payload has become nil. -/
def Row.delivered (r : Row) : Row :=
  { r with payload := if r.payload = some [] then none else r.payload }

namespace Row

@[simp] theorem delivered_id (r : Row) : r.delivered.id = r.id := rfl

/-- A row that still has its payload arrived unchanged. -/
theorem delivered_eq {r : Row} (h : r.delivered.payload ≠ none) : r.delivered = r := by
  have hne : r.payload ≠ some [] := fun hc => h (if_pos hc)
  simp [delivered, hne]

/-- The four representations composed. Whether the driver had already turned
the empty blob into nil makes no difference. -/
theorem toRow_wire_toPb_scanRow (E : Env) (r : Row) :
    (Store.scanRow E r).toPb.wire.toRow = r.delivered := by
  unfold Store.scanRow delivered
  by_cases h : r.payload = some []
  · cases hb : E.emptyBlobNil <;> simp [toPb, PbRow.wire, PbRow.toRow, h]
  · simp [toPb, PbRow.wire, PbRow.toRow, h]

end Row

namespace Store

theorem mem_changesSince {E : Env} {st : Store} {kind : Kind} {wm : HLC} {r : Row} :
    r ∈ st.changesSince E kind wm ↔
      ∃ x ∈ st.rows, x.kind = kind ∧ wm < x.hlc ∧ scanRow E x = r := by
  simp only [changesSince, List.mem_map, List.mem_insertionSort, List.mem_filter,
    Bool.and_eq_true, decide_eq_true_iff, HLC.beyond_iff, and_assoc, KeyedTable.mem_def]

/-- Nothing of the kind lies above the watermark. -/
theorem changesSince_isEmpty {E : Env} {st : Store} {kind : Kind} {wm : HLC} :
    (st.changesSince E kind wm).isEmpty ↔ ∀ x ∈ st.rows, x.kind = kind → x.hlc ≤ wm := by
  rw [List.isEmpty_iff, List.eq_nil_iff_forall_not_mem]
  constructor
  · intro h x hx hk
    exact not_lt.mp fun hlt => h _ (mem_changesSince.mpr ⟨x, hx, hk, hlt, rfl⟩)
  · intro h r hr
    obtain ⟨x, hx, hk, hlt, -⟩ := mem_changesSince.mp hr
    exact not_lt.mpr (h x hx hk) hlt

end Store

namespace Server

/-- The guard of the full resend of a kind. -/
def Resends (s : Server) (req : PullRequest) (kind : Kind) : Prop :=
  (∀ x ∈ s.store.rows, x.kind = kind → x.hlc ≤ requestedWatermark req kind) ∧
    (req.checksums.lookup kind.name).getD 0 ≠ 0 ∧
    (req.checksums.lookup kind.name).getD 0 ≠ s.store.checksum kind

instance (s : Server) (req : PullRequest) (kind : Kind) : Decidable (s.Resends req kind) :=
  inferInstanceAs (Decidable ((∀ x ∈ s.store.rows.rows, x.kind = kind →
    x.hlc ≤ requestedWatermark req kind) ∧ _ ∧ _))

/-- What the rows sent of a kind lie above. -/
def floor (s : Server) (req : PullRequest) (kind : Kind) : HLC :=
  if s.Resends req kind then HLC.zero else requestedWatermark req kind

theorem pullKind_eq (E : Env) (s : Server) (req : PullRequest) (kind : Kind) :
    s.pullKind E req kind = s.store.changesSince E kind (s.floor req kind) := by
  simp only [pullKind, Store.changesSince_isEmpty, floor]
  by_cases h : s.Resends req kind
  · rw [if_pos (show _ ∧ _ ∧ _ from h), if_pos h]
  · rw [if_neg (show ¬(_ ∧ _ ∧ _) from h), if_neg h]

/-- **What a pull delivers**: of each kind, the rows above the floor. -/
theorem mem_delivered {E : Env} {s : Server} {req : PullRequest} {resp : PullResponse}
    (h : s.pull E req = some resp) {r : Row} :
    r ∈ resp.wire.toRows ↔
      ∃ x ∈ s.store.rows, x.kind ∈ kinds ∧ s.floor req x.kind < x.hlc ∧ x.delivered = r := by
  obtain ⟨evs, -, rfl⟩ := Option.map_eq_some_iff.mp h
  simp only [PullResponse.toRows, PullResponse.wire, List.map_flatMap, List.mem_flatMap,
    List.mem_map, pullKind_eq, Function.comp_apply, List.map_map, Store.mem_changesSince]
  constructor
  · rintro ⟨kind, hkind, y, ⟨x, hx, rfl, hlt, rfl⟩, rfl⟩
    exact ⟨x, hx, hkind, hlt, (Row.toRow_wire_toPb_scanRow E x).symm⟩
  · rintro ⟨x, hx, hkind, hlt, rfl⟩
    exact ⟨x.kind, hkind, _, ⟨x, hx, rfl, hlt, rfl⟩, Row.toRow_wire_toPb_scanRow E x⟩

/-- A row above the watermark asked for is above the floor, which is that
watermark or `HLC{}`. -/
theorem delivered_mem {E : Env} {s : Server} {req : PullRequest} {resp : PullResponse}
    (h : s.pull E req = some resp) {r : Row} (hr : r ∈ s.store.rows) (hk : r.kind ∈ kinds)
    (hzero : HLC.zero ≤ requestedWatermark req r.kind)
    (hlt : requestedWatermark req r.kind < r.hlc) : r.delivered ∈ resp.wire.toRows := by
  refine (mem_delivered h).mpr ⟨r, hr, hk, ?_, rfl⟩
  unfold floor
  split
  · exact hzero.trans_lt hlt
  · exact hlt

end Server

end Takl
