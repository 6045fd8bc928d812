import Mathlib.Data.List.Sort
import Takl.Store.Row

/-!
# The store (`internal/engine/store/store.go`)

The three tables and the operations on them, statement by statement. A
transaction that fails rolls back, so a fallible operation returns
`Except DbError Store` and its caller keeps the old store on an error.

What the schema and the code keep true of the tables is carried by their
types: primary keys by `KeyedTable`, `payload BLOB NOT NULL` by
`Store.payload_notNull`, and the fact that a stored watermark is never below
`HLC{}` (both writers take a maximum that starts there) by `Stamp`.

The only statement failures are constraint violations: a NULL payload, and
an event inserted under a taken primary key.
-/

namespace Takl

/-! ## Tables -/

/-- A row of `events_v2`; the payload column is JSON text. -/
structure EventRow where
  runnerID : String
  seq : Int64
  type : EventType
  payload : String
  hlc : HLC
  deriving DecidableEq, Repr

/-- The primary key of `events_v2`. -/
def EventRow.id (e : EventRow) : String × Int64 := (e.runnerID, e.seq)

/-- A watermark value. -/
abbrev Stamp := {h : HLC // HLC.zero ≤ h}

/-- `model.HLC{}` as a watermark. -/
def Stamp.zero : Stamp := ⟨HLC.zero, le_rfl⟩

/-- A row of `watermarks`. -/
structure Watermark where
  peer : String
  kind : Kind
  hlc : Stamp
  deriving DecidableEq

/-- The primary key of `watermarks`. -/
def Watermark.id (w : Watermark) : String × Kind := (w.peer, w.kind)

/-- `store.Store`. -/
structure Store where
  rows : RowTable
  events : KeyedTable EventRow.id
  watermarks : KeyedTable Watermark.id
  payload_notNull : ∀ r ∈ rows, r.payload ≠ none

/-- A violated constraint. -/
inductive DbError where
  | notNull
  | primaryKey
  deriving DecidableEq, Repr

namespace Store

/-- `Open` on a path that holds no database yet. -/
def fresh : Store where
  rows := .empty
  events := .empty
  watermarks := .empty
  payload_notNull := fun r hr => absurd hr (KeyedTable.not_mem_empty r)

/-! ## Rows -/

/-- `scanRow`: what the driver hands back for a stored row. -/
def scanRow (E : Env) (r : Row) : Row :=
  { r with payload := if r.payload = some [] ∧ E.emptyBlobNil then none else r.payload }

/-- `Store.Get`. -/
def get (E : Env) (st : Store) (kind : Kind) (key : String) : Option Row :=
  (st.rows.get (kind, key)).map (scanRow E)

/-- `Store.upsert`: `upsertRowSQL`, refused when the payload binds as NULL. -/
def upsert (st : Store) (r : Row) : Except DbError Store :=
  if h : r.payload = none then .error .notNull
  else .ok
    { st with
      rows := st.rows.upsert r
      payload_notNull := by
        intro x hx
        rcases KeyedTable.mem_upsert.mp hx with rfl | ⟨hx, _⟩
        · exact h
        · exact st.payload_notNull x hx }

/-- `Store.Put`. -/
def put (st : Store) (r : Row) : Except DbError Store := st.upsert r

/-- `Store.Apply`. -/
def apply (E : Env) (st : Store) (r : Row) : Except DbError Store :=
  match st.get E r.kind r.key with
  | some cur => if newer r cur then st.upsert r else .ok st
  | none => st.upsert r

/-- `Store.ChangesSince`. -/
def changesSince (E : Env) (st : Store) (kind : Kind) (wm : HLC) : List Row :=
  ((st.rows.rows.filter fun r => decide (r.kind = kind) && r.hlc.beyond wm).insertionSort
    fun a b => a.hlc ≤ b.hlc).map (scanRow E)

/-- The payload `Store.Delete` keeps: the current row's, else an empty one. -/
def deletePayload (E : Env) (st : Store) (kind : Kind) (key : String) : Option Bytes :=
  match st.get E kind key with
  | some cur => cur.payload
  | none => some []

/-- The tombstone `Store.Delete` writes over a payload it has read. -/
def tombstoneRow (kind : Kind) (key owner : String) (hlc : HLC) (payload : Option Bytes) : Row :=
  { kind, key, owner, hlc, tombstone := true, payload }

/-- `Store.Delete`. -/
def delete (E : Env) (st : Store) (kind : Kind) (key owner : String) (hlc : HLC) :
    Except DbError Store :=
  st.upsert (tombstoneRow kind key owner hlc (st.deletePayload E kind key))

/-- Equality of the ASCII letters up to case, of everything else exactly. -/
def asciiFold (c : Char) : Char := c.toLower

/-- SQLite's `text LIKE pattern`: `%` matches any run of characters, `_` any
one, and a letter its other case too. -/
def like : List Char → List Char → Bool
  | [], cs => cs.isEmpty
  | p :: ps, cs =>
      if p = '%' then cs.tails.any (like ps)
      else match cs with
        | [] => false
        | c :: cs => (p = '_' || asciiFold p = asciiFold c) && like ps cs

/-- The rows `Store.DeleteByNode` touches. -/
def ownedBy (nodeID : String) (r : Row) : Bool :=
  like (nodeID ++ "/%").toList r.owner.toList && !r.tombstone

/-- What `Store.DeleteByNode` makes of them. The owner stays. -/
def entomb (hlc : HLC) (r : Row) : Row := { r with tombstone := true, hlc }

@[simp] theorem entomb_id (hlc : HLC) (r : Row) : (entomb hlc r).id = r.id := rfl

/-- `Store.DeleteByNode`. -/
def deleteByNode (st : Store) (nodeID : String) (hlc : HLC) : Store :=
  { st with
    rows := st.rows.updateWhere (ownedBy nodeID) (entomb hlc) (entomb_id hlc)
    payload_notNull := by
      intro r hr
      rcases (KeyedTable.mem_updateWhere (entomb_id hlc)).mp hr with ⟨x, hx, _, rfl⟩ | ⟨hr, _⟩
      · exact st.payload_notNull x hx
      · exact st.payload_notNull r hr }

theorem mem_deleteByNode {st : Store} {nodeID : String} {hlc : HLC} {r : Row} :
    r ∈ (st.deleteByNode nodeID hlc).rows ↔
      (∃ x ∈ st.rows, ownedBy nodeID x = true ∧ r = entomb hlc x) ∨
        (r ∈ st.rows ∧ ownedBy nodeID r = false) :=
  KeyedTable.mem_updateWhere (entomb_id hlc)

/-- The rows `Store.GCTombstones` removes. -/
def collectable (minHLC : HLC) (r : Row) : Bool :=
  r.tombstone && (decide (r.hlc.ts < minHLC.ts) ||
    (decide (r.hlc.ts = minHLC.ts) && decide (r.hlc.seq < minHLC.seq)))

/-- `Store.GCTombstones`. -/
def gcTombstones (st : Store) (minHLC : HLC) : Store :=
  { st with
    rows := st.rows.deleteWhere (collectable minHLC)
    payload_notNull := fun r hr => st.payload_notNull r (KeyedTable.mem_deleteWhere.mp hr).1 }

theorem mem_gcTombstones {st : Store} {minHLC : HLC} {r : Row} :
    r ∈ (st.gcTombstones minHLC).rows ↔ r ∈ st.rows ∧ collectable minHLC r = false :=
  KeyedTable.mem_deleteWhere

/-! ## Checksums -/

/-- The inlined FNV-1a hash of a key's bytes. -/
def kHash (key : String) : UInt64 :=
  key.toUTF8.data.toList.foldl (fun h b => (h ^^^ b.toUInt64) * 1099511628211)
    14695981039346656037

/-- What one live row contributes to the checksum of its kind. -/
def contribution (key : String) (hlc : HLC) : UInt64 :=
  kHash key ^^^ hlc.ts.toUInt64 ^^^ hlc.seq.toUInt64

/-- The live rows of a kind, in scan order. -/
def liveRows (t : RowTable) (kind : Kind) : List Row :=
  t.rows.filter fun r => decide (r.kind = kind) && !r.tombstone

/-- The query and the loop of `Store.Checksum`. -/
def checksumRows (t : RowTable) (kind : Kind) : UInt64 :=
  (liveRows t kind).foldl (fun hash r => hash ^^^ contribution r.key r.hlc) 0

/-- `Store.Checksum`. -/
def checksum (st : Store) (kind : Kind) : UInt64 := checksumRows st.rows kind

/-- `Store.ChecksumEvents`. -/
def checksumEvents (st : Store) : UInt64 :=
  st.events.rows.foldl
    (fun hash e => hash ^^^ contribution (e.runnerID ++ "/" ++ toString e.seq.toInt) e.hlc) 0

/-! ## Watermarks -/

/-- `Store.Watermark`. -/
def watermark (st : Store) (peer : String) (kind : Kind) : Stamp :=
  match st.watermarks.get (peer, kind) with
  | some w => w.hlc
  | none => .zero

/-- The upsert into `watermarks`. -/
def putWatermark (st : Store) (peer : String) (kind : Kind) (hlc : Stamp) : Store :=
  { st with watermarks := st.watermarks.upsert ⟨peer, kind, hlc⟩ }

/-- `Store.SetWatermark`. -/
def setWatermark (st : Store) (peer : String) (kind : Kind) (hlc : HLC) : Store :=
  if h : hlc.after (st.watermark peer kind) then
    st.putWatermark peer kind
      ⟨hlc, (st.watermark peer kind).property.trans (HLC.after_iff.mp h).le⟩
  else st

/-! ## `ApplyRemote` -/

/-- `maxHLC`. -/
def maxHLC (a b : HLC) : HLC := if b.after a then b else a

theorem maxHLC_eq_max (a b : HLC) : maxHLC a b = max a b := by
  unfold maxHLC
  split
  · next h => exact (max_eq_right (HLC.after_iff.mp h).le).symm
  · next h => exact (max_eq_left (not_lt.mp fun hlt => h (HLC.after_iff.mpr hlt))).symm

/-- `if h.After(m) { m = h }` over a list. -/
def latest (m : HLC) (hs : List HLC) : HLC := hs.foldl maxHLC m

/-- `maxByKind`: a missing kind reads as `HLC{}`. -/
abbrev MaxByKind := KeyedTable (Prod.fst : Kind × Stamp → Kind)

/-- `maxByKind[kind]`. -/
def MaxByKind.read (m : MaxByKind) (kind : Kind) : Stamp :=
  match m.get kind with
  | some e => e.2
  | none => .zero

/-- `maxByKind[r.Kind] = maxHLC(maxByKind[r.Kind], r.HLC)`. -/
def MaxByKind.bump (m : MaxByKind) (r : Row) : MaxByKind :=
  m.upsert (r.kind, ⟨maxHLC (m.read r.kind) r.hlc, by
    rw [maxHLC_eq_max]
    exact (m.read r.kind).property.trans (le_max_left _ _)⟩)

/-- One iteration of the row loop, inside the transaction. -/
def applyRow (tx : Store × MaxByKind) (r : Row) : Except DbError (Store × MaxByKind) :=
  match tx.1.rows.get (r.kind, r.key) with
  | some cur =>
      if newer r cur then (tx.1.upsert r).map fun s => (s, tx.2.bump r)
      else .ok (tx.1, tx.2.bump r)
  | none => (tx.1.upsert r).map fun s => (s, tx.2.bump r)

/-- One iteration of the watermark loop. -/
def raiseWatermark (peer : String) (st : Store) (e : Kind × Stamp) : Store :=
  match st.watermarks.get (peer, e.1) with
  | some w => if e.2.val.after w.hlc then st.putWatermark peer e.1 e.2 else st
  | none => st.putWatermark peer e.1 e.2

/-- `Store.ApplyRemote`. -/
def applyRemote (st : Store) (peer : String) (rows : List Row) : Except DbError Store :=
  if rows.isEmpty then .ok st
  else (rows.foldlM applyRow (st, .empty)).map fun tx =>
    tx.2.rows.foldl (raiseWatermark peer) tx.1

/-! ## Events -/

/-- `SELECT COALESCE(MAX(seq), 0) FROM events_v2 WHERE runner_id = ?`. -/
def maxSeq (st : Store) (runnerID : String) : Int64 :=
  match (st.events.rows.filter fun e => decide (e.runnerID = runnerID)).map EventRow.seq with
  | [] => 0
  | s :: ss => ss.foldl (fun m s => if m < s then s else m) s

/-- `Store.AppendEvent`. -/
def appendEvent (E : Env) (st : Store) (e : Event) : Except DbError Store :=
  let seq := st.maxSeq e.runnerID + 1
  match st.events.get (e.runnerID, seq) with
  | some _ => .error .primaryKey
  | none => .ok
      { st with
        events := st.events.upsert
          { runnerID := e.runnerID, seq, type := e.type, payload := E.encodePayload e.payload,
            hlc := e.hlc } }

/-- The `json.Unmarshal` of a stored event payload; an empty text leaves the
map nil. -/
def scanPayload (E : Env) (text : String) : Option EventPayload :=
  if text = "" then some none else E.decodePayload text

/-- `Store.EventsSince`; `none` when a payload does not unmarshal. -/
def eventsSince (E : Env) (st : Store) (wm : HLC) : Option (List Event) :=
  ((st.events.rows.filter fun e => e.hlc.beyond wm).insertionSort fun a b => a.hlc ≤ b.hlc).mapM
    fun e => (scanPayload E e.payload).map fun payload =>
      { seq := e.seq, type := e.type, runnerID := e.runnerID, payload, hlc := e.hlc }

/-- One `INSERT … ON CONFLICT(runner_id, seq) DO NOTHING`. -/
def insertEvent (E : Env) (st : Store) (e : Event) : Store :=
  match st.events.get (e.runnerID, e.seq) with
  | some _ => st
  | none =>
      { st with
        events := st.events.upsert
          { runnerID := e.runnerID, seq := e.seq, type := e.type,
            payload := E.encodePayload e.payload, hlc := e.hlc } }

/-- `Store.ApplyEvents`. -/
def applyEvents (E : Env) (st : Store) (events : List Event) : Store :=
  events.foldl (insertEvent E) st

end Store

end Takl
